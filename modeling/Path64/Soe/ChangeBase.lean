import Path64.Soe.TakeGcds

/-! # Moving a variable out of the base

`Change_Base` takes the equality with the smallest coefficient of a
variable as the pivot and combines it with every other row that has
the variable. The combined coefficients are formed in 64-bit scratch
and narrowed row by row. -/

namespace Soe

open Function LinearRow Loop

/-! ## Model -/

/-- The search for the pivot row. -/
def basePivot (sys : System) (pc : Nat) : Option Nat :=
  forEach (fun i best =>
    if sys.aeq i pc ≠ 0 then
      match best with
      | none => some i
      | some p =>
        if abs32 .machine (sys.aeq i pc) < abs32 .machine (sys.aeq p pc) then some i else some p
    else best) sys.eqnsEq 0 none

/-- Column `k` of `m * row + s * row[pc] * pivot`; the second product is formed in 32 bits. -/
def baseWork (m s a u v : Int) : Int :=
  Arith.machine.i64 (Arith.machine.i64 (m * u) + s * Arith.machine.i32 (a * v))

/-- The right-hand side, in 64 bits. -/
def baseConst (m s a u v : Int) : Int :=
  Arith.machine.i64 (Arith.machine.i64 (m * u) + s * Arith.machine.i64 (a * v))

/-- The loop that stores the columns: `abs(work[k] <= INT32_MAX)` turns only large ones away. -/
def storeColumns (vars : Nat) (work : Nat → Int) (row : Nat → Int) (g : Int) :
    Except (Nat → Int) ((Nat → Int) × Int) :=
  forFrom (fun k s =>
    if work k ≤ int32Max then
      .ok (update s.1 k (Arith.machine.i32 (work k)),
        Arith.machine.i32 (gcd32 .machine s.2 (abs64 .machine (work k))))
    else .error s.1) vars 0 (row, g)

/-- How a row is combined with the pivot row: `m * row + s * row[pc] * pivot`, which has no
variable `pc`. -/
structure Combination where
  m : Int
  s : Int
  pc : Nat
  pivot : (Nat → Int) × Int
  row : (Nat → Int) × Int
  mFits : |m| ≤ 2147483648
  sign : s = 1 ∨ s = -1
  rowFits : ∀ k, Fits32 (row.1 k)
  cancels : m + s * pivot.1 pc = 0

theorem abs_neg_le_of_fits {z : Int} (h : Fits32 z) : |-z| ≤ 2147483648 := by
  rw [abs_neg]
  exact fits32_abs_le h

/-- The factors of equality `i`. -/
def eqComb (sys : System) (pc pr i : Nat) : Combination where
  m := -sys.aeq pr pc
  s := 1
  pc := pc
  pivot := sys.eqRow pr
  row := sys.eqRow i
  mFits := abs_neg_le_of_fits (sys.aeqFits pr pc)
  sign := .inl rfl
  rowFits := sys.aeqFits i
  cancels := (congrArg _ (one_mul _)).trans (neg_add_cancel _)

/-- The factors of inequality `i`; the first is positive, so the sense of the inequality stays. -/
def leComb (sys : System) (pc pr i : Nat) : Combination where
  m := if sys.aeq pr pc < 0 then -sys.aeq pr pc else sys.aeq pr pc
  s := if sys.aeq pr pc < 0 then 1 else -1
  pc := pc
  pivot := sys.eqRow pr
  row := sys.leRow i
  mFits := by
    split
    · exact abs_neg_le_of_fits (sys.aeqFits pr pc)
    · exact fits32_abs_le (sys.aeqFits pr pc)
  sign := by
    split
    · exact .inl rfl
    · exact .inr rfl
  rowFits := sys.aleFits i
  cancels := by
    show _ + _ * sys.aeq pr pc = 0
    split <;> ring

/-- One row; `code` is the exit after the constant, which `abs` never takes. -/
def baseRow (code : Int) (vars : Nat) (q : Combination) :
    Except (Int × ((Nat → Int) × Int)) ((Nat → Int) × Int) :=
  let a := q.row.1 q.pc
  let c := baseConst q.m q.s a q.row.2 q.pivot.2
  if abs64 .machine c > int32Max then .error (code, (q.row.1, c))
  else
    match storeColumns vars (fun k => baseWork q.m q.s a (q.row.1 k) (q.pivot.1 k)) q.row.1
        (Arith.machine.i32 (abs64 .machine c)) with
    | .error row => .error (-1, (row, c))
    | .ok (row, g) =>
      if g > 1 then .ok (fun k => if k < vars then (row k).tdiv g else row k, c.tdiv g)
      else .ok (row, c)

/-- Equality `i`. -/
def baseEq (pr pc i : Nat) (sys : System) : Except (Int × System) System :=
  if i ≠ pr ∧ sys.aeq i pc ≠ 0 then
    match baseRow (-1) sys.vars (eqComb sys pc pr i) with
    | .error (code, row) => .error (code, sys.storeEq i row)
    | .ok row => .ok (sys.storeEq i row)
  else .ok sys

/-- Inequality `i`; the early exit returns FALSE. -/
def baseLe (pr pc i : Nat) (sys : System) : Except (Int × System) System :=
  if sys.ale i pc ≠ 0 then
    match baseRow 0 sys.vars (leComb sys pc pr i) with
    | .error (code, row) => .error (code, sys.storeLe i row)
    | .ok row => .ok (sys.storeLe i row)
  else .ok sys

/-- `Change_Base`: its result and the system. -/
def changeBase (sys : System) (dim pos : Nat) : Int × System :=
  match basePivot sys (dim + pos) with
  | none => (-1, sys)
  | some pr =>
    match forFrom (baseEq pr (dim + pos)) sys.eqnsEq 0 sys with
    | .error res => res
    | .ok s =>
      match forFrom (baseLe pr (dim + pos)) s.eqnsLe 0 s with
      | .error res => res
      | .ok s' => (pr, s')

/-! ## One row -/

namespace Combination

/-- The combination in unbounded integers. -/
def exact (q : Combination) : (Nat → Int) × Int :=
  (fun k => q.m * q.row.1 k + q.s * (q.row.1 q.pc * q.pivot.1 k),
    q.m * q.row.2 + q.s * (q.row.1 q.pc * q.pivot.2))

/-- Column `k` as it is compared with `INT32_MAX`: the second product is cut to 32 bits. -/
def tested (q : Combination) (k : Nat) : Int :=
  q.m * q.row.1 k + q.s * Arith.machine.i32 (q.row.1 q.pc * q.pivot.1 k)

/-- No column is turned away, and the combination is in range. -/
structure Fits (vars : Nat) (q : Combination) : Prop where
  tested : ∀ k < vars, q.tested k ≤ int32Max
  coefs : ∀ k < vars, |q.exact.1 k| ≤ int32Max
  const : Fits64 q.exact.2

/-- What divides the coefficients and the low 32 bits of the constant, which is all that `Gcd` sees
of it, divides the constant. -/
def GcdDivides (vars : Nat) (q : Combination) : Prop :=
  ∀ g : Int, g ∣ Arith.machine.i32 q.exact.2 → (∀ k < vars, g ∣ q.exact.1 k) → g ∣ q.exact.2

/-- A column is turned away before anything of the row has changed. -/
def Stops (vars : Nat) (q : Combination) : Prop :=
  Arith.machine.i64 q.exact.2 = q.row.2 ∧ ∃ k < vars, int32Max < q.tested k ∧
    ∀ j < k, q.tested j ≤ int32Max ∧ Arith.machine.i32 (q.exact.1 j) = q.row.1 j

/-- A constant that `abs` does not change asks for nothing else. -/
theorem GcdDivides.of_small {vars : Nat} {q : Combination} (hconst : |q.exact.2| ≤ int32Max) :
    q.GcdDivides vars := by
  intro g hg _
  rwa [machine_i32 (fits32_of_abs hconst)] at hg

end Combination

variable {a u v : Int} {x : Nat → Int} {sys : System} {pr pc vars : Nat} {q : Combination}

/-! ## The gcd of a row -/

theorem gcdLoop_dvd (fuel : Nat) : ∀ i j : Int, i ≠ 0 → i.natAbs ≤ fuel →
    gcdLoop fuel i j ≠ 0 ∧ gcdLoop fuel i j ∣ i ∧ gcdLoop fuel i j ∣ j := by
  induction fuel with
  | zero => intro i j hi hf; omega
  | succ fuel ih =>
    intro i j hi hf
    unfold gcdLoop
    split
    · next h0 => exact ⟨hi, dvd_refl i, Int.dvd_of_tmod_eq_zero h0⟩
    · next h0 =>
      have hlt : (j.tmod i).natAbs < i.natAbs := by
        rw [Int.natAbs_tmod]
        exact Nat.mod_lt _ (by omega)
      obtain ⟨hne, h1, h2⟩ := ih (j.tmod i) i h0 (by omega)
      refine ⟨hne, h2, ?_⟩
      exact (dvd_add h1 (Dvd.dvd.mul_right h2 _)).trans (dvd_of_eq (Int.tmod_add_mul_tdiv j i))

/-- `Gcd` of any `INT32`, also of `INT32_MIN`, whose absolute value is negative. -/
theorem gcd32_machine_dvd {b : Int} (ha : Fits32 a) (hb : 0 ≤ b ∧ b ≤ int32Max) :
    Fits32 (gcd32 .machine a b) ∧ gcd32 .machine a b ∣ a ∧ gcd32 .machine a b ∣ b := by
  obtain ⟨hb0, hb1⟩ := hb
  have habs : abs32 .machine b = b := if_neg (by omega)
  have hdvd : ∀ g, g ∣ abs32 .machine a → g ∣ a := fun g hg => by
    by_cases hmin : a = int32Min
    · rw [hmin] at hg ⊢
      exact hg
    · rwa [abs32_machine ha hmin, dvd_abs] at hg
  have hfits : Fits32 (abs32 .machine a) := by
    unfold abs32
    split
    · exact machine_i32_fits _
    · exact ha
  unfold gcd32
  rw [habs]
  dsimp only
  generalize abs32 .machine a = i at *
  -- a divisor of `b` other than 0 is in range
  have hrange : ∀ g, g ∣ b → b ≠ 0 → Fits32 g := by
    intro g hg h0
    have hle := Int.natAbs_le_of_dvd_ne_zero hg h0
    unfold int32Max at hb1
    exact ⟨by unfold int32Min; omega, by unfold int32Max; omega⟩
  split_ifs with hi hj hgt
  · refine ⟨⟨by unfold int32Min; omega, hb1⟩, hdvd b ?_, dvd_refl b⟩
    rw [hi]
    exact dvd_zero b
  · rw [hj]
    exact ⟨hfits, hdvd i (dvd_refl i), dvd_zero i⟩
  · obtain ⟨_, h1, h2⟩ := gcdLoop_dvd b.natAbs b i hj le_rfl
    exact ⟨hrange _ h1 hj, hdvd _ h2, h1⟩
  · obtain ⟨_, h1, h2⟩ := gcdLoop_dvd i.natAbs i b hi le_rfl
    exact ⟨hrange _ h2 hj, hdvd _ h1, h2⟩

/-! ## What becomes of a row -/

theorem baseWork_eq (k : Nat) :
    baseWork q.m q.s (q.row.1 q.pc) (q.row.1 k) (q.pivot.1 k) = q.tested k := by
  have hmu : |q.m * q.row.1 k| ≤ 2147483648 * 2147483648 := by
    rw [abs_mul]
    exact mul_le_mul q.mFits (fits32_abs_le (q.rowFits k)) (abs_nonneg _) (by decide)
  obtain ⟨h1, h2⟩ := abs_le.mp hmu
  have hprod := machine_i32_fits (q.row.1 q.pc * q.pivot.1 k)
  unfold baseWork Combination.tested
  unfold Fits32 int32Min int32Max at hprod
  rw [machine_i64 (z := q.m * q.row.1 k) ⟨by omega, by omega⟩]
  refine machine_i64 ?_
  rcases q.sign with h | h
  · rw [h]
    exact ⟨by omega, by omega⟩
  · rw [h]
    exact ⟨by omega, by omega⟩

theorem baseConst_eq : baseConst q.m q.s (q.row.1 q.pc) q.row.2 q.pivot.2
    = Arith.machine.i64 q.exact.2 := by
  show Int.bmod (Int.bmod _ _ + q.s * Int.bmod _ _) _ = Int.bmod (_ + q.s * _) _
  rcases q.sign with h | h
  · rw [h, one_mul, one_mul, Int.bmod_add_bmod, Int.add_bmod_bmod]
  · rw [h, neg_one_mul, neg_one_mul, ← sub_eq_add_neg, Int.sub_bmod_bmod, Int.bmod_sub_bmod,
      sub_eq_add_neg]

/-- Storing a column undoes the cut of the product. -/
theorem i32_tested (k : Nat) :
    Arith.machine.i32 (q.tested k) = Arith.machine.i32 (q.exact.1 k) := by
  show Int.bmod (_ + q.s * Int.bmod _ _) _ = Int.bmod (_ + q.s * _) _
  rcases q.sign with h | h
  · rw [h, one_mul, one_mul, Int.add_bmod_bmod]
  · rw [h, neg_one_mul, neg_one_mul, ← sub_eq_add_neg, Int.sub_bmod_bmod, sub_eq_add_neg]

/-- The columns before `n` stored, the others as they were. -/
def cutColumns (n : Nat) (work row : Nat → Int) : Nat → Int :=
  fun j => if j < n then Arith.machine.i32 (work j) else row j

theorem cutColumns_succ (n : Nat) (work row : Nat → Int) :
    update (cutColumns n work row) n (Arith.machine.i32 (work n)) = cutColumns (n + 1) work row := by
  funext j
  unfold cutColumns
  rcases lt_trichotomy j n with h | rfl | h
  · rw [update_of_ne (by omega), if_pos h, if_pos (by omega)]
  · rw [update_self, if_pos (by omega)]
  · rw [update_of_ne (by omega), if_neg (by omega), if_neg (by omega)]

theorem cutColumns_tested (n : Nat) (row : Nat → Int) :
    cutColumns n q.tested row = cutColumns n q.exact.1 row := by
  funext j
  unfold cutColumns
  rw [i32_tested]

/-- Column `n` is the first one that is turned away. -/
structure TurnedAway (vars : Nat) (work row left : Nat → Int) (n : Nat) : Prop where
  column : n < vars
  large : int32Max < work n
  before : ∀ j < n, work j ≤ int32Max
  left : left = cutColumns n work row

/-- The first `n` columns are stored, and `t.2` divides them and `g`. -/
def Stored (vars n : Nat) (work row : Nat → Int) (g : Int) (t : (Nat → Int) × Int) : Prop :=
  (∀ k < n, work k ≤ int32Max) ∧ t.1 = cutColumns n work row ∧
    ((∀ k < vars, |Arith.machine.i32 (work k)| ≤ int32Max) →
      Fits32 t.2 ∧ t.2 ∣ g ∧ ∀ k < n, t.2 ∣ Arith.machine.i32 (work k))

theorem storeColumns_outcome (vars : Nat) (work row : Nat → Int) {g : Int} (hg : Fits32 g) :
    Outcome (fun e => ∃ n, TurnedAway vars work row e n) (Stored vars vars work row g)
      (storeColumns vars work row g) := by
  have hloop := forFrom_outcome
    (f := fun k (s : (Nat → Int) × Int) =>
      if work k ≤ int32Max then
        (.ok (update s.1 k (Arith.machine.i32 (work k)),
          Arith.machine.i32 (gcd32 .machine s.2 (abs64 .machine (work k)))) :
          Except (Nat → Int) ((Nat → Int) × Int))
      else .error s.1)
    (Q := fun e => ∃ n, TurnedAway vars work row e n)
    (fun j => Stored vars j work row g) vars 0 (row, g)
    (by
      rintro j ⟨r, d⟩ - hj ⟨hdone, hr, hgcd⟩
      have hj' : j < vars := by omega
      dsimp only at hr ⊢
      by_cases hw : work j ≤ int32Max
      · rw [if_pos hw]
        refine ⟨fun k hk => ?_, ?_, fun hsmall => ?_⟩
        · rcases Nat.lt_succ_iff_lt_or_eq.mp hk with hlt | rfl
          · exact hdone k hlt
          · exact hw
        · rw [hr]
          exact cutColumns_succ j work row
        · obtain ⟨hd, hdg, hdw⟩ := hgcd hsmall
          have hcut := hsmall j hj'
          have habs : abs64 .machine (work j) = |Arith.machine.i32 (work j)| := by
            unfold abs64
            refine abs32_machine (machine_i32_fits (work j)) ?_
            intro hmin
            rw [hmin] at hcut
            exact absurd hcut (by decide)
          obtain ⟨hnew, hleft, hright⟩ := gcd32_machine_dvd hd
            ⟨abs_nonneg (Arith.machine.i32 (work j)), hcut⟩
          dsimp only
          rw [habs, machine_i32 hnew]
          refine ⟨hnew, hleft.trans hdg, fun k hk => ?_⟩
          rcases Nat.lt_succ_iff_lt_or_eq.mp hk with hlt | rfl
          · exact hleft.trans (hdw k hlt)
          · exact (dvd_abs _ _).mp hright
      · rw [if_neg hw]
        exact ⟨j, hj', not_le.mp hw, hdone, hr⟩)
    ⟨fun k hk => absurd hk (Nat.not_lt_zero k), rfl,
      fun _ => ⟨hg, dvd_refl _, fun k hk => absurd hk (Nat.not_lt_zero k)⟩⟩
  rwa [Nat.zero_add] at hloop

/-- What a row is after it has been combined: cut, and divided by a gcd of what was cut. -/
structure RowCombined (vars : Nat) (q : Combination) (row : (Nat → Int) × Int) : Prop where
  tested : ∀ k < vars, q.tested k ≤ int32Max
  cut : ∃ g : Int, 0 < g ∧
    row = (fun k => (cutColumns vars q.exact.1 q.row.1 k).tdiv (if k < vars then g else 1),
      (Arith.machine.i64 q.exact.2).tdiv g) ∧
    ((∀ k < vars, |Arith.machine.i32 (q.exact.1 k)| ≤ int32Max) →
      (1 < g → g ∣ Arith.machine.i32 q.exact.2) ∧
        ∀ k < vars, g ∣ Arith.machine.i32 (q.exact.1 k))

/-- What the exit leaves of a row. -/
def Exited (vars : Nat) (q : Combination) (row : (Nat → Int) × Int) : Prop :=
  ∃ n, TurnedAway vars q.tested q.row.1 row.1 n ∧ row.2 = Arith.machine.i64 q.exact.2

/-- One row: it is combined, or the first column that is turned away ends the sweep. -/
theorem baseRow_outcome (code : Int) (vars : Nat) (q : Combination) :
    Outcome (fun e => e.1 = -1 ∧ Exited vars q e.2) (RowCombined vars q) (baseRow code vars q) := by
  have hcut : Fits32 (abs64 .machine (Arith.machine.i64 q.exact.2)) := by
    unfold abs64 abs32
    split
    · exact machine_i32_fits _
    · exact machine_i32_fits _
  have hstore := storeColumns_outcome vars q.tested q.row.1 hcut
  unfold baseRow
  dsimp only
  rw [baseConst_eq, funext (f := fun k => baseWork q.m q.s _ _ _) baseWork_eq,
    if_neg (not_lt.mpr (abs64_machine_le _)), machine_i32 hcut]
  cases hres : storeColumns vars q.tested q.row.1
      (abs64 .machine (Arith.machine.i64 q.exact.2)) with
  | error row =>
    rw [hres] at hstore
    obtain ⟨n, haway⟩ := hstore
    exact ⟨rfl, n, haway, rfl⟩
  | ok t =>
    obtain ⟨row, g⟩ := t
    rw [hres] at hstore
    obtain ⟨htested, hrow, hgcd⟩ := hstore
    simp only [i32_tested, dvd_abs64_machine, i32_i64] at hgcd
    rw [cutColumns_tested] at hrow
    dsimp only at hrow ⊢
    rw [hrow]
    by_cases hg : g > 1
    · rw [if_pos hg]
      refine ⟨htested, g, by omega, Prod.ext (funext fun k => ?_) rfl, fun hsmall => ?_⟩
      · dsimp only
        split
        · rfl
        · exact (Int.tdiv_one _).symm
      · exact ⟨fun _ => (hgcd hsmall).2.1, (hgcd hsmall).2.2⟩
    · rw [if_neg hg]
      refine ⟨htested, 1, one_pos, Prod.ext (funext fun k => ?_) (Int.tdiv_one _).symm,
        fun _ => ⟨fun h => absurd h (lt_irrefl 1), fun k _ => one_dvd _⟩⟩
      dsimp only
      rw [ite_self, Int.tdiv_one]

/-- A row that stops in time is left as it was. -/
theorem baseRow_stops (code : Int) (h : q.Stops vars) :
    baseRow code vars q = .error (-1, q.row) := by
  obtain ⟨hconst, k, hk, hlarge, hbefore⟩ := h
  have hout := baseRow_outcome code vars q
  cases hres : baseRow code vars q with
  | ok row =>
    rw [hres] at hout
    exact absurd (hout.tested k hk) (not_le.mpr hlarge)
  | error e =>
    rw [hres] at hout
    obtain ⟨hcode, n, haway, hconst'⟩ := hout
    -- both are the first column that is turned away
    obtain rfl : n = k := by
      rcases lt_trichotomy n k with hlt | heq | hgt
      · exact absurd (hbefore n hlt).1 (not_le.mpr haway.large)
      · exact heq
      · exact absurd (haway.before k hgt) (not_le.mpr hlarge)
    have hleft : e.2 = q.row := by
      refine Prod.ext (funext fun j => ?_) (hconst'.trans hconst)
      rw [haway.left, cutColumns_tested]
      unfold cutColumns
      split
      · next hj => exact (hbefore j hj).2
      · rfl
    rw [show e = (-1, q.row) from Prod.ext hcode hleft]

section
variable {row : (Nat → Int) × Int}

theorem Exited.stored (h : Exited vars q row) : storedRow row = row := by
  obtain ⟨n, haway, hconst⟩ := h
  refine storedRow_eq (fun k => ?_) (by rw [hconst]; exact machine_i64_fits _)
  rw [haway.left]
  unfold cutColumns
  split
  · exact machine_i32_fits _
  · exact q.rowFits k

theorem Exited.not_fits (h : Exited vars q row) : ¬ q.Fits vars := by
  obtain ⟨n, haway, _⟩ := h
  exact fun hfit => absurd (hfit.tested n haway.column) (not_le.mpr haway.large)

theorem Exited.stops (h : Exited vars q row) (heq : row = q.row) : q.Stops vars := by
  obtain ⟨n, haway, hconst⟩ := h
  have hleft := haway.left
  rw [heq] at hleft hconst
  refine ⟨hconst.symm, n, haway.column, haway.large, fun j hj => ⟨haway.before j hj, ?_⟩⟩
  have hcol := congrFun hleft j
  rw [cutColumns_tested] at hcol
  unfold cutColumns at hcol
  rw [if_pos hj] at hcol
  exact hcol.symm

theorem RowCombined.col_zero (h : RowCombined vars q row) (hpc : q.pc < vars) : row.1 q.pc = 0 := by
  obtain ⟨g, -, rfl, -⟩ := h.cut
  have hcol : q.exact.1 q.pc = 0 := by
    show q.m * q.row.1 q.pc + q.s * (q.row.1 q.pc * q.pivot.1 q.pc) = 0
    rw [show q.m * q.row.1 q.pc + q.s * (q.row.1 q.pc * q.pivot.1 q.pc)
      = q.row.1 q.pc * (q.m + q.s * q.pivot.1 q.pc) by ring, q.cancels, mul_zero]
  dsimp only
  unfold cutColumns
  rw [if_pos hpc, hcol]
  exact Int.zero_tdiv _

theorem RowCombined.stored (h : RowCombined vars q row) : storedRow row = row := by
  obtain ⟨g, hg, rfl, -⟩ := h.cut
  refine storedRow_eq (fun k => ?_) (tdiv_fits (by decide) (by decide) hg (machine_i64_fits _))
  refine tdiv_fits (by decide) (by decide) (by split <;> omega) ?_
  unfold cutColumns
  split
  · exact machine_i32_fits _
  · exact q.rowFits k

/-- Under the bounds the new row is the combination divided by a positive number, with nothing lost
but the fraction of a positive constant. -/
theorem RowCombined.scale (h : RowCombined vars q row) (hfit : q.Fits vars)
    (hdiv : 0 ≤ q.exact.2 ∨ q.GcdDivides vars) :
    ∃ g : Int, 0 < g ∧ (∀ k < vars, q.exact.1 k = g * row.1 k) ∧ row.2 = q.exact.2 / g ∧
      (q.GcdDivides vars → g ∣ q.exact.2) := by
  obtain ⟨g, hg, rfl, hgcd⟩ := h.cut
  have hcoef : ∀ k < vars, Arith.machine.i32 (q.exact.1 k) = q.exact.1 k :=
    fun k hk => machine_i32 (fits32_of_abs (hfit.coefs k hk))
  obtain ⟨hlow, hcols⟩ := hgcd fun k hk => by rw [hcoef k hk]; exact hfit.coefs k hk
  have hcols' : ∀ k < vars, g ∣ q.exact.1 k := fun k hk => by
    rw [← hcoef k hk]
    exact hcols k hk
  have hdvd : q.GcdDivides vars → g ∣ q.exact.2 := by
    intro hd
    by_cases h1 : 1 < g
    · exact hd g (hlow h1) hcols'
    · obtain rfl : g = 1 := by omega
      exact one_dvd _
  refine ⟨g, hg, fun k hk => ?_, ?_, hdvd⟩
  · dsimp only
    unfold cutColumns
    rw [if_pos hk, if_pos hk, hcoef k hk, mul_comm, Int.tdiv_mul_cancel (hcols' k hk)]
  · dsimp only
    rw [machine_i64 hfit.const]
    rcases hdiv with hpos | hd
    · exact Int.tdiv_eq_ediv_of_nonneg hpos
    · exact Int.tdiv_eq_ediv_of_dvd (hdvd hd)

theorem Combination.dot_exact (q : Combination) (hx : dot vars q.pivot.1 x = q.pivot.2) :
    dot vars q.exact.1 x - q.exact.2 = q.m * (dot vars q.row.1 x - q.row.2) := by
  have hq : dot vars q.exact.1 x
      = dot vars (fun j => q.m * q.row.1 j + q.s * q.row.1 q.pc * q.pivot.1 j) x := by
    refine dot_congr_left x fun j _ => ?_
    show q.m * q.row.1 j + q.s * (q.row.1 q.pc * q.pivot.1 j) = _
    ring
  rw [hq, dot_comb vars q.m (q.s * q.row.1 q.pc) q.row.1 q.pivot.1 x, hx]
  show _ - (q.m * q.row.2 + q.s * (q.row.1 q.pc * q.pivot.2)) = _
  ring

theorem RowCombined.eq_iff (h : RowCombined vars q row) (hfit : q.Fits vars) (hd : q.GcdDivides vars)
    (hm : q.m ≠ 0) (hx : dot vars q.pivot.1 x = q.pivot.2) :
    dot vars row.1 x = row.2 ↔ dot vars q.row.1 x = q.row.2 := by
  obtain ⟨g, hg, hcoefs, hconst, hdvd⟩ := h.scale hfit (.inr hd)
  have hshift := q.dot_exact hx
  rw [dot_mul_left x g hcoefs] at hshift
  rw [hconst, eq_comm, Int.ediv_eq_iff_eq_mul_right hg.ne' (hdvd hd), eq_comm, ← sub_eq_zero,
    hshift, ← sub_eq_zero (b := q.row.2)]
  exact ⟨fun h0 => (mul_eq_zero.mp h0).resolve_left hm, fun h0 => by rw [h0, mul_zero]⟩

theorem RowCombined.le_iff (h : RowCombined vars q row) (hfit : q.Fits vars)
    (hd : 0 ≤ q.exact.2 ∨ q.GcdDivides vars) (hm : 0 < q.m)
    (hx : dot vars q.pivot.1 x = q.pivot.2) :
    dot vars row.1 x ≤ row.2 ↔ dot vars q.row.1 x ≤ q.row.2 := by
  obtain ⟨g, hg, hcoefs, hconst, _⟩ := h.scale hfit hd
  have hshift := q.dot_exact hx
  rw [dot_mul_left x g hcoefs] at hshift
  rw [hconst, Int.le_ediv_iff_mul_le hg, mul_comm, ← sub_nonpos, hshift,
    ← sub_nonpos (b := q.row.2)]
  constructor
  · intro hle
    by_contra hgt
    have := mul_pos hm (not_le.mp hgt)
    omega
  · intro hle
    exact mul_nonpos_of_nonneg_of_nonpos hm.le hle

end

/-! ## The sweeps -/

theorem basePivot_spec (h : basePivot sys pc = some pr) :
    pr < sys.eqnsEq ∧ sys.aeq pr pc ≠ 0 := by
  have hloop := forEach_inv
    (f := fun i best =>
      if sys.aeq i pc ≠ 0 then
        match best with
        | none => some i
        | some p =>
          if abs32 .machine (sys.aeq i pc) < abs32 .machine (sys.aeq p pc) then some i else some p
      else best)
    (fun i (best : Option Nat) => ∀ p, best = some p → p < i ∧ sys.aeq p pc ≠ 0) sys.eqnsEq 0 none
    (by
      intro i best _ _ hbest p hp
      by_cases hi : sys.aeq i pc ≠ 0
      · rw [if_pos hi] at hp
        cases best with
        | none =>
          cases hp
          exact ⟨by omega, hi⟩
        | some p' =>
          dsimp only at hp
          split at hp
          · cases hp
            exact ⟨by omega, hi⟩
          · cases hp
            obtain ⟨h1, h2⟩ := hbest p rfl
            exact ⟨by omega, h2⟩
      · rw [if_neg hi] at hp
        obtain ⟨h1, h2⟩ := hbest p hp
        exact ⟨by omega, h2⟩)
    (fun p hp => by cases hp)
  obtain ⟨h1, h2⟩ := hloop pr h
  exact ⟨by omega, h2⟩

/-- Every row that is combined with the pivot fits; of an inequality only a negative constant must
be divided exactly. -/
structure BaseFits (sys : System) (pc pr : Nat) : Prop where
  eq : ∀ i < sys.eqnsEq, i ≠ pr → sys.aeq i pc ≠ 0 →
    (eqComb sys pc pr i).Fits sys.vars ∧ (eqComb sys pc pr i).GcdDivides sys.vars
  le : ∀ i < sys.eqnsLe, sys.ale i pc ≠ 0 → (leComb sys pc pr i).Fits sys.vars ∧
    (0 ≤ (leComb sys pc pr i).exact.2 ∨ (leComb sys pc pr i).GcdDivides sys.vars)

/-- The first row that is combined is an equality and stops in time. -/
def EqStops (sys : System) (pc pr : Nat) : Prop :=
  ∃ i < sys.eqnsEq, i ≠ pr ∧ sys.aeq i pc ≠ 0 ∧ (∀ j < i, j ≠ pr → sys.aeq j pc = 0) ∧
    (eqComb sys pc pr i).Stops sys.vars

/-- The first row that is combined is an inequality and stops in time. -/
def LeStops (sys : System) (pc pr : Nat) : Prop :=
  (∀ j < sys.eqnsEq, j ≠ pr → sys.aeq j pc = 0) ∧
  ∃ i < sys.eqnsLe, sys.ale i pc ≠ 0 ∧ (∀ j < i, sys.ale j pc = 0) ∧
    (leComb sys pc pr i).Stops sys.vars

/-- What the sweep over the equalities has done to row `i`. -/
def EqDone (sys : System) (pc pr i : Nat) (row : (Nat → Int) × Int) : Prop :=
  if i ≠ pr ∧ sys.aeq i pc ≠ 0 then RowCombined sys.vars (eqComb sys pc pr i) row
  else row = sys.eqRow i

/-- What the sweep over the inequalities has done to row `i`. -/
def LeDone (sys : System) (pc pr i : Nat) (row : (Nat → Int) × Int) : Prop :=
  if sys.ale i pc ≠ 0 then RowCombined sys.vars (leComb sys pc pr i) row else row = sys.leRow i

theorem EqDone.col_zero {i : Nat} {row : (Nat → Int) × Int} (h : EqDone sys pc pr i row)
    (hpc : pc < sys.vars) (hne : i ≠ pr) : row.1 pc = 0 := by
  unfold EqDone at h
  split at h
  · exact RowCombined.col_zero h hpc
  · next h0 =>
    rw [h]
    by_contra hne0
    exact h0 ⟨hne, hne0⟩

theorem LeDone.col_zero {i : Nat} {row : (Nat → Int) × Int} (h : LeDone sys pc pr i row)
    (hpc : pc < sys.vars) : row.1 pc = 0 := by
  unfold LeDone at h
  split at h
  · exact RowCombined.col_zero h hpc
  · next h0 =>
    rw [h]
    exact not_not.mp h0

/-- The pass over the equations, without the pivot row itself. An exit that leaves the system as it
was has found no other row before. -/
theorem baseEq_sweep (sys : System) (pr : Nat) (hpc : pc < sys.vars) :
    Outcome (fun e => e.1 = -1 ∧ ¬ BaseFits sys pc pr ∧ (e.2 = sys → EqStops sys pc pr))
      (fun t => SameButEq sys t ∧ ∀ i < sys.eqnsEq, EqDone sys pc pr i (t.eqRow i))
      (forFrom (baseEq pr pc) sys.eqnsEq 0 sys) := by
  have hloop := forFrom_outcome (f := baseEq pr pc)
    (Q := fun e => e.1 = -1 ∧ ¬ BaseFits sys pc pr ∧ (e.2 = sys → EqStops sys pc pr))
    (fun k t => SameButEq sys t ∧ (∀ i, k ≤ i ∨ i = pr → t.eqRow i = sys.eqRow i) ∧
      ∀ i < k, EqDone sys pc pr i (t.eqRow i)) sys.eqnsEq 0 sys
    (by
      rintro k t - hk ⟨hsame, hrest, hdone⟩
      have hrow := hrest k (.inl (le_refl k))
      have hpiv := hrest pr (.inr rfl)
      have hcoef : t.aeq k = sys.aeq k := congrArg Prod.fst hrow
      have hpcoef : t.aeq pr = sys.aeq pr := congrArg Prod.fst hpiv
      have hcomb : eqComb t pc pr k = eqComb sys pc pr k := by
        simp only [eqComb, hrow, hpiv, hpcoef]
      unfold baseEq
      rw [hcomb, hcoef, hsame.vars]
      by_cases hc : k ≠ pr ∧ sys.aeq k pc ≠ 0
      · rw [if_pos hc]
        have hout := baseRow_outcome (-1) sys.vars (eqComb sys pc pr k)
        cases hres : baseRow (-1) sys.vars (eqComb sys pc pr k) with
        | error e =>
          obtain ⟨code, row⟩ := e
          rw [hres] at hout
          obtain ⟨hcode, hexit⟩ := hout
          refine ⟨hcode, fun hfit => ?_, fun hsys => ?_⟩
          · exact hexit.not_fits (hfit.eq k (by omega) hc.1 hc.2).1
          have hview := eqRow_storeEq t k row
          rw [show t.storeEq k row = sys from hsys, hexit.stored] at hview
          refine ⟨k, by omega, hc.1, hc.2, fun j hj hne => ?_,
            hexit.stops (by rw [← update_self k row t.eqRow, ← hview]; rfl)⟩
          -- a row that had been combined would show its zero
          have hz := (hdone j hj).col_zero hpc hne
          rw [← update_of_ne (show j ≠ k by omega) row t.eqRow, ← hview] at hz
          exact hz
        | ok row =>
          rw [hres] at hout
          have hview := eqRow_storeEq t k row
          rw [hout.stored] at hview
          refine ⟨⟨hsame.vars, hsame.eqnsLe, hsame.eqnsEq, hsame.leRows⟩, fun i hi => ?_,
            fun i hi => ?_⟩
          · rw [hview, update_of_ne (by rcases hi with h | h <;> omega)]
            exact hrest i (by omega)
          · rw [hview]
            rcases Nat.lt_succ_iff_lt_or_eq.mp hi with hlt | rfl
            · rw [update_of_ne (by omega)]
              exact hdone i hlt
            · rw [update_self]
              unfold EqDone
              rw [if_pos hc]
              exact hout
      · rw [if_neg hc]
        refine ⟨hsame, fun i hi => hrest i (by omega), fun i hi => ?_⟩
        rcases Nat.lt_succ_iff_lt_or_eq.mp hi with hlt | rfl
        · exact hdone i hlt
        · unfold EqDone
          rw [if_neg hc]
          exact hrow)
    ⟨⟨rfl, rfl, rfl, rfl⟩, fun _ _ => rfl, fun i hi => absurd hi (Nat.not_lt_zero i)⟩
  rw [Nat.zero_add] at hloop
  exact hloop.imp fun t ht => ⟨ht.1, ht.2.2⟩

/-- The pass over the inequalities, after one over the equations. -/
theorem baseLe_sweep {t : System} (hpc : pc < sys.vars) (ht : SameButEq sys t)
    (hdoneEq : ∀ i < sys.eqnsEq, EqDone sys pc pr i (t.eqRow i))
    (hpiv : t.eqRow pr = sys.eqRow pr) :
    Outcome (fun e => e.1 = -1 ∧ ¬ BaseFits sys pc pr ∧ (e.2 = sys → LeStops sys pc pr))
      (fun t' => SameButLe t t' ∧ ∀ i < sys.eqnsLe, LeDone sys pc pr i (t'.leRow i))
      (forFrom (baseLe pr pc) t.eqnsLe 0 t) := by
  have hloop := forFrom_outcome (f := baseLe pr pc)
    (Q := fun e => e.1 = -1 ∧ ¬ BaseFits sys pc pr ∧ (e.2 = sys → LeStops sys pc pr))
    (fun k t' => SameButLe t t' ∧ (∀ i, k ≤ i → t'.leRow i = sys.leRow i) ∧
      ∀ i < k, LeDone sys pc pr i (t'.leRow i)) t.eqnsLe 0 t
    (by
      rintro k t' - hk ⟨hsame, hrest, hdone⟩
      have hk' : k < sys.eqnsLe := by rw [← ht.eqnsLe]; omega
      have hrow := hrest k (le_refl k)
      have hpiv' : t'.eqRow pr = sys.eqRow pr := by rw [hsame.eqRows, hpiv]
      have hcoef : t'.ale k = sys.ale k := congrArg Prod.fst hrow
      have hpcoef : t'.aeq pr = sys.aeq pr := congrArg Prod.fst hpiv'
      have hcomb : leComb t' pc pr k = leComb sys pc pr k := by
        simp only [leComb, hrow, hpiv', hpcoef]
      unfold baseLe
      rw [hcomb, hcoef, hsame.vars, ht.vars]
      by_cases hc : sys.ale k pc ≠ 0
      · rw [if_pos hc]
        have hout := baseRow_outcome 0 sys.vars (leComb sys pc pr k)
        cases hres : baseRow 0 sys.vars (leComb sys pc pr k) with
        | error e =>
          obtain ⟨code, row⟩ := e
          rw [hres] at hout
          obtain ⟨hcode, hexit⟩ := hout
          refine ⟨hcode, fun hfit => ?_, fun hsys => ?_⟩
          · exact hexit.not_fits (hfit.le k hk' hc).1
          have hview := leRow_storeLe t' k row
          rw [show t'.storeLe k row = sys from hsys, hexit.stored] at hview
          have heqs : sys.eqRow = t.eqRow := by
            rw [← hsame.eqRows, ← show t'.storeLe k row = sys from hsys]
            rfl
          refine ⟨fun j hj hne => ?_, k, hk', hc, fun j hj => ?_,
            hexit.stops (by rw [← update_self k row t'.leRow, ← hview]; rfl)⟩
          · have hz := (hdoneEq j hj).col_zero hpc hne
            rw [← heqs] at hz
            exact hz
          · have hz := (hdone j hj).col_zero hpc
            rw [← update_of_ne (show j ≠ k by omega) row t'.leRow, ← hview] at hz
            exact hz
        | ok row =>
          rw [hres] at hout
          have hview := leRow_storeLe t' k row
          rw [hout.stored] at hview
          refine ⟨⟨hsame.vars, hsame.eqnsLe, hsame.eqnsEq, hsame.eqRows⟩, fun i hi => ?_,
            fun i hi => ?_⟩
          · rw [hview, update_of_ne (by omega)]
            exact hrest i (by omega)
          · rw [hview]
            rcases Nat.lt_succ_iff_lt_or_eq.mp hi with hlt | rfl
            · rw [update_of_ne (by omega)]
              exact hdone i hlt
            · rw [update_self]
              unfold LeDone
              rw [if_pos hc]
              exact hout
      · rw [if_neg hc]
        refine ⟨hsame, fun i hi => hrest i (by omega), fun i hi => ?_⟩
        rcases Nat.lt_succ_iff_lt_or_eq.mp hi with hlt | rfl
        · exact hdone i hlt
        · unfold LeDone
          rw [if_neg hc]
          exact hrow)
    ⟨⟨rfl, rfl, rfl, rfl⟩, fun _ _ => by rw [ht.leRows],
      fun i hi => absurd hi (Nat.not_lt_zero i)⟩
  rw [Nat.zero_add] at hloop
  exact hloop.imp fun t' ht' => ⟨ht'.1, fun i hi => ht'.2.2 i (by rw [ht.eqnsLe]; omega)⟩

/-- Rounds that change nothing lead to the exit. -/
theorem forFrom_first_exit {σ ρ : Type} {f : Nat → σ → Except ρ σ} {s : σ} {r : ρ} {n : Nat}
    (hexit : f n s = .error r) : ∀ (count start : Nat), start ≤ n → n < start + count →
      (∀ j, start ≤ j → j < n → f j s = .ok s) → forFrom f count start s = .error r := by
  intro count
  induction count with
  | zero => intro start h1 h2 _; omega
  | succ count ih =>
    intro start h1 h2 hsame
    unfold forFrom
    rcases Nat.lt_or_eq_of_le h1 with hlt | rfl
    · rw [hsame start (le_refl _) hlt]
      exact ih (start + 1) (by omega) (by omega) fun j h3 h4 => hsame j (by omega) h4
    · rw [hexit]

theorem storeEq_eqRow (sys : System) (i : Nat) : sys.storeEq i (sys.eqRow i) = sys := by
  have hrow : storedRow (sys.eqRow i) = sys.eqRow i := storedRow_eq (sys.aeqFits i) (sys.beqFits i)
  unfold System.storeEq
  simp only [hrow]
  cases sys
  simp [System.eqRow]

theorem storeLe_leRow (sys : System) (i : Nat) : sys.storeLe i (sys.leRow i) = sys := by
  have hrow : storedRow (sys.leRow i) = sys.leRow i := storedRow_eq (sys.aleFits i) (sys.bleFits i)
  unfold System.storeLe
  simp only [hrow]
  cases sys
  simp [System.leRow]

theorem EqStops.exit (h : EqStops sys pc pr) :
    forFrom (baseEq pr pc) sys.eqnsEq 0 sys = .error (-1, sys) := by
  obtain ⟨i, hi, hne, hcoef, hfirst, hstop⟩ := h
  refine forFrom_first_exit (n := i) ?_ sys.eqnsEq 0 (Nat.zero_le i) (by omega) fun j _ hj => ?_
  · unfold baseEq
    rw [if_pos ⟨hne, hcoef⟩, baseRow_stops (-1) hstop]
    show Except.error (-1, sys.storeEq i (sys.eqRow i)) = _
    rw [storeEq_eqRow]
  · unfold baseEq
    rw [if_neg fun h => h.2 (hfirst j hj h.1)]

theorem LeStops.exit (h : LeStops sys pc pr) :
    forFrom (baseEq pr pc) sys.eqnsEq 0 sys = .ok sys ∧
      forFrom (baseLe pr pc) sys.eqnsLe 0 sys = .error (-1, sys) := by
  obtain ⟨heq, i, hi, hcoef, hfirst, hstop⟩ := h
  constructor
  · have hloop := forFrom_outcome (f := baseEq pr pc) (Q := fun _ => False) (fun _ t => t = sys)
      sys.eqnsEq 0 sys (fun j t _ hj ht => by
        rw [ht]
        unfold baseEq
        rw [if_neg fun h => h.2 (heq j (by omega) h.1)]
        exact rfl) rfl
    obtain ⟨t, hres, rfl⟩ := hloop.exists_ok
    exact hres
  · refine forFrom_first_exit (n := i) ?_ sys.eqnsLe 0 (Nat.zero_le i) (by omega) fun j _ hj => ?_
    · unfold baseLe
      rw [if_pos hcoef, baseRow_stops 0 hstop]
      show Except.error (-1, sys.storeLe i (sys.leRow i)) = _
      rw [storeLe_leRow]
    · unfold baseLe
      rw [if_neg (not_not.mpr (hfirst j hj))]

/-! ## The result -/

/-- A row number means the same solutions and zeros elsewhere in the column, -1 the old system. -/
structure BaseChanged (sys : System) (pc : Nat) (res : Int × System) : Prop where
  solves : 0 ≤ res.1 → ∀ x, res.2.Solves x ↔ sys.Solves x
  colLe : 0 ≤ res.1 → ∀ i < res.2.eqnsLe, res.2.ale i pc = 0
  colEq : 0 ≤ res.1 → ∀ i < res.2.eqnsEq, (i : Int) ≠ res.1 → res.2.aeq i pc = 0
  failed : res.1 = -1 → res.2 = sys

/-- The rows that were combined have the solutions of the old ones. -/
theorem swept_solves {t' : System} (hfit : BaseFits sys pc pr) (hpr : pr < sys.eqnsEq)
    (hp0 : sys.aeq pr pc ≠ 0) (hvars : t'.vars = sys.vars) (hles : t'.eqnsLe = sys.eqnsLe)
    (heqs : t'.eqnsEq = sys.eqnsEq) (heq : ∀ i < sys.eqnsEq, EqDone sys pc pr i (t'.eqRow i))
    (hle : ∀ i < sys.eqnsLe, LeDone sys pc pr i (t'.leRow i)) (x : Nat → Int) :
    t'.Solves x ↔ sys.Solves x := by
  -- the pivot row is the same in both systems
  have hpivot : t'.eqRow pr = sys.eqRow pr := by
    have h := heq pr hpr
    unfold EqDone at h
    rwa [if_neg (fun h => h.1 rfl)] at h
  have hrows : dot sys.vars (sys.aeq pr) x = sys.beq pr →
      ((∀ r < sys.eqnsEq, (dot sys.vars (t'.aeq r) x = t'.beq r ↔
        dot sys.vars (sys.aeq r) x = sys.beq r)) ∧
      ∀ r < sys.eqnsLe, (dot sys.vars (t'.ale r) x ≤ t'.ble r ↔
        dot sys.vars (sys.ale r) x ≤ sys.ble r)) := by
    intro hx
    refine ⟨fun r hr => ?_, fun r hr => ?_⟩
    · have h := heq r hr
      unfold EqDone at h
      split at h
      · next hc =>
        obtain ⟨hf, hd⟩ := hfit.eq r hr hc.1 hc.2
        exact h.eq_iff hf hd (neg_ne_zero.mpr hp0) hx
      · rw [show t'.aeq r = sys.aeq r from congrArg Prod.fst h,
          show t'.beq r = sys.beq r from congrArg Prod.snd h]
    · have h := hle r hr
      unfold LeDone at h
      split at h
      · next hc =>
        obtain ⟨hf, hd⟩ := hfit.le r hr hc
        refine h.le_iff hf hd ?_ hx
        unfold leComb
        dsimp only
        split <;> omega
      · rw [show t'.ale r = sys.ale r from congrArg Prod.fst h,
          show t'.ble r = sys.ble r from congrArg Prod.snd h]
  unfold System.Solves
  rw [hvars, hles, heqs]
  constructor
  · rintro ⟨h1, h2⟩
    have hx := h2 pr hpr
    rw [show t'.aeq pr = sys.aeq pr from congrArg Prod.fst hpivot,
      show t'.beq pr = sys.beq pr from congrArg Prod.snd hpivot] at hx
    obtain ⟨he, hl⟩ := hrows hx
    exact ⟨fun r hr => (hl r hr).mp (h1 r hr), fun r hr => (he r hr).mp (h2 r hr)⟩
  · rintro ⟨h1, h2⟩
    obtain ⟨he, hl⟩ := hrows (h2 pr hpr)
    exact ⟨fun r hr => (hl r hr).mpr (h1 r hr), fun r hr => (he r hr).mpr (h2 r hr)⟩

/-- **Change of base.** If every row that is combined fits, `Change_Base` returns a row number with
the integer solutions unchanged and the column zero in every other row. It also does what it should
if it has no pivot, or leaves at the first row before changing it; any other -1 is wrong. -/
theorem changeBase_equivalent (sys : System) (dim pos : Nat) (hcol : dim + pos < sys.vars) :
    ((∀ pr, basePivot sys (dim + pos) = some pr → BaseFits sys (dim + pos) pr ∨
        EqStops sys (dim + pos) pr ∨ LeStops sys (dim + pos) pr) →
      BaseChanged sys (dim + pos) (changeBase sys dim pos)) ∧
    ((changeBase sys dim pos).1 = -1 → BaseChanged sys (dim + pos) (changeBase sys dim pos) →
      ∀ pr, basePivot sys (dim + pos) = some pr →
        EqStops sys (dim + pos) pr ∨ LeStops sys (dim + pos) pr) := by
  have hunchanged : BaseChanged sys (dim + pos) (-1, sys) := by
    have hneg : ¬ (0 : Int) ≤ -1 := by decide
    exact ⟨fun h => absurd h hneg, fun h => absurd h hneg, fun h => absurd h hneg, fun _ => rfl⟩
  unfold changeBase
  cases hpivot : basePivot sys (dim + pos) with
  | none => exact ⟨fun _ => hunchanged, fun _ _ pr hpr => by cases hpr⟩
  | some pr =>
    obtain ⟨hpr, hp0⟩ := basePivot_spec hpivot
    have hswept := baseEq_sweep sys pr hcol
    dsimp only
    cases hres : forFrom (baseEq pr (dim + pos)) sys.eqnsEq 0 sys with
    | error e =>
      obtain ⟨code, s⟩ := e
      rw [hres] at hswept
      obtain ⟨hcode, hnot, hstop⟩ := hswept
      dsimp only at hcode hstop ⊢
      refine ⟨fun hfit => ?_, fun _ hchanged pr' hpr' => ?_⟩
      · rcases hfit pr rfl with hf | hs | hs
        · exact absurd hf hnot
        · rw [hs.exit] at hres
          cases hres
          exact hunchanged
        · rw [hs.exit.1] at hres
          cases hres
      · cases hpr'
        exact .inl (hstop (hchanged.failed hcode))
    | ok t =>
      rw [hres] at hswept
      obtain ⟨hsame, hdone⟩ := hswept
      have hpiv : t.eqRow pr = sys.eqRow pr := by
        have h := hdone pr hpr
        unfold EqDone at h
        rwa [if_neg (fun h => h.1 rfl)] at h
      have hswept' := baseLe_sweep hcol hsame hdone hpiv
      dsimp only
      cases hres' : forFrom (baseLe pr (dim + pos)) t.eqnsLe 0 t with
      | error e =>
        obtain ⟨code, s⟩ := e
        rw [hres'] at hswept'
        obtain ⟨hcode, hnot, hstop⟩ := hswept'
        dsimp only at hcode hstop ⊢
        refine ⟨fun hfit => ?_, fun _ hchanged pr' hpr' => ?_⟩
        · rcases hfit pr rfl with hf | hs | hs
          · exact absurd hf hnot
          · rw [hs.exit] at hres
            cases hres
          · rw [hs.exit.1] at hres
            cases hres
            rw [hs.exit.2] at hres'
            cases hres'
            exact hunchanged
        · cases hpr'
          exact .inr (hstop (hchanged.failed hcode))
      | ok t' =>
        rw [hres'] at hswept'
        obtain ⟨hsame', hdone'⟩ := hswept'
        dsimp only
        have hpos : (0 : Int) ≤ pr := Int.natCast_nonneg pr
        refine ⟨fun hfit => ?_, fun h => by omega⟩
        have hles : t'.eqnsLe = sys.eqnsLe := hsame'.eqnsLe.trans hsame.eqnsLe
        have heqs : t'.eqnsEq = sys.eqnsEq := hsame'.eqnsEq.trans hsame.eqnsEq
        have heq' : ∀ i < sys.eqnsEq, EqDone sys (dim + pos) pr i (t'.eqRow i) := by
          intro i hi
          rw [hsame'.eqRows]
          exact hdone i hi
        refine ⟨fun _ => ?_, fun _ i hi => ?_, fun _ i hi hne => ?_, fun h => by omega⟩
        · rcases hfit pr rfl with hf | hs | hs
          · exact swept_solves hf hpr hp0 (hsame'.vars.trans hsame.vars) hles heqs heq' hdone'
          · rw [hs.exit] at hres
            cases hres
          · rw [hs.exit.1] at hres
            cases hres
            rw [hs.exit.2] at hres'
            cases hres'
        · rw [hles] at hi
          exact (hdone' i hi).col_zero hcol
        · rw [heqs] at hi
          exact (heq' i hi).col_zero hcol fun h => hne (by rw [h])

/-- `2 x + 3 y = 4` and `x + y = 1` with `x - y <= 5`. -/
def pivotSystem : System where
  ale := fun _ c => if c = 0 then 1 else -1
  ble := fun _ => 5
  eqnsLe := 1
  aeq := fun r c => if r = 0 ∧ c = 0 then 2 else if r = 0 then 3 else 1
  beq := fun r => if r = 0 then 4 else 1
  eqnsEq := 2
  vars := 2
  aleFits := fun _ c => by split <;> decide
  bleFits := fits64_five
  aeqFits := fun r c => by split_ifs <;> decide
  beqFits := fun r => by split <;> decide

/-- `2 y = 0` with `2^30 x + y <= 0`: column 0 is turned away at once. -/
def lateSystem : System where
  ale := fun _ c => if c = 0 then 1073741824 else 1
  ble := fun _ => 0
  eqnsLe := 1
  aeq := fun _ c => if c = 0 then 0 else 2
  beq := fun _ => 0
  eqnsEq := 1
  vars := 2
  aleFits := fun _ c => by split <;> decide
  bleFits := fits64_zero
  aeqFits := fun _ c => by split <;> decide
  beqFits := fits64_zero

theorem changeBase_equivalent_pivot :
    ((changeBase pivotSystem 0 0).1 = 1 ∧ BaseChanged pivotSystem 0 (changeBase pivotSystem 0 0)) ∧
    (changeBase lateSystem 0 1).1 = -1 ∧ BaseChanged lateSystem 1 (changeBase lateSystem 0 1) := by
  have hlate : LeStops lateSystem 1 0 :=
    ⟨by decide, 0, by decide, by decide, by decide, by decide, 0, by decide, by decide, by decide⟩
  have hfits : BaseFits pivotSystem 0 1 := by
    refine ⟨fun i hi _ _ => ?_, fun i hi _ => ?_⟩
    · have hlt : i < 2 := hi
      obtain rfl : i = 0 := by omega
      refine ⟨⟨?_, ?_, by decide⟩, .of_small (by decide)⟩
      · show ∀ k < 2, (eqComb pivotSystem 0 1 0).tested k ≤ int32Max
        decide
      · show ∀ k < 2, |(eqComb pivotSystem 0 1 0).exact.1 k| ≤ int32Max
        decide
    · have hlt : i < 1 := hi
      obtain rfl : i = 0 := by omega
      refine ⟨⟨?_, ?_, by decide⟩, .inr (.of_small (by decide))⟩
      · show ∀ k < 2, (leComb pivotSystem 0 1 0).tested k ≤ int32Max
        decide
      · show ∀ k < 2, |(leComb pivotSystem 0 1 0).exact.1 k| ≤ int32Max
        decide
  have hone : basePivot pivotSystem (0 + 0) = some 1 := by decide
  have hzero : basePivot lateSystem (0 + 1) = some 0 := by decide
  refine ⟨⟨by decide, (changeBase_equivalent pivotSystem 0 0 (by decide)).1 fun pr hpr => .inl ?_⟩,
    by decide, (changeBase_equivalent lateSystem 0 1 (by decide)).1 fun pr hpr => .inr (.inr ?_)⟩
  · rw [hone] at hpr
    cases hpr
    exact hfits
  · rw [hzero] at hpr
    cases hpr
    exact hlate

/-- `2 x = 0` with `x + 2^30 y <= 5`. -/
def steepSystem : System where
  ale := fun _ c => if c = 0 then 1 else 1073741824
  ble := fun _ => 5
  eqnsLe := 1
  aeq := fun _ c => if c = 0 then 2 else 0
  beq := fun _ => 0
  eqnsEq := 1
  vars := 2
  aleFits := fun _ c => by split <;> decide
  bleFits := fits64_five
  aeqFits := fun _ c => by split <;> decide
  beqFits := fits64_zero

/-- The coefficient `2^31` is too large: the result is -1, but column 0 and the constant of the
inequality have been rewritten. -/
theorem changeBase_leaves_half :
    (changeBase steepSystem 0 0).1 = -1 ∧ (changeBase steepSystem 0 0).2.ale 0 0 = 0 ∧
    (changeBase steepSystem 0 0).2.ble 0 = 10 ∧
    ¬ BaseChanged steepSystem 0 (changeBase steepSystem 0 0) := by
  have hble : (changeBase steepSystem 0 0).2.ble 0 = 10 := by decide
  refine ⟨by decide, by decide, hble, fun h => ?_⟩
  rw [h.failed (by decide)] at hble
  exact absurd hble (by decide)

end Soe
