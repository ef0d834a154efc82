import Path64.Soe.Svpc

/-! # Fourier-Motzkin projection

`Project(i)` eliminates variable `i` from the work rows: every row with
a positive coefficient is combined with every row with a negative one,
then both kinds are erased by moving the last row over them. -/

namespace Soe

open Nat LinearRow Loop

/-! ## Model -/

/-- Does some column in `lo .. hi-1` satisfy `p`? -/
def anyCol (lo hi : Nat) (p : Nat → Bool) : Bool :=
  (List.range hi).any (fun c => decide (lo ≤ c) && p c)

/-- Copy row `src` over row `dst`, columns from `minVar` on. -/
def copyRow (dst src minVar : Nat) (st : WorkState) : WorkState :=
  { st with
    workConst := Function.update st.workConst dst (st.workConst src)
    work := fun r c =>
      if r = dst ∧ minVar ≤ c ∧ c < st.workCols then st.work src c else st.work r c }

def plusMult (ar : Arith) (st : WorkState) (i plus minus : Nat) : Int :=
  (st.work plus i).tdiv (gcd32 ar (abs32 ar (st.work plus i)) (abs32 ar (st.work minus i)))

def minusMult (ar : Arith) (st : WorkState) (i plus minus : Nat) : Int :=
  (ar.i32 (-st.work minus i)).tdiv
    (gcd32 ar (abs32 ar (st.work plus i)) (abs32 ar (st.work minus i)))

/-- The 64-bit value of column `col` of the combined row, before it is checked and stored. -/
def elimTmp (ar : Arith) (st : WorkState) (i plus minus col : Nat) : Int :=
  let pm := plusMult ar st i plus minus
  let mm := minusMult ar st i plus minus
  if mm = 1 ∧ pm = 1 then st.work plus col + st.work minus col
  else ar.i64 (ar.i64 (mm * st.work plus col) + ar.i64 (pm * st.work minus col))

def elimConst (ar : Arith) (st : WorkState) (i plus minus : Nat) : Int :=
  ar.i64 (ar.i64 (minusMult ar st i plus minus * st.workConst plus) +
    ar.i64 (plusMult ar st i plus minus * st.workConst minus))

/-- Store the combined row in row `_work_rows`. -/
def storeElim (ar : Arith) (i plus minus minVar : Nat) (st : WorkState) : WorkState :=
  { st with
    workConst := Function.update st.workConst st.workRows (elimConst ar st i plus minus)
    work := fun r c =>
      if r = st.workRows then
        if c < minVar then 0
        else if c < st.workCols then ar.i32 (elimTmp ar st i plus minus c)
        else st.work r c
      else st.work r c }

/-- `Elim_One`; early, `none` is failure, `some` that the rows are inconsistent. -/
def elimOne (ar : Arith) (i plus minus minVar : Nat) (st : WorkState) :
    Except (Option WorkState) WorkState :=
  if st.workRows + 1 ≥ maxWorkRows then .error none
  else if anyCol minVar st.workCols
      (fun c => decide (abs64 ar (elimTmp ar st i plus minus c) > int32Max)) then
    .error none
  else
    let st' := storeElim ar i plus minus minVar st
    let hasVars := anyCol minVar st.workCols (fun c => decide (st'.work st.workRows c ≠ 0))
    if !hasVars then
      if st'.workConst st.workRows < 0 then .error (some st') else .ok st'
    else .ok { st' with workRows := st.workRows + 1 }

def projectMinus (ar : Arith) (i plus minVar minus : Nat) (st : WorkState) :
    Except (Option WorkState) WorkState :=
  if st.work minus i < 0 then elimOne ar i plus minus minVar st else .ok st

/-- Erasing row `plus` by moving the last row over it. -/
def erasePlus (plus minVar : Nat) (st : WorkState) : WorkState :=
  { (if plus ≠ st.workRows - 1 then copyRow plus (st.workRows - 1) minVar st else st) with
    workRows := st.workRows - 1 }

/-- The loop over the positive rows; `undone` is `last_undone + 1`. -/
def projectLoop (ar : Arith) (i minVar : Nat) :
    Nat → Nat → Nat → WorkState → Except (Option WorkState) (Bool × WorkState)
  | 0, _, _, st => .ok (false, st)
  | fuel + 1, plus, undone, st =>
    if plus < undone then
      if st.work plus i > 0 then
        match forFrom (projectMinus ar i plus minVar) undone 0 st with
        | .error e => .error e
        | .ok st₁ =>
          -- we're done with this plus so we can erase it by copying over it
          let st₂ := erasePlus plus minVar st₁
          if st₂.workRows = 0 then .ok (true, st₂)
          else if undone = st₁.workRows then projectLoop ar i minVar fuel plus (undone - 1) st₂
          else if plus ≠ st₁.workRows - 1 then
            projectLoop ar i minVar fuel (plus + 1) undone st₂
          else projectLoop ar i minVar fuel plus undone st₂
      else projectLoop ar i minVar fuel (plus + 1) undone st
    else .ok (false, st)

/-- `while (i < n-1 && bad[n-1]) n--`. -/
def dropTail (bad : Nat → Bool) (i : Nat) : Nat → Nat
  | 0 => 0
  | n + 1 => if i < n ∧ bad n = true then dropTail bad i n else n + 1

/-- Erase the bad rows by compacting over them. -/
def compactRows (bad : WorkState → Nat → Bool) (minVar : Nat) : Nat → Nat → WorkState → WorkState
  | 0, _, st => st
  | fuel + 1, i, st =>
    if i < st.workRows then
      if bad st i then
        let n := dropTail (bad st) i st.workRows
        let st₁ := if i < n - 1 then copyRow i (n - 1) minVar st else st
        compactRows bad minVar fuel (i + 1) { st₁ with workRows := n - 1 }
      else compactRows bad minVar fuel (i + 1) st
    else st

/-- The column loop of the two tests; early it returns 0. -/
def multipleStep (ar : Arith) (row1 row2 : Nat → Int) (col : Nat) (m : Option (Int × Int)) :
    Except Unit (Option (Int × Int)) :=
  if row1 col = 0 then (if row2 col ≠ 0 then .error () else .ok m)
  else if row2 col = 0 then .error ()
  else
    match m with
    | some (n, d) =>
      if ar.i64 (n * row2 col) ≠ ar.i64 (d * row1 col) then .error () else .ok m
    | none =>
      if decide (row1 col < 0) ≠ decide (row2 col < 0) then .error ()
      else .ok (some (row1 col, row2 col))

def isSimpleRedundant (ar : Arith) (row1 row2 : Nat → Int) (row1c row2c : Int)
    (minVar cols : Nat) : Nat :=
  match forFrom (multipleStep ar row1 row2) (cols - minVar) minVar none with
  | .error _ => 0
  | .ok m =>
    let n := (m.getD (1, 1)).1
    let d := (m.getD (1, 1)).2
    if abs64 ar row1c > int32Max then 0
    else if abs64 ar row2c > int32Max then 0
    else if n = d then (if row1c ≤ row2c then 2 else 1)
    else if (d > 0 ∧ ar.i64 (d * row1c) ≤ ar.i64 (n * row2c)) ∨
        (d < 0 ∧ ar.i64 (d * row1c) ≥ ar.i64 (n * row2c)) then 2
    else 1

/-- Column of the last non-zero entry, searched from `j - 1` down to `minVar`. -/
def lastNonZero (row : Nat → Int) (minVar : Nat) : Nat → Int
  | 0 => -1
  | j + 1 => if minVar ≤ j ∧ row j = 0 then lastNonZero row minVar j else j

/-- Compare row `i` with row `j`. -/
def markPair (ar : Arith) (minVar : Nat) (st : WorkState) (i j : Nat)
    (isRedundant : Nat → Bool) : Nat → Bool :=
  if isRedundant j = false ∧
      lastNonZero (st.work i) minVar st.workCols = lastNonZero (st.work j) minVar st.workCols
  then
    let redun := isSimpleRedundant ar (st.work i) (st.work j) (st.workConst i)
      (st.workConst j) minVar st.workCols
    if redun = 1 then Function.update isRedundant i true
    else if redun = 2 then Function.update isRedundant j true
    else isRedundant
  else isRedundant

def markRow (ar : Arith) (minVar : Nat) (st : WorkState) (i : Nat)
    (isRedundant : Nat → Bool) : Nat → Bool :=
  if isRedundant i = false then
    forEach (markPair ar minVar st i) (st.workRows - (i + 1)) (i + 1) isRedundant
  else isRedundant

def elimSimpleRedundant (ar : Arith) (minVar : Nat) (st : WorkState) : WorkState :=
  let isRedundant := forEach (markRow ar minVar st) st.workRows 0 (fun _ => false)
  compactRows (fun _ => isRedundant) minVar st.workRows 0 st

/-- `Project`: `none` when it fails, otherwise `proved_inconsistent` and the work arrays. -/
def project (ar : Arith) (i minVar : Nat) (st : WorkState) : Option (Bool × WorkState) :=
  match projectLoop ar i minVar st.workRows 0 st.workRows st with
  | .error none => none
  | .error (some st') => some (true, st')
  | .ok (true, st') => some (false, st')
  | .ok (false, st') =>
    -- erase all the negatives
    let st'' := compactRows (fun s r => decide (s.work r i < 0)) minVar st'.workRows 0 st'
    some (false, elimSimpleRedundant ar minVar st'')

/-! ## Frames -/

/-- The state differs from `st` in its inequality rows only. -/
def RowsOnly (st st' : WorkState) : Prop :=
  ∃ w c n, st' = { st with work := w, workConst := c, workRows := n }

theorem RowsOnly.refl (st : WorkState) : RowsOnly st st :=
  ⟨st.work, st.workConst, st.workRows, rfl⟩

theorem RowsOnly.trans {s1 s2 s3 : WorkState} (h1 : RowsOnly s1 s2)
    (h2 : RowsOnly s2 s3) : RowsOnly s1 s3 := by
  obtain ⟨w, c, n, rfl⟩ := h1
  obtain ⟨w', c', n', rfl⟩ := h2
  exact ⟨w', c', n', rfl⟩

theorem RowsOnly.workCols {st st' : WorkState} (h : RowsOnly st st') :
    st'.workCols = st.workCols := by
  obtain ⟨w, c, n, rfl⟩ := h
  rfl

variable {st' st0 : WorkState} {x : Nat → Int} {r hi undone dst src : Nat} {p : Nat → Bool}
  {bad : WorkState → Nat → Bool}

theorem RowsOnly.inside {st : WorkState} (h : RowsOnly st st')
    (hin : Inside st x) (hrows : Solves st' x) : Inside st' x := by
  obtain ⟨w, c, n, rfl⟩ := h
  exact ⟨hrows, hin.lower, hin.upper⟩

theorem copyRow_rowsOnly (dst src minVar : Nat) (st : WorkState) :
    RowsOnly st (copyRow dst src minVar st) :=
  ⟨_, _, st.workRows, rfl⟩

/-- The columns below `m` are zero in every row in use. -/
def ZeroBelow (m : Nat) (st : WorkState) : Prop :=
  ∀ r < st.workRows, ∀ c < m, st.work r c = 0

/-- Row `r'` of `st'` is row `r` of `st`. -/
def SameRow (st : WorkState) (r : Nat) (st' : WorkState) (r' : Nat) : Prop :=
  st'.workConst r' = st.workConst r ∧ ∀ c < st.workCols, st'.work r' c = st.work r c

theorem SameRow.refl (st : WorkState) (r : Nat) : SameRow st r st r :=
  ⟨rfl, fun _ _ => rfl⟩

theorem SameRow.holds {st : WorkState} {r' : Nat}
    (h : SameRow st r st' r') (hcols : st'.workCols = st.workCols) :
    RowHolds st' x r' ↔ RowHolds st x r := by
  unfold RowHolds
  rw [hcols, h.1, dot_congr_left x h.2]

theorem anyCol_eq_false {lo : Nat} :
    anyCol lo hi p = false ↔ ∀ c, lo ≤ c → c < hi → p c = false := by
  simp only [anyCol, List.any_eq_false, List.mem_range, Bool.and_eq_true, decide_eq_true_eq,
    not_and, Bool.not_eq_true]
  exact ⟨fun h c hlo hhi => h c hhi hlo, fun h c hhi hlo => h c hlo hhi⟩

/-! ## One combination -/

theorem gcd_mults {p m : Int} (hp : 0 < p) (hm : m < 0) :
    0 < p.tdiv (Int.gcd p m) ∧ 0 < (-m).tdiv (Int.gcd p m) ∧
    (-m).tdiv (Int.gcd p m) * p + p.tdiv (Int.gcd p m) * m = 0 := by
  have hg : (0 : Int) < Int.gcd p m := by
    exact_mod_cast Int.gcd_pos_of_ne_zero_left m (by omega)
  obtain ⟨p', hp'⟩ : (Int.gcd p m : Int) ∣ p := Int.gcd_dvd_left p m
  obtain ⟨m', hm'⟩ : (Int.gcd p m : Int) ∣ m := Int.gcd_dvd_right p m
  generalize (Int.gcd p m : Int) = g at *
  subst hp' hm'
  have hp1 : (g * p').tdiv g = p' := Int.mul_tdiv_cancel_left p' (by omega)
  have hm1 : (-(g * m')).tdiv g = -m' := by
    rw [← mul_neg]; exact Int.mul_tdiv_cancel_left (-m') (by omega)
  rw [hp1, hm1]
  refine ⟨by nlinarith, by nlinarith, by ring⟩

section ElimOne

variable {st : WorkState} {i plus minus minVar : Nat}

theorem plusMult_exact : plusMult .exact st i plus minus
      = (st.work plus i).tdiv (Int.gcd (st.work plus i) (st.work minus i)) := by
  unfold plusMult
  rw [abs32_exact, abs32_exact, gcd32_exact]
  simp [Int.gcd, Int.natAbs_abs]

theorem minusMult_exact : minusMult .exact st i plus minus
      = (-st.work minus i).tdiv (Int.gcd (st.work plus i) (st.work minus i)) := by
  unfold minusMult
  rw [abs32_exact, abs32_exact, gcd32_exact, exact_i32]
  simp [Int.gcd, Int.natAbs_abs]

theorem elimTmp_exact (col : Nat) : elimTmp .exact st i plus minus col
      = minusMult .exact st i plus minus * st.work plus col
        + plusMult .exact st i plus minus * st.work minus col := by
  unfold elimTmp
  dsimp only
  split
  · next h => rw [h.1, h.2, one_mul, one_mul]
  · rfl

theorem elimTmp_exact_self (hp : 0 < st.work plus i) (hm : st.work minus i < 0) :
    elimTmp .exact st i plus minus i = 0 := by
  rw [elimTmp_exact, minusMult_exact, plusMult_exact]
  exact (gcd_mults hp hm).2.2

theorem storeElim_row (c : Nat) (hc : c < st.workCols) :
    (storeElim .exact i plus minus minVar st).work st.workRows c
      = if c < minVar then 0 else elimTmp .exact st i plus minus c := by
  simp only [storeElim, if_true, exact_i32, if_pos hc]

theorem storeElim_other (hr : r ≠ st.workRows) :
    SameRow st r (storeElim .exact i plus minus minVar st) r := by
  refine ⟨?_, fun c _ => ?_⟩
  · simp only [storeElim, Function.update_of_ne hr]
  · simp only [storeElim, if_neg hr]

theorem storeElim_holds (hzero : ZeroBelow minVar st)
    (hpr : plus < st.workRows) (hmr : minus < st.workRows)
    (hp : 0 < st.work plus i) (hm : st.work minus i < 0)
    (hplus : RowHolds st x plus) (hminus : RowHolds st x minus) :
    RowHolds (storeElim .exact i plus minus minVar st) x st.workRows := by
  obtain ⟨hpm, hmm, _⟩ := gcd_mults hp hm
  rw [← plusMult_exact] at hpm
  rw [← minusMult_exact] at hmm
  have hrow : dot st.workCols ((storeElim .exact i plus minus minVar st).work st.workRows) x
      = minusMult .exact st i plus minus * dot st.workCols (st.work plus) x
        + plusMult .exact st i plus minus * dot st.workCols (st.work minus) x := by
    rw [← dot_comb]
    apply dot_congr_left
    intro c hc
    rw [storeElim_row c hc]
    split
    · next hlt => rw [hzero plus hpr c hlt, hzero minus hmr c hlt, mul_zero, mul_zero, add_zero]
    · rw [elimTmp_exact]
  have hconst : (storeElim .exact i plus minus minVar st).workConst st.workRows
      = minusMult .exact st i plus minus * st.workConst plus
        + plusMult .exact st i plus minus * st.workConst minus := by
    simp [storeElim, elimConst]
  have hcols : (storeElim .exact i plus minus minVar st).workCols = st.workCols := rfl
  unfold RowHolds at *
  rw [hcols, hrow, hconst]
  exact add_le_add (mul_le_mul_of_nonneg_left hplus hmm.le)
    (mul_le_mul_of_nonneg_left hminus hpm.le)

end ElimOne

/-- What the rows look like while `Project(i)` runs on a point `x`. -/
structure ProjInv (st₀ : WorkState) (minVar : Nat) (x : Nat → Int) (st : WorkState) : Prop where
  frame : RowsOnly st₀ st
  rows : Solves st x
  zero : ZeroBelow minVar st

/-- An `Elim_One` that ends: old rows stay, and at most one is added, zero in column `i`. -/
structure ElimStep (i : Nat) (st st' : WorkState) : Prop where
  old : ∀ r < st.workRows, SameRow st r st' r
  grows : st.workRows ≤ st'.workRows
  fresh : ∀ r, st.workRows ≤ r → r < st'.workRows → st'.work r i = 0

/-- The combined row holds wherever the two rows do. -/
theorem elimOne_inv {st : WorkState} {i plus minus minVar : Nat}
    (h : ProjInv st0 minVar x st) (hi : i < st.workCols)
    (hpr : plus < st.workRows) (hmr : minus < st.workRows)
    (hp : 0 < st.work plus i) (hm : st.work minus i < 0) : Outcome (fun e => e = none)
      (fun st' => ProjInv st0 minVar x st' ∧ ElimStep i st st')
      (elimOne .exact i plus minus minVar st) := by
  obtain ⟨hframe, hrows, hzero⟩ := h
  have hnew := storeElim_holds (i := i) hzero hpr hmr hp hm (hrows plus hpr) (hrows minus hmr)
  have hframe' : RowsOnly st (storeElim .exact i plus minus minVar st) :=
    ⟨_, _, st.workRows, rfl⟩
  have hold : ∀ r < st.workRows, RowHolds (storeElim .exact i plus minus minVar st) x r :=
    fun r hr => (SameRow.holds (storeElim_other (Nat.ne_of_lt hr)) rfl).mpr (hrows r hr)
  have hzold : ∀ r < st.workRows, ∀ c < minVar,
      (storeElim .exact i plus minus minVar st).work r c = 0 := by
    intro r hr c hc
    have hne : r ≠ st.workRows := Nat.ne_of_lt hr
    simp only [storeElim, if_neg hne]
    exact hzero r hr c hc
  unfold elimOne
  split
  · rfl
  · split
    · rfl
    · dsimp only
      split
      · next hvars =>
        -- the combination has no variable left: its constant cannot be negative
        simp only [Bool.not_eq_true', anyCol_eq_false, decide_eq_false_iff_not, not_not] at hvars
        have hnull : ∀ c < st.workCols,
            (storeElim .exact i plus minus minVar st).work st.workRows c = 0 := by
          intro c hc
          by_cases hlt : c < minVar
          · rw [storeElim_row c hc, if_pos hlt]
          · exact hvars c (by omega) hc
        have hconst : 0 ≤ (storeElim .exact i plus minus minVar st).workConst st.workRows := by
          have h0 : dot st.workCols ((storeElim .exact i plus minus minVar st).work st.workRows) x
              ≤ (storeElim .exact i plus minus minVar st).workConst st.workRows := hnew
          rwa [dot_eq_zero x hnull] at h0
        rw [if_neg (by omega)]
        exact ⟨⟨hframe.trans hframe', hold, hzold⟩,
          ⟨fun r hr => storeElim_other (Nat.ne_of_lt hr), Nat.le_refl _,
            fun r h1 h2 => absurd h2 (Nat.not_lt.mpr h1)⟩⟩
      · -- the combination is kept as a new row
        refine ⟨⟨hframe.trans ⟨_, _, st.workRows + 1, rfl⟩, ?_, ?_⟩, ⟨?_, le_succ _, ?_⟩⟩
        · intro r hr
          rcases Nat.lt_succ_iff_lt_or_eq.mp hr with hlt | rfl
          · exact hold r hlt
          · exact hnew
        · intro r hr c hc
          rcases Nat.lt_succ_iff_lt_or_eq.mp hr with hlt | rfl
          · exact hzold r hlt c hc
          · simp only [storeElim, if_true, if_pos hc]
        · intro r hr
          exact storeElim_other (Nat.ne_of_lt hr)
        · intro r h1 h2
          have hr : r = st.workRows := by dsimp only at h2; omega
          subst hr
          rw [storeElim_row i hi, elimTmp_exact_self hp hm, ite_self]

/-! ## The loop over the positive rows -/

theorem ElimStep.refl (i : Nat) (st : WorkState) : ElimStep i st st :=
  ⟨fun r _ => SameRow.refl st r, le_refl _, fun _ h1 h2 => absurd h2 (not_lt.mpr h1)⟩

theorem ElimStep.trans {i : Nat} {s1 s2 s3 : WorkState} (hi : i < s2.workCols)
    (hcols : s2.workCols = s1.workCols) (h1 : ElimStep i s1 s2) (h2 : ElimStep i s2 s3) :
    ElimStep i s1 s3 := by
  refine ⟨fun r hr => ?_, h1.grows.trans h2.grows, fun r hlo hhi => ?_⟩
  · have ha := h1.old r hr
    have hb := h2.old r (lt_of_lt_of_le hr h1.grows)
    exact ⟨hb.1.trans ha.1, fun c hc => (hb.2 c (by omega)).trans (ha.2 c hc)⟩
  · by_cases hr : r < s2.workRows
    · rw [(h2.old r hr).2 i hi]
      exact h1.fresh r hlo hr
    · exact h2.fresh r (by omega) hhi

theorem projectMinus_loop {st : WorkState} {i plus minVar : Nat}
    (h : ProjInv st0 minVar x st) (hi : i < st0.workCols) (hpr : plus < st.workRows)
    (hund : undone ≤ st.workRows) (hp : 0 < st.work plus i) : Outcome (fun e => e = none)
      (fun st' => ProjInv st0 minVar x st' ∧ ElimStep i st st')
      (forFrom (projectMinus .exact i plus minVar) undone 0 st) := by
  have hcols := h.frame.workCols
  refine forFrom_outcome (fun _ t => ProjInv st0 minVar x t ∧ ElimStep i st t) undone 0 st
    ?_ ⟨h, ElimStep.refl i st⟩
  intro minus t _ hminus ht
  obtain ⟨hinv, hstep⟩ := ht
  have htcols := hinv.frame.workCols
  unfold projectMinus
  split
  · next hneg =>
    have hplus : 0 < t.work plus i := by
      rw [(hstep.old plus hpr).2 i (by omega)]; exact hp
    have hrows := hstep.grows
    have hout := elimOne_inv hinv (by omega) (by omega) (by omega) hplus hneg
    cases hres : elimOne .exact i plus minus minVar t with
    | error e => rw [hres] at hout; exact hout
    | ok t' =>
      rw [hres] at hout
      exact ⟨hout.1, hstep.trans (by omega) (by omega) hout.2⟩
  · exact ⟨hinv, hstep⟩

theorem copyRow_self {minVar : Nat} {st : WorkState} (hzero : ZeroBelow minVar st)
    (hdst : dst < st.workRows) (hsrc : src < st.workRows) :
    SameRow st src (copyRow dst src minVar st) dst := by
  refine ⟨by simp [copyRow], fun c hc => ?_⟩
  simp only [copyRow, true_and]
  split
  · rfl
  · next hn =>
    have hlt : c < minVar := by omega
    rw [hzero dst hdst c hlt, hzero src hsrc c hlt]

theorem copyRow_other {minVar : Nat} {st : WorkState} (hr : r ≠ dst) :
    SameRow st r (copyRow dst src minVar st) r :=
  ⟨by simp [copyRow, Function.update_of_ne hr], fun c _ => by simp [copyRow, hr]⟩

theorem ProjInv.ofRows {st : WorkState} {minVar : Nat}
    (h : ProjInv st0 minVar x st) (hm : minVar ≤ st0.workCols) (hframe : RowsOnly st st')
    (hsrc : ∀ r < st'.workRows, ∃ r' < st.workRows, SameRow st r' st' r) :
    ProjInv st0 minVar x st' := by
  have hcols := h.frame.workCols
  refine ⟨h.frame.trans hframe, ?_, ?_⟩
  · intro r hr
    obtain ⟨r', hr', hsame⟩ := hsrc r hr
    exact (hsame.holds hframe.workCols).mpr (h.rows r' hr')
  · intro r hr c hc
    obtain ⟨r', hr', hsame⟩ := hsrc r hr
    rw [hsame.2 c (by omega)]
    exact h.zero r' hr' c hc

theorem erasePlus_rows {plus minVar : Nat} {st : WorkState} (hzero : ZeroBelow minVar st)
    (hp : plus < st.workRows) (hr : r < st.workRows - 1) :
    SameRow st (if r = plus then st.workRows - 1 else r) (erasePlus plus minVar st) r := by
  unfold erasePlus
  split
  · next hrp =>
    subst hrp
    rw [if_pos (by omega)]
    exact copyRow_self hzero hp (by omega)
  · next hrp =>
    split
    · exact copyRow_other hrp
    · exact SameRow.refl st r

theorem erasePlus_rowsOnly (plus minVar : Nat) (st : WorkState) :
    RowsOnly st (erasePlus plus minVar st) := by
  unfold erasePlus
  split
  · exact ⟨_, _, _, rfl⟩
  · exact ⟨_, _, _, rfl⟩

theorem ProjInv.erasePlus {st0 st : WorkState} {plus minVar : Nat} {x : Nat → Int}
    (h : ProjInv st0 minVar x st) (hm : minVar ≤ st0.workCols) (hp : plus < st.workRows) :
    ProjInv st0 minVar x (erasePlus plus minVar st) := by
  refine h.ofRows hm (erasePlus_rowsOnly plus minVar st) ?_
  intro r hr
  have hr' : r < st.workRows - 1 := hr
  refine ⟨if r = plus then st.workRows - 1 else r, ?_, erasePlus_rows h.zero hp hr'⟩
  split <;> omega

/-- Rows below `plus` are not positive, those from `undone` on new. -/
structure Dealt (i plus undone : Nat) (st : WorkState) : Prop where
  le : plus ≤ undone
  rows : undone ≤ st.workRows
  below : ∀ r < plus, st.work r i ≤ 0
  above : ∀ r, undone ≤ r → r < st.workRows → st.work r i = 0

/-- After `projectLoop` nothing is positive in column `i`, or nothing is left if it says so. -/
structure LoopExit (st₀ : WorkState) (i minVar : Nat) (x : Nat → Int)
    (r : Bool × WorkState) : Prop where
  inv : ProjInv st₀ minVar x r.2
  nonpos : ∀ k < r.2.workRows, r.2.work k i ≤ 0
  empty : r.1 = true → r.2.workRows = 0

theorem Dealt.exit {st : WorkState} {i minVar plus : Nat}
    (h : Dealt i plus undone st) (hinv : ProjInv st0 minVar x st) (hdone : undone ≤ plus) :
    LoopExit st0 i minVar x (false, st) := by
  refine ⟨hinv, fun k hk => ?_, fun hc => absurd hc (by simp)⟩
  by_cases hkp : k < plus
  · exact h.below k hkp
  · exact (h.above k (by omega) hk).le

theorem Dealt.erasePlus {st st1 : WorkState} {i minVar plus undone : Nat}
    (hd : Dealt i plus undone st) (hstep : ElimStep i st st1) (hzero : ZeroBelow minVar st1)
    (hi : i < st.workCols) (hcols : st1.workCols = st.workCols) (hlt : plus < undone) :
    (undone = st1.workRows → Dealt i plus (undone - 1) (erasePlus plus minVar st1)) ∧
    (undone ≠ st1.workRows → Dealt i (plus + 1) undone (erasePlus plus minVar st1)) := by
  obtain ⟨hle, hrows, hbelow, habove⟩ := hd
  have hgrow := hstep.grows
  -- column `i` of the rows after the move
  have hcol : ∀ r < st1.workRows - 1, (Soe.erasePlus plus minVar st1).work r i
      = st1.work (if r = plus then st1.workRows - 1 else r) i := fun r hr =>
    (erasePlus_rows hzero (by omega) hr).2 i (by omega)
  have hold : ∀ r < undone, st1.work r i = st.work r i := fun r hr =>
    (hstep.old r (by omega)).2 i hi
  have hnew : ∀ r, undone ≤ r → r < st1.workRows → st1.work r i = 0 := by
    intro r h1 h2
    by_cases hr : r < st.workRows
    · rw [(hstep.old r hr).2 i hi]
      exact habove r h1 hr
    · exact hstep.fresh r (by omega) h2
  have hbelow2 : ∀ r < plus, (Soe.erasePlus plus minVar st1).work r i ≤ 0 := by
    intro r hr
    rw [hcol r (by omega), if_neg (by omega), hold r (by omega)]
    exact hbelow r hr
  refine ⟨fun hall => ⟨by omega, ?_, hbelow2, fun r h1 h2 => ?_⟩,
    fun hmore => ⟨by omega, ?_, fun r hr => ?_, fun r h1 h2 => ?_⟩⟩
  · show undone - 1 ≤ st1.workRows - 1
    omega
  · have h2' : r < st1.workRows - 1 := h2
    omega
  · show undone ≤ st1.workRows - 1
    omega
  · rcases Nat.lt_succ_iff_lt_or_eq.mp hr with hr' | rfl
    · exact hbelow2 r hr'
    · rw [hcol r (by omega), if_pos rfl]
      exact (hnew _ (by omega) (by omega)).le
  · have h2' : r < st1.workRows - 1 := h2
    rw [hcol r h2', if_neg (by omega)]
    exact hnew r h1 (by omega)

theorem Dealt.skip {st : WorkState} {i plus : Nat} (hd : Dealt i plus undone st)
    (hlt : plus < undone) (hpos : ¬ st.work plus i > 0) : Dealt i (plus + 1) undone st := by
  refine ⟨by omega, hd.rows, fun r hr => ?_, hd.above⟩
  rcases Nat.lt_succ_iff_lt_or_eq.mp hr with hr' | rfl
  · exact hd.below r hr'
  · omega

/-- The loop over the rows with a positive coefficient, by induction on those not dealt with. -/
theorem projectLoop_inv {i minVar : Nat}
    (hi : i < st0.workCols) (hm : minVar ≤ st0.workCols) (fuel : Nat) :
    ∀ (plus undone : Nat) (st : WorkState), undone - plus ≤ fuel →
      ProjInv st0 minVar x st → Dealt i plus undone st →
      Outcome (fun e => e = none) (LoopExit st0 i minVar x)
        (projectLoop .exact i minVar fuel plus undone st) := by
  induction fuel with
  | zero =>
    intro plus undone st hfuel hinv hd
    exact hd.exit hinv (by omega)
  | succ fuel ih =>
    intro plus undone st hfuel hinv hd
    have hrows := hd.rows
    unfold projectLoop
    split
    · next hlt =>
      split
      · next hpos =>
        have hloop := projectMinus_loop hinv hi (show plus < st.workRows by omega) hrows hpos
        cases hres : forFrom (projectMinus .exact i plus minVar) undone 0 st with
        | error e => rw [hres] at hloop; exact hloop
        | ok st1 =>
          rw [hres] at hloop
          obtain ⟨hinv1, hstep⟩ := hloop
          have hgrow := hstep.grows
          have hcols1 := hinv1.frame.workCols
          have hcols := hinv.frame.workCols
          have hinv2 := hinv1.erasePlus hm (show plus < st1.workRows by omega)
          have hd2 := hd.erasePlus hstep hinv1.zero (by omega) (by omega) hlt
          dsimp only
          split_ifs with hnone hall hlast
          · exact ⟨hinv2, fun k hk => absurd hk (by rw [hnone]; exact not_lt_zero k),
              fun _ => hnone⟩
          · exact ih plus (undone - 1) _ (by omega) hinv2 (hd2.1 hall)
          · exact ih (plus + 1) undone _ (by omega) hinv2 (hd2.2 hall)
          · omega
      · next hpos => exact ih (plus + 1) undone st (by omega) hinv (hd.skip hlt hpos)
    · exact hd.exit hinv (by omega)

/-! ## Compacting rows -/

theorem dropTail_spec (bad : Nat → Bool) (i : Nat) : ∀ n, i < n →
    i < dropTail bad i n ∧ dropTail bad i n ≤ n ∧
    (i < dropTail bad i n - 1 → bad (dropTail bad i n - 1) = false) := by
  intro n
  induction n with
  | zero => intro h; omega
  | succ n ih =>
    intro h
    unfold dropTail
    split
    · next hc =>
      have := ih hc.1
      exact ⟨this.1, by omega, this.2.2⟩
    · next hc =>
      refine ⟨h, Nat.le_refl _, fun hlt => ?_⟩
      simp only [Nat.add_sub_cancel] at hlt ⊢
      simpa using fun hb => hc ⟨hlt, hb⟩

/-- Rows of `st'` below `k` are good rows of `st`; rows from `k` on have not been touched. -/
structure Compacted (bad : WorkState → Nat → Bool) (st : WorkState) (k : Nat)
    (st' : WorkState) : Prop where
  frame : RowsOnly st st'
  fewer : st'.workRows ≤ st.workRows
  done : ∀ r < k, r < st'.workRows → ∃ r' < st.workRows, bad st r' = false ∧ SameRow st r' st' r
  same : ∀ r, k ≤ r → st'.work r = st.work r ∧ st'.workConst r = st.workConst r

/-- Every row left at the end is one of the rows that were not marked. -/
theorem compactRows_spec {minVar : Nat}
    (hbad : ∀ s s' r, s.work r = s'.work r → bad s r = bad s' r)
    (hzero : ZeroBelow minVar st0) (fuel : Nat) :
    ∀ (k : Nat) (st : WorkState), st.workRows - k ≤ fuel → Compacted bad st0 k st →
      ∀ r < (compactRows bad minVar fuel k st).workRows, ∃ r' < st0.workRows, bad st0 r' = false ∧
          SameRow st0 r' (compactRows bad minVar fuel k st) r := by
  induction fuel with
  | zero =>
    intro k st hfuel hc r hr
    have hr' : r < st.workRows := hr
    exact hc.done r (by omega) hr
  | succ fuel ih =>
    intro k st hfuel hc
    have hgood : ∀ r, k ≤ r → bad st r = bad st0 r := fun r hr => hbad _ _ _ (hc.same r hr).1
    unfold compactRows
    split
    · next hk =>
      split
      · next hbadk =>
        -- row `k` goes; the last good row, if there is one, takes its place
        obtain ⟨hlo, hhi, hlast⟩ := dropTail_spec (bad st) k st.workRows hk
        have hfew := hc.fewer
        refine ih (k + 1) _ (show _ - 1 - (k + 1) ≤ fuel by omega) ⟨?_, ?_, ?_, ?_⟩
        · refine hc.frame.trans ?_
          split
          · exact ⟨_, _, _, rfl⟩
          · exact ⟨_, _, _, rfl⟩
        · show _ - 1 ≤ st0.workRows
          omega
        · intro r hr hr'
          have hr'' : r < dropTail (bad st) k st.workRows - 1 := hr'
          rcases Nat.lt_succ_iff_lt_or_eq.mp hr with hlt | rfl
          · obtain ⟨r0, hr0, hb, hsame⟩ := hc.done r hlt (by omega)
            refine ⟨r0, hr0, hb, ?_⟩
            split
            · exact ⟨by simpa [copyRow, Function.update_of_ne (Nat.ne_of_lt hlt)] using hsame.1,
                fun c hcc => by simpa [copyRow, Nat.ne_of_lt hlt] using hsame.2 c hcc⟩
            · exact hsame
          · have hsrc := hc.same (dropTail (bad st) r st.workRows - 1) (by omega)
            refine ⟨dropTail (bad st) r st.workRows - 1, by omega, ?_, ?_⟩
            · rw [← hgood _ (by omega)]
              exact hlast hr''
            · rw [if_pos hr'']
              refine ⟨by simp [copyRow, hsrc.2], fun c hcc => ?_⟩
              have hcols := hc.frame.workCols
              simp only [copyRow, true_and]
              split
              · rw [hsrc.1]
              · next hn =>
                have hcm : c < minVar := by omega
                rw [(hc.same r (le_refl r)).1, hzero r (by omega) c hcm,
                  hzero _ (by omega) c hcm]
        · intro r hr
          have hne : r ≠ k := by omega
          have hold := hc.same r (by omega)
          split
          · exact ⟨by funext c; simp [copyRow, hne, hold.1],
              by simp [copyRow, Function.update_of_ne hne, hold.2]⟩
          · exact hold
      · -- a row that stays
        next hbadk =>
        refine ih (k + 1) st (by omega) ⟨hc.frame, hc.fewer, ?_, fun r hr => hc.same r (by omega)⟩
        intro r hr hr'
        rcases Nat.lt_succ_iff_lt_or_eq.mp hr with hlt | rfl
        · exact hc.done r hlt hr'
        · have hsame := hc.same r (le_refl r)
          refine ⟨r, by have := hc.fewer; omega, ?_, hsame.2, fun c _ => by rw [hsame.1]⟩
          rw [← hgood r (le_refl r)]
          simpa using hbadk
    · next hk =>
      intro r hr
      exact hc.done r (by omega) hr

theorem compactRows_rowsOnly (bad : WorkState → Nat → Bool) (minVar : Nat) (fuel : Nat) :
    ∀ (k : Nat) (st : WorkState), RowsOnly st (compactRows bad minVar fuel k st) := by
  induction fuel with
  | zero => intro k st; exact RowsOnly.refl st
  | succ fuel ih =>
    intro k st
    unfold compactRows
    split
    · split
      · refine RowsOnly.trans ?_ (ih _ _)
        split
        · exact ⟨_, _, _, rfl⟩
        · exact ⟨_, _, _, rfl⟩
      · exact ih _ _
    · exact RowsOnly.refl st

theorem compactRows_rows {minVar : Nat} {st : WorkState}
    (hbad : ∀ s s' r, s.work r = s'.work r → bad s r = bad s' r) (hzero : ZeroBelow minVar st)
    (hr : r < (compactRows bad minVar st.workRows 0 st).workRows) :
    ∃ r' < st.workRows, bad st r' = false ∧
      SameRow st r' (compactRows bad minVar st.workRows 0 st) r :=
  compactRows_spec hbad hzero st.workRows 0 st (by omega)
    ⟨RowsOnly.refl st, le_refl _, fun r hr => absurd hr (not_lt_zero r),
      fun _ _ => ⟨rfl, rfl⟩⟩ r hr

/-! ## Project -/

theorem ProjInv.elimSimpleRedundant {st0 st : WorkState} {minVar : Nat} {x : Nat → Int}
    {ar : Arith} (h : ProjInv st0 minVar x st) (hm : minVar ≤ st0.workCols) :
    ProjInv st0 minVar x (elimSimpleRedundant ar minVar st) := by
  refine h.ofRows hm (compactRows_rowsOnly _ _ _ _ _) ?_
  intro r hr
  obtain ⟨r', hr', _, hsame⟩ := compactRows_rows (fun _ _ _ _ => rfl) h.zero hr
  exact ⟨r', hr', hsame⟩

theorem elimSimpleRedundant_col {st : WorkState} {minVar i : Nat} {ar : Arith}
    (hzero : ZeroBelow minVar st) (hi : i < st.workCols) (h : ∀ r < st.workRows, st.work r i = 0) :
    ∀ r < (elimSimpleRedundant ar minVar st).workRows,
      (elimSimpleRedundant ar minVar st).work r i = 0 := by
  intro r hr
  obtain ⟨r', hr', _, hsame⟩ := compactRows_rows (fun _ _ _ _ => rfl) hzero hr
  exact (hsame.2 i hi).trans (h r' hr')

theorem project_inv {st : WorkState} {i minVar : Nat} {p : Bool}
    (hi : i < st.workCols) (hm : minVar ≤ st.workCols)
    (hrows : Solves st x) (hzero : ZeroBelow minVar st)
    (h : project .exact i minVar st = some (p, st')) :
    p = false ∧ ProjInv st minVar x st' ∧ ∀ r < st'.workRows, st'.work r i = 0 := by
  have hloop := projectLoop_inv hi hm st.workRows 0 st.workRows st (by omega)
    ⟨RowsOnly.refl st, hrows, hzero⟩
    ⟨zero_le _, le_refl _, fun r hr => absurd hr (not_lt_zero r),
      fun r h1 h2 => absurd h2 (not_lt.mpr h1)⟩
  unfold project at h
  split at h
  · cases h
  · next st1 hres =>
    rw [hres] at hloop
    cases hloop
  · next st1 hres =>
    rw [hres] at hloop
    cases h
    refine ⟨rfl, hloop.inv, fun r hr => ?_⟩
    have hnone : st'.workRows = 0 := hloop.empty rfl
    omega
  · next st1 hres =>
    rw [hres] at hloop
    have hinv1 : ProjInv st minVar x st1 := hloop.inv
    have hneg : ∀ k < st1.workRows, st1.work k i ≤ 0 := hloop.nonpos
    have hcols1 := hinv1.frame.workCols
    simp only [Option.some.injEq, Prod.mk.injEq] at h
    obtain ⟨rfl, rfl⟩ := h
    have hbad : ∀ (s s' : WorkState) (r : Nat), s.work r = s'.work r →
        decide (s.work r i < 0) = decide (s'.work r i < 0) := by
      intro s s' r hr; rw [hr]
    have hinv2 : ProjInv st minVar x
        (compactRows (fun s r => decide (s.work r i < 0)) minVar st1.workRows 0 st1) := by
      refine hinv1.ofRows hm (compactRows_rowsOnly _ _ _ _ _) ?_
      intro r hr
      obtain ⟨r', hr', _, hsame⟩ := compactRows_rows hbad hinv1.zero hr
      exact ⟨r', hr', hsame⟩
    have hcols2 := hinv2.frame.workCols
    refine ⟨rfl, hinv2.elimSimpleRedundant hm,
      elimSimpleRedundant_col hinv2.zero (by omega) ?_⟩
    intro r hr
    obtain ⟨r', hr', hgood, hsame⟩ := compactRows_rows hbad hinv1.zero hr
    rw [hsame.2 i (by omega)]
    have hle := hneg r' hr'
    simp only [decide_eq_false_iff_not] at hgood
    omega

end Soe
