import Mathlib.Algebra.Order.BigOperators.Group.Finset
import Mathlib.Tactic.LinearCombination
import Path64.Soe.SubInEqual

/-! # The elimination of the equalities stops

Pugh's step adds a row and a variable, so neither count shows that the
loop of `Sub_In_Equal` ends. What shrinks is the row the step was made
for: substituted and divided by its gcd, it comes back with smaller
coefficients. The 32-bit test and the number of columns are parameters;
with the code's own limits it is the loop of `Path64.Soe.Equality`. -/

namespace Soe

open LinearRow Loop

/-! ## Model -/

/-- The limits: a coefficient too large to be stored, and a number of columns that is full. -/
structure Limits where
  tooLarge : Int → Bool
  full : Nat → Bool

/-- The limits in the source. -/
def codeLimits : Limits where
  tooLarge := fun z => decide (abs64 .exact z > int32Max)
  full := fun cols => decide (cols ≥ maxWorkCols)

/-- There is always another column. -/
def unlimitedCols (tooLarge : Int → Bool) : Limits where
  tooLarge := tooLarge
  full := fun _ => false

/-- Substitute the pivot row into one row; `none` on a coefficient that is too large. -/
def substRowWithin (L : Limits) (i minvar cols : Nat) (pivot : Nat → Int) (pc : Int)
    (row : Nat → Int) (c : Int) : Option ((Nat → Int) × Int) :=
  let mult := row i
  if mult = 0 then some (row, c)
  else if anyCol minvar cols
      (fun j => L.tooLarge (subTmp .exact (fun z => z) mult (row j) (pivot j))) then none
  else some
    (fun j => if j = i then 0
      else if minvar ≤ j ∧ j < cols then subTmp .exact (fun z => z) mult (row j) (pivot j)
      else row j,
     subConst .exact mult c pc)

def substEqRowWithin (L : Limits) (i minvar eqnum eq : Nat) (st : WorkState) :
    Except Unit WorkState :=
  match substRowWithin L i minvar st.workCols (st.workEq eqnum) (st.workConstEq eqnum)
      (st.workEq eq) (st.workConstEq eq) with
  | none => .error ()
  | some (row, c) => .ok { st with
      workEq := Function.update st.workEq eq row
      workConstEq := Function.update st.workConstEq eq c }

def substLeRowWithin (L : Limits) (i minvar eqnum le : Nat) (st : WorkState) :
    Except Unit WorkState :=
  match substRowWithin L i minvar st.workCols (st.workEq eqnum) (st.workConstEq eqnum)
      (st.work le) (st.workConst le) with
  | none => .error ()
  | some (row, c) => .ok { st with
      work := Function.update st.work le row, workConst := Function.update st.workConst le c }

/-- `Sub_Last_Equal_Unary` within the limits. -/
def subLastEqualUnaryWithin (L : Limits) (i minvar : Nat) (st : WorkState) : Except Unit WorkState:=
  let eqnum := st.workRowsEq - 1
  let st₁ := if st.workEq eqnum i = -1 then negateEq .exact eqnum minvar st else st
  match forFrom (substEqRowWithin L i minvar eqnum) eqnum 0 st₁ with
  | .error _ => .error ()
  | .ok st₂ => forFrom (substLeRowWithin L i minvar eqnum) st₂.workRows 0 st₂

def solveLastWithin (L : Limits) (i minvar : Nat) (st : WorkState) : Option (Bool × WorkState):=
  match subLastEqualUnaryWithin L i minvar st with
  | .error _ => none
  | .ok st' => some (false, { st' with workRowsEq := st'.workRowsEq - 1 })

/-- `Add_Work_Var` within the limits. -/
def addWorkVarWithin (L : Limits) (st : WorkState) : Bool × WorkState :=
  if L.full st.workCols then (false, st) else (true, addZeroCol st)

/-- `Sub_Last_Equal` within the limits. -/
def subLastEqualWithin (L : Limits) (st : WorkState) : Option (Bool × WorkState) :=
  let eqnum := st.workRowsEq - 1
  let i := firstVar st
  if i = st.workCols then
    -- no variables constraint
    some (decide (st.workConstEq eqnum ≠ 0), { st with workRowsEq := st.workRowsEq - 1 })
  else if |st.workEq eqnum i| = 1 then solveLastWithin L i i st
  else if |st.workConstEq eqnum|.tmod (lastSmallest st).g ≠ 0 then some (true, st)
  else if |lastPivot st| = 1 then
    solveLastWithin L (lastSmallest st).smallestPos i (lastDivided st)
  else
    some (false, addModRow .exact eqnum (|lastPivot st| + 1)
      (addWorkVarWithin L (lastDivided st)).2)

/-- The loop of `Sub_In_Equal` within the limits. -/
def subLoopWithin (L : Limits) : Nat → WorkState → Option (Option (Bool × WorkState))
  | 0, _ => none
  | fuel + 1, st =>
    if st.workRowsEq > 0 then
      match subLastEqualWithin L st with
      | none => some none
      | some (true, st') => some (some (true, st'))
      | some (false, st') => subLoopWithin L fuel st'
    else some (some (false, st))

theorem solveLastWithin_code (i minvar : Nat) (st : WorkState) :
    solveLastWithin codeLimits i minvar st = solveLast .exact i minvar st := rfl

theorem subLastEqualWithin_code (st : WorkState) :
    subLastEqualWithin codeLimits st = subLastEqual .exact st := by
  have hvar : ∀ t, addWorkVarWithin codeLimits t = addWorkVar t := by
    intro t
    simp only [addWorkVarWithin, addWorkVar, codeLimits, decide_eq_true_eq]
  unfold subLastEqualWithin subLastEqual
  simp only [solveLastWithin_code, hvar, abs32_exact, abs64_exact, exact_i32]
  rfl

theorem subLoopWithin_code (fuel : Nat) : ∀ st : WorkState,
    subLoopWithin codeLimits fuel st = subLoop .exact fuel st := by
  induction fuel with
  | zero => intro st; rfl
  | succ fuel ih =>
    intro st
    unfold subLoopWithin subLoop
    rw [subLastEqualWithin_code]
    split
    · cases subLastEqual .exact st with
      | none => rfl
      | some out =>
        obtain ⟨b, st'⟩ := out
        cases b with
        | true => rfl
        | false => exact ih st'
    · rfl

/-! ## Solving the last row -/

/-- The last row has been solved for `p`, with coefficient `1` or `-1`, and dropped. -/
structure Solved (p : Nat) (st st' : WorkState) : Prop where
  rows : st'.workRowsEq + 1 = st.workRowsEq
  cols : st'.workCols = st.workCols
  eqs : ∀ r < st.workRowsEq - 1, ∀ j < st.workCols, st'.workEq r j = st.workEq r j
    - st.workEq r p * (st.workEq (st.workRowsEq - 1) p * st.workEq (st.workRowsEq - 1) j)

variable {L : Limits} {i minvar cols eqnum k u : Nat} {st t st' : WorkState} {b : Bool} {m n : Int}
  {a : Nat → Int} {tooLarge : Int → Bool}

theorem substRowWithin_sub {p row row' : Nat → Int}
    {pc c c' : Int} (hpi : p i = 1) (hzero : ∀ j < minvar, p j = 0)
    (h : substRowWithin L i minvar cols p pc row c = some (row', c')) :
    RowSub cols i p pc row c row' c' := by
  unfold substRowWithin at h
  dsimp only at h
  split at h
  · next hm =>
    cases h
    exact .kept hm
  · split at h
    · cases h
    · simp only [Option.some.injEq, Prod.mk.injEq] at h
      obtain ⟨rfl, rfl⟩ := h
      refine ⟨fun j hj => ?_, subConst_exact _ _ _⟩
      dsimp only
      split_ifs with hji hrange
      · rw [hji, hpi, mul_one, sub_self]
      · rw [subTmp_exact]
      · rw [hzero j (by omega), mul_zero, sub_zero]

theorem substEqRowWithin_subbed
    (hpi : st.workEq eqnum i = 1) (hzero : ∀ j < minvar, st.workEq eqnum j = 0) (hk : k < eqnum)
    (ht : EqSubbed i (st.workEq eqnum) (st.workConstEq eqnum) st k t) : Outcome (fun _ => True)
      (EqSubbed i (st.workEq eqnum) (st.workConstEq eqnum) st (k + 1))
      (substEqRowWithin L i minvar eqnum k t) := by
  have hcols : t.workCols = st.workCols := by rw [ht.frame]
  unfold substEqRowWithin
  split
  · trivial
  · next row c hres =>
    rw [(ht.same eqnum hk.le).1, (ht.same eqnum hk.le).2, (ht.same k (Nat.le_refl k)).1,
      (ht.same k (Nat.le_refl k)).2, hcols] at hres
    exact ht.next (substRowWithin_sub hpi hzero hres)

theorem substLeRowWithin_frame
    (ht : t = { st with work := t.work, workConst := t.workConst }) : Outcome (fun _ => True)
      (fun t' => t' = { st with work := t'.work, workConst := t'.workConst })
      (substLeRowWithin L i minvar eqnum k t) := by
  unfold substLeRowWithin
  split
  · trivial
  · next row c hres =>
    show _ = _
    conv_lhs => rw [ht]

theorem substLoopsWithin_eqs {st2 st3 : WorkState}
    (hpi : st.workEq eqnum i = 1) (hzero : ∀ j < minvar, st.workEq eqnum j = 0)
    (h2 : forFrom (substEqRowWithin L i minvar eqnum) eqnum 0 st = .ok st2)
    (h3 : forFrom (substLeRowWithin L i minvar eqnum) st2.workRows 0 st2 = .ok st3) :
    st3.workRowsEq = st.workRowsEq ∧ st3.workCols = st.workCols ∧ ∀ r < eqnum, ∀ j < st.workCols,
      st3.workEq r j = st.workEq r j - st.workEq r i * st.workEq eqnum j := by
  have hloop2 := forFrom_outcome (f := substEqRowWithin L i minvar eqnum)
    (Q := fun _ => True)
    (fun k t => EqSubbed i (st.workEq eqnum) (st.workConstEq eqnum) st k t) eqnum 0 st
    (fun k t _ hk ht => substEqRowWithin_subbed hpi hzero (by omega) ht)
    ⟨rfl, fun r hr => absurd hr (Nat.not_lt_zero r), fun _ _ => ⟨rfl, rfl⟩⟩
  rw [h2, Nat.zero_add] at hloop2
  have hf3 := forFrom_outcome (f := substLeRowWithin L i minvar eqnum)
    (Q := fun _ => True)
    (fun _ t => t = { st2 with work := t.work, workConst := t.workConst })
    st2.workRows 0 st2 (fun k t _ _ ht => substLeRowWithin_frame ht) rfl
  rw [h3, outcome_ok] at hf3
  have hf2 := hloop2.frame
  refine ⟨by rw [hf3, hf2], by rw [hf3, hf2], fun r hr j hj => ?_⟩
  rw [hf3]
  exact (hloop2.done r hr).1 j hj

theorem solveLastWithin_solved
    (hp : Pivot i minvar st) (h : solveLastWithin L i minvar st = some (b, st')) :
    b = false ∧ Solved i st st' := by
  obtain ⟨hrows, hcol, habove, hzero, hunit⟩ := hp
  unfold solveLastWithin at h
  split at h
  · cases h
  · next st3 hres =>
    simp only [Option.some.injEq, Prod.mk.injEq] at h
    obtain ⟨rfl, rfl⟩ := h
    refine ⟨rfl, ?_⟩
    unfold subLastEqualUnaryWithin at hres
    dsimp only at hres
    generalize heq : st.workRowsEq - 1 = eqnum at *
    split at hres
    · cases hres
    · next st2 hres2 =>
      by_cases hneg : st.workEq eqnum i = -1
      · -- multiply both sides by -1 first
        rw [if_pos hneg] at hres2
        have hrow := negateEq_row hzero
        have hpi : (negateEq .exact eqnum minvar st).workEq eqnum i = 1 := by
          rw [hrow i hcol, hneg]; ring
        obtain ⟨hre, hce, heqs⟩ := substLoopsWithin_eqs hpi
          (fun j hj => by rw [hrow j (by omega), hzero j hj, neg_zero]) hres2 hres
        have hother : ∀ r < eqnum, (negateEq .exact eqnum minvar st).workEq r = st.workEq r := by
          intro r hr
          have hne : r ≠ eqnum := by omega
          funext j
          simp [negateEq, hne]
        have hre' : st3.workRowsEq = st.workRowsEq := hre
        refine ⟨by show st3.workRowsEq - 1 + 1 = _; omega, hce, fun r hr j hj => ?_⟩
        rw [heq] at hr ⊢
        show st3.workEq r j = _
        rw [heqs r hr j hj, hother r hr, hrow j hj, hneg]
        ring
      · rw [if_neg hneg] at hres2
        have hpi : st.workEq eqnum i = 1 := by
          rcases abs_eq (show (0 : Int) ≤ 1 by omega) |>.mp hunit with h1 | h1
          · exact h1
          · exact absurd h1 hneg
        obtain ⟨hre, hce, heqs⟩ := substLoopsWithin_eqs hpi hzero hres2 hres
        refine ⟨by show st3.workRowsEq - 1 + 1 = _; omega, hce, fun r hr j hj => ?_⟩
        rw [heq] at hr ⊢
        show st3.workEq r j = _
        rw [heqs r hr j hj, hpi, one_mul]

/-! ## The smallest coefficient -/

/-- The position is the first of a smallest coefficient, and the divisor the greatest. -/
structure SmallestMin (row : Nat → Int) (minvar k : Nat) (s : Smallest) : Prop where
  val : s.smallest = |row s.smallestPos|
  least : ∀ j, minvar ≤ j → j < k → row j ≠ 0 → s.smallest ≤ |row j|
  first : ∀ j, minvar ≤ j → j < s.smallestPos → row j ≠ 0 → s.smallest < |row j|
  greatest : ∀ d, (∀ j, minvar ≤ j → j < k → d ∣ row j) → d ∣ s.g

theorem smallestStep_min {row : Nat → Int} {s : Smallest} (hk : minvar ≤ k)
    (hbelow : s.smallestPos < k) (hs : SmallestMin row minvar k s) :
    SmallestMin row minvar (k + 1) (smallestStep .exact row k s) ∧
    (smallestStep .exact row k s).smallestPos < k + 1 := by
  obtain ⟨hval, hleast, hfirst, hgreatest⟩ := hs
  have hdvd : ∀ d, (∀ j, minvar ≤ j → j < k + 1 → d ∣ row j) → d ∣ s.g ∧ d ∣ row k :=
    fun d hd => ⟨hgreatest d (fun j hj hjk => hd j hj (by omega)), hd k hk (by omega)⟩
  unfold smallestStep
  simp only [abs32_exact, gcd32_exact, ne_eq, abs_eq_zero]
  split
  · next hnz =>
    by_cases hlt : |row k| < s.smallest
    · -- a smaller coefficient than all before it
      simp only [hlt, if_true]
      refine ⟨⟨rfl, fun j hj hjk hj0 => ?_, fun j hj hjk hj0 => ?_, fun d hd => ?_⟩, by omega⟩
      · rcases Nat.lt_succ_iff_lt_or_eq.mp hjk with hjk' | rfl
        · exact le_trans hlt.le (hleast j hj hjk' hj0)
        · exact le_refl _
      · exact lt_of_lt_of_le hlt (hleast j hj hjk hj0)
      · exact Int.dvd_coe_gcd (hdvd d hd).1 ((dvd_abs _ _).mpr (hdvd d hd).2)
    · simp only [hlt, if_false]
      refine ⟨⟨hval, fun j hj hjk hj0 => ?_, hfirst, fun d hd => ?_⟩, by omega⟩
      · rcases Nat.lt_succ_iff_lt_or_eq.mp hjk with hjk' | rfl
        · exact hleast j hj hjk' hj0
        · exact not_lt.mp hlt
      · exact Int.dvd_coe_gcd (hdvd d hd).1 ((dvd_abs _ _).mpr (hdvd d hd).2)
  · next hz =>
    rw [not_not] at hz
    refine ⟨⟨hval, fun j hj hjk hj0 => ?_, hfirst, fun d hd => (hdvd d hd).1⟩, by omega⟩
    rcases Nat.lt_succ_iff_lt_or_eq.mp hjk with hjk' | rfl
    · exact hleast j hj hjk' hj0
    · exact absurd hz hj0

theorem findSmallest_min {row : Nat → Int} (hm : minvar < cols) :
    SmallestMin row minvar cols (findSmallest .exact row minvar cols) := by
  have hloop := forEach_inv (f := smallestStep .exact row)
    (fun k s => SmallestMin row minvar k s ∧ s.smallestPos < k) (cols - (minvar + 1))
    (minvar + 1)
    { g := abs32 .exact (row minvar), smallest := abs32 .exact (row minvar),
      smallestPos := minvar }
    (fun k s hk _ hs => smallestStep_min (by omega) hs.2 hs.1)
    ⟨⟨abs32_exact _, fun j hj hjk _ => by
        rw [show j = minvar by omega]; exact (abs32_exact _).le,
      fun j hj hjk => by dsimp only at hjk; omega,
      fun d hd => by
        dsimp only
        rw [abs32_exact]
        exact (dvd_abs _ _).mpr (hd minvar (Nat.le_refl _) (by omega))⟩,
      Nat.lt_succ_self _⟩
  rw [show minvar + 1 + (cols - (minvar + 1)) = cols by omega] at hloop
  exact hloop.1

/-! ## A row with a unit coefficient -/

/-- The last equality. -/
def lastRow (st : WorkState) : Nat → Int := st.workEq (st.workRowsEq - 1)

theorem firstVar_le (hnz : lastRow st u ≠ 0) : firstVar st ≤ u := by
  by_contra hlt
  exact hnz (firstVar_zero st u (by omega))

theorem divideEq_one (eqnum minvar : Nat) (st : WorkState) : divideEq eqnum minvar 1 st = st := by
  simp only [divideEq, Int.tdiv_one, ite_self, Function.update_eq_self]

theorem lastDivided_row (hsome : firstVar st ≠ st.workCols) :
    ∀ j < st.workCols, lastRow st j = (lastSmallest st).g * lastRow (lastDivided st) j := by
  obtain ⟨hlt, hnz⟩ := firstVar_lt hsome
  exact divideEq_row (firstVar_zero st) (findSmallest_ok hlt hnz).dvd

/-- An equation with a unit coefficient is solved by the next step, unless a coefficient grows too
large. -/
theorem unit_step (hrows : 0 < st.workRowsEq) (hu : u < st.workCols) (hunit : |lastRow st u| = 1)
    (h : subLastEqualWithin L st = some (b, st')) :
    b = true ∨ ∃ p ≤ u, |lastRow st p| = 1 ∧ Solved p st st' := by
  have hnz : lastRow st u ≠ 0 := fun h0 => by rw [h0, abs_zero] at hunit; omega
  have hle := firstVar_le hnz
  have hsome : firstVar st ≠ st.workCols := by omega
  obtain ⟨hlt, hfnz⟩ := firstVar_lt hsome
  have hs : SmallestOk (lastRow st) (firstVar st) st.workCols (lastSmallest st) :=
    findSmallest_ok hlt hfnz
  have hmin : SmallestMin (lastRow st) (firstVar st) st.workCols (lastSmallest st) :=
    findSmallest_min hlt
  have hg : (lastSmallest st).g = 1 := by
    have hdvd := (dvd_abs _ _).mpr (hs.dvd u hle hu)
    rw [hunit] at hdvd
    exact Int.eq_one_of_dvd_one hs.pos.le hdvd
  have hdiv : lastDivided st = st := by
    unfold lastDivided
    rw [hg, divideEq_one]
  have hpos : |lastRow st (lastSmallest st).smallestPos| = 1 := by
    have h1 := hmin.least u hle hu hnz
    have h2 := abs_pos.mpr hs.nz
    rw [hmin.val, hunit] at h1
    omega
  unfold subLastEqualWithin at h
  dsimp only at h
  rw [if_neg hsome] at h
  split at h
  · next hone =>
    obtain ⟨rfl, hsol⟩ :=
      solveLastWithin_solved ⟨hrows, hlt, Nat.le_refl _, firstVar_zero st, hone⟩ h
    exact .inr ⟨_, hle, hone, hsol⟩
  · split at h
    · simp only [Option.some.injEq, Prod.mk.injEq] at h
      exact .inl h.1.symm
    · have hlast : |lastPivot st| = 1 := by
        unfold lastPivot
        rw [hdiv]
        exact hpos
      rw [if_pos hlast, hdiv] at h
      obtain ⟨rfl, hsol⟩ :=
        solveLastWithin_solved ⟨hrows, hs.below, hs.above, firstVar_zero st, hpos⟩ h
      refine .inr ⟨_, ?_, hpos, hsol⟩
      by_contra hgt
      have hfirst := hmin.first u hle (by omega) hnz
      rw [hmin.val, hpos, hunit] at hfirst
      omega

/-! ## Pugh's step and the round after it -/

/-- Every coefficient is at most `n` in size, and at most `m` before the last column. -/
def CoeffsWithin (m n : Int) (cols : Nat) (c : Nat → Int) : Prop :=
  ∀ j < cols, |c j| ≤ n ∧ (j + 1 < cols → |c j| ≤ m)

/-- The row is a multiple of one with coefficients that small. -/
def RowScaled (m n : Int) (cols : Nat) (row : Nat → Int) : Prop :=
  ∃ t c, (∀ j < cols, row j = t * c j) ∧ CoeffsWithin m n cols c

theorem CoeffsWithin.of_gcd {g t : Int} {c : Nat → Int} (hg : 0 < g)
    (hrow : ∀ j < cols, g * a j = t * c j) (hgreatest : ∀ d, (∀ j < cols, d ∣ g * a j) → d ∣ g)
    (hc : CoeffsWithin m n cols c) : CoeffsWithin m n cols a := by
  obtain ⟨q, hq⟩ := hgreatest t (fun j hj => ⟨c j, hrow j hj⟩)
  have hle : ∀ j < cols, |a j| ≤ |c j| := by
    intro j hj
    have ht : t ≠ 0 := fun h0 => by rw [h0, zero_mul] at hq; omega
    have hq0 : q ≠ 0 := fun h0 => by rw [h0, mul_zero] at hq; omega
    have hcj : c j = q * a j := by
      apply mul_left_cancel₀ ht
      rw [← hrow j hj, hq, mul_assoc]
    rw [hcj, abs_mul]
    exact le_mul_of_one_le_left (abs_nonneg _) (Int.one_le_abs hq0)
  exact fun j hj => ⟨(hle j hj).trans (hc j hj).1, fun hlast => (hle j hj).trans ((hc j hj).2 hlast)⟩

theorem abs_modHat_succ {a : Int} (hm : |a| + 1 = m) (h2 : 2 ≤ |a|) :
    |modHat .exact a m| = 1 := by
  rw [modHat_eq_floor a (by omega)]
  rcases abs_cases a with ⟨ha, _⟩ | ⟨ha, _⟩
  · have hq : (2 * a + m) / (2 * m) = 1 := by
      rw [Int.ediv_eq_iff_of_pos (by omega)]
      omega
    rw [hq, ← hm, ha, show a - (a + 1) * 1 = -1 by ring, abs_neg, abs_one]
  · have hq : (2 * a + m) / (2 * m) = -1 := by
      rw [Int.ediv_eq_iff_of_pos (by omega)]
      omega
    rw [hq, ← hm, ha, show a - (-a + 1) * -1 = 1 by ring, abs_one]

theorem shrink {a b d q : Int} (hm : 3 ≤ m) (hn : 0 < n) (ha : |a| ≤ n) (hq : |q| ≤ n)
    (hd : 2 * |d| ≤ m) (hb : m * b = a + q * d) : |b| < n := by
  by_contra hge
  have hsize : m * |b| ≤ n + n * |d| := by
    calc m * |b| = |m * b| := by rw [abs_mul, abs_of_pos (show 0 < m by omega)]
      _ ≤ |a| + |q * d| := by rw [hb]; exact abs_add_le _ _
      _ ≤ n + n * |d| := by
        rw [abs_mul]
        exact add_le_add ha (mul_le_mul_of_nonneg_right hq (abs_nonneg _))
  have hlow : m * n ≤ m * |b| := mul_le_mul_of_nonneg_left (not_lt.mp hge) (by omega)
  have hhigh : n * (2 * |d|) ≤ n * m := mul_le_mul_of_nonneg_left hd hn.le
  have hthree : 3 * n ≤ m * n := mul_le_mul_of_nonneg_right hm hn.le
  linarith [mul_comm n m, mul_left_comm n 2 |d|]

/-- The arithmetic of one round: the bound on the coefficients goes down by one. -/
theorem round_scaled {mm : Int} {p : Nat} {row : Nat → Int}
    (ha : CoeffsWithin m n cols a) (hmn : m ≤ n) (hnm : n ≤ m + 1) (hn : 0 < n) (hmm : 3 ≤ mm)
    (hap : |a p| ≤ m) (hunit : |modHat .exact (a p) mm| = 1) (hold : ∀ j < cols, row j = a j
      - a p * (-modHat .exact (a p) mm * -modHat .exact (a j) mm))
    (hnew : row cols = -(a p * (-modHat .exact (a p) mm * mm))) :
    RowScaled (n - 1) m (cols + 1) row := by
  have hsq : modHat .exact (a p) mm * modHat .exact (a p) mm = 1 := by
    rw [← abs_mul_abs_self, hunit, one_mul]
  obtain ⟨h, hh⟩ : ∃ h : Nat → Int, ∀ j, a j = modHat .exact (a j) mm + mm * h j :=
    ⟨fun j => _, fun j => (modHat_exact (a j) mm).choose_spec⟩
  generalize hs : modHat .exact (a p) mm = s at *
  have habs : |a p * s| = |a p| := by rw [abs_mul, hunit, mul_one]
  have hsap : a p * s = 1 + mm * (h p * s) := by
    conv_lhs => rw [hh p, hs]
    linear_combination hsq
  refine ⟨mm, fun j => if j = cols then a p * s else h j - h p * s * modHat .exact (a j) mm,
    fun j hj => ?_, fun j hj => ?_⟩
  · dsimp only
    by_cases hjc : j = cols
    · rw [hjc, hnew, if_pos rfl]; ring
    · rw [if_neg hjc, hold j (by omega)]
      linear_combination (-modHat .exact (a j) mm) * hsap + hh j
  · dsimp only
    by_cases hjc : j = cols
    · rw [if_pos hjc, habs]
      exact ⟨hap, fun hlt => by omega⟩
    · have hlt := ha j (by omega)
      have hb := modHat_bounds (a j) (show 0 < mm by omega)
      have hd : 2 * |modHat .exact (a j) mm| ≤ mm := by
        rcases abs_cases (modHat .exact (a j) mm) with ⟨h1, _⟩ | ⟨h1, _⟩ <;> omega
      have hsmall := shrink (b := h j - h p * s * modHat .exact (a j) mm)
        (q := -(a p * s)) hmm hn hlt.1 (by rw [abs_neg, habs]; omega) hd
        (by linear_combination (modHat .exact (a j) mm) * hsap - hh j)
      rw [if_neg hjc]
      exact ⟨by omega, fun _ => by omega⟩

/-! ## Termination -/

/-- Pugh's step has been made. -/
structure ModStep (st st' : WorkState) : Prop where
  some : firstVar st ≠ st.workCols
  pivot : |lastPivot st| ≠ 1
  result : st' = addModRow .exact (st.workRowsEq - 1) (|lastPivot st| + 1)
    (addZeroCol (lastDivided st))

/-- What one step can do: give up, drop the last equation, or add a row of remainders. -/
theorem step_cases (hrows : 0 < st.workRowsEq)
    (h : subLastEqualWithin (unlimitedCols tooLarge) st = some (b, st')) :
    b = true ∨ st'.workRowsEq + 1 = st.workRowsEq ∨ ModStep st st' := by
  unfold subLastEqualWithin at h
  dsimp only at h
  split at h
  · simp only [Option.some.injEq, Prod.mk.injEq] at h
    obtain ⟨-, rfl⟩ := h
    exact .inr (.inl (show st.workRowsEq - 1 + 1 = _ by omega))
  · next hsome =>
    obtain ⟨hlt, hnz⟩ := firstVar_lt hsome
    split at h
    · next hone =>
      obtain ⟨-, hsol⟩ :=
        solveLastWithin_solved ⟨hrows, hlt, Nat.le_refl _, firstVar_zero st, hone⟩ h
      exact .inr (.inl hsol.rows)
    · have hs := findSmallest_ok hlt hnz
      split at h
      · simp only [Option.some.injEq, Prod.mk.injEq] at h
        exact .inl h.1.symm
      · split at h
        · next hone =>
          have hpiv : Pivot (lastSmallest st).smallestPos (firstVar st) (lastDivided st) := by
            refine ⟨hrows, hs.below, hs.above, fun j hj => ?_, hone⟩
            show (if _ then _ else st.workEq (st.workRowsEq - 1) j) = 0
            rw [if_neg (by omega)]
            exact firstVar_zero st j hj
          obtain ⟨-, hsol⟩ := solveLastWithin_solved hpiv h
          exact .inr (.inl hsol.rows)
        · next hone =>
          simp only [Option.some.injEq, Prod.mk.injEq] at h
          exact .inr (.inr ⟨hsome, hone, h.2.symm⟩)

theorem modStep_rows (hrows : 0 < st.workRowsEq) (h : ModStep st st') :
    st'.workRowsEq = st.workRowsEq + 1 ∧ st'.workCols = st.workCols + 1 ∧
    (∀ j < st.workCols, lastRow st' j
      = -modHat .exact (lastRow (lastDivided st) j) (|lastPivot st| + 1)) ∧
    lastRow st' st.workCols = |lastPivot st| + 1 ∧
    (∀ j < st.workCols, st'.workEq (st.workRowsEq - 1) j = lastRow (lastDivided st) j) ∧
    st'.workEq (st.workRowsEq - 1) st.workCols = 0 := by
  have hnew : st.workRowsEq + 1 - 1 = st.workRowsEq - 1 + 1 := by omega
  have hlt : st.workRowsEq - 1 < st.workRowsEq := by omega
  have hne : st.workRowsEq - 1 ≠ st.workRowsEq - 1 + 1 := by omega
  have hrowsD : (lastDivided st).workRowsEq = st.workRowsEq := rfl
  have hcolsD : (lastDivided st).workCols = st.workCols := rfl
  rw [h.result]
  refine ⟨rfl, rfl, fun j hj => ?_, ?_, fun j hj => ?_, ?_⟩
  · have hjc : j ≠ st.workCols := Nat.ne_of_lt hj
    simp [lastRow, addModRow, addZeroCol, hrowsD, hcolsD, hnew, hjc, hj]
  · simp [lastRow, addModRow, addZeroCol, hrowsD, hcolsD, hnew]
  · have hjc : j ≠ st.workCols := Nat.ne_of_lt hj
    simp [lastRow, addModRow, addZeroCol, hrowsD, hcolsD, hjc]
  · simp [addModRow, addZeroCol, hrowsD, hcolsD, hlt]

/-- A row of remainders and the unit step after it: as many equations as before, with a lower bound
on the coefficients. -/
theorem modStep_round {st'' : WorkState} (hrows : 0 < st.workRowsEq) (hmod : ModStep st st')
    (hrow : RowScaled m n st.workCols (lastRow st)) (hmn : m ≤ n) (hnm : n ≤ m + 1)
    (h : subLastEqualWithin L st' = some (b, st'')) :
    0 < n ∧ (b = true ∨ st''.workRowsEq = st.workRowsEq ∧
      RowScaled (n - 1) m st''.workCols (lastRow st'')) := by
  obtain ⟨hrows', hcols', hnew, hnewLast, hold, holdLast⟩ := modStep_rows hrows hmod
  obtain ⟨hlt, hfnz⟩ := firstVar_lt hmod.some
  have hs : SmallestOk (lastRow st) (firstVar st) st.workCols (lastSmallest st) :=
    findSmallest_ok hlt hfnz
  have hmin : SmallestMin (lastRow st) (firstVar st) st.workCols (lastSmallest st) :=
    findSmallest_min hlt
  have hdiv := lastDivided_row hmod.some
  have hzero : ∀ j < firstVar st, lastRow st j = 0 := firstVar_zero st
  generalize ha : lastRow (lastDivided st) = a at *
  generalize hk : (lastSmallest st).smallestPos = k at *
  have hak : lastPivot st = a k := by rw [← ha, ← hk]; rfl
  have hsabove := hs.above
  have hsbelow := hs.below
  have hsnz := hs.nz
  rw [hk] at hsabove hsbelow hsnz
  have hsize : CoeffsWithin m n st.workCols a := by
    obtain ⟨t, c, hc, hwithin⟩ := hrow
    refine hwithin.of_gcd hs.pos (fun j hj => by rw [← hdiv j hj, hc j hj]) (fun d hd => ?_)
    exact hmin.greatest d (fun j _ hj => by rw [hdiv j hj]; exact hd j hj)
  have hak0 : a k ≠ 0 := fun h0 => hsnz (by rw [hdiv k hsbelow, h0, mul_zero])
  have htwo : 2 ≤ |a k| := by
    have h1 := hmod.pivot
    have h2 := Int.one_le_abs hak0
    rw [hak] at h1
    omega
  have hn : 0 < n := by
    have := (hsize k hsbelow).1
    omega
  have hother : ∃ j, firstVar st ≤ j ∧ j < st.workCols ∧ j ≠ k ∧ lastRow st j ≠ 0 := by
    -- alone in its row the coefficient would have been divided down to a unit
    by_contra hnone
    have honly : ∀ j < st.workCols, lastRow st k ∣ lastRow st j := by
      intro j hj
      by_cases hj0 : lastRow st j = 0
      · rw [hj0]; exact dvd_zero _
      · have hjk : j = k := by
          by_contra hjk
          exact hnone ⟨j, firstVar_le hj0, hj, hjk, hj0⟩
        rw [hjk]
    have hdvd := hmin.greatest (lastRow st k) (fun j _ hj => honly j hj)
    rw [hdiv k hsbelow] at hdvd
    have hone := Int.le_of_dvd hs.pos ((abs_dvd _ _).mpr hdvd)
    rw [abs_mul, abs_of_pos hs.pos] at hone
    have hpos := hs.pos
    nlinarith
  -- each coefficient up to the pivot is within the lower bound
  have hapm : ∀ p ≤ k, |a p| ≤ m := by
    intro p hpk
    by_cases hp : p + 1 < st.workCols
    · exact (hsize p (by omega)).2 hp
    · -- the last column holds the smallest coefficient, and there is another
      obtain ⟨j, hjf, hjc, hjk, hj0⟩ := hother
      have hpk' : p = k := by omega
      have hle := hmin.least j hjf hjc hj0
      have hpos := hs.pos
      rw [hmin.val, hk, hdiv j hjc, hdiv k hsbelow, abs_mul, abs_mul] at hle
      have hle' := le_of_mul_le_mul_left hle (abs_pos.mpr hpos.ne')
      rw [hpk']
      exact hle'.trans ((hsize j hjc).2 (by omega))
  have hunit : |lastRow st' k| = 1 := by
    rw [hnew k hsbelow, abs_neg, hak]
    exact abs_modHat_succ rfl htwo
  refine ⟨hn, ?_⟩
  rcases unit_step (by omega) (by omega) hunit h with hb | ⟨p, hpk, hpunit, hsol⟩
  · exact .inl hb
  · refine .inr ⟨by have := hsol.rows; omega, ?_⟩
    have hlast'' : st''.workRowsEq - 1 = st.workRowsEq - 1 := by have := hsol.rows; omega
    rw [hsol.cols, hcols']
    have heqs : ∀ j < st.workCols + 1, lastRow st'' j = st'.workEq (st.workRowsEq - 1) j
        - st'.workEq (st.workRowsEq - 1) p * (lastRow st' p * lastRow st' j) := by
      intro j hj
      unfold lastRow
      rw [hlast'']
      exact hsol.eqs _ (by omega) j (by omega)
    rw [hnew p (by omega), abs_neg] at hpunit
    refine round_scaled hsize hmn hnm hn (show 3 ≤ |lastPivot st| + 1 by rw [hak]; omega)
      (hapm p hpk) hpunit (fun j hj => ?_) ?_
    · rw [heqs j (by omega), hold j hj, hold p (by omega), hnew j hj, hnew p (by omega)]
    · rw [heqs _ (by omega), holdLast, hold p (by omega), hnewLast, hnew p (by omega), zero_sub]

theorem subLoopWithin_succ (fuel : Nat) : ∀ {st : WorkState} {out},
    subLoopWithin L fuel st = some out → subLoopWithin L (fuel + 1) st = some out := by
  induction fuel with
  | zero => intro st out h; cases h
  | succ fuel ih =>
    intro st out h
    rw [subLoopWithin] at h ⊢
    split at h
    · next hrows =>
      rw [if_pos hrows]
      split at h
      · exact h
      · exact h
      · exact ih h
    · next hrows => rw [if_neg hrows]; exact h

theorem subLoopWithin_mono {fuel fuel' : Nat} {out}
    (hle : fuel ≤ fuel') (h : subLoopWithin L fuel st = some out) :
    subLoopWithin L fuel' st = some out := by
  induction hle with
  | refl => exact h
  | step _ ih => exact subLoopWithin_succ _ ih

/-- The loop ends from `st`. -/
def Ends (L : Limits) (st : WorkState) : Prop :=
  ∃ fuel out, subLoopWithin L fuel st = some out

theorem Ends.of_step
    (h : ∀ st', subLastEqualWithin L st = some (false, st') → Ends L st') : Ends L st := by
  by_cases hrows : st.workRowsEq > 0
  · cases hstep : subLastEqualWithin L st with
    | none => exact ⟨1, none, by rw [subLoopWithin, if_pos hrows, hstep]⟩
    | some res =>
      obtain ⟨b, st'⟩ := res
      cases b with
      | true => exact ⟨1, some (true, st'), by rw [subLoopWithin, if_pos hrows, hstep]⟩
      | false =>
        obtain ⟨fuel, out, hout⟩ := h st' hstep
        exact ⟨fuel + 1, out, by rw [subLoopWithin, if_pos hrows, hstep]; exact hout⟩
  · exact ⟨1, some (false, st), by rw [subLoopWithin, if_neg hrows]⟩

theorem exists_rowScaled (cols : Nat) (row : Nat → Int) : ∃ n, 0 ≤ n ∧ RowScaled n n cols row:= by
  refine ⟨∑ j ∈ Finset.range cols, |row j|, Finset.sum_nonneg (fun _ _ => abs_nonneg _), 1, row,
    fun j _ => (one_mul _).symm, fun j hj => ?_⟩
  have hle := Finset.single_le_sum (f := fun j => |row j|) (fun _ _ => abs_nonneg _)
    (Finset.mem_range.mpr hj)
  exact ⟨hle, fun _ => hle⟩

/-- With `rows` rows below it the last row comes back finitely often, each time smaller. -/
theorem ends_lastRow {rows : Nat}
    (hbelow : ∀ st : WorkState, st.workRowsEq = rows → Ends (unlimitedCols tooLarge) st)
    (k : Nat) : ∀ (m n : Int) (st : WorkState), (m + n).toNat = k → m ≤ n → n ≤ m + 1 →
      st.workRowsEq = rows + 1 → RowScaled m n st.workCols (lastRow st) →
      Ends (unlimitedCols tooLarge) st := by
  induction k using Nat.strong_induction_on with
  | _ k ih =>
    intro m n st hk hmn hnm hst hrow
    refine Ends.of_step (fun st' hstep => ?_)
    rcases step_cases (by omega) hstep with hb | hdrop | hmod
    · cases hb
    · exact hbelow st' (by omega)
    · refine Ends.of_step (fun st'' hstep' => ?_)
      obtain ⟨hn, hb | ⟨hrows', hrow'⟩⟩ :=
        modStep_round (by omega) hmod hrow hmn hnm hstep'
      · cases hb
      · exact ih (n - 1 + m).toNat (by omega) (n - 1) m st'' rfl (by omega) (by omega)
          (by omega) hrow'

theorem ends_rows (rows : Nat) : ∀ st : WorkState,
    st.workRowsEq = rows → Ends (unlimitedCols tooLarge) st := by
  induction rows with
  | zero =>
    intro st hst
    exact ⟨1, some (false, st), by rw [subLoopWithin, if_neg (by omega)]⟩
  | succ rows ih =>
    intro st hst
    obtain ⟨n, hn, hrow⟩ := exists_rowScaled st.workCols (lastRow st)
    exact ends_lastRow ih _ n n st rfl (le_refl _) (by omega) hst hrow

/-- The loop of `Sub_In_Equal` ends from every state: in exact arithmetic, with no limit to the
columns and rows, and whatever coefficients are taken to be too large. -/
theorem subLoop_terminates (tooLarge : Int → Bool) (st : WorkState) :
    ∃ steps out, ∀ fuel ≥ steps, subLoopWithin (unlimitedCols tooLarge) fuel st = some out := by
  have hends : Ends (unlimitedCols tooLarge) st := ends_rows st.workRowsEq st rfl
  obtain ⟨steps, out, h⟩ := hends
  exact ⟨steps, out, fun fuel hf => subLoopWithin_mono hf h⟩

end Soe
