import Path64.Soe.Equality

/-! # `Sub_In_Equal` in machine arithmetic

The elimination of `Path64.Soe.Equality` is exact; the code runs in 32
and 64 bits. `StepFits` says of the state before a step that no value
of that step leaves its type and that Pugh's extra variable has a free
column and a free row. -/

namespace Soe

open Nat Int Function LinearRow Loop

/-! ## Values that fit -/

variable {z g a b mult : Int} {st1 st0 : WorkState}

theorem machine_i32 (h : Fits32 z) : Arith.machine.i32 z = z := by
  obtain ⟨hlo, hhi⟩ := h
  unfold int32Min at hlo
  unfold int32Max at hhi
  exact bmod_eq_of_le (by omega) (by omega)

theorem machine_i64 (h : Fits64 z) : Arith.machine.i64 z = z := by
  obtain ⟨hlo, hhi⟩ := h
  exact bmod_eq_of_le (by omega) (by omega)

theorem machine_i32_fits (z : Int) : Fits32 (Arith.machine.i32 z) := by
  have hlo : -((2 : Int) ^ 32) / 2 ≤ Int.bmod z (2 ^ 32) := le_bmod (by decide)
  have hhi : Int.bmod z (2 ^ 32) < ((2 : Int) ^ 32 + 1) / 2 := bmod_lt (by decide)
  unfold Fits32 int32Min int32Max
  show _ ≤ Int.bmod z (2 ^ 32) ∧ Int.bmod z (2 ^ 32) ≤ _
  omega

theorem machine_i64_fits (z : Int) : Fits64 (Arith.machine.i64 z) := by
  have hlo : -((2 : Int) ^ 64) / 2 ≤ Int.bmod z (2 ^ 64) := le_bmod (by decide)
  have hhi : Int.bmod z (2 ^ 64) < ((2 : Int) ^ 64 + 1) / 2 := bmod_lt (by decide)
  unfold Fits64
  show _ ≤ Int.bmod z (2 ^ 64) ∧ Int.bmod z (2 ^ 64) ≤ _
  omega

theorem i32_i64 (z : Int) : Arith.machine.i32 (Arith.machine.i64 z) = Arith.machine.i32 z :=
  bmod_bmod_of_dvd (by decide)

theorem abs32_machine (h : Fits32 z) (hmin : z ≠ int32Min) : abs32 .machine z = |z|:= by
  unfold abs32
  split
  · next hneg =>
    rw [abs_of_neg hneg]
    unfold Fits32 int32Min int32Max at *
    exact machine_i32 ⟨by unfold int32Min; omega, by unfold int32Max; omega⟩
  · next hneg => rw [abs_of_nonneg (by omega)]

/-- `abs(INT32_MIN)` stays negative, so it is never taken for 1. -/
theorem abs32_machine_eq_one (h : Fits32 z) : abs32 .machine z = 1 ↔ |z| = 1:= by
  by_cases hmin : z = int32Min
  · subst hmin; decide
  · rw [abs32_machine h hmin]

theorem abs32_machine_le (h : Fits32 z) : abs32 .machine z ≤ int32Max := by
  unfold abs32
  split
  · exact (machine_i32_fits (-z)).2
  · exact h.2

/-- `abs` of an `INT64` is taken of its low 32 bits, so no range check on it ever fails. -/
theorem abs64_machine_le (z : Int) : abs64 .machine z ≤ int32Max :=
  abs32_machine_le (machine_i32_fits z)

theorem dvd_abs64_machine (z : Int) : g ∣ abs64 .machine z ↔ g ∣ Arith.machine.i32 z := by
  have hfits := machine_i32_fits z
  unfold abs64
  by_cases hmin : Arith.machine.i32 z = int32Min
  · rw [hmin]
    exact Iff.rfl
  · rw [abs32_machine hfits hmin, dvd_abs]

theorem anyCol_abs64 (lo hi : Nat) (f : Nat → Int) :
    anyCol lo hi (fun j => decide (abs64 .machine (f j) > int32Max)) = false :=
  anyCol_eq_false.mpr fun j _ _ =>
    decide_eq_false (not_lt.mpr (abs64_machine_le (f j)))

theorem gcd32_machine (ha : 0 ≤ a) (hb : 0 ≤ b) : gcd32 .machine a b = gcd32 .exact a b := by
  have habs : ∀ (ar : Arith) {z : Int}, 0 ≤ z → abs32 ar z = z :=
    fun ar z hz => if_neg (by omega)
  unfold gcd32
  simp only [habs _ ha, habs _ hb]

theorem tdiv_fits {lo hi : Int} (hlo : lo ≤ 0) (hhi : 0 ≤ hi) (hg : 0 < g)
    (h : lo ≤ z ∧ z ≤ hi) : lo ≤ z.tdiv g ∧ z.tdiv g ≤ hi := by
  rcases le_total 0 z with hz | hz
  · have h1 : 0 ≤ z.tdiv g := Int.tdiv_nonneg hz hg.le
    have h2 : z.tdiv g ≤ z := Int.tdiv_le_self g hz
    omega
  · have h1 : 0 ≤ (-z).tdiv g := Int.tdiv_nonneg (by omega) hg.le
    have h2 : (-z).tdiv g ≤ -z := Int.tdiv_le_self g (by omega)
    rw [Int.neg_tdiv] at h1 h2
    omega

theorem modHat_eq_floor (a : Int) {m : Int} (hm : 0 < m) :
    modHat .exact a m = a - m * ((2 * a + m) / (2 * m)) := by
  show a - m * (if (2 * a + m ≥ 0 ∧ 2 * m > 0) ∨ (2 * a + m ≤ 0 ∧ 2 * m < 0) then
      (2 * a + m).tdiv (2 * m)
    else if (2 * a + m).tmod (2 * m) = 0 then (2 * a + m).tdiv (2 * m)
    else (2 * a + m).tdiv (2 * m) - 1) = _
  congr 2
  split_ifs with hsign hdvd
  · exact CDiv.tdiv_of_nonneg_or_dvd (c := 2 * a + m) (a := 2 * m) (.inl (by omega))
  · exact CDiv.tdiv_of_nonneg_or_dvd (.inr hdvd)
  · rw [CDiv.tdiv_of_neg (by omega) (by omega)]
    omega

theorem modHat_bounds (a : Int) {m : Int} (hm : 0 < m) :
    -m ≤ 2 * modHat .exact a m ∧ 2 * modHat .exact a m < m := by
  rw [modHat_eq_floor a hm]
  have h1 := emod_nonneg (2 * a + m) (show 2 * m ≠ 0 by omega)
  have h2 := emod_lt_of_pos (2 * a + m) (show 0 < 2 * m by omega)
  have h3 := emod_add_mul_ediv (2 * a + m) (2 * m)
  rw [mul_assoc] at h3
  omega

theorem modHat_machine {m : Int} (hm : 0 < m) (hden : Fits32 (2 * m))
    (hnum : Fits32 (2 * a + m)) : modHat .machine a m = modHat .exact a m := by
  have hb := modHat_bounds a hm
  have hfits : Fits32 (modHat .exact a m) := by
    unfold Fits32 int32Min int32Max at *
    omega
  have hin : Arith.machine.i32 (Arith.machine.i32 (2 * a) + m) = 2 * a + m := by
    show Int.bmod (Int.bmod (2 * a) _ + m) _ = _
    rw [bmod_add_bmod]
    exact machine_i32 hnum
  have hout : ∀ f, Arith.machine.i32 (a - Arith.machine.i32 (m * f))
      = Arith.machine.i32 (a - m * f) := fun f => sub_bmod_bmod
  unfold modHat at hfits ⊢
  simp only [hin, machine_i32 hden, hout, exact_i32] at hfits ⊢
  exact machine_i32 hfits

/-! ## The condition on a step -/

/-- Every coefficient and every constant in use has its C type. -/
structure Typed (st : WorkState) : Prop where
  le : ∀ r < st.workRows, (∀ j < st.workCols, Fits32 (st.work r j)) ∧ Fits64 (st.workConst r)
  eq : ∀ r < st.workRowsEq,
    (∀ j < st.workCols, Fits32 (st.workEq r j)) ∧ Fits64 (st.workConstEq r)

/-- The last equality with the coefficient of `i` made positive. -/
def pivotRow (i : Nat) (st : WorkState) (j : Nat) : Int :=
  if st.workEq (st.workRowsEq - 1) i = -1 then -st.workEq (st.workRowsEq - 1) j
  else st.workEq (st.workRowsEq - 1) j

def pivotConst (i : Nat) (st : WorkState) : Int :=
  if st.workEq (st.workRowsEq - 1) i = -1 then -st.workConstEq (st.workRowsEq - 1)
  else st.workConstEq (st.workRowsEq - 1)

/-- A row less a multiple of the pivot: the constant fits, and the coefficients are in the range
that the code means to check. -/
structure CombFits (i minvar cols : Nat) (p : Nat → Int) (pc : Int) (row : Nat → Int) (c : Int) :
    Prop where
  coefs : row i ≠ 0 → ∀ j < cols, minvar ≤ j → |row j - row i * p j| ≤ int32Max
  const : Fits64 (c - row i * pc)

/-- Nothing overflows in `Sub_Last_Equal_Unary`. -/
structure UnaryFits (i minvar : Nat) (st : WorkState) : Prop where
  row : ∀ j < st.workCols, minvar ≤ j → Fits32 (pivotRow i st j)
  const : Fits64 (pivotConst i st)
  eqs : ∀ r < st.workRowsEq - 1, CombFits i minvar st.workCols (pivotRow i st) (pivotConst i st)
    (st.workEq r) (st.workConstEq r)
  les : ∀ r < st.workRows, CombFits i minvar st.workCols (pivotRow i st) (pivotConst i st)
    (st.work r) (st.workConst r)

/-- Pugh's step has room, and nothing overflows in `Mod_Hat`. -/
structure ModFits (m : Int) (st : WorkState) : Prop where
  cols : st.workCols < maxWorkCols
  rows : st.workRowsEq < maxWorkRowsEq
  den : Fits32 (2 * m)
  row : ∀ j < st.workCols, Fits32 (2 * st.workEq (st.workRowsEq - 1) j + m)
  const : Fits32 (st.workConstEq (st.workRowsEq - 1)) ∧
    Fits32 (2 * st.workConstEq (st.workRowsEq - 1) + m)

/-- What the step from `st` needs, branch by branch. -/
def StepFits (st : WorkState) : Prop :=
  if firstVar st = st.workCols then True
  else if |st.workEq (st.workRowsEq - 1) (firstVar st)| = 1 then
    UnaryFits (firstVar st) (firstVar st) st
  else
    (∀ j < st.workCols, firstVar st ≤ j → st.workEq (st.workRowsEq - 1) j ≠ int32Min) ∧
    -- the gcd test sees the low 32 bits of the constant
    ((lastSmallest st).g ∣ Arith.machine.i32 (st.workConstEq (st.workRowsEq - 1)) ↔
      (lastSmallest st).g ∣ st.workConstEq (st.workRowsEq - 1)) ∧
    ((lastSmallest st).g ∣ st.workConstEq (st.workRowsEq - 1) →
      if |lastPivot st| = 1 then
        UnaryFits (lastSmallest st).smallestPos (firstVar st) (lastDivided st)
      else ModFits (|lastPivot st| + 1) (lastDivided st))

instance (i minvar cols : Nat) (p : Nat → Int) (pc : Int) (row : Nat → Int) (c : Int) :
    Decidable (CombFits i minvar cols p pc row c) :=
  decidable_of_iff (_ ∧ _) ⟨fun ⟨h1, h2⟩ => ⟨h1, h2⟩, fun ⟨h1, h2⟩ => ⟨h1, h2⟩⟩

instance (i minvar : Nat) (st : WorkState) : Decidable (UnaryFits i minvar st) :=
  decidable_of_iff (_ ∧ _ ∧ _ ∧ _)
    ⟨fun ⟨h1, h2, h3, h4⟩ => ⟨h1, h2, h3, h4⟩, fun ⟨h1, h2, h3, h4⟩ => ⟨h1, h2, h3, h4⟩⟩

instance (m : Int) (st : WorkState) : Decidable (ModFits m st) :=
  decidable_of_iff (_ ∧ _ ∧ _ ∧ _ ∧ _)
    ⟨fun ⟨h1, h2, h3, h4, h5⟩ => ⟨h1, h2, h3, h4, h5⟩,
      fun ⟨h1, h2, h3, h4, h5⟩ => ⟨h1, h2, h3, h4, h5⟩⟩

instance (st : WorkState) : Decidable (StepFits st) := by
  unfold StepFits
  infer_instance

/-! ## One row -/

section Row

variable {i minvar cols : Nat} {p row : Nat → Int} {pc c : Int} {prod : Int → Int}

theorem product_fits (ha : Fits32 a) (hb : Fits32 b) (hz : Fits32 z) :
    Fits64 (a * b) ∧ Fits64 (z - a * b) ∧ Fits64 (-(z - a * b)) := by
  have hab : |a * b| ≤ 2147483648 * 2147483648 := by
    rw [abs_mul]
    unfold Fits32 int32Min int32Max at ha hb
    exact mul_le_mul (abs_le.mpr ⟨by omega, by omega⟩) (abs_le.mpr ⟨by omega, by omega⟩)
      (abs_nonneg _) (by omega)
  obtain ⟨h1, h2⟩ := abs_le.mp hab
  unfold Fits32 int32Min int32Max at hz
  unfold Fits64
  omega

/-- A column stores its exact value modulo `2 ^ 32`, whatever the width of the product. -/
theorem i32_subTmp (hprod : ∀ z, Arith.machine.i32 (prod z) = Arith.machine.i32 z) (mult a b : Int) :
    Arith.machine.i32 (subTmp .machine prod mult a b) = Arith.machine.i32 (a - mult * b) := by
  have hsub : ∀ w, Arith.machine.i32 (a - w) = Arith.machine.i32 (a - Arith.machine.i32 w) :=
    fun w => sub_bmod_bmod.symm
  unfold subTmp
  split_ifs with h1 h2
  · rw [i32_i64, h1, one_mul]
  · rw [i32_i64, h2, neg_one_mul, sub_neg_eq_add]
  · rw [i32_i64, hsub, hprod, ← hsub]

theorem subConst_machine (hfit : Fits64 (c - mult * pc)) :
    subConst .machine mult c pc = c - mult * pc := by
  unfold subConst
  split_ifs with h1 h2
  · subst h1
    rw [one_mul] at hfit ⊢
    exact machine_i64 hfit
  · subst h2
    rw [neg_one_mul, sub_neg_eq_add] at hfit ⊢
    exact machine_i64 hfit
  · show Int.bmod (c - Int.bmod (mult * pc) _) _ = _
    rw [sub_bmod_bmod]
    exact machine_i64 hfit

theorem CombFits.congr {q : Nat → Int} (h : CombFits i minvar cols p pc row c)
    (hq : ∀ j < cols, q j = p j) : CombFits i minvar cols q pc row c :=
  ⟨fun h0 j hj hlo => by rw [hq j hj]; exact h.coefs h0 j hj hlo, h.const⟩

theorem fits32_of_abs (h : |z| ≤ int32Max) : Fits32 z := by
  obtain ⟨hlo, hhi⟩ := abs_le.mp h
  exact ⟨by unfold int32Min int32Max at *; omega, hhi⟩

theorem substRow_machine (hprod : ∀ z, Arith.machine.i32 (prod z) = Arith.machine.i32 z)
    (hfit : CombFits i minvar cols p pc row c) : substRow .machine prod i minvar cols p pc row c
      = substRow .exact (fun z => z) i minvar cols p pc row c := by
  unfold substRow
  dsimp only
  split
  · rfl
  · next h0 =>
    -- the range check fires neither in the code nor in exact arithmetic
    have hany : anyCol minvar cols (fun j => decide
        (abs64 .exact (subTmp .exact (fun z => z) (row i) (row j) (p j)) > int32Max)) = false :=
      anyCol_eq_false.mpr fun j hlo hhi => by
        rw [subTmp_exact, abs64_exact]
        exact decide_eq_false (not_lt.mpr (hfit.coefs h0 j hhi hlo))
    rw [hany, anyCol_abs64, subConst_machine hfit.const, subConst_exact,
      if_neg Bool.false_ne_true, if_neg Bool.false_ne_true]
    congr 2
    funext j
    split_ifs with hj hrange
    · rfl
    · rw [i32_subTmp hprod, subTmp_exact, exact_i32]
      exact machine_i32 (fits32_of_abs (hfit.coefs h0 j hrange.2 hrange.1))
    · rfl

theorem substRow_typed {row' : Nat → Int} {c' : Int}
    (hrow : ∀ j < cols, Fits32 (row j)) (hc : Fits64 (c - row i * pc))
    (h : substRow .exact (fun z => z) i minvar cols p pc row c = some (row', c')) :
    (∀ j < cols, Fits32 (row' j)) ∧ Fits64 c' := by
  unfold substRow at h
  dsimp only at h
  split at h
  · next h0 =>
    cases h
    rw [h0, zero_mul, sub_zero] at hc
    exact ⟨hrow, hc⟩
  · split at h
    · cases h
    · next hover =>
      rw [Bool.not_eq_true, anyCol_eq_false] at hover
      simp only [Option.some.injEq, Prod.mk.injEq] at h
      obtain ⟨rfl, rfl⟩ := h
      refine ⟨fun j hj => ?_, by rwa [subConst_exact]⟩
      dsimp only
      split_ifs with hji hrange
      · decide
      · have hle := hover j hrange.1 hrange.2
        rw [abs64_exact, decide_eq_false_iff_not] at hle
        rw [exact_i32]
        exact fits32_of_abs (not_lt.mp hle)
      · exact hrow j hj

end Row

/-! ## Solving the last row in machine arithmetic -/

/-- In the loops of `Sub_Last_Equal_Unary` the pivot is positive and the substitution fits. -/
structure Ready (i minvar eqnum : Nat) (st : WorkState) : Prop where
  typed : Typed st
  rows : eqnum < st.workRowsEq
  col : i < st.workCols
  unit : st.workEq eqnum i = 1
  zero : ∀ j < minvar, st.workEq eqnum j = 0
  les : ∀ r < st.workRows, CombFits i minvar st.workCols (st.workEq eqnum) (st.workConstEq eqnum)
    (st.work r) (st.workConst r)

section Unary

variable {i minvar eqnum k : Nat} {st t : WorkState}

theorem Ready.eqStep (hst : Ready i minvar eqnum st)
    (heqs : ∀ r < eqnum, CombFits i minvar st.workCols (st.workEq eqnum) (st.workConstEq eqnum)
      (st.workEq r) (st.workConstEq r))
    (hk : k < eqnum) (ht : EqSubbed i (st.workEq eqnum) (st.workConstEq eqnum) st k t ∧ Typed t) :
    substEqRow .machine i minvar eqnum k t = substEqRow .exact i minvar eqnum k t ∧
    Outcome (fun _ => True)
      (fun t' => EqSubbed i (st.workEq eqnum) (st.workConstEq eqnum) st (k + 1) t' ∧ Typed t')
      (substEqRow .exact i minvar eqnum k t) := by
  obtain ⟨hsub, htyped⟩ := ht
  have hcols : t.workCols = st.workCols := by rw [hsub.frame]
  have hrows : t.workRowsEq = st.workRowsEq := by rw [hsub.frame]
  obtain ⟨hpiv, hpivc⟩ := hsub.same eqnum hk.le
  obtain ⟨hrow, hrowc⟩ := hsub.same k (le_refl k)
  have hklt : k < st.workRowsEq := lt_trans hk hst.rows
  have hrowFits := (hst.typed.eq k hklt).1
  have hmach := substRow_machine i32_i64 (heqs k hk)
  refine ⟨?_, (substEqRow_subbed hst.unit hst.zero hk hsub).and ?_⟩
  · unfold substEqRow
    rw [hpiv, hpivc, hrow, hrowc, hcols, hmach]
    rfl
  · unfold substEqRow
    rw [hpiv, hpivc, hrow, hrowc, hcols]
    split
    · trivial
    · next row c hres =>
      have hnew := substRow_typed hrowFits (heqs k hk).const hres
      obtain ⟨hle, heq⟩ := htyped
      rw [hcols] at hle heq
      refine ⟨hle, fun r hr => ?_⟩
      by_cases hrk : r = k
      · subst hrk
        simp only [update_self]
        exact hnew
      · simp only [update_of_ne hrk]
        exact heq r hr

theorem Ready.leStep (hst : Ready i minvar eqnum st) (hk : k < st.workRows)
    (ht : LeSubbed i (st.workEq eqnum) (st.workConstEq eqnum) st k t ∧ Typed t) :
    substLeRow .machine i minvar eqnum k t = substLeRow .exact i minvar eqnum k t ∧
    Outcome (fun _ => True)
      (fun t' => LeSubbed i (st.workEq eqnum) (st.workConstEq eqnum) st (k + 1) t' ∧ Typed t')
      (substLeRow .exact i minvar eqnum k t) := by
  obtain ⟨hsub, htyped⟩ := ht
  have hcols : t.workCols = st.workCols := by rw [hsub.frame]
  have hpiv : t.workEq = st.workEq := by rw [hsub.frame]
  have hpivc : t.workConstEq = st.workConstEq := by rw [hsub.frame]
  obtain ⟨hrow, hrowc⟩ := hsub.same k (le_refl k)
  have hrowFits := (hst.typed.le k hk).1
  have hmach := substRow_machine (fun z => machine_i32 (machine_i32_fits z)) (hst.les k hk)
  refine ⟨?_, (substLeRow_subbed hst.unit hst.zero hsub).and ?_⟩
  · unfold substLeRow
    rw [hpiv, hpivc, hrow, hrowc, hcols, hmach]
    rfl
  · unfold substLeRow
    rw [hpiv, hpivc, hrow, hrowc, hcols]
    split
    · trivial
    · next row c hres =>
      have hnew := substRow_typed hrowFits (hst.les k hk).const hres
      obtain ⟨hle, heq⟩ := htyped
      rw [hcols] at hle heq
      rw [hpiv, hpivc] at heq
      refine ⟨fun r hr => ?_, heq⟩
      by_cases hrk : r = k
      · subst hrk
        simp only [update_self]
        exact hnew
      · simp only [update_of_ne hrk]
        exact hle r hr

/-- The two loops of `Sub_Last_Equal_Unary`, as they stand in the code. -/
def substLoops (ar : Arith) (i minvar eqnum : Nat) (st : WorkState) : Except Unit WorkState :=
  match forFrom (substEqRow ar i minvar eqnum) eqnum 0 st with
  | .error _ => .error ()
  | .ok st₂ => forFrom (substLeRow ar i minvar eqnum) st₂.workRows 0 st₂

theorem Ready.substLoops_machine (hst : Ready i minvar eqnum st)
    (heqs : ∀ r < eqnum, CombFits i minvar st.workCols (st.workEq eqnum) (st.workConstEq eqnum)
      (st.workEq r) (st.workConstEq r)) :
    substLoops .machine i minvar eqnum st = substLoops .exact i minvar eqnum st ∧
    Outcome (fun _ => True) Typed (substLoops .exact i minvar eqnum st) := by
  have hstep := fun k t (_ : 0 ≤ k) (hk : k < 0 + eqnum) =>
    hst.eqStep heqs (k := k) (t := t) (by omega)
  have hinit : EqSubbed i (st.workEq eqnum) (st.workConstEq eqnum) st 0 st ∧ Typed st :=
    ⟨⟨rfl, fun r hr => absurd hr (not_lt_zero r), fun _ _ => ⟨rfl, rfl⟩⟩, hst.typed⟩
  have hcongr := forFrom_congr _ eqnum 0 st hstep hinit
  have hloop := forFrom_outcome (Q := fun _ => True) _ eqnum 0 st
    (fun k t hlo hhi ht => (hstep k t hlo hhi ht).2) hinit
  unfold substLoops
  rw [hcongr]
  cases hres : forFrom (substEqRow .exact i minvar eqnum) eqnum 0 st with
  | error _ => exact ⟨rfl, trivial⟩
  | ok st2 =>
    rw [hres] at hloop
    obtain ⟨hsub, htyped⟩ := hloop
    have hframe := hsub.frame
    obtain ⟨hpiv, hpivc⟩ := hsub.same eqnum (by omega)
    have hst2 : Ready i minvar eqnum st2 := by
      refine ⟨htyped, ?_, ?_, ?_, ?_, ?_⟩
      · rw [hframe]; exact hst.rows
      · rw [hframe]; exact hst.col
      · rw [hpiv]; exact hst.unit
      · rw [hpiv]; exact hst.zero
      · rw [hpiv, hpivc, hframe]; exact hst.les
    have hstep2 := fun k t (_ : 0 ≤ k) (hk : k < 0 + st2.workRows) =>
      hst2.leStep (k := k) (t := t) (by omega)
    have hinit2 : LeSubbed i (st2.workEq eqnum) (st2.workConstEq eqnum) st2 0 st2 ∧ Typed st2 :=
      ⟨⟨rfl, fun r hr => absurd hr (not_lt_zero r), fun _ _ => ⟨rfl, rfl⟩⟩, htyped⟩
    refine ⟨forFrom_congr _ st2.workRows 0 st2 hstep2 hinit2, ?_⟩
    have hloop2 := forFrom_outcome (Q := fun _ => True) _ st2.workRows 0 st2
      (fun k t hlo hhi ht => (hstep2 k t hlo hhi ht).2) hinit2
    dsimp only
    cases hres2 : forFrom (substLeRow .exact i minvar eqnum) st2.workRows 0 st2 with
    | error _ => trivial
    | ok st3 => rw [hres2] at hloop2; exact hloop2.2

theorem negateEq_machine (hrow : ∀ j < st.workCols, minvar ≤ j → Fits32 (-st.workEq eqnum j))
    (hconst : Fits64 (-st.workConstEq eqnum)) :
    negateEq .machine eqnum minvar st = negateEq .exact eqnum minvar st := by
  unfold negateEq
  rw [machine_i64 hconst, exact_i64]
  congr 1
  funext r j
  split_ifs with h
  · rw [h.1, machine_i32 (hrow j h.2.2 h.2.1), exact_i32]
  · rfl

/-- From the condition on the products to rows that can be combined without loss. -/
theorem UnaryFits.ready (hf : UnaryFits i minvar st) (ht : Typed st) (hp : Pivot i minvar st)
    (hst1 : st1 = if st.workEq (st.workRowsEq - 1) i = -1 then
      negateEq .exact (st.workRowsEq - 1) minvar st else st) :
    Ready i minvar (st.workRowsEq - 1) st1 ∧ ∀ r < st.workRowsEq - 1,
      CombFits i minvar st1.workCols (st1.workEq (st.workRowsEq - 1))
        (st1.workConstEq (st.workRowsEq - 1)) (st1.workEq r) (st1.workConstEq r) := by
  obtain ⟨hrows, hcol, habove, hzero, hunit⟩ := hp
  have hfrow := hf.row
  have hfconst := hf.const
  have hfeqs := hf.eqs
  have hfles := hf.les
  unfold pivotConst at hfconst hfeqs hfles
  split at hst1
  · -- the pivot is -1: the row is negated first
    next hneg =>
    simp only [if_pos hneg] at hfconst hfeqs hfles
    have hnew : ∀ j < st.workCols, (negateEq .exact (st.workRowsEq - 1) minvar st).workEq
        (st.workRowsEq - 1) j = pivotRow i st j := fun j hj => by
      unfold pivotRow
      rw [if_pos hneg]
      exact negateEq_row hzero j hj
    have hother : ∀ r, r ≠ st.workRowsEq - 1 →
        (negateEq .exact (st.workRowsEq - 1) minvar st).workEq r = st.workEq r :=
      fun r hr => funext fun j => if_neg (fun h => hr h.1)
    have hnewc : (negateEq .exact (st.workRowsEq - 1) minvar st).workConstEq
        (st.workRowsEq - 1) = -st.workConstEq (st.workRowsEq - 1) := update_self ..
    have hotherc : ∀ r, r ≠ st.workRowsEq - 1 →
        (negateEq .exact (st.workRowsEq - 1) minvar st).workConstEq r = st.workConstEq r :=
      fun r hr => update_of_ne hr ..
    subst hst1
    refine ⟨⟨⟨ht.le, fun r hr => ?_⟩, sub_lt hrows one_pos, hcol, ?_, fun j hj => ?_,
      fun r hr => ?_⟩, fun r hr => ?_⟩
    · by_cases hre : r = st.workRowsEq - 1
      · subst hre
        rw [hnewc]
        refine ⟨fun j hj => ?_, hfconst⟩
        rw [hnew j hj]
        by_cases hlo : minvar ≤ j
        · exact hfrow j hj hlo
        · unfold pivotRow
          rw [if_pos hneg, hzero j (by omega)]
          decide
      · rw [hotherc r hre, hother r hre]
        exact ⟨(ht.eq r hr).1, (ht.eq r hr).2⟩
    · rw [hnew i hcol]
      unfold pivotRow
      rw [if_pos hneg, hneg]
      rfl
    · rw [hnew j (by omega)]
      unfold pivotRow
      rw [if_pos hneg, hzero j hj, neg_zero]
    · rw [hnewc]
      exact (hfles r hr).congr hnew
    · rw [hotherc r (by omega), hother r (by omega), hnewc]
      exact (hfeqs r hr).congr hnew
  · -- the pivot is 1
    next hneg =>
    simp only [if_neg hneg] at hfconst hfeqs hfles
    have hpi : st.workEq (st.workRowsEq - 1) i = 1 :=
      (abs_eq (show (0 : Int) ≤ 1 by omega) |>.mp hunit).resolve_right hneg
    have hsame : ∀ j < st.workCols, st.workEq (st.workRowsEq - 1) j = pivotRow i st j := fun j _ => by
      unfold pivotRow
      rw [if_neg hneg]
    subst hst1
    exact ⟨⟨ht, sub_lt hrows one_pos, hcol, hpi, hzero, fun r hr => (hfles r hr).congr hsame⟩,
      fun r hr => (hfeqs r hr).congr hsame⟩

theorem solveLast_machine (ht : Typed st) (hp : Pivot i minvar st) (hf : UnaryFits i minvar st) :
    solveLast .machine i minvar st = solveLast .exact i minvar st ∧
    ∀ b st', solveLast .exact i minvar st = some (b, st') → Typed st' := by
  obtain ⟨hready, heqs⟩ := hf.ready ht hp rfl
  obtain ⟨hmach, htyped⟩ := hready.substLoops_machine heqs
  have hneg : (if st.workEq (st.workRowsEq - 1) i = -1 then
        negateEq .machine (st.workRowsEq - 1) minvar st else st)
      = if st.workEq (st.workRowsEq - 1) i = -1 then
        negateEq .exact (st.workRowsEq - 1) minvar st else st := by
    split
    · next hneg =>
      refine negateEq_machine (fun j hj hlo => ?_) ?_
      · have hrow := hf.row j hj hlo
        unfold pivotRow at hrow
        rwa [if_pos hneg] at hrow
      · have hconst := hf.const
        unfold pivotConst at hconst
        rwa [if_pos hneg] at hconst
    · rfl
  have hunary : subLastEqualUnary .machine i minvar st = subLastEqualUnary .exact i minvar st := by
    show substLoops .machine i minvar _ (if _ then negateEq .machine _ minvar st else st) = _
    rw [hneg]
    exact hmach
  constructor
  · unfold solveLast
    rw [hunary]
  · intro b st' h
    unfold solveLast at h
    split at h
    · cases h
    · next st2 hres =>
      change substLoops .exact _ _ _ _ = _ at hres
      rw [hres] at htyped
      simp only [Option.some.injEq, Prod.mk.injEq] at h
      obtain ⟨-, rfl⟩ := h
      exact ⟨htyped.le, fun r hr => htyped.eq r (lt_of_lt_of_le hr (sub_le _ _))⟩

end Unary

/-! ## Normalising and Pugh's step in machine arithmetic -/

theorem findSmallest_machine {row : Nat → Int} {minvar cols : Nat} (hm : minvar < cols)
    (hrow : ∀ j < cols, minvar ≤ j → Fits32 (row j) ∧ row j ≠ int32Min) :
    findSmallest .machine row minvar cols = findSmallest .exact row minvar cols := by
  have habs : ∀ j < cols, minvar ≤ j → abs32 .machine (row j) = |row j| := fun j hj hlo =>
    abs32_machine (hrow j hj hlo).1 (hrow j hj hlo).2
  unfold findSmallest
  rw [habs minvar hm (le_refl _), abs32_exact]
  -- the gcd so far stays non-negative, so `Gcd` takes no absolute value
  refine forEach_congr (fun _ s => 0 ≤ s.g) _ _ _ (fun k s hlo hhi hs => ?_) (abs_nonneg _)
  have hk := habs k (by omega) (by omega)
  have hgcd := gcd32_machine hs (abs_nonneg (row k))
  constructor
  · unfold smallestStep
    simp only [hk, abs32_exact, hgcd]
  · unfold smallestStep
    dsimp only
    split
    · rw [gcd32_exact]; exact natCast_nonneg _
    · exact hs

theorem divideEq_typed {st : WorkState} {eqnum minvar : Nat} (ht : Typed st)
    (hg : 0 < g) : Typed (divideEq eqnum minvar g st) := by
  refine ⟨ht.le, fun r hr => ⟨fun j hj => ?_, ?_⟩⟩
  · show Fits32 (if _ then _ else _)
    have hfit := (ht.eq r hr).1 j hj
    split
    · exact tdiv_fits (by decide) (by decide) hg hfit
    · exact hfit
  · show Fits64 (update st.workConstEq eqnum _ r)
    by_cases hre : r = eqnum
    · subst hre
      rw [update_self]
      exact tdiv_fits (by decide) (by decide) hg (ht.eq r hr).2
    · rw [update_of_ne hre]
      exact (ht.eq r hr).2

section Pugh

variable {m : Int} {st : WorkState}

theorem neg_modHat_fits (a : Int) (hm : 0 < m) (hden : Fits32 (2 * m)) :
    Fits32 (-modHat .exact a m) := by
  have hb := modHat_bounds a hm
  unfold Fits32 int32Min int32Max at *
  omega

theorem addModRow_machine (hm : 0 < m) (hf : ModFits m st) :
    addModRow .machine (st.workRowsEq - 1) m (addZeroCol st)
      = addModRow .exact (st.workRowsEq - 1) m (addZeroCol st) := by
  have hmod : ∀ a, Fits32 (2 * a + m) →
      Arith.machine.i32 (-modHat .machine a m) = -modHat .exact a m := by
    intro a ha
    rw [modHat_machine hm hf.den ha]
    exact machine_i32 (neg_modHat_fits a hm hf.den)
  have hconst : Arith.machine.i32 (-modHat .machine
        (Arith.machine.i32 ((addZeroCol st).workConstEq (st.workRowsEq - 1))) m)
      = -modHat .exact ((addZeroCol st).workConstEq (st.workRowsEq - 1)) m := by
    show Arith.machine.i32 (-modHat .machine
      (Arith.machine.i32 (st.workConstEq (st.workRowsEq - 1))) m) = _
    rw [machine_i32 hf.const.1]
    exact hmod _ hf.const.2
  unfold addModRow
  rw [hconst]
  congr 1
  funext r j
  split_ifs with hr hlast hj
  · rfl
  · have hj' : j < st.workCols := hj
    refine hmod _ ?_
    show Fits32 (2 * (if _ then 0 else st.workEq (st.workRowsEq - 1) j) + m)
    rw [if_neg (by omega)]
    exact hf.row j hj'
  · rfl
  · rfl

theorem addZeroCol_typed (ht : Typed st) : Typed (addZeroCol st) := by
  have hcol : ∀ (p : Prop) [Decidable p] (row : Nat → Int), p →
      (∀ j < st.workCols, Fits32 (row j)) →
      ∀ j < st.workCols + 1, Fits32 (if p ∧ j = st.workCols then 0 else row j) := by
    intro p _ row hp hrow j hj
    split
    · decide
    · next hne => exact hrow j (by
        have hj' : j ≠ st.workCols := fun h => hne ⟨hp, h⟩
        omega)
  exact ⟨fun r hr => ⟨hcol _ _ hr (ht.le r hr).1, (ht.le r hr).2⟩,
    fun r hr => ⟨hcol _ _ hr (ht.eq r hr).1, (ht.eq r hr).2⟩⟩

theorem addModRow_typed (ht : Typed st) (hrows : 0 < st.workRowsEq) (hm : 0 < m)
    (hf : ModFits m st) : Typed (addModRow .exact (st.workRowsEq - 1) m (addZeroCol st)):= by
  have hz := addZeroCol_typed ht
  have hmfit : Fits32 m := by
    have hden := hf.den
    unfold Fits32 int32Min int32Max at *
    omega
  refine ⟨hz.le, fun r hr => ?_⟩
  by_cases hre : r = st.workRowsEq - 1 + 1
  · refine ⟨fun j hj => ?_, ?_⟩
    · show Fits32 (if _ then _ else _)
      rw [if_pos hre]
      split_ifs with hlast hj'
      · exact hmfit
      · exact neg_modHat_fits _ hm hf.den
      · have hj'' : j < st.workCols + 1 := hj
        have hcols : (addZeroCol st).workCols = st.workCols + 1 := rfl
        omega
    · show Fits64 (update (addZeroCol st).workConstEq _ _ r)
      rw [hre, update_self]
      have hfit := neg_modHat_fits (Arith.exact.i32 ((addZeroCol st).workConstEq
        (st.workRowsEq - 1))) hm hf.den
      unfold Fits32 int32Min int32Max at hfit
      exact ⟨by rw [exact_i32]; omega, by rw [exact_i32]; omega⟩
  · have hr' : r < st.workRowsEq + 1 := hr
    have hold := hz.eq r (show r < st.workRowsEq by omega)
    refine ⟨fun j hj => ?_, ?_⟩
    · show Fits32 (if _ then _ else _)
      rw [if_neg hre]
      exact hold.1 j hj
    · show Fits64 (update (addZeroCol st).workConstEq _ _ r)
      rw [update_of_ne hre]
      exact hold.2

end Pugh

/-! ## The step and the run -/

theorem StepFits.free {st : WorkState} (hf : StepFits st) (hn : NeedsVar st) :
    st.workCols < maxWorkCols := by
  obtain ⟨hsome, hunit, hdvd, hone⟩ := hn
  unfold StepFits at hf
  rw [if_neg hsome, if_neg hunit] at hf
  have hmod := hf.2.2 hdvd
  rw [if_neg hone] at hmod
  exact hmod.cols

/-- Where a step fits, the machine does what exact arithmetic does. -/
theorem subLastEqual_machine {st : WorkState} (ht : Typed st) (hrows : 0 < st.workRowsEq)
    (hf : StepFits st) : subLastEqual .machine st = subLastEqual .exact st ∧
    ∀ b st', subLastEqual .exact st = some (b, st') → Typed st' := by
  have hlast : st.workRowsEq - 1 < st.workRowsEq := sub_lt hrows one_pos
  have hrowFits := (ht.eq (st.workRowsEq - 1) hlast).1
  have hzero := firstVar_zero st
  have hdef : skipZeros (st.workEq (st.workRowsEq - 1)) st.workCols st.workCols 0
    = firstVar st := rfl
  unfold subLastEqual
  simp only [hdef, abs32_exact, abs64_exact]
  unfold StepFits at hf
  by_cases hnone : firstVar st = st.workCols
  · -- no variables constraint
    rw [if_pos hnone, if_pos hnone]
    refine ⟨rfl, fun b st' h => ?_⟩
    simp only [Option.some.injEq, Prod.mk.injEq] at h
    obtain ⟨-, rfl⟩ := h
    exact ⟨ht.le, fun r hr => ht.eq r (lt_of_lt_of_le hr (sub_le _ _))⟩
  obtain ⟨hlt, hnz⟩ := firstVar_lt hnone
  rw [if_neg hnone] at hf
  rw [if_neg hnone, if_neg hnone]
  simp only [abs32_machine_eq_one (hrowFits _ hlt)]
  by_cases hunit : |st.workEq (st.workRowsEq - 1) (firstVar st)| = 1
  · -- a unit coefficient: one substitution
    rw [if_pos hunit] at hf
    rw [if_pos hunit, if_pos hunit]
    exact solveLast_machine ht ⟨hrows, hlt, le_refl _, hzero, hunit⟩ hf
  · rw [if_neg hunit] at hf
    obtain ⟨hmin, hcut, hf⟩ := hf
    have hs := findSmallest_ok hlt hnz
    change SmallestOk _ _ _ (lastSmallest st) at hs
    have hmach := findSmallest_machine hlt (fun j hj hlo => ⟨hrowFits j hj, hmin j hj hlo⟩)
    change _ = lastSmallest st at hmach
    have hexact : findSmallest .exact (st.workEq (st.workRowsEq - 1)) (firstVar st)
      st.workCols = lastSmallest st := rfl
    rw [if_neg hunit, if_neg hunit]
    have htest : (abs64 .machine (st.workConstEq (st.workRowsEq - 1))).tmod (lastSmallest st).g = 0 ↔
        |st.workConstEq (st.workRowsEq - 1)|.tmod (lastSmallest st).g = 0 := by
      rw [← dvd_iff_tmod_eq_zero, ← dvd_iff_tmod_eq_zero, dvd_abs64_machine, hcut, dvd_abs]
    simp only [hmach, hexact, ne_eq, htest]
    split
    · -- the gcd does not divide the constant
      refine ⟨rfl, fun b st' h => ?_⟩
      simp only [Option.some.injEq, Prod.mk.injEq] at h
      obtain ⟨-, rfl⟩ := h
      exact ht
    · next hmod =>
      have hf := hf (dvd_of_abs_tmod hmod)
      have ht1 : Typed (lastDivided st) := divideEq_typed ht hs.pos
      have hpdef : (divideEq (st.workRowsEq - 1) (firstVar st) (lastSmallest st).g st).workEq
        (st.workRowsEq - 1) (lastSmallest st).smallestPos = lastPivot st := rfl
      have hpfits : Fits32 (lastPivot st) :=
        (ht1.eq (st.workRowsEq - 1) hlast).1 _ hs.below
      simp only [hpdef, abs32_machine_eq_one hpfits]
      split
      · -- after the division the pivot is a unit
        next hone =>
        rw [if_pos hone] at hf
        refine solveLast_machine ht1 ⟨hrows, hs.below, hs.above, fun j hj => ?_, hone⟩ hf
        show (if _ then _ else st.workEq (st.workRowsEq - 1) j) = 0
        rw [if_neg (by omega)]
        exact hzero j hj
      · next hone =>
        rw [if_neg hone] at hf
        have hm : 0 < |lastPivot st| + 1 := by have := abs_nonneg (lastPivot st); omega
        have hadd : addWorkVar (lastDivided st) = (true, addZeroCol (lastDivided st)) :=
          if_neg (not_le.mpr hf.cols)
        have hpmin : lastPivot st ≠ int32Min := by
          intro h
          have hden := hf.den
          rw [h] at hden
          exact absurd hden (by decide)
        have hmfit : Fits32 (|lastPivot st| + 1) := by
          have hden := hf.den
          unfold Fits32 int32Min int32Max at *
          omega
        rw [abs32_machine hpfits hpmin, machine_i32 hmfit, exact_i32]
        change some (false, addModRow .machine _ _ (addWorkVar (lastDivided st)).2)
            = some (false, addModRow .exact _ _ (addWorkVar (lastDivided st)).2) ∧
          ∀ b st', some (false, addModRow .exact _ _ (addWorkVar (lastDivided st)).2)
            = some (b, st') → Typed st'
        rw [hadd]
        refine ⟨?_, fun b st' h => ?_⟩
        · rw [show st.workRowsEq = (lastDivided st).workRowsEq from rfl,
            addModRow_machine hm hf]
        · simp only [Option.some.injEq, Prod.mk.injEq] at h
          obtain ⟨-, rfl⟩ := h
          exact addModRow_typed ht1 hrows hm hf

/-- The states that the loop of `Sub_In_Equal` goes through. -/
inductive SubReaches (st : WorkState) : WorkState → Prop
  | start : SubReaches st st
  | step {t t' : WorkState} : SubReaches st t → 0 < t.workRowsEq →
      subLastEqual .machine t = some (false, t') → SubReaches st t'

/-- Every step of the run meets its condition. -/
def ElimFits (st : WorkState) : Prop :=
  ∀ t, SubReaches st t → 0 < t.workRowsEq → StepFits t

theorem SubReaches.equisat {st t : WorkState} (h : SubReaches st t) (ht : Typed st)
    (hf : ElimFits st) : Typed t ∧ (Satisfiable st ↔ Satisfiable t) := by
  induction h with
  | start => exact ⟨ht, Iff.rfl⟩
  | step hreach hrows hstep ih =>
    obtain ⟨htyped, hsat⟩ := ih
    have hfits := hf _ hreach hrows
    obtain ⟨hmach, hnext⟩ := subLastEqual_machine htyped hrows hfits
    rw [hmach] at hstep
    refine ⟨hnext _ _ hstep, ?_⟩
    rw [hsat, subLastEqual_equisat hrows hfits.free hstep]
    simp

theorem subLoop_equisat (ht0 : Typed st0) (hf : ElimFits st0) (fuel : Nat) :
    ∀ {st st' : WorkState} {b : Bool}, SubReaches st0 st →
      subLoop .machine fuel st = some (some (b, st')) →
      (Satisfiable st0 ↔ b = false ∧ ∃ x, Solves st' x) := by
  induction fuel with
  | zero => intro st st' b _ h; cases h
  | succ fuel ih =>
    intro st st' b hreach h
    obtain ⟨htyped, hsat⟩ := hreach.equisat ht0 hf
    unfold subLoop at h
    split at h
    · next hrows =>
      have hfits := hf _ hreach hrows
      obtain ⟨hmach, -⟩ := subLastEqual_machine htyped hrows hfits
      split at h
      · cases h
      · next st1 hstep =>
        simp only [Option.some.injEq, Prod.mk.injEq] at h
        obtain ⟨rfl, rfl⟩ := h
        rw [hmach] at hstep
        rw [hsat, subLastEqual_equisat hrows hfits.free hstep]
        simp
      · next st1 hstep => exact ih (hreach.step hrows hstep) h
    · next hrows =>
      simp only [Option.some.injEq, Prod.mk.injEq] at h
      obtain ⟨rfl, rfl⟩ := h
      rw [hsat]
      have hnone : ∀ x, SolvesEq st x := fun x r hr => absurd hr (by omega)
      simp only [Satisfiable, hnone, and_true, true_and]

/-! ## `Sub_In_Equal` -/

/-- The inequalities of the system are in the work array. -/
structure Copied (sys : System) (st : WorkState) : Prop where
  cols : st.workCols = sys.vars
  rows : st.workRows = sys.eqnsLe
  row : ∀ r < sys.eqnsLe, ∀ j < sys.vars, st.work r j = sys.ale r j
  const : ∀ r < sys.eqnsLe, st.workConst r = sys.ble r

/-- And so are its equalities. -/
structure CopiedEq (sys : System) (st : WorkState) : Prop extends Copied sys st where
  rowsEq : st.workRowsEq = sys.eqnsEq
  rowEq : ∀ r < sys.eqnsEq, ∀ j < sys.vars, st.workEq r j = sys.aeq r j
  constEq : ∀ r < sys.eqnsEq, st.workConstEq r = sys.beq r

theorem copyToWork_copied {sys : System} {stale : WorkState}
    (h : copyToWork sys stale = some st0) : sys.vars ≤ maxWorkCols ∧ Copied sys st0 := by
  unfold copyToWork at h
  split at h
  · cases h
  · next hvars =>
    split at h
    · cases h
    · simp only [Option.some.injEq] at h
      subst h
      exact ⟨by omega, rfl, rfl, fun r hr j hj => if_pos ⟨hr, hj⟩, fun r hr => if_pos hr⟩

theorem copyToWorkEq_copied {sys : System} (hc : Copied sys st0)
    (h : copyToWorkEq sys st0 = some st1) : CopiedEq sys st1 := by
  unfold copyToWorkEq at h
  rw [hc.cols, ite_self] at h
  split at h
  · cases h
  · split at h
    · cases h
    · simp only [Option.some.injEq] at h
      subst h
      exact ⟨⟨rfl, hc.rows, hc.row, hc.const⟩, rfl, fun r hr j hj => if_pos ⟨hr, hj⟩,
        fun r hr => if_pos hr⟩

section Copy

variable {sys : System} {st : WorkState}

theorem Copied.solves (h : Copied sys st) (x : Nat → Int) :
    Solves st x ↔ ∀ r < sys.eqnsLe, dot sys.vars (sys.ale r) x ≤ sys.ble r := by
  unfold Solves RowHolds
  rw [h.rows, h.cols]
  refine forall₂_congr (fun r hr => ?_)
  rw [h.const r hr, dot_congr_left x (h.row r hr)]

theorem CopiedEq.solvesEq (h : CopiedEq sys st) (x : Nat → Int) :
    SolvesEq st x ↔ ∀ r < sys.eqnsEq, dot sys.vars (sys.aeq r) x = sys.beq r := by
  unfold SolvesEq
  rw [h.rowsEq, h.cols]
  refine forall₂_congr (fun r hr => ?_)
  rw [h.constEq r hr, dot_congr_left x (h.rowEq r hr)]

theorem CopiedEq.satisfiable (h : CopiedEq sys st) : (∃ x, sys.Solves x) ↔ Satisfiable st:=
  exists_congr (fun x => and_congr (h.toCopied.solves x).symm (h.solvesEq x).symm)

theorem CopiedEq.typed (h : CopiedEq sys st) : Typed st := by
  refine ⟨fun r hr => ?_, fun r hr => ?_⟩
  · rw [h.rows] at hr
    rw [h.cols, h.const r hr]
    exact ⟨fun j hj => by rw [h.row r hr j hj]; exact sys.aleFits r j, sys.bleFits r⟩
  · rw [h.rowsEq] at hr
    rw [h.cols, h.constEq r hr]
    exact ⟨fun j hj => by rw [h.rowEq r hr j hj]; exact sys.aeqFits r j, sys.beqFits r⟩

end Copy

/-- Where every step of the elimination meets its condition, every state it reaches is satisfiable
exactly when the system is, and so is its result: no solution is lost, and none is gained. -/
theorem subInEqual_equisat {sys : System} {stale st₀ : WorkState}
    (hcopy : copyToWork sys stale = some st₀)
    (hfits : ∀ st₁, copyToWorkEq sys st₀ = some st₁ → ElimFits st₁) :
    (∀ st₁ t, copyToWorkEq sys st₀ = some st₁ → SubReaches st₁ t →
      ((∃ x, sys.Solves x) ↔ Satisfiable t)) ∧
    ∀ (fuel : Nat) (inconsistent : Bool) (st : WorkState),
      subInEqual .machine fuel sys st₀ = some (some (inconsistent, st)) →
      ((∃ x, sys.Solves x) → inconsistent = false ∧ ∃ x, Solves st x) ∧
      (sys.eqnsEq ≤ maxWorkRowsEq → inconsistent = false → (∃ x, Solves st x) →
        ∃ x, sys.Solves x) := by
  obtain ⟨hvars, hc⟩ := copyToWork_copied hcopy
  refine ⟨fun st₁ t h1 hreach => ?_, fun fuel inconsistent st h => ?_⟩
  · have hc1 := copyToWorkEq_copied hc h1
    rw [hc1.satisfiable]
    exact (hreach.equisat hc1.typed (hfits st₁ h1)).2
  · unfold subInEqual at h
    split at h
    · next hnone =>
      simp only [Option.some.injEq, Prod.mk.injEq] at h
      obtain ⟨rfl, rfl⟩ := h
      refine ⟨fun ⟨x, hx⟩ => ⟨rfl, x, (hc.solves x).mpr hx.1⟩, fun _ _ ⟨x, hx⟩ => ⟨x, ?_⟩⟩
      exact ⟨(hc.solves x).mp hx, fun r hr => absurd hr (by omega)⟩
    · split at h
      · next hnospace =>
        -- the equalities are left out, which loses nothing
        simp only [Option.some.injEq, Prod.mk.injEq] at h
        obtain ⟨rfl, rfl⟩ := h
        refine ⟨fun ⟨x, hx⟩ => ⟨rfl, x, (hc.solves x).mpr hx.1⟩, fun hrows => ?_⟩
        unfold copyToWorkEq at hnospace
        rw [if_neg (by omega), if_neg (by omega)] at hnospace
        cases hnospace
      · next st₁ h1 =>
        have hc1 := copyToWorkEq_copied hc h1
        have hloop := subLoop_equisat hc1.typed (hfits st₁ h1) fuel .start h
        rw [hc1.satisfiable, hloop]
        exact ⟨id, fun _ hb hx => ⟨hb, hx⟩⟩

/-- `P` holds in every state of a run of at most `fuel` steps. -/
def RunAll (P : WorkState → Prop) : Nat → WorkState → Prop
  | 0, _ => False
  | fuel + 1, st => P st ∧ (0 < st.workRowsEq →
      match subLastEqual .machine st with
      | some (false, st') => RunAll P fuel st'
      | _ => True)

instance RunAll.decide (P : WorkState → Prop) [DecidablePred P] :
    ∀ (fuel : Nat) (st : WorkState), Decidable (RunAll P fuel st)
  | 0, _ => .isFalse id
  | fuel + 1, st =>
    haveI : Decidable (match subLastEqual .machine st with
      | some (false, st') => RunAll P fuel st'
      | _ => True) :=
      match subLastEqual .machine st with
      | some (false, st') => RunAll.decide P fuel st'
      | some (true, _) => .isTrue trivial
      | none => .isTrue trivial
    inferInstanceAs (Decidable (_ ∧ (_ → _)))

theorem SubReaches.of_runAll {P : WorkState → Prop} {st t : WorkState} {fuel : Nat}
    (hreach : SubReaches st t) (h : RunAll P fuel st) : P t := by
  suffices hrun : ∃ fuel', RunAll P (fuel' + 1) t from hrun.elim (fun _ h => h.1)
  induction hreach with
  | start =>
    cases fuel with
    | zero => exact h.elim
    | succ fuel => exact ⟨fuel, h⟩
  | step _ hrows hstep ih =>
    obtain ⟨fuel', -, hnext⟩ := ih
    have hnext := hnext hrows
    rw [hstep] at hnext
    cases fuel' with
    | zero => exact hnext.elim
    | succ fuel' => exact ⟨fuel', hnext⟩

theorem getD_of_forall {α : Type} {P : α → Prop} {l : List α} {d : α} (h : ∀ a ∈ l, P a)
    (hd : P d) (n : Nat) : P (l.getD n d) := by
  rw [List.getD_eq_getElem?_getD]
  cases hget : l[n]? with
  | none => exact hd
  | some a => exact h a (List.mem_of_getElem? hget)

theorem rows_fit {rows : List (List Int × Int)}
    (h : ∀ row ∈ rows, (∀ a ∈ row.1, Fits32 a) ∧ Fits64 row.2) (r : Nat) :
    (∀ c, Fits32 (((rows.getD r ([], 0)).1).getD c 0)) ∧ Fits64 (rows.getD r ([], 0)).2 := by
  have hrow := getD_of_forall h (d := ([], 0)) (by decide) r
  exact ⟨getD_of_forall hrow.1 (by decide), hrow.2⟩

/-- A system given by its rows. -/
def System.ofRows (vars : Nat) (le eq : List (List Int × Int))
    (hle : ∀ row ∈ le, (∀ a ∈ row.1, Fits32 a) ∧ Fits64 row.2)
    (heq : ∀ row ∈ eq, (∀ a ∈ row.1, Fits32 a) ∧ Fits64 row.2) : System where
  ale := fun r c => ((le.getD r ([], 0)).1).getD c 0
  ble := fun r => (le.getD r ([], 0)).2
  eqnsLe := le.length
  aeq := fun r c => ((eq.getD r ([], 0)).1).getD c 0
  beq := fun r => (eq.getD r ([], 0)).2
  eqnsEq := eq.length
  vars := vars
  aleFits := fun r c => (rows_fit hle r).1 c
  bleFits := fun r => (rows_fit hle r).2
  aeqFits := fun r c => (rows_fit heq r).1 c
  beqFits := fun r => (rows_fit heq r).2

theorem exists_answer {o : Option (Option (Bool × WorkState))} {b : Bool}
    (h : o.map (Option.map Prod.fst) = some (some b)) : ∃ st, o = some (some (b, st)) := by
  match o, h with
  | some (some (_, st)), h =>
    simp only [Option.map_some, Option.some.injEq] at h
    exact ⟨st, by rw [h]⟩

/-- `7x + 12y + 31z = 17` with `x + y + z <= 40`. -/
def pughSystem : System :=
  .ofRows 3 [([1, 1, 1], 40)] [([7, 12, 31], 17)] (by decide) (by decide)

theorem subInEqual_equisat_pughSystem :
    ∃ st₀ st, copyToWork pughSystem (WorkState.ofRows 0 []) = some st₀ ∧
      subInEqual .machine 6 pughSystem st₀ = some (some (false, st)) ∧
      ((∃ x, pughSystem.Solves x) ↔ ∃ x, Solves st x) := by
  obtain ⟨st₀, h0⟩ : ∃ st₀, copyToWork pughSystem (WorkState.ofRows 0 []) = some st₀ := ⟨_, rfl⟩
  obtain ⟨st, hst⟩ : ∃ st, subInEqual .machine 6 pughSystem st₀ = some (some (false, st)) := by
    refine exists_answer ?_
    cases h0
    decide
  have hmain := (subInEqual_equisat h0 (fun st1 h1 t hreach => by
    cases h0
    cases h1
    refine hreach.of_runAll (P := fun t => 0 < t.workRowsEq → StepFits t) (show RunAll _ 6 _ from ?_)
    decide +kernel)).2 6 false st hst
  exact ⟨st₀, st, h0, hst, fun h => (hmain.1 h).2, hmain.2 (by decide) rfl⟩

/-- `3x + 6y = 4294967298`, which `x = 1431655766`, `y = 0` solves. -/
def cutSystem : System :=
  .ofRows 2 [] [([3, 6], 4294967298)] (by decide) (by decide)

/-- `abs` sees the constant as 2, which is not a multiple of 3: the system is reported
inconsistent. -/
theorem subInEqual_loses_cutSystem :
    ∃ st₀ st₁ st, copyToWork cutSystem (WorkState.ofRows 0 []) = some st₀ ∧
      copyToWorkEq cutSystem st₀ = some st₁ ∧
      (∀ t, SubReaches st₁ t → t.workRowsEq ≤ maxWorkRowsEq) ∧
      cutSystem.Solves (fun v => if v = 0 then 1431655766 else 0) ∧
      subInEqual .machine 4 cutSystem st₀ = some (some (true, st)) := by
  obtain ⟨st₀, h0⟩ : ∃ st₀, copyToWork cutSystem (WorkState.ofRows 0 []) = some st₀ := ⟨_, rfl⟩
  obtain ⟨st₁, h1⟩ : ∃ st₁, copyToWorkEq cutSystem st₀ = some st₁ := by
    cases h0
    exact ⟨_, rfl⟩
  obtain ⟨st, hst⟩ : ∃ st, subInEqual .machine 4 cutSystem st₀ = some (some (true, st)) := by
    refine exists_answer ?_
    cases h0
    decide
  refine ⟨st₀, st₁, st, h0, h1, fun t hreach => ?_, ⟨by decide, by decide⟩, hst⟩
  cases h0
  cases h1
  refine hreach.of_runAll (P := fun t => t.workRowsEq ≤ maxWorkRowsEq) (show RunAll _ 4 _ from ?_)
  decide

end Soe
