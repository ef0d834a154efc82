import Mathlib.Algebra.Order.Ring.Abs
import Path64.Soe.Acyclic
import Path64.Soe.Project

/-! # The consistency test

`Is_Consistent_Work` runs the single-variable test, the acyclic test,
gcd normalisation and then Fourier-Motzkin on the same work rows. -/

namespace Soe

open LinearRow Loop

/-! ## Model -/

/-- `while (j < cols && !row[j]) j++`. -/
def skipZeros (row : Nat → Int) (cols : Nat) : Nat → Nat → Nat
  | 0, j => j
  | fuel + 1, j => if j < cols ∧ row j = 0 then skipZeros row cols fuel (j + 1) else j

/-- The gcd of the coefficients of a row, zero for a null row. -/
def rowGcd (ar : Arith) (row : Nat → Int) (cols : Nat) : Int :=
  let j := skipZeros row cols cols 0
  let g := if j < cols then abs32 ar (row j) else 0
  forEach (fun k g => gcd32 ar g (abs32 ar (row k))) (cols - (j + 1)) (j + 1) g

/-- Divide row `i` by its gcd, tighten the constant. -/
def normalizeRow (ar : Arith) (i : Nat) (st : WorkState) : WorkState :=
  let g := rowGcd ar (st.work i) st.workCols
  let c := st.workConst i
  if g ≠ 0 ∧ g ≠ 1 then
    { st with
      work := fun r j => if r = i ∧ j < st.workCols then (st.work r j).tdiv g else st.work r j
      workConst := Function.update st.workConst i
        (if 0 < c ∨ c.tmod g = 0 then c.tdiv g else c.tdiv g - 1) }
  else st

def gcdNormalize (ar : Arith) (st : WorkState) : WorkState :=
  forEach (normalizeRow ar) st.workRows 0 st

/-- One turn of the projection loop; the early exit is the answer. -/
def projectStep (ar : Arith) (i : Nat) (st : WorkState) : Except Bool WorkState :=
  match project ar i i st with
  | none => .error true
  | some (true, _) => .error false
  | some (false, st') => .ok st'

/-- Fourier-Motzkin on all variables but the last, then a test of the rows in the last one. -/
def fourierConsistent (ar : Arith) (allowWrapAroundOpt : Bool) (st : WorkState) : Bool :=
  match forFrom (projectStep ar) (st.workCols - 1) 0 st with
  | .error answer => answer
  | .ok st' =>
    (oneVarConsistent ar allowWrapAroundOpt (st'.workCols - 1) 0 st'.workRows st').1

def isConsistentWork (ar : Arith) (allowWrapAroundOpt : Bool) (st : WorkState) : Option Bool:=
  match svpc ar allowWrapAroundOpt st with
  | (.consistent, _) => some true
  | (.inconsistent, _) => some false
  | (.inapplicable, st₁) =>
    match acyclicTest ar allowWrapAroundOpt st₁ with
    | none => none
    | some (.consistent, _) => some true
    | some (.inconsistent, _) => some false
    | some (.inapplicable, st₂) =>
      some (fourierConsistent ar allowWrapAroundOpt (gcdNormalize ar st₂))

theorem isConsistentWork_returns (ar : Arith) (allowWrapAroundOpt : Bool) (st : WorkState) :
    (isConsistentWork ar allowWrapAroundOpt st).isSome = true := by
  unfold isConsistentWork
  split
  · rfl
  · rfl
  · next st1 _ =>
    have hret := acyclicTest_returns ar allowWrapAroundOpt st1
    split
    · next hnone => rw [hnone] at hret; cases hret
    · rfl
    · rfl
    · rfl

/-! ## Gcd normalisation -/

theorem skipZeros_spec (row : Nat → Int) (cols : Nat) (fuel : Nat) :
    ∀ j, (∀ k < j, row k = 0) → ∀ k < skipZeros row cols fuel j, row k = 0 := by
  induction fuel with
  | zero => intro j h; exact h
  | succ fuel ih =>
    intro j h
    unfold skipZeros
    split
    · next hc =>
      refine ih (j + 1) (fun k hk => ?_)
      rcases Nat.lt_succ_iff_lt_or_eq.mp hk with hlt | rfl
      · exact h k hlt
      · exact hc.2
    · exact h

theorem rowGcd_dvd (row : Nat → Int) (cols : Nat) :
    0 ≤ rowGcd .exact row cols ∧ ∀ k < cols, rowGcd .exact row cols ∣ row k := by
  have hskip := skipZeros_spec row cols cols 0 (fun k hk => absurd hk (Nat.not_lt_zero k))
  unfold rowGcd
  dsimp only
  generalize skipZeros row cols cols 0 = j at *
  have hloop := forEach_inv
    (f := fun k g => gcd32 .exact g (abs32 .exact (row k)))
    (fun k (g : Int) => 0 ≤ g ∧ ∀ m, m < k → m < cols → g ∣ row m) (cols - (j + 1)) (j + 1)
    (if j < cols then abs32 .exact (row j) else 0)
    (by
      intro k g _ hk hg
      rw [abs32_exact, gcd32_exact]
      refine ⟨Int.natCast_nonneg _, fun m hm hmc => ?_⟩
      rcases Nat.lt_succ_iff_lt_or_eq.mp hm with hlt | rfl
      · exact (Int.gcd_dvd_left g |row k|).trans (hg.2 m hlt hmc)
      · exact (dvd_abs _ _).mp (Int.gcd_dvd_right g |row m|))
    (by
      refine ⟨?_, fun m hm hmc => ?_⟩
      · split
        · rw [abs32_exact]; exact abs_nonneg _
        · exact le_refl 0
      · rcases Nat.lt_succ_iff_lt_or_eq.mp hm with hlt | rfl
        · rw [hskip m hlt]; exact dvd_zero _
        · rw [if_pos hmc, abs32_exact]; exact (abs_dvd _ _).mpr (dvd_refl _))
  refine ⟨hloop.1, fun k hk => hloop.2 k (by omega) hk⟩

theorem normalizeRow_holds (i : Nat) (st : WorkState) (x : Nat → Int) (r : Nat) :
    RowHolds (normalizeRow .exact i st) x r ↔ RowHolds st x r := by
  obtain ⟨hnn, hdvd⟩ := rowGcd_dvd (st.work i) st.workCols
  unfold normalizeRow
  dsimp only
  split
  · next hg =>
    generalize rowGcd .exact (st.work i) st.workCols = g at *
    have hpos : 0 < g := by omega
    unfold RowHolds
    dsimp only
    by_cases hr : r = i
    · subst hr
      rw [Function.update_self, CDiv.floor_tdiv_sub_one hpos]
      symm
      apply dot_le_floor hpos
      intro j hj
      rw [if_pos ⟨rfl, hj⟩, Int.tdiv_eq_ediv_of_dvd (hdvd j hj), Int.mul_ediv_cancel' (hdvd j hj)]
    · rw [Function.update_of_ne hr,
        dot_congr_left x (b := st.work r) (fun j _ => if_neg (fun hc => hr hc.1))]
  · exact Iff.rfl

theorem normalizeRow_rowsOnly (ar : Arith) (i : Nat) (st : WorkState) :
    RowsOnly st (normalizeRow ar i st) ∧ (normalizeRow ar i st).workRows = st.workRows:= by
  unfold normalizeRow
  dsimp only
  split
  · exact ⟨⟨_, _, _, rfl⟩, rfl⟩
  · exact ⟨RowsOnly.refl st, rfl⟩

theorem gcdNormalize_workCols (ar : Arith) (st : WorkState) :
    (gcdNormalize ar st).workCols = st.workCols :=
  forEach_inv (fun _ t => t.workCols = st.workCols) st.workRows 0 st
    (fun i t _ _ ht => (normalizeRow_rowsOnly ar i t).1.workCols.trans ht) rfl

variable {st : WorkState} {x : Nat → Int}

theorem gcdNormalize_inside (h : Inside st x) : Inside (gcdNormalize .exact st) x := by
  refine forEach_inv (fun _ t => Inside t x) st.workRows 0 st ?_ h
  intro i t _ _ ht
  obtain ⟨hframe, hrows⟩ := normalizeRow_rowsOnly .exact i t
  refine hframe.inside ht (fun r hr => ?_)
  rw [hrows] at hr
  exact (normalizeRow_holds i t x r).mpr (ht.rows r hr)

/-! ## Fourier-Motzkin -/

/-- Before column `i` is eliminated the columns below it are zero. -/
structure FourierInv (n : Nat) (x : Nat → Int) (i : Nat) (st : WorkState) : Prop where
  cols : st.workCols = n
  inside : Inside st x
  zero : ZeroBelow i st

theorem projectStep_inv {n i : Nat} (hi : i < n)
    (h : FourierInv n x i st) :
    Outcome (fun answer => answer = true) (FourierInv n x (i + 1)) (projectStep .exact i st) := by
  obtain ⟨hcols, hin, hzero⟩ := h
  unfold projectStep
  split
  · rfl
  · next st' hres =>
    have hp := (project_inv (by omega) (by omega) hin.rows hzero hres).1
    cases hp
  · next st' hres =>
    obtain ⟨_, hinv, hcol⟩ := project_inv (by omega) (by omega) hin.rows hzero hres
    refine ⟨hinv.frame.workCols.trans hcols, hinv.frame.inside hin hinv.rows, ?_⟩
    intro r hr c hc
    rcases Nat.lt_succ_iff_lt_or_eq.mp hc with hlt | rfl
    · exact hinv.zero r hr c hlt
    · exact hcol r hr

theorem fourierConsistent_of_inside
    (allowWrapAroundOpt : Bool) (hpos : 0 < st.workCols) (hin : Inside st x) :
    fourierConsistent .exact allowWrapAroundOpt st = true := by
  have hloop := forFrom_outcome (f := projectStep .exact) (Q := fun answer => answer = true)
    (fun i t => FourierInv st.workCols x i t) (st.workCols - 1) 0 st
    (fun i t _ hi ht => projectStep_inv (by omega) ht)
    ⟨rfl, hin, fun _ _ c hc => absurd hc (Nat.not_lt_zero c)⟩
  unfold fourierConsistent
  split
  · next answer hres => rw [hres] at hloop; exact hloop
  · next st' hres =>
    rw [hres, Nat.zero_add] at hloop
    obtain ⟨hcols, hin', hzero⟩ := hloop
    -- only the last column can be non-zero
    refine (oneVarConsistent_inside allowWrapAroundOpt hin' (by omega) ?_ (by omega)).1
    intro r _ hr j hj hne
    exact hzero r (by omega) j (by omega)

/-! ## Soundness -/

/-- **Soundness of the consistency test.** When `Is_Consistent_Work` answers FALSE the work rows
have no integer solution. -/
theorem isConsistentWork_sound (allowWrapAroundOpt : Bool) (st : WorkState)
    (h : isConsistentWork .exact allowWrapAroundOpt st = some false) : ¬ ∃ x, Solves st x:= by
  rintro ⟨x, hx⟩
  obtain ⟨hsvpc, hin₁, hpos⟩ := svpc_inside allowWrapAroundOpt hx
  unfold isConsistentWork at h
  split at h
  · cases h
  · next st₁ hres => rw [hres] at hsvpc; exact hsvpc rfl
  · next st₁ hres =>
    rw [hres] at hin₁ hpos
    split at h
    · cases h
    · cases h
    · next st₂ hacy => exact (acyclicTest_inside hin₁ hacy).1 rfl
    · next st₂ hacy =>
      obtain ⟨_, hin₂, hcols⟩ := acyclicTest_inside hin₁ hacy
      have hpos₂ : 0 < (gcdNormalize .exact st₂).workCols := by
        rw [gcdNormalize_workCols, hcols]; exact hpos rfl
      rw [fourierConsistent_of_inside allowWrapAroundOpt hpos₂ (gcdNormalize_inside hin₂)] at h
      cases h

/-- `2x + 2y = 1` as two inequalities: rational solutions, but no integer one. -/
def halfLine : WorkState := .ofRows 2 [([2, 2], 1), ([-2, -2], -1)]

theorem isConsistentWork_sound_halfLine :
    isConsistentWork .exact true halfLine = some false ∧ ¬ ∃ x, Solves halfLine x :=
  ⟨by decide, isConsistentWork_sound true halfLine (by decide)⟩

end Soe
