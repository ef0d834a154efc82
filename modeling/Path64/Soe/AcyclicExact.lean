import Mathlib.Algebra.Order.BigOperators.Group.Finset
import Path64.Soe.Acyclic

/-! # The acyclic test is exact when it applies

What a state still asks of a point is that it lies within the bounds and
satisfies the open rows. Substituting a variable keeps this in both
directions: a leaf is set to its best bound, or, with no bound on that
side, far enough out. -/

namespace Soe

open Nat Function LinearRow Loop

/-! ## What a state asks of a point -/

/-- The point lies within the finite bounds. -/
def Within (st : WorkState) (x : Nat → Int) : Prop :=
  ∀ v < st.workCols, ((st.lowerBound v).val ≤ int32Min ∨ (st.lowerBound v).val ≤ x v) ∧
    (int32Max ≤ (st.upperBound v).val ∨ x v ≤ (st.upperBound v).val)

/-- The point lies within the bounds and satisfies the open rows. -/
structure OpenAt (st : WorkState) (x : Nat → Int) : Prop where
  within : Within st x
  rows : ∀ r < st.workRows, st.isSvpc r = false → RowHolds st x r

/-- No two bounds of a variable cross, and none is infinite on the wrong side. -/
def Ordered (st : WorkState) : Prop :=
  ∀ v < st.workCols, (st.lowerBound v).val ≤ (st.upperBound v).val ∧
    (st.lowerBound v).val < int32Max ∧ int32Min < (st.upperBound v).val

/-- The row has two variables or more. -/
def TwoVars (cols : Nat) (row : Nat → Int) : Prop :=
  ∃ j < cols, ∃ k < cols, j ≠ k ∧ row j ≠ 0 ∧ row k ≠ 0

/-- An absorbed row says no more than the bounds, if its constant passes the range test. -/
def RowAbsorbed (st : WorkState) (r : Nat) : Prop :=
  InRange (st.workConst r) → ∀ x, Within st x → RowHolds st x r

structure AcyInv (st : WorkState) : Prop where
  ordered : Ordered st
  absorbed : ∀ r < st.workRows, st.isSvpc r = true → RowAbsorbed st r
  twoVars : ∀ r < st.workRows, st.isSvpc r = false → TwoVars st.workCols (st.work r)

/-- The constants of the absorbed rows pass the range test. -/
def RangeOk (st : WorkState) : Prop :=
  ∀ r < st.workRows, st.isSvpc r = true → InRange (st.workConst r)

/-- The bounds of `st'` are those of `st` or tighter. -/
def Tighter (st st' : WorkState) : Prop :=
  ∀ v, (st.lowerBound v).val ≤ (st'.lowerBound v).val ∧
    (st'.upperBound v).val ≤ (st.upperBound v).val

theorem Tighter.refl (st : WorkState) : Tighter st st := fun _ => ⟨le_refl _, le_refl _⟩

variable {st st' t t' st0 : WorkState} {x : Nat → Int} {var k i r : Nat} {v : Int} {b : Bool}
  {s : AcyState}

theorem Tighter.within (h : Tighter st st')
    (hcols : st'.workCols = st.workCols) (hx : Within st' x) : Within st x := by
  intro v hv
  obtain ⟨hlo, hhi⟩ := hx v (by omega)
  obtain ⟨h1, h2⟩ := h v
  exact ⟨by omega, by omega⟩

theorem Ordered.exists_within (h : Ordered st) : ∃ x, Within st x := by
  refine ⟨fun v => if int32Min < (st.lowerBound v).val then (st.lowerBound v).val
    else if (st.upperBound v).val < int32Max then (st.upperBound v).val else 0, fun v hv => ?_⟩
  obtain ⟨h1, h2, h3⟩ := h v hv
  dsimp only
  split_ifs <;> omega

/-! ## Absorbing a row -/

theorem inRange_ediv_strict {a c : Int} (ha : 0 < a) (hc : InRange c) :
    int32Min + 1 < c / a ∧ c / a < int32Max := by
  obtain ⟨hlo, hhi⟩ := hc
  unfold int32Min int32Max at *
  constructor
  · have : -2147483646 ≤ c / a := by rw [Int.le_ediv_iff_mul_le ha]; nlinarith
    omega
  · rw [Int.ediv_lt_iff_lt_mul ha]; nlinarith

/-- The bounds of the other variables are not touched. -/
def OthersSame (st st' : WorkState) (var : Nat) : Prop :=
  ∀ v, v ≠ var → st'.lowerBound v = st.lowerBound v ∧ st'.upperBound v = st.upperBound v

/-- What `SVPC_Set_Bound` does with a row in range. -/
structure BoundSet (st st' : WorkState) (row var : Nat) : Prop where
  only : BoundsOnly st st'
  tighter : Tighter st st'
  others : OthersSame st st' var
  lower : (st.lowerBound var).val < int32Max → (st'.lowerBound var).val < int32Max
  upper : int32Min < (st.upperBound var).val → int32Min < (st'.upperBound var).val
  implies : ∀ x, Within st' x → st.work row var * x var ≤ st.workConst row

/-- The bound that a row with one variable gives, rounded to an integer. -/
theorem svpcSetBound_set {row : Nat} (hvar : var < st.workCols)
    (hnz : st.work row var ≠ 0) (hc : InRange (st.workConst row)) :
    BoundSet st (svpcSetBound .exact row var st) row var := by
  have hsame : ∀ v, v ≠ var → ∀ f : Nat → Int32Infin, ∀ b, update f var b v = f v :=
    fun v hv f b => update_of_ne hv _ _
  unfold svpcSetBound
  dsimp only
  split_ifs with hpos hbetter hneg hbetter
  · -- a better upper bound
    rw [svpcUpper_exact _ hpos] at hbetter ⊢
    have hrange := inRange_ediv_strict hpos hc
    refine ⟨⟨st.lowerBound, _, rfl⟩, fun v => ?_, fun v hv => ⟨rfl, hsame v hv _ _⟩, id,
      fun _ => ?_, fun x hx => ?_⟩
    · by_cases hv : v = var
      · subst hv
        simp only [update_self]
        exact ⟨le_refl _, hbetter.le⟩
      · simp only [hsame v hv]
        exact ⟨le_refl _, le_refl _⟩
    · simp only [update_self]
      omega
    · have hub := (hx var hvar).2
      simp only [update_self] at hub
      have hle : x var ≤ st.workConst row / st.work row var := hub.resolve_left (by omega)
      rw [Int.le_ediv_iff_mul_le hpos, mul_comm] at hle
      exact hle
  · -- the upper bound is good enough
    rw [svpcUpper_exact _ hpos] at hbetter
    have hrange := inRange_ediv_strict hpos hc
    refine ⟨BoundsOnly.refl st, Tighter.refl st, fun v _ => ⟨rfl, rfl⟩, id, id, fun x hx => ?_⟩
    have hub := (hx var hvar).2
    have hle : x var ≤ st.workConst row / st.work row var := by omega
    rw [Int.le_ediv_iff_mul_le hpos, mul_comm] at hle
    exact hle
  · -- a better lower bound
    rw [svpcLower_exact _ hneg] at hbetter ⊢
    have hrange := inRange_ediv_strict (show 0 < -st.work row var by omega) hc
    refine ⟨⟨_, st.upperBound, rfl⟩, fun v => ?_, fun v hv => ⟨hsame v hv _ _, rfl⟩, fun _ => ?_,
      id, fun x hx => ?_⟩
    · by_cases hv : v = var
      · subst hv
        simp only [update_self]
        exact ⟨hbetter.le, le_refl _⟩
      · simp only [hsame v hv]
        exact ⟨le_refl _, le_refl _⟩
    · simp only [update_self]
      unfold int32Min int32Max at *
      omega
    · have hlb := (hx var hvar).1
      simp only [update_self] at hlb
      have hle : -x var ≤ st.workConst row / -st.work row var := by
        unfold int32Min int32Max at *
        omega
      rw [Int.le_ediv_iff_mul_le (by omega)] at hle
      linarith
  · -- the lower bound is good enough
    rw [svpcLower_exact _ hneg] at hbetter
    have hrange := inRange_ediv_strict (show 0 < -st.work row var by omega) hc
    refine ⟨BoundsOnly.refl st, Tighter.refl st, fun v _ => ⟨rfl, rfl⟩, id, id, fun x hx => ?_⟩
    have hlb := (hx var hvar).1
    have hle : -x var ≤ st.workConst row / -st.work row var := by
      unfold int32Min int32Max at *
      omega
    rw [Int.le_ediv_iff_mul_le (by omega)] at hle
    linarith
  · omega
  · omega

/-- What `One_Var_Consistent` leaves when it accepts a row. -/
structure RowTaken (st st' : WorkState) (row var : Nat) : Prop where
  only : BoundsOnly st st'
  tighter : Tighter st st'
  others : OthersSame st st' var
  ordered : Ordered st → Ordered st'
  absorbed : RowAbsorbed st' row

theorem oneVarConsistent_taken {row : Nat} (hvar : var < st.workCols)
    (hnz : st.work row var ≠ 0) (honly : OnlyVar st row var)
    (h : oneVarConsistent .exact true var row 1 st = (true, st')) : RowTaken st st' row var:= by
  unfold oneVarConsistent at h
  rw [if_neg (by simp)] at h
  simp only [forFrom, oneVarStep] at h
  by_cases hrange : st.workConst row ≥ int32Max - 1 ∨ st.workConst row ≤ int32Min + 1
  · -- out of range: nothing happens
    simp only [if_pos hrange, Prod.mk.injEq, true_and] at h
    subst h
    refine ⟨BoundsOnly.refl st, Tighter.refl st, fun v _ => ⟨rfl, rfl⟩, id, fun hin => ?_⟩
    unfold InRange at hin
    omega
  · have hset := svpcSetBound_set hvar hnz (show InRange (st.workConst row) from
      ⟨by omega, by omega⟩)
    simp only [if_neg hrange] at h
    by_cases hcross : ((svpcSetBound .exact row var st).lowerBound var).val
        > ((svpcSetBound .exact row var st).upperBound var).val
    · simp [if_pos hcross] at h
    · simp only [if_neg hcross, Prod.mk.injEq, true_and] at h
      rw [h] at hset hcross
      refine ⟨hset.only, hset.tighter, hset.others, fun hord v hv => ?_, fun _ x hx => ?_⟩
      · have hcols := hset.only.sameDims.2
        obtain ⟨h1, h2, h3⟩ := hord v (by omega)
        by_cases hvv : v = var
        · subst hvv
          exact ⟨by omega, hset.lower h2, hset.upper h3⟩
        · rw [(hset.others v hvv).1, (hset.others v hvv).2]
          exact ⟨h1, h2, h3⟩
      · have himp := hset.implies x hx
        obtain ⟨lb, ub, rfl⟩ := hset.only
        have hiff : RowHolds { st with lowerBound := lb, upperBound := ub } x row ↔ _ :=
          rowHolds_onlyVar hvar honly
        exact hiff.mpr himp

/-! ## One row of a substitution -/

/-- What the column loop of `Acy_Set_Var` knows after the columns below `j`. -/
def AcyScanInv (row : Nat → Int) (j : Nat) (sc : Nat × Nat) : Prop :=
  (sc.1 = 0 ∧ ∀ k < j, row k = 0) ∨
  (sc.1 = 1 ∧ sc.2 < j ∧ row sc.2 ≠ 0 ∧ ∀ k < j, k ≠ sc.2 → row k = 0) ∨
  (2 ≤ sc.1 ∧ TwoVars j row)

theorem TwoVars.mono {j : Nat} {row : Nat → Int} (h : TwoVars j row) (hjk : j ≤ k) :
    TwoVars k row := by
  obtain ⟨a, ha, b, hb, hrest⟩ := h
  exact ⟨a, by omega, b, by omega, hrest⟩

theorem acyScan_inv (row : Nat → Int) (cols : Nat) : AcyScanInv row cols (acyScan row cols) := by
  have hinv := forEach_inv (f := acyScanStep row) (AcyScanInv row) cols 0 (0, 0)
    (by
      intro j sc _ _ hsc
      unfold acyScanStep
      split
      · next hc =>
        obtain ⟨hone, hnz⟩ := hc
        rcases hsc with ⟨h0, hnull⟩ | ⟨h1, hlt, hpos, -⟩ | ⟨h2, -⟩
        · refine .inr (.inl ⟨by dsimp only; omega, Nat.lt_succ_self j, hnz, fun k hk hne => ?_⟩)
          exact hnull k (lt_of_le_of_ne (Nat.lt_succ_iff.mp hk) hne)
        · exact .inr (.inr ⟨by dsimp only; omega, sc.2, by omega, j, Nat.lt_succ_self j,
            by omega, hpos, hnz⟩)
        · omega
      · next hc =>
        rcases hsc with ⟨h0, hnull⟩ | ⟨h1, hlt, hpos, honly⟩ | ⟨h2, htwo⟩
        · refine .inl ⟨h0, fun k hk => ?_⟩
          rcases Nat.lt_succ_iff_lt_or_eq.mp hk with hlt | rfl
          · exact hnull k hlt
          · by_contra hne
            exact hc ⟨by omega, hne⟩
        · refine .inr (.inl ⟨h1, by omega, hpos, fun k hk hne => ?_⟩)
          rcases Nat.lt_succ_iff_lt_or_eq.mp hk with hlt' | rfl
          · exact honly k hlt' hne
          · by_contra hne'
            exact hc ⟨by omega, hne'⟩
        · exact .inr (.inr ⟨h2, htwo.mono (le_succ j)⟩))
    (.inl ⟨rfl, fun k hk => absurd hk (not_lt_zero k)⟩)
  rwa [zero_add] at hinv

/-- How the state moves on: absorbed rows stay, and zero columns of open ones. -/
structure AcyStep (st st' : WorkState) : Prop where
  dims : SameDims st st'
  flagged : ∀ r, st.isSvpc r = true →
    st'.isSvpc r = true ∧ st'.workConst r = st.workConst r
  stays : ∀ r, st'.isSvpc r = false →
    st.isSvpc r = false ∧ ∀ c, st.work r c = 0 → st'.work r c = 0
  inv : AcyInv st'

theorem AcyStep.trans {s1 s2 s3 : WorkState} (h1 : AcyStep s1 s2) (h2 : AcyStep s2 s3) :
    AcyStep s1 s3 := by
  refine ⟨h1.dims.trans h2.dims, fun r hr => ?_, fun r hr => ?_, h2.inv⟩
  · obtain ⟨hf1, hc1⟩ := h1.flagged r hr
    obtain ⟨hf2, hc2⟩ := h2.flagged r hf1
    exact ⟨hf2, hc2.trans hc1⟩
  · obtain ⟨ho2, hz2⟩ := h2.stays r hr
    obtain ⟨ho1, hz1⟩ := h1.stays r ho2
    exact ⟨ho1, fun c hc => hz2 c (hz1 c hc)⟩

theorem AcyStep.refl (h : AcyInv st) : AcyStep st st :=
  ⟨⟨rfl, rfl⟩, fun _ hr => ⟨hr, rfl⟩, fun _ hr => ⟨hr, fun _ hc => hc⟩, h⟩

theorem AcyStep.rangeOk (h : AcyStep st st') (hr : RangeOk st') : RangeOk st := by
  intro r hrow hsv
  obtain ⟨hf, hc⟩ := h.flagged r hsv
  rw [← hc]
  exact hr r (by have := h.dims.1; omega) hf

theorem setRow_other {row : Nat} (hr : r ≠ row) : (setRow .exact i v row st).work r = st.work r ∧
    (setRow .exact i v row st).workConst r = st.workConst r := by
  refine ⟨?_, by simp [setRow, update_of_ne hr]⟩
  funext c
  simp [setRow, hr]

theorem setRow_row (i row : Nat) (v : Int) (st : WorkState) :
    (setRow .exact i v row st).work row = update (st.work row) i 0 := by
  funext c
  by_cases hc : c = i
  · subst hc; simp [setRow]
  · simp [setRow, hc]

theorem setRow_holds {row : Nat} (hi : i < st.workCols) (hx : x i = v) :
    RowHolds (setRow .exact i v row st) x row ↔ RowHolds st x row := by
  have hcols : (setRow .exact i v row st).workCols = st.workCols := rfl
  unfold RowHolds
  rw [setRow_const_exact, setRow_row, hcols, dot_update_zero _ _ hi, hx]
  constructor <;> intro h <;> linarith

theorem TwoVars.update {cols i : Nat} {row : Nat → Int} (h : TwoVars cols row) :
    ∃ k < cols, update row i 0 k ≠ 0 := by
  obtain ⟨j, hj, k, hk, hjk, hjnz, hknz⟩ := h
  by_cases hji : j = i
  · exact ⟨k, hk, by rw [update_of_ne (by omega)]; exact hknz⟩
  · exact ⟨j, hj, by rw [update_of_ne hji]; exact hjnz⟩

/-- One row after a finite value has been put for variable `i`. -/
structure RowSet (i : Nat) (v : Int) (row : Nat) (st st' : WorkState) : Prop where
  step : AcyStep st st'
  bounds : st'.lowerBound i = st.lowerBound i ∧ st'.upperBound i = st.upperBound i
  cleared : st'.isSvpc row = false → st'.work row i = 0
  back : ∀ x : Nat → Int, x i = v → RangeOk st' → OpenAt st' x → OpenAt st x

theorem RowSet.refl {st : WorkState} {i row : Nat} {v : Int} (h : AcyInv st)
    (hrow : st.isSvpc row = true ∨ st.work row i = 0) : RowSet i v row st st := by
  refine ⟨AcyStep.refl h, ⟨rfl, rfl⟩, fun hopen => hrow.resolve_left (by simp [hopen]), ?_⟩
  exact fun x _ _ hx => hx

/-- A row with two variables or more is left open when one of them is set. -/
theorem setRow_open {row : Nat} (h : AcyInv st)
    (hi : i < st.workCols) (hopen : st.isSvpc row = false)
    (htwo : TwoVars st.workCols ((setRow .exact i v row st).work row)) :
    RowSet i v row st (setRow .exact i v row st) := by
  have hself : (setRow .exact i v row st).work row i = 0 := by
    rw [setRow_row, update_self]
  refine ⟨⟨⟨rfl, rfl⟩, fun r hr => ?_, fun r hr => ⟨hr, fun c hc => ?_⟩, h.ordered,
    fun r hr hsv => ?_, fun r hr hsv => ?_⟩, ⟨rfl, rfl⟩, fun _ => hself, fun x hx _ hopenAt => ?_⟩
  · have hne : r ≠ row := fun heq => by rw [heq, hopen] at hr; cases hr
    exact ⟨hr, (setRow_other hne).2⟩
  · by_cases hrr : r = row
    · subst hrr
      rw [setRow_row]
      by_cases hci : c = i
      · rw [hci, update_self]
      · rw [update_of_ne hci, hc]
    · rw [(setRow_other hrr).1, hc]
  · have hne : r ≠ row := fun heq => by
      rw [heq, show (setRow .exact i v row st).isSvpc row = st.isSvpc row from rfl, hopen] at hsv
      cases hsv
    have habs := h.absorbed r hr hsv
    unfold RowAbsorbed RowHolds at habs ⊢
    rw [(setRow_other hne).1, (setRow_other hne).2]
    exact habs
  · by_cases hrr : r = row
    · subst hrr
      exact htwo
    · rw [(setRow_other hrr).1]
      exact h.twoVars r hr hsv
  · refine ⟨hopenAt.within, fun r hr hsv => ?_⟩
    have hrow := hopenAt.rows r hr hsv
    by_cases hrr : r = row
    · subst hrr
      exact (setRow_holds hi hx).mp hrow
    · unfold RowHolds at hrow ⊢
      rwa [(setRow_other hrr).1, (setRow_other hrr).2] at hrow

/-- A row left with one other variable is taken as a bound of that one. -/
theorem setRow_taken {st2 : WorkState} {row : Nat} (h : AcyInv st)
    (hi : i < st.workCols) (hrow : row < st.workRows) (hopen : st.isSvpc row = false)
    (hvi : var ≠ i) (htaken : RowTaken (setRow .exact i v row st) st2 row var) :
    RowSet i v row st { st2 with isSvpc := update st2.isSvpc row true } := by
  obtain ⟨lb, ub, rfl⟩ := htaken.only
  have hself : (setRow .exact i v row st).work row i = 0 := by
    rw [setRow_row, update_self]
  -- the flags after the step
  have hflag : ∀ r, r ≠ row → update (setRow .exact i v row st).isSvpc row true r
      = st.isSvpc r := fun r hr => update_of_ne hr _ _
  have hne : ∀ r, update (setRow .exact i v row st).isSvpc row true r = false → r ≠ row := by
    rintro r hr rfl
    rw [update_self] at hr
    cases hr
  refine ⟨⟨⟨rfl, rfl⟩, fun r hr => ?_, fun r hr => ?_, htaken.ordered h.ordered,
    fun r hr hsv => ?_, fun r hr hsv => ?_⟩, htaken.others i hvi.symm, fun _ => hself,
    fun x hx hrange hopenAt => ?_⟩
  · have hrr : r ≠ row := fun heq => by rw [heq, hopen] at hr; cases hr
    exact ⟨(hflag r hrr).trans hr, (setRow_other hrr).2⟩
  · have hrr := hne r hr
    refine ⟨(hflag r hrr).symm.trans hr, fun c hc => ?_⟩
    show (setRow .exact i v row st).work r c = 0
    rw [(setRow_other hrr).1, hc]
  · by_cases hrr : r = row
    · subst hrr
      exact htaken.absorbed
    · have habs := h.absorbed r hr ((hflag r hrr).symm.trans hsv)
      intro hin x hx
      have hin' : InRange (st.workConst r) := (setRow_other (v := v) (i := i) hrr).2 ▸ hin
      have hw : Within (setRow .exact i v row st) x := htaken.tighter.within rfl hx
      have hold := habs hin' x hw
      unfold RowHolds at hold ⊢
      dsimp only
      rw [(setRow_other hrr).1, (setRow_other hrr).2]
      exact hold
  · have hrr := hne r hsv
    show TwoVars st.workCols ((setRow .exact i v row st).work r)
    rw [(setRow_other hrr).1]
    exact h.twoVars r hr ((hflag r hrr).symm.trans hsv)
  · have hw : Within (setRow .exact i v row st) x := htaken.tighter.within rfl hopenAt.within
    refine ⟨hw, fun r hr hsv => ?_⟩
    by_cases hrr : r = row
    · subst hrr
      have hin := hrange r hrow (update_self _ _ _)
      exact (setRow_holds hi hx).mp (htaken.absorbed hin x hopenAt.within)
    · have hold := hopenAt.rows r hr ((hflag r hrr).trans hsv)
      unfold RowHolds at hold ⊢
      dsimp only at hold
      rwa [(setRow_other hrr).1, (setRow_other hrr).2] at hold

theorem acySetVarRow_finite {row : Nat} {val : Int32Infin}
    (h : AcyInv st) (hi : i < st.workCols) (hrow : row < st.workRows)
    (hfin : (val.isInfinite || val.isNegInfinite) = false)
    (hres : acySetVarRow .exact true i val row st = .ok st') : RowSet i val.val row st st':= by
  unfold acySetVarRow at hres
  split at hres
  · next hcond =>
    rw [hfin, if_neg (by simp)] at hres
    dsimp only at hres
    have hscan := acyScan_inv ((setRow .exact i val.val row st).work row)
      (setRow .exact i val.val row st).workCols
    obtain ⟨k, hk, hknz⟩ := (h.twoVars row hrow hcond.1).update (i := i)
    rw [← setRow_row i row val.val st] at hknz
    split at hres
    · next hone =>
      rcases hscan with ⟨h0, -⟩ | ⟨-, hvar, hnz, honly⟩ | ⟨h2, -⟩
      · omega
      · generalize (acyScan ((setRow .exact i val.val row st).work row)
          (setRow .exact i val.val row st).workCols).2 = var at *
        split at hres
        · cases hres
        · next st2 hone' =>
          cases hres
          refine setRow_taken h hi hrow hcond.1 ?_ (oneVarConsistent_taken hvar hnz honly hone')
          rintro rfl
          rw [setRow_row, update_self] at hnz
          exact hnz rfl
      · omega
    · next hmany =>
      cases hres
      rcases hscan with ⟨-, hnull⟩ | ⟨h1, -⟩ | ⟨-, htwo⟩
      · exact absurd (hnull k hk) hknz
      · exact absurd h1 hmany
      · exact setRow_open h hi hcond.1 htwo
  · next hcond =>
    cases hres
    refine RowSet.refl h ?_
    by_cases hsv : st.isSvpc row = true
    · exact .inl hsv
    · refine .inr ?_
      by_contra hnz
      exact hcond ⟨by simpa using hsv, hnz⟩

/-! ## A whole substitution -/

/-- No open row uses variable `i`, and a point for what is left gives one for what was there. -/
structure Substituted (i : Nat) (st st' : WorkState) : Prop where
  step : AcyStep st st'
  cleared : ∀ r < st.workRows, st'.isSvpc r = false → st'.work r i = 0
  back : RangeOk st' → (∃ x, OpenAt st' x) → ∃ x, OpenAt st x

/-- The rows below `k` have been set to a finite value. -/
structure SetLoop (i : Nat) (v : Int) (st : WorkState) (k : Nat) (t : WorkState) : Prop where
  step : AcyStep st t
  bounds : t.lowerBound i = st.lowerBound i ∧ t.upperBound i = st.upperBound i
  cleared : ∀ r < k, t.isSvpc r = false → t.work r i = 0
  back : ∀ x : Nat → Int, x i = v → RangeOk t → OpenAt t x → OpenAt st x

theorem SetLoop.next (h : SetLoop i v st k t)
    (hset : RowSet i v k t t') : SetLoop i v st (k + 1) t' := by
  refine ⟨h.step.trans hset.step,
    ⟨hset.bounds.1.trans h.bounds.1, hset.bounds.2.trans h.bounds.2⟩, fun r hr hopen => ?_,
    fun x hx hrange hat => h.back x hx (hset.step.rangeOk hrange) (hset.back x hx hrange hat)⟩
  rcases Nat.lt_succ_iff_lt_or_eq.mp hr with hlt | rfl
  · obtain ⟨hopen', hzero⟩ := hset.step.stays r hopen
    exact hzero i (h.cleared r hlt hopen')
  · exact hset.cleared hopen

theorem OpenAt.move (hi : i < st.workCols)
    (hclear : ∀ r < st.workRows, st.isSvpc r = false → st.work r i = 0)
    (hv : ((st.lowerBound i).val ≤ int32Min ∨ (st.lowerBound i).val ≤ v) ∧
      (int32Max ≤ (st.upperBound i).val ∨ v ≤ (st.upperBound i).val))
    (h : OpenAt st x) : OpenAt st (update x i v) := by
  refine ⟨fun w hw => ?_, fun r hr hopen => ?_⟩
  · by_cases hwi : w = i
    · rw [hwi, update_self]
      exact hv
    · rw [update_of_ne hwi]
      exact h.within w hw
  · have hrow : dot st.workCols (st.work r) x ≤ st.workConst r := h.rows r hr hopen
    unfold RowHolds
    rw [dot_update_point _ _ _ hi, hclear r hr hopen]
    linarith

theorem acySetVar_finite {val : Int32Infin} (h : AcyInv st)
    (hi : i < st.workCols) (hfin : (val.isInfinite || val.isNegInfinite) = false)
    (hbounds : (st.lowerBound i).val ≤ val.val ∧ val.val ≤ (st.upperBound i).val)
    (hres : acySetVar .exact true i val st = .ok st') : Substituted i st st' := by
  have hloop := forFrom_outcome (f := acySetVarRow .exact true i val) (Q := fun _ => True)
    (SetLoop i val.val st) st.workRows 0 st
    (by
      intro row t _ hrow ht
      have hdims := ht.step.dims
      cases hres : acySetVarRow .exact true i val row t with
      | error _ => trivial
      | ok t' =>
        exact ht.next (acySetVarRow_finite ht.step.inv (by rw [hdims.2]; exact hi)
          (by rw [hdims.1]; omega) hfin hres))
    ⟨AcyStep.refl h, ⟨rfl, rfl⟩, fun r hr => absurd hr (not_lt_zero r),
      fun _ _ _ hx => hx⟩
  unfold acySetVar at hres
  rw [hres, zero_add, outcome_ok] at hloop
  refine ⟨hloop.step, hloop.cleared, fun hrange hsat => ?_⟩
  obtain ⟨x, hx⟩ := hsat
  have hdims := hloop.step.dims
  refine ⟨update x i val.val,
    hloop.back _ (update_self _ _ _) hrange (hx.move (by rw [hdims.2]; exact hi) ?_ ?_)⟩
  · intro r hr
    exact hloop.cleared r (by rw [← hdims.1]; exact hr)
  · rw [hloop.bounds.1, hloop.bounds.2]
    exact ⟨.inr hbounds.1, .inr hbounds.2⟩

/-- The rows below `k` that use variable `i` have been dropped. -/
structure ZeroLoop (i : Nat) (st : WorkState) (k : Nat) (t : WorkState) : Prop where
  step : AcyStep st t
  bounds : t.lowerBound = st.lowerBound ∧ t.upperBound = st.upperBound
  cleared : ∀ r < k, t.isSvpc r = false → t.work r i = 0
  kept : ∀ r < st.workRows, st.isSvpc r = false → st.work r i = 0 →
    t.isSvpc r = false ∧ t.work r = st.work r ∧ t.workConst r = st.workConst r

theorem zeroRow_other {row r : Nat} {st : WorkState} (hr : r ≠ row) :
    (zeroRow row st).work r = st.work r ∧ (zeroRow row st).workConst r = st.workConst r ∧
    (zeroRow row st).isSvpc r = st.isSvpc r := by
  refine ⟨?_, by simp [zeroRow, update_of_ne hr], update_of_ne hr _ _⟩
  funext c
  simp [zeroRow, hr]

theorem zeroRow_step {row : Nat} (h : AcyInv st)
    (hopen : st.isSvpc row = false) : AcyStep st (zeroRow row st) := by
  have hself : (zeroRow row st).isSvpc row = true := update_self _ _ _
  have hne : ∀ r, (zeroRow row st).isSvpc r = false → r ≠ row := by
    rintro r hr rfl
    rw [hself] at hr
    cases hr
  refine ⟨⟨rfl, rfl⟩, fun r hr => ?_, fun r hr => ?_, h.ordered, fun r hr hsv => ?_,
    fun r hr hsv => ?_⟩
  · have hrr : r ≠ row := fun heq => by rw [heq, hopen] at hr; cases hr
    exact ⟨(zeroRow_other hrr).2.2.trans hr, (zeroRow_other hrr).2.1⟩
  · have hrr := hne r hr
    refine ⟨(zeroRow_other hrr).2.2.symm.trans hr, fun c hc => ?_⟩
    rw [(zeroRow_other hrr).1, hc]
  · by_cases hrr : r = row
    · -- the dropped row holds everywhere
      subst hrr
      intro _ x _
      have hnull : dot st.workCols ((zeroRow r st).work r) x = 0 :=
        dot_eq_zero x (fun j hj => if_pos ⟨rfl, hj⟩)
      show dot st.workCols ((zeroRow r st).work r) x ≤ update st.workConst r 0 r
      rw [hnull, update_self]
    · have habs := h.absorbed r hr ((zeroRow_other hrr).2.2.symm.trans hsv)
      unfold RowAbsorbed RowHolds at habs ⊢
      rw [(zeroRow_other hrr).1, (zeroRow_other hrr).2.1]
      exact habs
  · have hrr := hne r hsv
    rw [(zeroRow_other hrr).1]
    exact h.twoVars r hr ((zeroRow_other hrr).2.2.symm.trans hsv)

theorem acySetVarRow_infinite {row : Nat} {val : Int32Infin}
    (h : ZeroLoop i st row t) (hinf : (val.isInfinite || val.isNegInfinite) = true)
    (hres : acySetVarRow .exact true i val row t = .ok t') : ZeroLoop i st (row + 1) t' := by
  unfold acySetVarRow at hres
  split at hres
  · next hcond =>
    cases hres
    have hstep := zeroRow_step h.step.inv hcond.1
    refine ⟨h.step.trans hstep, h.bounds, fun r hr hopen => ?_, fun r hr hopen h0 => ?_⟩
    · rcases Nat.lt_succ_iff_lt_or_eq.mp hr with hlt | rfl
      · obtain ⟨hopen', hzero⟩ := hstep.stays r hopen
        exact hzero i (h.cleared r hlt hopen')
      · rw [show (zeroRow r t).isSvpc r = true from update_self _ _ _] at hopen
        cases hopen
    · obtain ⟨ho, hw, hc⟩ := h.kept r hr hopen h0
      have hrr : r ≠ row := fun heq => hcond.2 (by rw [← heq, hw, h0])
      obtain ⟨hw', hc', ho'⟩ := @zeroRow_other row r t hrr
      exact ⟨ho'.trans ho, hw'.trans hw, hc'.trans hc⟩
  · next hcond =>
    cases hres
    refine ⟨h.step, h.bounds, fun r hr hopen => ?_, h.kept⟩
    rcases Nat.lt_succ_iff_lt_or_eq.mp hr with hlt | rfl
    · exact h.cleared r hlt hopen
    · by_contra hnz
      exact hcond ⟨hopen, hnz⟩

theorem exists_far (n : Nat) (sign extra : Int) (a c : Nat → Int) :
    ∃ s : Int, |extra| ≤ s ∧ ∀ r < n, 0 < sign * a r → a r * (-sign * s) ≤ c r := by
  refine ⟨|extra| + ∑ r ∈ Finset.range n, |c r|, ?_, fun r hr hpos => ?_⟩
  · have := Finset.sum_nonneg (s := Finset.range n) (f := fun r => |c r|)
      (fun r _ => abs_nonneg _)
    linarith
  · have hle := Finset.single_le_sum (f := fun r => |c r|) (fun _ _ => abs_nonneg _)
      (Finset.mem_range.mpr hr)
    have hext := abs_nonneg extra
    have hneg := neg_abs_le (c r)
    have hs : |c r| ≤ |extra| + ∑ r ∈ Finset.range n, |c r| := by
      have : |c r| ≤ ∑ r ∈ Finset.range n, |c r| := hle
      linarith
    generalize |extra| + ∑ r ∈ Finset.range n, |c r| = s at *
    have hs0 : 0 ≤ s := (abs_nonneg _).trans hs
    have hmul : s ≤ sign * a r * s := le_mul_of_one_le_left hs0 hpos
    have heq : a r * (-sign * s) = -(sign * a r * s) := by ring
    rw [heq]
    linarith

/-- A variable without a bound on the side it is pushed to satisfies its rows, which are dropped. -/
theorem acySetVar_infinite (sign : Int) {val : Int32Infin}
    (h : AcyInv st) (hi : i < st.workCols) (hinf : (val.isInfinite || val.isNegInfinite) = true)
    (hsign : sign = 1 ∧ (st.lowerBound i).val ≤ int32Min ∨
      sign = -1 ∧ int32Max ≤ (st.upperBound i).val)
    (hleaf : ∀ r < st.workRows, st.isSvpc r = false → 0 ≤ sign * st.work r i)
    (hres : acySetVar .exact true i val st = .ok st') : Substituted i st st' := by
  have hloop := forFrom_outcome (f := acySetVarRow .exact true i val) (Q := fun _ => True)
    (ZeroLoop i st) st.workRows 0 st
    (by
      intro row t _ _ ht
      cases hres : acySetVarRow .exact true i val row t with
      | error _ => trivial
      | ok t' => exact acySetVarRow_infinite ht hinf hres)
    ⟨AcyStep.refl h, ⟨rfl, rfl⟩, fun r hr => absurd hr (not_lt_zero r),
      fun r _ ho _ => ⟨ho, rfl, rfl⟩⟩
  unfold acySetVar at hres
  rw [hres, zero_add, outcome_ok] at hloop
  refine ⟨hloop.step, hloop.cleared, fun _ hsat => ?_⟩
  obtain ⟨x, hx⟩ := hsat
  have hdims := hloop.step.dims
  obtain ⟨s, hs, hfar⟩ := exists_far st.workRows sign
    (|(st.lowerBound i).val| + |(st.upperBound i).val|) (fun r => st.work r i)
    (fun r => st.workConst r - dot st.workCols (st.work r) x + st.work r i * x i)
  have habs := abs_of_nonneg (add_nonneg (abs_nonneg (st.lowerBound i).val)
    (abs_nonneg (st.upperBound i).val))
  have hlo := le_abs_self (st.lowerBound i).val
  have hhi := neg_abs_le (st.upperBound i).val
  have hlo0 := abs_nonneg (st.lowerBound i).val
  have hhi0 := abs_nonneg (st.upperBound i).val
  refine ⟨update x i (-sign * s), fun v hv => ?_, fun r hr hopen => ?_⟩
  · by_cases hvi : v = i
    · rw [hvi, update_self]
      rcases hsign with ⟨rfl, hfree⟩ | ⟨rfl, hfree⟩
      · exact ⟨.inl hfree, .inr (by linarith)⟩
      · exact ⟨.inr (by linarith), .inl hfree⟩
    · rw [update_of_ne hvi, ← hloop.bounds.1, ← hloop.bounds.2]
      exact hx.within v (by rw [hdims.2]; exact hv)
  · unfold RowHolds
    rw [dot_update_point _ _ _ hi]
    by_cases h0 : st.work r i = 0
    · -- the row is still there
      obtain ⟨ho, hw, hc⟩ := hloop.kept r hr hopen h0
      have hrow := hx.rows r (by rw [hdims.1]; exact hr) ho
      unfold RowHolds at hrow
      rw [hdims.2, hw, hc] at hrow
      rw [h0]
      linarith
    · have hpos : 0 < sign * st.work r i := by
        refine lt_of_le_of_ne (hleaf r hr hopen) (Ne.symm (mul_ne_zero ?_ h0))
        rcases hsign with ⟨rfl, _⟩ | ⟨rfl, _⟩ <;> omega
      have hrow := hfar r hr hpos
      linarith

/-! ## What `SVPC` leaves -/

theorem svpcScan_vars (row : Nat → Int) (cols : Nat) : ((svpcScan row cols).numVars ≠ 0 →
      (svpcScan row cols).varPos < cols ∧ row (svpcScan row cols).varPos ≠ 0) ∧
    ((svpcScan row cols).applicable = false → TwoVars cols row) := by
  have hinv := forEach_inv (f := svpcScanStep row)
    (fun j sc => (sc.numVars ≠ 0 → sc.varPos < j ∧ row sc.varPos ≠ 0) ∧
      (sc.applicable = false → TwoVars j row)) cols 0
    { numVars := 0, varPos := 0, applicable := true }
    (by
      intro j sc _ _ hsc
      obtain ⟨hpos, htwo⟩ := hsc
      unfold svpcScanStep
      split
      · next hj =>
        refine ⟨fun _ => ⟨lt_succ_self j, hj⟩, fun happ => ?_⟩
        by_cases hn : sc.numVars = 0
        · dsimp only at happ
          rw [if_neg (not_not.mpr hn)] at happ
          exact (htwo happ).mono (le_succ j)
        · obtain ⟨hlt, hnz⟩ := hpos hn
          exact ⟨sc.varPos, by omega, j, lt_succ_self j, by omega, hnz, hj⟩
      · exact ⟨fun hn => ⟨lt_succ_of_lt (hpos hn).1, (hpos hn).2⟩,
          fun happ => (htwo happ).mono (le_succ j)⟩)
    ⟨fun hn => absurd rfl hn, fun happ => by cases happ⟩
  rwa [zero_add] at hinv

/-- The state after the rows below `k`. -/
structure SvpcLeft (st₀ : WorkState) (k : Nat) (st : WorkState) : Prop where
  work : st.work = st₀.work ∧ st.workConst = st₀.workConst
  dims : SameDims st₀ st
  ordered : Ordered st
  absorbed : ∀ r < k, st.isSvpc r = true → RowAbsorbed st r
  twoVars : ∀ r < k, st.isSvpc r = false → TwoVars st.workCols (st.work r)

theorem RowAbsorbed.tighter (h : RowAbsorbed st r)
    (hbounds : BoundsOnly st st') (htight : Tighter st st') : RowAbsorbed st' r := by
  intro hin x hx
  have hw := htight.within hbounds.sameDims.2 hx
  obtain ⟨lb, ub, rfl⟩ := hbounds
  exact h hin x hw

theorem SvpcLeft.flag (h : SvpcLeft st0 k st)
    (htrue : b = true → RowAbsorbed st k) (hfalse : b = false → TwoVars st.workCols (st.work k)) :
    SvpcLeft st0 (k + 1) { st with isSvpc := update st.isSvpc k b } := by
  refine ⟨h.work, h.dims, h.ordered, fun r hr hsv => ?_, fun r hr hsv => ?_⟩
  · by_cases hrk : r = k
    · subst hrk
      exact htrue ((update_self r b st.isSvpc).symm.trans hsv)
    · exact h.absorbed r (by omega) ((update_of_ne hrk b st.isSvpc).symm.trans hsv)
  · by_cases hrk : r = k
    · subst hrk
      exact hfalse ((update_self r b st.isSvpc).symm.trans hsv)
    · exact h.twoVars r (by omega) ((update_of_ne hrk b st.isSvpc).symm.trans hsv)

theorem SvpcLeft.bounds (h : SvpcLeft st0 k st)
    (hbounds : BoundsOnly st st') (htight : Tighter st st') (hord : Ordered st') :
    SvpcLeft st0 k st' := by
  have habs : ∀ r < k, st.isSvpc r = true → RowAbsorbed st' r := fun r hr hsv =>
    (h.absorbed r hr hsv).tighter hbounds htight
  obtain ⟨lb, ub, rfl⟩ := hbounds
  exact ⟨h.work, h.dims, hord, habs, h.twoVars⟩

theorem svpcStep_left {s : Bool × WorkState} (h : SvpcLeft st0 k s.2) :
    Outcome (fun r => r.1 = SvpcResult.inconsistent) (fun s' => SvpcLeft st0 (k + 1) s'.2)
      (svpcStep .exact true k s) := by
  obtain ⟨applicable, st⟩ := s
  dsimp only at h
  have hscan := svpcScan_inv (st.work k) st.workCols
  have hvars := svpcScan_vars (st.work k) st.workCols
  unfold svpcStep
  dsimp only
  generalize svpcScan (st.work k) st.workCols = sc at *
  split
  · next hzero =>
    obtain ⟨happ, hnull⟩ := hscan.1 hzero
    split
    · rfl
    · next hconst =>
      refine h.flag (fun _ _ x _ => ?_) (fun hf => by rw [happ] at hf; cases hf)
      unfold RowHolds
      rw [dot_eq_zero x hnull]
      omega
  · next hone =>
    obtain ⟨hvar, hnz⟩ := hvars.1 hone
    split
    · next happ =>
      split
      · rfl
      · next st' hres =>
        have htaken := oneVarConsistent_taken hvar hnz ((hscan.2 hone).2 happ) hres
        refine (h.bounds htaken.only htaken.tighter (htaken.ordered h.ordered)).flag
          (fun _ => htaken.absorbed) (fun hf => by rw [happ] at hf; cases hf)
    · next happ =>
      exact h.flag (fun ht => absurd ht happ) (fun hf => hvars.2 hf)

theorem svpc_left (h : (svpc .exact true st).1 = .inapplicable) :
    SvpcLeft st st.workRows (svpc .exact true st).2 := by
  have hloop := forFrom_outcome (f := svpcStep .exact true)
    (Q := fun r => r.1 = SvpcResult.inconsistent) (fun k s => SvpcLeft st k s.2)
    st.workRows 0 (true, resetBounds st) (fun k s _ _ hs => svpcStep_left hs)
    ⟨⟨rfl, rfl⟩, ⟨rfl, rfl⟩, fun v hv => by
        have hv' : v < st.workCols := hv
        simp only [resetBounds, if_pos hv']
        decide,
      fun r hr => absurd hr (not_lt_zero r), fun r hr => absurd hr (not_lt_zero r)⟩
  rw [zero_add] at hloop
  unfold svpc at h ⊢
  split at h
  · next r hres =>
    rw [hres, outcome_error, h] at hloop
    cases hloop
  · next applicable st' hres =>
    rw [hres, outcome_ok] at hloop
    exact hloop

theorem SvpcLeft.acyInv (h : SvpcLeft st0 st0.workRows st) : AcyInv st := by
  have hrows := h.dims.1
  exact ⟨h.ordered, fun r hr => h.absorbed r (by omega), fun r hr => h.twoVars r (by omega)⟩

theorem SvpcLeft.solves
    (h : SvpcLeft st0 st0.workRows st) (hrange : RangeOk st) (hx : OpenAt st x) : Solves st0 x:= by
  intro r hr
  have hr' : r < st.workRows := by rw [h.dims.1]; exact hr
  have hrow : RowHolds st x r := by
    cases hsv : st.isSvpc r with
    | true => exact h.absorbed r hr hsv (hrange r hr' hsv) x hx.within
    | false => exact hx.rows r hr' hsv
  unfold RowHolds at hrow ⊢
  rwa [h.dims.2, h.work.1, h.work.2] at hrow

/-! ## The search loop -/

/-- Substituted variables are gone, and a point for what is left gives one for the start. -/
structure SearchInv (st₀ : WorkState) (s : AcyState) : Prop where
  step : AcyStep st₀ s.st
  gone : ∀ i < st₀.workCols, s.varSubstituted i = true →
    ∀ r < st₀.workRows, s.st.isSvpc r = false → s.st.work r i = 0
  back : RangeOk s.st → (∃ x, OpenAt s.st x) → ∃ x, OpenAt st₀ x

theorem SearchInv.substituted
    (h : SearchInv st0 s) (hsub : Substituted i s.st st') : SearchInv st0 { s with
      varSubstituted := update s.varSubstituted i true
      subbedOne := b, st := st' } := by
  refine ⟨h.step.trans hsub.step, fun j hj hjs r hr hopen => ?_, fun hrange hsat =>
    h.back (hsub.step.rangeOk hrange) (hsub.back hrange hsat)⟩
  by_cases hji : j = i
  · subst hji
    exact hsub.cleared r (by rw [h.step.dims.1]; exact hr) hopen
  · obtain ⟨hopen', hzero⟩ := hsub.step.stays r hopen
    exact hzero j (h.gone j hj ((update_of_ne hji true s.varSubstituted).symm.trans hjs)
      r hr hopen')

theorem leaf_substituted {sign : Int} (h : AcyInv st)
    (hi : i < st.workCols) (hleaf : LeafInv st i st.workRows sign)
    (hres : sign > 0 ∧ acySetVar .exact true i (st.lowerBound i) st = .ok st' ∨
      sign < 0 ∧ acySetVar .exact true i (st.upperBound i) st = .ok st') : Substituted i st st':= by
  obtain ⟨hle, hlow, hup⟩ := h.ordered i hi
  rcases hres with ⟨hpos, hres⟩ | ⟨hneg, hres⟩
  · cases hinf : (st.lowerBound i).isInfinite || (st.lowerBound i).isNegInfinite with
    | false => exact acySetVar_finite h hi hinf ⟨le_refl _, hle⟩ hres
    | true =>
      refine acySetVar_infinite 1 h hi hinf (.inl ⟨rfl, ?_⟩) (fun r hr ho => ?_) hres
      · simp only [Bool.or_eq_true, Int32Infin.isInfinite, Int32Infin.isNegInfinite,
          decide_eq_true_eq] at hinf
        omega
      · rw [one_mul]
        exact hleaf.2.1 (by omega) r hr ho
  · cases hinf : (st.upperBound i).isInfinite || (st.upperBound i).isNegInfinite with
    | false => exact acySetVar_finite h hi hinf ⟨hle, le_refl _⟩ hres
    | true =>
      refine acySetVar_infinite (-1) h hi hinf (.inr ⟨rfl, ?_⟩) (fun r hr ho => ?_) hres
      · simp only [Bool.or_eq_true, Int32Infin.isInfinite, Int32Infin.isNegInfinite,
          decide_eq_true_eq] at hinf
        omega
      · have := hleaf.2.2 (by omega) r hr ho
        omega

theorem unused_substituted (h : AcyInv st)
    (hleaf : LeafInv st i st.workRows 0) : Substituted i st st := by
  refine ⟨AcyStep.refl h, fun r hr hopen => ?_, fun _ hsat => hsat⟩
  have h1 := hleaf.2.1 (by omega) r hr hopen
  have h2 := hleaf.2.2 (by omega) r hr hopen
  omega

/-- One turn of the search: the variables below `i` are substituted unless it has failed. -/
structure TurnInv (st₀ : WorkState) (i : Nat) (s : AcyState) : Prop where
  inv : SearchInv st₀ s
  done : s.failedOne = false → ∀ j < i, s.varSubstituted j = true

theorem TurnInv.mark
    (h : TurnInv st0 i s) (hsub : Substituted i s.st st') : TurnInv st0 (i + 1) { s with
      varSubstituted := update s.varSubstituted i true
      subbedOne := b, st := st' } := by
  refine ⟨h.inv.substituted hsub, fun hf j hj => ?_⟩
  by_cases hji : j = i
  · rw [hji]
    exact update_self _ _ _
  · exact (update_of_ne hji _ _).trans (h.done hf j (by omega))

theorem acyclicStep_turn (hi : i < st0.workCols)
    (h : TurnInv st0 i s) : Outcome (fun r => r.1 = AcyResult.inconsistent) (TurnInv st0 (i + 1))
      (acyclicStep .exact true i s) := by
  have hi' : i < s.st.workCols := by rw [h.inv.step.dims.2]; exact hi
  have hinv := h.inv.step.inv
  unfold acyclicStep
  split
  · next hsub =>
    refine ⟨h.inv, fun hf j hj => ?_⟩
    rcases Nat.lt_succ_iff_lt_or_eq.mp hj with hlt | rfl
    · exact h.done hf j hlt
    · exact hsub
  · split
    · exact ⟨⟨h.inv.step, h.inv.gone, h.inv.back⟩, fun hf => by cases hf⟩
    · next sign hsign =>
      have hleaf := varLeaf_inv hsign
      dsimp only
      split_ifs with hpos hneg
      · split
        · rfl
        · next st' hres =>
          exact h.mark (leaf_substituted hinv hi' hleaf (.inl ⟨hpos, hres⟩))
      · split
        · rfl
        · next st' hres =>
          exact h.mark (leaf_substituted hinv hi' hleaf (.inr ⟨hneg, hres⟩))
      · have hzero : sign = 0 := by omega
        subst hzero
        exact h.mark (b := s.subbedOne) (unused_substituted hinv hleaf)

theorem acyclicPass_turn (h : SearchInv st0 s) :
    Outcome (fun r => r.1 = AcyResult.inconsistent) (TurnInv st0 st0.workCols)
      (acyclicPass .exact true s) := by
  have hloop := forFrom_outcome (f := acyclicStep .exact true)
    (Q := fun r => r.1 = AcyResult.inconsistent) (TurnInv st0) st0.workCols 0
    { s with subbedOne := false, failedOne := false }
    (fun i t _ hi ht => acyclicStep_turn (by omega) ht)
    ⟨⟨h.step, h.gone, h.back⟩, fun _ j hj => absurd hj (not_lt_zero j)⟩
  rw [zero_add] at hloop
  unfold acyclicPass
  rw [h.step.dims.2]
  exact hloop

theorem SearchInv.openAt (h : SearchInv st0 s)
    (hall : ∀ i < st0.workCols, s.varSubstituted i = true) : ∃ x, OpenAt s.st x := by
  obtain ⟨x, hx⟩ := h.step.inv.ordered.exists_within
  refine ⟨x, hx, fun r hr hopen => ?_⟩
  obtain ⟨j, hj, -, -, -, hjnz, -⟩ := h.step.inv.twoVars r hr hopen
  have hj' : j < st0.workCols := by rw [← h.step.dims.2]; exact hj
  exact absurd (h.gone j hj' (hall j hj') r (by rw [← h.step.dims.1]; exact hr) hopen) hjnz

theorem acyclicLoop_consistent (fuel : Nat) :
    ∀ (s : AcyState) (r : AcyResult × WorkState), SearchInv st0 s →
      (s.failedOne = false → ∀ i < st0.workCols, s.varSubstituted i = true) →
      acyclicLoop .exact true fuel s = some r → r.1 = .consistent →
      SameDims st0 r.2 ∧ (RangeOk r.2 → RangeOk st0 ∧ ∃ x, OpenAt st0 x) := by
  induction fuel with
  | zero => intro s r _ _ h; cases h
  | succ fuel ih =>
    intro s r hs hall h hcons
    unfold acyclicLoop at h
    split at h
    · have hpass := acyclicPass_turn hs
      split at h
      · next r' hres =>
        rw [hres, outcome_error] at hpass
        cases h
        rw [hcons] at hpass
        cases hpass
      · next s' hres =>
        rw [hres, outcome_ok] at hpass
        exact ih s' r hpass.inv hpass.done h hcons
    · cases h
      have hfailed : s.failedOne = false := by
        by_contra hf
        rw [Bool.not_eq_false] at hf
        simp [hf] at hcons
      exact ⟨hs.step.dims, fun hrange =>
        ⟨hs.step.rangeOk hrange, hs.back hrange (hs.openAt (hall hfailed))⟩⟩

/-- **The acyclic test.** On a system that `SVPC` leaves to it the test returns; INCONSISTENT means
that the rows have no integer solution, and CONSISTENT that they have one, if the constants that the
test ends with are in the range the code checks. -/
theorem acyclicTest_exact {st : WorkState} (happ : (svpc .exact true st).1 = .inapplicable) :
    ∃ r, acyclicTest .exact true (svpc .exact true st).2 = some r ∧
      (r.1 = .inconsistent → ¬ ∃ x, Solves st x) ∧
      (r.1 = .consistent → (∀ row < st.workRows, InRange (r.2.workConst row)) →
        ∃ x, Solves st x) := by
  obtain ⟨r, hr⟩ := Option.isSome_iff_exists.mp
    (acyclicTest_returns .exact true (svpc .exact true st).2)
  refine ⟨r, hr, fun hinc => ?_, fun hcons hrange => ?_⟩
  · rintro ⟨x, hx⟩
    exact (acyclicTest_inside (svpc_inside true hx).2.1 hr).1 hinc
  · have hleft := svpc_left happ
    have hinv : SearchInv (svpc .exact true st).2
        { varSubstituted := fun _ => false, subbedOne := true, failedOne := true,
          st := (svpc .exact true st).2 } :=
      ⟨AcyStep.refl hleft.acyInv, fun i _ hc => absurd hc (by simp), fun _ hsat => hsat⟩
    obtain ⟨hdims, hsat⟩ :=
      acyclicLoop_consistent _ _ r hinv (fun hc => absurd hc (by simp)) hr hcons
    have hrows : r.2.workRows = st.workRows := hdims.1.trans hleft.dims.1
    obtain ⟨hrange', x, hx⟩ := hsat (fun row hrow _ => hrange row (by omega))
    exact ⟨x, hleft.solves hrange' hx⟩

/-- `x + y <= 5` and `z - y <= 2`, where `x` and `z` are not negative. -/
def sumRows : WorkState :=
  .ofRows 3 [([1, 1, 0], 5), ([0, -1, 1], 2), ([-1, 0, 0], 0), ([0, 0, -1], 0)]

theorem acyclicTest_exact_sum : ∃ x, Solves sumRows x := by
  have happ : (svpc .exact true sumRows).1 = .inapplicable := by decide
  obtain ⟨r, hr, -, hcons⟩ := acyclicTest_exact happ
  have hrun : (acyclicTest .exact true (svpc .exact true sumRows).2).map (fun r =>
      (r.1, (List.range 4).map r.2.workConst)) = some (.consistent, [5, 7, 0, 0]) := by decide
  rw [hr] at hrun
  simp only [Option.map_some, Option.some.injEq, Prod.mk.injEq] at hrun
  refine hcons hrun.1 fun row hrow => ?_
  have hconst : r.2.workConst row ∈ [5, 7, 0, 0] := by
    rw [← hrun.2]
    exact List.mem_map_of_mem (List.mem_range.mpr hrow)
  revert hconst
  generalize r.2.workConst row = c
  unfold InRange int32Min int32Max
  simp only [List.mem_cons, List.not_mem_nil, or_false]
  omega

end Soe
