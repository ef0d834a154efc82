import Path64.Soe.Svpc

/-! # The acyclic test

A variable that the remaining rows constrain in one direction only (a
leaf) can be replaced by its best bound. The test does this until
nothing is left or no leaf is found. A substituted row that has one
variable left becomes a bound. -/

namespace Soe

open Function LinearRow Loop

/-! ## Model -/

def varLeafStep (st : WorkState) (i row : Nat) (s : Int) : Except Unit Int :=
  if st.isSvpc row = false then
    if st.work row i > 0 then (if s = -1 then .error () else .ok 1)
    else if st.work row i < 0 then (if s = 1 then .error () else .ok (-1))
    else .ok s
  else .ok s

/-- `Var_Leaf`: `none` when `i` is not a leaf, otherwise its sign. -/
def varLeaf (st : WorkState) (i : Nat) : Option Int :=
  match forFrom (varLeafStep st i) st.workRows 0 0 with
  | .error _ => none
  | .ok s => some s

/-- The column loop of `Acy_Set_Var`, up to two variables: `num_vars` and `var_pos`. -/
def acyScanStep (row : Nat → Int) (j : Nat) (sc : Nat × Nat) : Nat × Nat :=
  if sc.1 ≤ 1 ∧ row j ≠ 0 then (sc.1 + 1, j) else sc

def acyScan (row : Nat → Int) (cols : Nat) : Nat × Nat :=
  forEach (acyScanStep row) cols 0 (0, 0)

/-- Zero the row: it can always be satisfied. -/
def zeroRow (row : Nat) (st : WorkState) : WorkState :=
  { st with
    workConst := update st.workConst row 0
    work := fun r c => if r = row ∧ c < st.workCols then 0 else st.work r c
    isSvpc := update st.isSvpc row true }

/-- Put the value `v` for variable `i` into the row. -/
def setRow (ar : Arith) (i : Nat) (v : Int) (row : Nat) (st : WorkState) : WorkState :=
  let a := st.work row i
  let c := st.workConst row
  { st with
    workConst := update st.workConst row
      (if a = 1 then ar.i64 (c - v)
       else if a = -1 then ar.i64 (c + v)
       else ar.i64 (c - ar.i32 (a * v)))
    work := fun r c => if r = row ∧ c = i then 0 else st.work r c }

/-- One row of `Acy_Set_Var`; the early exit is `*inconsistent = TRUE`. -/
def acySetVarRow (ar : Arith) (allowWrapAroundOpt : Bool) (i : Nat) (val : Int32Infin)
    (row : Nat) (st : WorkState) : Except WorkState WorkState :=
  if st.isSvpc row = false ∧ st.work row i ≠ 0 then
    if val.isInfinite || val.isNegInfinite then .ok (zeroRow row st)
    else
      let st₁ := setRow ar i val.val row st
      let sc := acyScan (st₁.work row) st₁.workCols
      -- has this become a SVPC constraint
      if sc.1 = 1 then
        match oneVarConsistent ar allowWrapAroundOpt sc.2 row 1 st₁ with
        | (false, st₂) => .error st₂
        | (true, st₂) => .ok { st₂ with isSvpc := update st₂.isSvpc row true }
      else .ok st₁
  else .ok st

def acySetVar (ar : Arith) (allowWrapAroundOpt : Bool) (i : Nat) (val : Int32Infin)
    (st : WorkState) : Except WorkState WorkState :=
  forFrom (acySetVarRow ar allowWrapAroundOpt i val) st.workRows 0 st

inductive AcyResult where
  | consistent
  | inconsistent
  | inapplicable
  deriving DecidableEq

/-- The local variables of `Acyclic_Test`. -/
structure AcyState where
  varSubstituted : Nat → Bool
  subbedOne : Bool
  failedOne : Bool
  st : WorkState

/-- Check variable `i`. -/
def acyclicStep (ar : Arith) (allowWrapAroundOpt : Bool) (i : Nat) (s : AcyState) :
    Except (AcyResult × WorkState) AcyState :=
  if s.varSubstituted i then .ok s
  else
    match varLeaf s.st i with
    | none => .ok { s with failedOne := true }
    | some sign =>
      let s₁ := { s with varSubstituted := update s.varSubstituted i true }
      if sign > 0 then
        match acySetVar ar allowWrapAroundOpt i (s.st.lowerBound i) s.st with
        | .error st' => .error (.inconsistent, st')
        | .ok st' => .ok { s₁ with subbedOne := true, st := st' }
      else if sign < 0 then
        match acySetVar ar allowWrapAroundOpt i (s.st.upperBound i) s.st with
        | .error st' => .error (.inconsistent, st')
        | .ok st' => .ok { s₁ with subbedOne := true, st := st' }
      else .ok s₁

/-- One turn of the search loop. -/
def acyclicPass (ar : Arith) (allowWrapAroundOpt : Bool) (s : AcyState) :
    Except (AcyResult × WorkState) AcyState :=
  forFrom (acyclicStep ar allowWrapAroundOpt) s.st.workCols 0
    { s with subbedOne := false, failedOne := false }

/-- `while (subbed_one && failed_one)`; `none` if the fuel runs out. -/
def acyclicLoop (ar : Arith) (allowWrapAroundOpt : Bool) :
    Nat → AcyState → Option (AcyResult × WorkState)
  | 0, _ => none
  | fuel + 1, s =>
    if s.subbedOne && s.failedOne then
      match acyclicPass ar allowWrapAroundOpt s with
      | .error r => some r
      | .ok s' => acyclicLoop ar allowWrapAroundOpt fuel s'
    else some (if s.failedOne then .inapplicable else .consistent, s.st)

def acyclicTest (ar : Arith) (allowWrapAroundOpt : Bool) (st : WorkState) :
    Option (AcyResult × WorkState) :=
  acyclicLoop ar allowWrapAroundOpt (st.workCols + 2)
    { varSubstituted := fun _ => false, subbedOne := true, failedOne := true, st := st }

/-! ## Leaves -/

/-- What `Var_Leaf` knows after the rows below `row`. -/
def LeafInv (st : WorkState) (i row : Nat) (s : Int) : Prop :=
  (s = 0 ∨ s = 1 ∨ s = -1) ∧
  (s ≠ -1 → ∀ r < row, st.isSvpc r = false → 0 ≤ st.work r i) ∧
  (s ≠ 1 → ∀ r < row, st.isSvpc r = false → st.work r i ≤ 0)

theorem varLeafStep_inv {st : WorkState} {i row : Nat} {s : Int} (h : LeafInv st i row s) :
    Outcome (fun _ => True) (LeafInv st i (row + 1)) (varLeafStep st i row s) := by
  obtain ⟨hs, hpos, hneg⟩ := h
  -- a sign and what it says about row `row` extend the invariant by one row
  have hext : ∀ s' : Int, (s' = 0 ∨ s' = 1 ∨ s' = -1) → (s' ≠ -1 → s ≠ -1) → (s' ≠ 1 → s ≠ 1) →
      (st.isSvpc row = false → (s' ≠ -1 → 0 ≤ st.work row i) ∧
        (s' ≠ 1 → st.work row i ≤ 0)) → LeafInv st i (row + 1) s' := by
    intro s' hs' h1 h2 hrow
    refine ⟨hs', fun hne r hr hsv => ?_, fun hne r hr hsv => ?_⟩
    · rcases Nat.lt_succ_iff_lt_or_eq.mp hr with hlt | rfl
      · exact hpos (h1 hne) r hlt hsv
      · exact (hrow hsv).1 hne
    · rcases Nat.lt_succ_iff_lt_or_eq.mp hr with hlt | rfl
      · exact hneg (h2 hne) r hlt hsv
      · exact (hrow hsv).2 hne
  unfold varLeafStep
  split_ifs with hsv hp hm1 hn h1
  · trivial
  · exact hext 1 (by omega) (by omega) (by omega) (fun _ => ⟨by omega, by omega⟩)
  · trivial
  · exact hext (-1) (by omega) (by omega) (by omega) (fun _ => ⟨by omega, by omega⟩)
  · exact hext s hs id id (fun _ => ⟨by omega, by omega⟩)
  · exact hext s hs id id (fun hf => absurd hf hsv)

theorem varLeaf_inv {st : WorkState} {i : Nat} {s : Int} (h : varLeaf st i = some s) :
    LeafInv st i st.workRows s := by
  have hloop := forFrom_outcome (f := varLeafStep st i) (Q := fun _ => True)
    (LeafInv st i) st.workRows 0 0 (fun r t _ _ ht => varLeafStep_inv ht)
    ⟨.inl rfl, fun _ r hr => absurd hr (Nat.not_lt_zero r),
      fun _ r hr => absurd hr (Nat.not_lt_zero r)⟩
  unfold varLeaf at h
  split at h
  · cases h
  · next s' hres =>
    rw [hres, Nat.zero_add] at hloop
    cases h
    exact hloop

/-- Putting `v` for `x i` relaxes every row that is still open. -/
def LeafAt (st : WorkState) (i : Nat) (v : Int) (x : Nat → Int) : Prop :=
  ∀ r < st.workRows, st.isSvpc r = false → st.work r i * v ≤ st.work r i * x i

/-! ## Substitution keeps the point -/

theorem acyScan_spec (row : Nat → Int) (cols : Nat) (h : (acyScan row cols).1 = 1) :
    (acyScan row cols).2 < cols ∧ ∀ k < cols, k ≠ (acyScan row cols).2 → row k = 0 := by
  have hinv := forEach_inv (f := acyScanStep row)
    (fun j sc => (sc.1 = 0 → ∀ k < j, row k = 0) ∧
      (sc.1 = 1 → sc.2 < j ∧ ∀ k < j, k ≠ sc.2 → row k = 0)) cols 0 (0, 0)
    (by
      intro j sc _ _ hsc
      obtain ⟨h0, h1⟩ := hsc
      unfold acyScanStep
      split
      · next hc =>
        refine ⟨fun h => absurd h (Nat.succ_ne_zero _), fun h => ⟨by simp, ?_⟩⟩
        intro k hk hne
        dsimp only at h hne
        exact h0 (by omega) k (by omega)
      · next hc =>
        refine ⟨fun h k hk => ?_, fun h => ⟨by have := (h1 h).1; omega, ?_⟩⟩
        · rcases Nat.lt_succ_iff_lt_or_eq.mp hk with hlt | rfl
          · exact h0 h k hlt
          · by_contra hne; exact hc ⟨by omega, hne⟩
        · intro k hk hne
          rcases Nat.lt_succ_iff_lt_or_eq.mp hk with hlt | rfl
          · exact (h1 h).2 k hlt hne
          · by_contra hne'; exact hc ⟨by omega, hne'⟩)
    ⟨fun _ k hk => absurd hk (Nat.not_lt_zero k), fun h => absurd h Nat.zero_ne_one⟩
  rw [Nat.zero_add] at hinv
  exact hinv.2 h

theorem zeroRow_inside {st : WorkState} {x : Nat → Int} (row : Nat) (h : Inside st x) :
    Inside (zeroRow row st) x := by
  refine ⟨?_, h.lower, h.upper⟩
  intro r hr
  unfold RowHolds zeroRow
  dsimp only
  by_cases hrr : r = row
  · subst hrr
    rw [dot_eq_zero x (fun j hj => if_pos ⟨rfl, hj⟩), update_self]
  · rw [update_of_ne hrr,
      dot_congr_left x (b := st.work r) (fun j _ => if_neg (fun hc => hrr hc.1))]
    exact h.rows r hr

theorem setRow_const_exact (i : Nat) (v : Int) (row : Nat) (st : WorkState) :
    (setRow .exact i v row st).workConst row = st.workConst row - st.work row i * v := by
  unfold setRow
  simp only [exact_i32, exact_i64, update_self]
  split_ifs with h1 h2
  · rw [h1, one_mul]
  · rw [h2, neg_one_mul, sub_neg_eq_add]
  · rfl

theorem setRow_inside {st : WorkState} {x : Nat → Int} {i row : Nat} {v : Int}
    (h : Inside st x) (hi : i < st.workCols) (hleaf : st.work row i * v ≤ st.work row i * x i) :
    Inside (setRow .exact i v row st) x := by
  refine ⟨?_, h.lower, h.upper⟩
  intro r hr
  have hold : dot st.workCols (st.work r) x ≤ st.workConst r := h.rows r hr
  unfold RowHolds
  by_cases hrr : r = row
  · subst hrr
    have hrow : (setRow .exact i v r st).work r = update (st.work r) i 0 := by
      funext c
      by_cases hc : c = i
      · subst hc; simp [setRow]
      · simp [setRow, hc]
    have hcols : (setRow .exact i v r st).workCols = st.workCols := rfl
    rw [setRow_const_exact, hrow, hcols, dot_update_zero _ _ hi]
    linarith
  · have hconst : (setRow .exact i v row st).workConst r = st.workConst r := by
      simp [setRow, update_of_ne hrr]
    have hrow : (setRow .exact i v row st).work r = st.work r := by
      funext c
      simp [setRow, hrr]
    rw [hconst, hrow]
    exact hold

/-- The point stays inside, and a finite value relaxes open rows. -/
structure SetVarInv (st₀ : WorkState) (i : Nat) (val : Int32Infin) (x : Nat → Int)
    (st : WorkState) : Prop where
  dims : SameDims st₀ st
  inside : Inside st x
  leaf : (val.isInfinite || val.isNegInfinite) = false → LeafAt st i val.val x

section

variable {st : WorkState} {x : Nat → Int} {i row : Nat} {v : Int} (h : LeafAt st i v x)
include h

theorem setRow_leafAt : LeafAt (setRow .exact i v row st) i v x := by
  intro r hr hsv
  by_cases hrr : r = row
  · subst hrr; simp [setRow]
  · have hrow : (setRow .exact i v row st).work r i = st.work r i := by simp [setRow, hrr]
    rw [hrow]
    exact h r hr hsv

theorem LeafAt.setSvpc : LeafAt { st with isSvpc := update st.isSvpc row true } i v x := by
  intro r hr hsv
  by_cases hrr : r = row
  · subst hrr; simp at hsv
  · simp only [update_of_ne hrr] at hsv
    exact h r hr hsv

end

variable {allowWrapAroundOpt : Bool}

/-- Setting a variable to its bound in one row loses no solution. -/
theorem acySetVarRow_inv {st0 st : WorkState} {i row : Nat}
    {val : Int32Infin} {x : Nat → Int} (hi : i < st0.workCols) (hrow : row < st0.workRows)
    (h : SetVarInv st0 i val x st) : Outcome (fun _ => False) (SetVarInv st0 i val x)
      (acySetVarRow .exact allowWrapAroundOpt i val row st) := by
  obtain ⟨⟨hrows, hcols⟩, hin, hleaf⟩ := h
  unfold acySetVarRow
  split
  · next hopen =>
    cases hinf : val.isInfinite || val.isNegInfinite with
    | true =>
      exact ⟨⟨hrows, hcols⟩, zeroRow_inside row hin, fun hc => absurd hc (by simp [hinf])⟩
    | false =>
      have hat := hleaf hinf
      have hin1 := setRow_inside hin (show i < st.workCols by omega)
        (hat row (by omega) hopen.1)
      have hat1 : LeafAt (setRow .exact i _ row _) i _ x := setRow_leafAt hat
      rw [if_neg (by simp)]
      dsimp only
      split
      · next hone =>
        obtain ⟨hvp, honly⟩ := acyScan_spec _ _ hone
        have hvar := oneVarConsistent_inside allowWrapAroundOpt
          hin1 hvp (show ∀ r, row ≤ r → r < row + 1 → OnlyVar _ r _ by intro r h1 h2; rw [show r = row by omega]; exact honly)
          (show row + 1 ≤ st.workRows by omega)
        obtain ⟨htrue, hin2⟩ := hvar
        obtain ⟨lb, ub, heq⟩ := oneVarConsistent_boundsOnly .exact allowWrapAroundOpt
          (acyScan ((setRow .exact i val.val row st).work row)
            (setRow .exact i val.val row st).workCols).2 row 1 (setRow .exact i val.val row st)
        split
        · next hfalse => rw [hfalse] at htrue; cases htrue
        · next st2 hres =>
          rw [hres] at heq hin2
          dsimp only at heq hin2
          refine ⟨?_, hin2.setSvpc _, fun _ => ?_⟩
          · rw [heq]; exact ⟨hrows, hcols⟩
          · rw [heq]; exact LeafAt.setSvpc hat1
      · exact ⟨⟨hrows, hcols⟩, hin1, fun _ => hat1⟩
  · exact ⟨⟨hrows, hcols⟩, hin, hleaf⟩

theorem acySetVar_inside (allowWrapAroundOpt : Bool) {st : WorkState} {i : Nat}
    {val : Int32Infin} {x : Nat → Int} (hi : i < st.workCols) (hin : Inside st x)
    (hleaf : (val.isInfinite || val.isNegInfinite) = false → LeafAt st i val.val x) :
    Outcome (fun _ => False) (SetVarInv st i val x) (acySetVar .exact allowWrapAroundOpt i val st):=
  forFrom_outcome (fun _ t => SetVarInv st i val x t) st.workRows 0 st
    (fun r t _ hr ht => acySetVarRow_inv hi (by omega) ht)
    ⟨⟨rfl, rfl⟩, hin, hleaf⟩

/-! ## The search loop keeps the point -/

section

variable {st : WorkState} {x : Nat → Int} {i : Nat} {s : Int} (hi : i < st.workCols)
  (hin : Inside st x) (hleaf : LeafInv st i st.workRows s)
include hi hin hleaf

theorem lowerOk_leafAt (hs : s > 0) (hinf : ((st.lowerBound i).isInfinite ||
      (st.lowerBound i).isNegInfinite) = false) : LeafAt st i (st.lowerBound i).val x:= by
  simp only [Bool.or_eq_false_iff, Int32Infin.isNegInfinite, decide_eq_false_iff_not] at hinf
  have hle : (st.lowerBound i).val ≤ x i := (hin.lower i hi).2.resolve_left hinf.2
  intro r hr hsv
  exact mul_le_mul_of_nonneg_left hle (hleaf.2.1 (by omega) r hr hsv)

theorem upperOk_leafAt (hs : s < 0) (hinf : ((st.upperBound i).isInfinite ||
      (st.upperBound i).isNegInfinite) = false) : LeafAt st i (st.upperBound i).val x:= by
  simp only [Bool.or_eq_false_iff, Int32Infin.isInfinite, decide_eq_false_iff_not] at hinf
  have hle : x i ≤ (st.upperBound i).val := (hin.upper i hi).2.resolve_left hinf.1
  intro r hr hsv
  exact mul_le_mul_of_nonpos_left hle (hleaf.2.2 (by omega) r hr hsv)

end

/-- One variable more: an integer point of the system stays one of the rows that are left. -/
theorem acyclicStep_inside {i n : Nat} {s : AcyState}
    {x : Nat → Int} (hn : s.st.workCols = n) (hi : i < n) (hin : Inside s.st x) :
    Outcome (fun _ => False) (fun t : AcyState => t.st.workCols = n ∧ Inside t.st x)
      (acyclicStep .exact allowWrapAroundOpt i s) := by
  have hi' : i < s.st.workCols := by omega
  -- the two substitutions end alike
  have hset : ∀ val : Int32Infin,
      ((val.isInfinite || val.isNegInfinite) = false → LeafAt s.st i val.val x) →
      ∀ st', acySetVar .exact allowWrapAroundOpt i val s.st = st' →
      Outcome (fun _ => False) (fun t : WorkState => t.workCols = n ∧ Inside t x) st' := by
    intro val hleaf st' hst'
    have hout := acySetVar_inside allowWrapAroundOpt hi' hin hleaf
    rw [hst'] at hout
    cases st' with
    | error _ => exact hout
    | ok t => exact ⟨by rw [hout.dims.2, hn], hout.inside⟩
  unfold acyclicStep
  split
  · exact ⟨hn, hin⟩
  · split
    · exact ⟨hn, hin⟩
    · next sign hsign =>
      have hleaf := varLeaf_inv hsign
      dsimp only
      split_ifs with hpos hneg
      · have h := hset _ (lowerOk_leafAt hi' hin hleaf hpos) _ rfl
        split
        · next st' hres => rw [hres] at h; exact h.elim
        · next st' hres => rw [hres] at h; exact h
      · have h := hset _ (upperOk_leafAt hi' hin hleaf hneg) _ rfl
        split
        · next st' hres => rw [hres] at h; exact h.elim
        · next st' hres => rw [hres] at h; exact h
      · exact ⟨hn, hin⟩

theorem acyclicPass_inside (allowWrapAroundOpt : Bool) {s : AcyState} {x : Nat → Int}
    (hin : Inside s.st x) : Outcome (fun _ => False)
      (fun t : AcyState => t.st.workCols = s.st.workCols ∧ Inside t.st x)
      (acyclicPass .exact allowWrapAroundOpt s) :=
  forFrom_outcome (fun _ (t : AcyState) => t.st.workCols = s.st.workCols ∧ Inside t.st x)
    s.st.workCols 0 _
    (fun _ _ _ hi ht => acyclicStep_inside ht.1 (by omega) ht.2) ⟨rfl, hin⟩

theorem acyclicLoop_inside {x : Nat → Int} (fuel : Nat) :
    ∀ (s : AcyState) (r : AcyResult × WorkState), Inside s.st x →
      acyclicLoop .exact allowWrapAroundOpt fuel s = some r →
      r.1 ≠ .inconsistent ∧ Inside r.2 x ∧ r.2.workCols = s.st.workCols := by
  induction fuel with
  | zero => intro s r _ h; cases h
  | succ fuel ih =>
    intro s r hin h
    unfold acyclicLoop at h
    split at h
    · have hpass := acyclicPass_inside allowWrapAroundOpt hin
      split at h
      · next r' hres =>
        rw [hres] at hpass
        exact hpass.elim
      · next s' hres =>
        rw [hres] at hpass
        obtain ⟨hne, hin', hcols⟩ := ih s' r hpass.2 h
        exact ⟨hne, hin', hcols.trans hpass.1⟩
    · cases h
      refine ⟨?_, hin, rfl⟩
      dsimp only
      split <;> simp

theorem acyclicTest_inside {st : WorkState} {x : Nat → Int}
    {r : AcyResult × WorkState} (hin : Inside st x)
    (h : acyclicTest .exact allowWrapAroundOpt st = some r) :
    r.1 ≠ .inconsistent ∧ Inside r.2 x ∧ r.2.workCols = st.workCols :=
  acyclicLoop_inside _ _ _ hin h

/-! ## The search loop ends -/

theorem SameDims.trans {s1 s2 s3 : WorkState} (h1 : SameDims s1 s2) (h2 : SameDims s2 s3) :
    SameDims s1 s3 :=
  ⟨h2.1.trans h1.1, h2.2.trans h1.2⟩

theorem acySetVarRow_sameDims (ar : Arith) (allowWrapAroundOpt : Bool) (i : Nat)
    (val : Int32Infin) (row : Nat) (st : WorkState) : Outcome (fun _ => True) (SameDims st)
      (acySetVarRow ar allowWrapAroundOpt i val row st) := by
  unfold acySetVarRow
  dsimp only
  split_ifs
  · exact ⟨rfl, rfl⟩
  · split
    · trivial
    · next st2 hres =>
      have hdims := (oneVarConsistent_boundsOnly ar allowWrapAroundOpt
        (acyScan ((setRow ar i val.val row st).work row)
          (setRow ar i val.val row st).workCols).2 row 1 (setRow ar i val.val row st)).sameDims
      rw [hres] at hdims
      exact hdims
  · exact ⟨rfl, rfl⟩
  · exact ⟨rfl, rfl⟩

theorem acySetVar_sameDims (ar : Arith) (allowWrapAroundOpt : Bool) (i : Nat)
    (val : Int32Infin) (st : WorkState) :
    Outcome (fun _ => True) (SameDims st) (acySetVar ar allowWrapAroundOpt i val st) :=
  forFrom_outcome (fun _ t => SameDims st t) st.workRows 0 st
    (by
      intro r t _ _ ht
      have hrow := acySetVarRow_sameDims ar allowWrapAroundOpt i val r t
      cases hres : acySetVarRow ar allowWrapAroundOpt i val r t with
      | error _ => trivial
      | ok t' => rw [hres] at hrow; exact ht.trans hrow)
    ⟨rfl, rfl⟩

/-- How many variables are still to be substituted. -/
def unsubstituted (s : AcyState) : Nat :=
  ((Finset.range s.st.workCols).filter (fun i => s.varSubstituted i = false)).card

theorem unsubstituted_update {s : AcyState} {i : Nat} (hi : i < s.st.workCols)
    (h : s.varSubstituted i = false) (st' : WorkState) (b : Bool)
    (hcols : st'.workCols = s.st.workCols) : unsubstituted { s with
      varSubstituted := update s.varSubstituted i true
      subbedOne := b, st := st' } < unsubstituted s := by
  unfold unsubstituted
  dsimp only
  rw [hcols]
  apply Finset.card_lt_card
  refine ⟨?_, ?_⟩
  · intro j hj
    rw [Finset.mem_filter] at hj ⊢
    refine ⟨hj.1, ?_⟩
    by_cases hji : j = i
    · rw [hji]; exact h
    · have := hj.2; rwa [update_of_ne hji] at this
  · intro hsub
    have hmem := hsub (Finset.mem_filter.mpr ⟨Finset.mem_range.mpr hi, h⟩)
    simp at hmem

/-- Progress of one turn that started with `m` variables open. -/
def Progress (n m : Nat) (s : AcyState) : Prop :=
  s.st.workCols = n ∧ unsubstituted s ≤ m ∧ (s.subbedOne = true → unsubstituted s < m)

/-- A variable that is set never comes back, so the loop ends. -/
theorem acyclicStep_progress {ar : Arith} {i n m : Nat}
    {s : AcyState} (hi : i < n) (h : Progress n m s) :
    Outcome (fun _ => True) (Progress n m) (acyclicStep ar allowWrapAroundOpt i s) := by
  obtain ⟨hn, hle, hlt⟩ := h
  unfold acyclicStep
  split
  · exact ⟨hn, hle, hlt⟩
  · next hsub =>
    have hfalse : s.varSubstituted i = false := by simpa using hsub
    -- a substitution with any value
    have hset : ∀ val : Int32Infin, Outcome (fun _ => True) (Progress n m)
        (match acySetVar ar allowWrapAroundOpt i val s.st with
         | .error st' => (.error (AcyResult.inconsistent, st') :
             Except (AcyResult × WorkState) AcyState)
         | .ok st' => .ok { s with
             varSubstituted := update s.varSubstituted i true, subbedOne := true, st := st' }) := by
      intro val
      have hdims := acySetVar_sameDims ar allowWrapAroundOpt i val s.st
      split
      · trivial
      · next st' hres =>
        rw [hres] at hdims
        have hdec := unsubstituted_update (show i < s.st.workCols by omega) hfalse st' true
          hdims.2
        exact ⟨hdims.2.trans hn, by omega, fun _ => by omega⟩
    split
    · exact ⟨hn, hle, hlt⟩
    · next sign hsign =>
      dsimp only
      split_ifs with hpos hneg
      · exact hset _
      · exact hset _
      · have hdec := unsubstituted_update (show i < s.st.workCols by omega) hfalse s.st
          s.subbedOne rfl
        exact ⟨hn, by omega, fun _ => by omega⟩

theorem acyclicPass_progress (ar : Arith) (allowWrapAroundOpt : Bool) (s : AcyState) :
    Outcome (fun _ => True) (Progress s.st.workCols (unsubstituted s))
      (acyclicPass ar allowWrapAroundOpt s) :=
  forFrom_outcome (fun _ t => Progress s.st.workCols (unsubstituted s) t)
    s.st.workCols 0 _
    (fun _ _ _ hi ht => acyclicStep_progress (by omega) ht)
    ⟨rfl, Nat.le_refl _, fun h => absurd h (by simp)⟩

theorem acyclicLoop_isSome (ar : Arith) (allowWrapAroundOpt : Bool) (fuel : Nat) :
    ∀ s : AcyState, unsubstituted s + 2 ≤ fuel →
      (acyclicLoop ar allowWrapAroundOpt fuel s).isSome = true := by
  induction fuel with
  | zero => intro s h; omega
  | succ fuel ih =>
    intro s hfuel
    unfold acyclicLoop
    split
    · have hpass := acyclicPass_progress ar allowWrapAroundOpt s
      split
      · rfl
      · next s' hres =>
        rw [hres] at hpass
        obtain ⟨_, hle, hlt⟩ := hpass
        cases hsub : s'.subbedOne with
        | true => exact ih s' (by have := hlt hsub; omega)
        | false =>
          -- nothing was substituted, so the loop stops at its next test
          obtain ⟨fuel', rfl⟩ : ∃ k, fuel = k + 1 := ⟨fuel - 1, by omega⟩
          unfold acyclicLoop
          simp [hsub]
    · rfl

theorem acyclicTest_returns (ar : Arith) (allowWrapAroundOpt : Bool) (st : WorkState) :
    (acyclicTest ar allowWrapAroundOpt st).isSome = true := by
  apply acyclicLoop_isSome
  have hcard : unsubstituted
      { varSubstituted := fun _ => false, subbedOne := true, failedOne := true, st := st }
      ≤ st.workCols := by
    unfold unsubstituted
    exact (Finset.card_filter_le _ _).trans (by simp)
  omega

end Soe
