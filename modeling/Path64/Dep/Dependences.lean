import Path64.Dep.Bounds
import Path64.Dep.NormalizeStep
import Path64.Soe.Redundant

/-! # The dependence test

The last part of `DEPV_COMPUTE::Compute`: the constant distances of
`Find_Init_Distance_Used` start the search, and `Is_Consistent` on the
copied system steers it; in the end `Normalize_Step` turns distances in
index values into distances in iterations. No dependence is lost on the
way, as long as its distances are in the range that `DEP_SetDistance`
can hold.

Of a reference to itself the code leaves out what is all equal in the
loops of the search, also where an outer loop carries it. -/

namespace Dep

open List LinearRow Soe

/-! ## Model -/

/-- The distance `y - x` where `a x - a y = c`; `none` fails the gcd test. -/
def distanceOf (a c : Int) : Option Int :=
  if a = 1 then some (-c)
  else if a = -1 then some c
  else if c.tmod a = 0 then some ((-c).tdiv a)
  else none

/-- Coefficients and constants in use have their C types. -/
def System.InTypes (soe : System) : Prop :=
  (∀ r < soe.eqnsEq, (∀ j < soe.vars, Fits32 (soe.aeq r j)) ∧ Fits64 (soe.beq r)) ∧
    ∀ r < soe.eqnsLe, (∀ j < soe.vars, Fits32 (soe.ale r j)) ∧ Fits64 (soe.ble r)

instance (soe : System) : Decidable soe.InTypes := inferInstanceAs (Decidable (_ ∧ _))

/-- The rows in their C types. -/
def System.stored (soe : System) : Soe.System where
  ale r j := Arith.machine.i32 (soe.ale r j)
  ble r := Arith.machine.i64 (soe.ble r)
  eqnsLe := soe.eqnsLe
  aeq r j := Arith.machine.i32 (soe.aeq r j)
  beq r := Arith.machine.i64 (soe.beq r)
  eqnsEq := soe.eqnsEq
  vars := soe.vars
  aleFits _ _ := machine_i32_fits _
  bleFits _ := machine_i64_fits _
  aeqFits _ _ := machine_i32_fits _
  beqFits _ := machine_i64_fits _

/-- `Is_Consistent`; `stale` is what the work rows hold before. -/
def System.isConsistent (T : Tester) (stale : System → WorkState) (soe : System) : Bool :=
  !decide soe.InTypes || Soe.isConsistent T soe.stored (stale soe)

namespace WorkArrays

variable (w : WorkArrays)

/-- The dimension whose distance is constant in a row, if there is one. -/
def distanceDim (row : Nat → Int) : Option Nat :=
  match (range w.workCols).filter fun j => row j ≠ 0 with
  | [first, _] =>
    if w.firstDv1 ≤ first ∧ first < w.firstNonCom1 ∧
        row first = -row (w.firstDv2 + first - w.firstDv1) then
      some (first - w.firstDv1)
    else none
  | _ => none

/-- What row `i` adds to `init_distance`; `none` is `DEP_INDEPENDENT`. -/
def distanceStep (depv : DEPV) (i : Nat) : Option DEPV :=
  match w.distanceDim (w.eq i) with
  | none => some depv
  | some k =>
    match distanceOf (w.eq i (w.firstDv1 + k)) (w.eqConst i) with
    | none => none
    | some d =>
      let dep := setDistance (Arith.machine.i32 d)
      let current := depv.getD k 0
      if direction current = some .star then some (depv.set k dep)
      else if distance current ≠ distance dep then none
      else some depv

/-- `init_distance` of `Find_Init_Distance_Used`. -/
def initDistance : Option DEPV :=
  (range w.eqRows).foldlM w.distanceStep (replicate w.dvDim (setDirection .star))

/-- `Compute` from `Find_Init_Distance_Used` on, with the bounds in use. The early returns pass by
`Normalize_Step`. -/
def compute (isConsistent : System → Bool) (stray : Nat → Bool) (sameReference : Bool)
    (numBadOuter : Nat) (step : Nat → Int) : Option (List DEPV) :=
  -- `Append(NULL)` leaves out the vector for equal outer dimensions
  let independent := (appendOuter w.dvDim numBadOuter []).dropLast
  match w.initDistance with
  | none => some independent
  | some depv =>
    if sameReference && isAllEquals depv w.dvDim then some independent
    else if isConsistent (w.soe stray) then
      ((Search.mk w.columns sameReference numBadOuter isConsistent).computeDepVectors
        (w.dvDim + 1) ⟨w.soe stray, depv, []⟩).map fun st =>
          normalizeStep step (numBadOuter + w.dvDim) st.result
    else some []

/-! ## Constant distances -/

/-- `v` is the distance vector of a solution, in the range of `DEP_SetDistance`. -/
structure Dependence (x : Nat → Int) (v : List Int) : Prop where
  solves : w.Solves x
  length : v.length = w.dvDim
  distance : ∀ i < w.dvDim, v.getD i 0 = x (w.firstDv2 + i) - x (w.firstDv1 + i)
  range : ∀ i < w.dvDim, minDistance ≤ v.getD i 0 ∧ v.getD i 0 ≤ int32Max

/-- Of each dimension nothing is known, or the distance. -/
structure Known (v : List Int) (depv : DEPV) : Prop where
  length : depv.length = w.dvDim
  dep : ∀ i < w.dvDim, depv.getD i 0 = setDirection .star ∨ depv.getD i 0 = setDistance (v.getD i 0)

variable {w} {x : Nat → Int} {v : List Int} {depv : DEPV} {k i : Nat}

theorem distanceOf_eq {a p q c : Int} (ha : a ≠ 0) (h : a * (p - q) = c) :
    distanceOf a c = some (q - p) := by
  subst h
  unfold distanceOf
  split_ifs with h1 h2 h3
  · rw [h1, one_mul, neg_sub]
  · rw [h2, neg_one_mul, neg_sub]
  · rw [← mul_neg, Int.mul_tdiv_cancel_left _ ha, neg_sub]
  · exact absurd (Int.mul_tmod_right a _) h3

theorem distanceDim_some {row : Nat → Int} (h : w.distanceDim row = some k) :
    k < w.dvDim ∧ row (w.firstDv1 + k) ≠ 0 ∧
      row (w.firstDv1 + k) * (x (w.firstDv1 + k) - x (w.firstDv2 + k)) = dot w.workCols row x := by
  unfold distanceDim at h
  split at h
  · rename_i first other hvars
    split at h
    · rename_i hrow
      obtain ⟨hlo, hhi, hneg⟩ := hrow
      cases h
      have h1 := w.dv1_le
      have h2 := w.dv2_le.trans w.symbol_le
      unfold firstNonCom1 at hhi
      have hnonzero : ∀ j, j ∈ [first, other] ↔ j < w.workCols ∧ row j ≠ 0 := by
        intro j
        rw [← hvars, mem_filter, mem_range, decide_eq_true_iff]
      have hfirst := (hnonzero first).mp mem_cons_self
      -- the other variable is the conjugate
      have hother : w.firstDv2 + first - w.firstDv1 = other := by
        have hmem := (hnonzero (w.firstDv2 + first - w.firstDv1)).mpr ⟨by omega, by omega⟩
        rcases mem_cons.mp hmem with heq | hmem
        · omega
        · exact mem_singleton.mp hmem
      have hsum := sum_filter_range (u := fun j => decide (row j ≠ 0)) x w.workCols
        fun j _ hj => decide_eq_true hj
      rw [hvars, map_cons, map_singleton, sum_cons, sum_singleton] at hsum
      rw [hother] at hneg
      rw [show w.firstDv1 + (first - w.firstDv1) = first by omega,
        show w.firstDv2 + (first - w.firstDv1) = other by omega, ← hsum, hneg]
      exact ⟨by omega, by omega, by ring⟩
    · cases h
  · cases h

theorem Known.step (h : w.Known v depv) (hv : w.Dependence x v) (hi : i < w.eqRows) :
    ∃ depv', w.distanceStep depv i = some depv' ∧ w.Known v depv' := by
  unfold distanceStep
  cases hdim : w.distanceDim (w.eq i) with
  | none => exact ⟨depv, rfl, h⟩
  | some k =>
    obtain ⟨hk, hne, heq⟩ := distanceDim_some hdim
    obtain ⟨hlo, hhi⟩ := hv.range k hk
    dsimp only
    rw [distanceOf_eq hne (heq.trans (hv.solves.eq i hi)), ← hv.distance k hk]
    dsimp only
    rw [machine_i32 ⟨le_trans (by decide) hlo, hhi⟩]
    split_ifs with hstar hdist
    · refine ⟨_, rfl, by rw [length_set, h.length], fun j hj => ?_⟩
      rw [getD_set depv (by rw [h.length]; exact hk)]
      split_ifs with hkj
      · exact .inr (by rw [hkj])
      · exact h.dep j hj
    · rcases h.dep k hk with hnone | hsome
      · rw [hnone] at hstar
        exact absurd direction_setDirection_star hstar
      · exact absurd (congrArg Dep.distance hsome) hdist
    · exact ⟨depv, rfl, h⟩

theorem initDistance_known (hv : w.Dependence x v) :
    ∃ depv, w.initDistance = some depv ∧ w.Known v depv := by
  refine Loop.foldlM_total (J := fun _ => w.Known v) []
    (fun _ i depv hi h => h.step hv (mem_range.mp hi)) ⟨length_replicate .., fun i hi => .inl ?_⟩
  rw [getD_eq_getElem _ _ (by rw [length_replicate]; exact hi), getElem_replicate]

theorem Known.contains (h : w.Known v depv) (hv : w.Dependence x v) :
    VecContains depv v ∧ ∀ j, Valid (depv.getD j 0) := by
  refine ⟨vecContains_iff.mpr ⟨h.length.trans hv.length.symm, fun j hj => ?_⟩, fun j => ?_⟩
  · rw [h.length] at hj
    rcases h.dep j hj with hd | hd <;> rw [hd]
    · exact (contains_setDirection .star _).mpr trivial
    · exact (contains_setDistance_self _).mpr (hv.range j hj).1
  · by_cases hj : j < w.dvDim
    · rcases h.dep j hj with hd | hd <;> rw [hd]
      · exact valid_setDirection .star
      · exact valid_setDistance _
    · rw [getD_eq_default _ _ (by rw [h.length]; omega)]
      exact valid_of_direction (by decide)

theorem Known.built (h : w.Known v depv) : VecBuilt depv := by
  intro dep hdep
  obtain ⟨i, hi, rfl⟩ := mem_iff_getElem.mp hdep
  rw [← getD_eq_getElem depv 0 hi]
  rcases h.dep i (h.length ▸ hi) with hd | hd <;> rw [hd]
  · exact .setDirection .star
  · exact .setDistance _

/-! ## No dependence is lost -/

theorem isConsistent_complete {T : Tester} (hT : T.Sound) (stale : System → WorkState)
    (soe : System) (x : Nat → Int) (hx : soe.Solves x) : soe.isConsistent T stale = true := by
  unfold System.isConsistent
  rw [Bool.or_eq_true, Bool.not_eq_true', decide_eq_false_iff_not, or_iff_not_imp_left, not_not]
  intro htypes
  by_contra hfalse
  rw [Bool.not_eq_true] at hfalse
  refine (isConsistent_sound hT hfalse).2 ⟨x, fun r hr => ?_, fun r hr => ?_⟩
  · obtain ⟨hrow, hconst⟩ := htypes.2 r hr
    show dot soe.vars (fun j => Arith.machine.i32 (soe.ale r j)) x ≤ Arith.machine.i64 (soe.ble r)
    rw [machine_i64 hconst, dot_congr_left x fun j hj => machine_i32 (hrow j hj)]
    exact hx.le r hr
  · obtain ⟨hrow, hconst⟩ := htypes.1 r hr
    show dot soe.vars (fun j => Arith.machine.i32 (soe.aeq r j)) x = Arith.machine.i64 (soe.beq r)
    rw [machine_i64 hconst, dot_congr_left x fun j hj => machine_i32 (hrow j hj)]
    exact hx.eq r hr

theorem Dependence.columns (hv : w.Dependence x v) :
    w.columns.Distance (fun c => x ((w.usedColumns w.used).getD c 0)) v := by
  refine ⟨hv.length, fun i (hi : i < w.dvDim) hu => ?_⟩
  have h1 := w.dv1_le
  have h2 := w.dv2_le
  have h3 := w.symbol_le
  have hat : ∀ j < w.workCols, w.used j = true →
      x ((w.usedColumns w.used).getD (w.columns.mapUsed j) 0) = x j :=
    fun j hj hu => congrArg x (getD_filter_range hu hj)
  have hu2 : w.used (w.firstDv2 + i) = true := (w.used_conjugate i hi).symm.trans hu
  rw [hv.distance i hi]
  exact congrArg₂ (· - ·) (hat (w.firstDv2 + i) (by omega) hu2).symm
    (hat (w.firstDv1 + i) (by omega) hu).symm

/-- **No dependence is lost**: with tests that never deny a solution, every dependence, one of a
reference to itself that is all equal in the loops of the search apart, is in iterations in a vector
of the result, whatever the outer loops do; each step `s` is known or given as 0. -/
theorem compute_covers {T : Tester} (hT : T.Sound) (w : WorkArrays) (stale : System → WorkState)
    (stray : Nat → Bool) (sameReference : Bool) (numBadOuter : Nat) (step s : Nat → Int)
    (hstep : ∀ i < numBadOuter + w.dvDim, s i ≠ 0 ∧ (step i = s i ∨ step i = 0)) (x : Nat → Int)
    (v : List Int) (hv : w.Dependence x v) (hself : sameReference = true → ¬AllZero v) :
    ∃ result, w.compute (·.isConsistent T stale) stray sameReference numBadOuter step =
        some result ∧
      ∀ outer k : List Int, outer.length = numBadOuter → k.length = numBadOuter + w.dvDim →
        (∀ i < numBadOuter + w.dvDim, (outer ++ v).getD i 0 = s i * k.getD i 0) →
        Covers result k := by
  obtain ⟨depv, hinit, hknown⟩ := initDistance_known hv
  obtain ⟨hcontains, hvalid⟩ := hknown.contains hv
  have hall := isConsistent_complete hT stale
  -- the marks have the variables of all rows
  obtain ⟨heq, hle, -⟩ := w.initUsed_spec
  have hgrows := (boundsSetIsUsed_marks (w := w) w.initUsed).grows
  have hsoe : (w.soe stray).Solves fun c => x ((w.usedColumns w.used).getD c 0) :=
    copyToSoe_solves (fun i hi j hj h => hgrows j (heq i hi j hj h))
      (fun i hi _ j hj h => hgrows j (hle i hi j hj h)) hv.solves
  unfold compute
  dsimp only
  rw [hinit]
  dsimp only
  rw [if_neg ?_, if_pos (hall _ _ hsoe)]
  · obtain ⟨st, hst, ho⟩ := Search.computeDepVectors_outcome
      (S := ⟨w.columns, sameReference, numBadOuter, (·.isConsistent T stale)⟩) hall (w.dvDim + 1) 0
      ⟨w.soe stray, depv, []⟩ (Nat.lt_succ_self _) (Nat.zero_le _) ⟨rfl, hknown.length, hvalid⟩
      (fun j hj => absurd hj (Nat.not_lt_zero j))
    obtain ⟨emitted, hresult, hcovers⟩ := ho.covers
    have hbuilt := (Search.computeDepVectors_built _ _ _
      ⟨⟨hknown.length, hknown.built⟩, fun _ hd => absurd hd not_mem_nil⟩ hst).2
    rw [hst]
    refine ⟨_, rfl, fun outer k houter hk hsteps => ?_⟩
    refine normalizeStep_covers hbuilt hstep hk hsteps ?_
    rw [hresult]
    exact hcovers _ v hsoe hv.columns hcontains hself trivial outer houter
  · -- all equal only if the dependence is
    rw [Bool.and_eq_true]
    rintro ⟨hsame, hequal⟩
    refine hself hsame fun z hz => ?_
    obtain ⟨j, hj, rfl⟩ := mem_iff_getElem.mp hz
    rw [← getD_eq_getElem _ 0 hj]
    rw [hv.length] at hj
    simp only [isAllEquals, all_eq_true, mem_range, beq_iff_eq] at hequal
    exact (hvalid j).holds (hequal j hj)
      ((vecContains_iff.mp hcontains).2 j (by rw [hknown.length]; exact hj))

/-- `a(i)` and `a(j)` with `i + 4 = j`, in a loop from 0 to `n`. -/
def fourApart : WorkArrays := { oneLoop with eqConst := fun _ => -4 }

/-- Inside a bad outer loop of step 3, in a loop of step 2: the distance 4 is one of 2 iterations. -/
theorem compute_covers_fourApart : ∃ result,
    fourApart.compute (·.isConsistent plainTester fun _ => emptyWork) (fun _ => false) true 1
        (fun i => if i = 0 then 0 else 2) = some result ∧ Covers result [2, 2] := by
  have hv : fourApart.Dependence (fun j => if j = 0 then 0 else 4) [4] := by
    refine ⟨⟨by decide, by decide⟩, rfl, ?_, ?_⟩ <;>
      · intro i hi
        obtain rfl : i = 0 := Nat.lt_one_iff.mp hi
        decide
  obtain ⟨result, hresult, hcovers⟩ := compute_covers plainTester_sound fourApart
    (fun _ => emptyWork) (fun _ => false) true 1 (fun i => if i = 0 then 0 else 2)
    (fun i => if i = 0 then 3 else 2) (by decide) _ _ hv
    (fun _ h => absurd (h 4 mem_cons_self) (by decide))
  exact ⟨result, hresult, hcovers [6] [2, 2] rfl rfl (by decide)⟩

end WorkArrays

end Dep
