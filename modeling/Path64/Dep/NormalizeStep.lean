import Path64.Dep.Compute

/-! # Dependences in iterations instead of index values

A dependence is found between values of the loop index.
`Normalize_Step` turns it into one between iterations: with a step `s`
the index moves by `s * k` in `k` iterations. A step of 0 stands for
one that is not known at compile time. -/

namespace Dep

/-! ## The code -/

/-- Any direction with a distance other than 0 becomes all of these; the text stands twice. -/
def forgetDistance (dep : DEP) : DEP :=
  match direction dep with
  | some .pos | some .neg | some .posneg => setDirection .posneg
  | some .poseq | some .negeq | some .star => setDirection .star
  | _ => dep

/-- What `DEPV_NODE::Normalize_Step` makes of the dependence in its dimension. -/
def normalizeDep (step : Int) (dep : DEP) : DEP :=
  if step = 0 then forgetDistance dep
  else if isDistance dep then
    if (distance dep).tmod step ≠ 0 then forgetDistance dep
    else setDistance ((distance dep).tdiv step)
  else if step > 0 then dep
  else negate dep

/-! ## One dependence -/

section dependence
variable {dep : DEP} {s k : Int}

theorem Direction.holds_mul_pos (dir : Direction) (hs : 0 < s) : dir.Holds (s * k) ↔ dir.Holds k := by
  cases dir with
  | pos => exact mul_pos_iff_of_pos_left hs
  | neg => exact not_le.symm.trans ((not_congr (mul_nonneg_iff_of_pos_left hs)).trans not_le)
  | eq => exact mul_eq_zero_iff_left (by omega)
  | posneg => exact not_congr (mul_eq_zero_iff_left (by omega))
  | poseq => exact mul_nonneg_iff_of_pos_left hs
  | negeq => exact not_lt.symm.trans ((not_congr (mul_pos_iff_of_pos_left hs)).trans not_lt)
  | star => exact Iff.rfl

theorem Direction.holds_mul_neg (dir : Direction) (hs : s < 0) :
    dir.Holds (s * k) ↔ dir.Holds (-k) := by
  rw [← dir.holds_mul_pos (s := -s) (k := -k) (by omega), Int.neg_mul_neg]

/-- A distance of `s * k` is a distance of `k` steps after the division. -/
theorem contains_normalizeDep (hs : s ≠ 0) (h : Contains dep (s * k)) :
    Contains (normalizeDep s dep) k := by
  unfold normalizeDep
  rw [if_neg hs]
  by_cases hd : isDistance dep = true
  · rw [if_pos hd]
    have hdist : distance dep = s * k := by
      unfold Contains at h
      rw [if_pos hd] at h
      exact h.symm
    have hrange := distance_range dep
    -- the distance is a multiple of the step, and the quotient is no longer
    have hmod : ¬ (distance dep).tmod s ≠ 0 := by
      rw [hdist, Int.mul_tmod_right]
      exact not_not.mpr rfl
    have hdiv : (distance dep).tdiv s = k := by
      rw [hdist, Int.mul_tdiv_cancel_left k hs]
    have hk : -2048 ≤ k := by
      have habs : k.natAbs ≤ (distance dep).natAbs := by
        rw [hdist, Int.natAbs_mul]
        exact Nat.le_mul_of_pos_left _ (Int.natAbs_pos.mpr hs)
      omega
    rw [if_neg hmod, hdiv]
    exact (contains_setDistance_self k).mpr hk
  · rw [if_neg hd]
    rw [contains_of_not_distance hd] at h
    obtain ⟨dir, hdir, hholds⟩ := h
    split
    · next hpos =>
      rw [contains_of_not_distance hd]
      exact ⟨dir, hdir, (dir.holds_mul_pos hpos).mp hholds⟩
    · next hpos =>
      have hneg : Contains dep (-k) := by
        rw [contains_of_not_distance hd]
        exact ⟨dir, hdir, (dir.holds_mul_neg (by omega)).mp hholds⟩
      have hresult := contains_negate hneg
      rwa [neg_neg] at hresult

theorem contains_normalizeDep_unknown (hv : Valid dep) (hs : s ≠ 0) (h : Contains dep (s * k)) :
    Contains (normalizeDep 0 dep) k := by
  have hzero : s * k = 0 ↔ k = 0 := mul_eq_zero_iff_left hs
  obtain ⟨dir, hdir, hholds⟩ := hv.direction_holds h
  unfold normalizeDep forgetDistance
  rw [if_pos rfl, hdir]
  cases dir with
  | pos =>
    have hpos : 0 < s * k := hholds
    exact (contains_setDirection .posneg k).mpr (fun hk => absurd (hzero.mpr hk) (by omega))
  | neg =>
    have hneg : s * k < 0 := hholds
    exact (contains_setDirection .posneg k).mpr (fun hk => absurd (hzero.mpr hk) (by omega))
  | posneg =>
    have hne : s * k ≠ 0 := hholds
    exact (contains_setDirection .posneg k).mpr (fun hk => hne (hzero.mpr hk))
  | eq =>
    have heq : s * k = 0 := hholds
    rw [heq] at h
    rw [hzero.mp heq]
    exact h
  | poseq => exact (contains_setDirection .star k).mpr trivial
  | negeq => exact (contains_setDirection .star k).mpr trivial
  | star => exact (contains_setDirection .star k).mpr trivial

end dependence

/-- `Normalize_Step` loses no distance in iterations. When the step is not known, none that goes
with some step is lost. -/
theorem normalizeDep_sound (dep : DEP) :
    (∀ s k, s ≠ 0 → Contains dep (s * k) → Contains (normalizeDep s dep) k) ∧
      (Valid dep → ∀ s k, s ≠ 0 → Contains dep (s * k) → Contains (normalizeDep 0 dep) k) :=
  ⟨fun _ _ hs h => contains_normalizeDep hs h,
    fun hv _ _ hs h => contains_normalizeDep_unknown hv hs h⟩

theorem normalizeDep_sound_six : Contains (normalizeDep (-2) (setDistance 6)) (-3) ∧
      Contains (normalizeDep 0 (setDistance 6)) (-3) := by
  have h : Contains (setDistance 6) (-2 * -3) := (contains_setDistance_self 6).mpr (by decide)
  exact ⟨(normalizeDep_sound (setDistance 6)).1 (-2) (-3) (by decide) h,
    (normalizeDep_sound (setDistance 6)).2 (valid_setDistance 6) (-2) (-3) (by decide) h⟩

/-! ## The vectors of a list -/

section vectors
open List
variable {dvDim : Nat} {step : Nat → Int}

/-- The dimensions below `n` are in iterations, the others in index values. -/
structure HalfNormalized (s k : Nat → Int) (n : Nat) (depv : DEPV) : Prop where
  valid : ∀ j, Valid (depv.getD j 0)
  done : ∀ j < depv.length, j < n → Contains (depv.getD j 0) (k j)
  untouched : ∀ j < depv.length, n ≤ j → Contains (depv.getD j 0) (s j * k j)

/-- One dimension of `DEPV_LIST::Normalize_Step`; no node is ever found independent. -/
def normalizeDim (step : Nat → Int) (nodes : List DEPV) (i : Nat) : List DEPV :=
  if step i ≠ 1 then nodes.map fun depv => depv.set i (normalizeDep (step i) (depv.getD i 0))
  else nodes

/-- `DEPV_LIST::Normalize_Step`. -/
def normalizeStep (step : Nat → Int) (dvDim : Nat) (nodes : List DEPV) : List DEPV :=
  (range dvDim).foldl (normalizeDim step) nodes

variable {s k : Nat → Int} {n : Nat} {depv : DEPV} {nodes : List DEPV}

theorem Built.normalizeDep {dep : DEP} (h : Built dep) (t : Int) : Built (normalizeDep t dep) := by
  have hforget : Built (forgetDistance dep) := by
    unfold forgetDistance
    split <;> first | exact .setDirection _ | exact h
  unfold Dep.normalizeDep
  split_ifs
  · exact hforget
  · exact hforget
  · exact .setDistance _
  · exact h
  · exact .negate h

theorem VecBuilt.valid (h : VecBuilt depv) (j : Nat) : Valid (depv.getD j 0) := by
  by_cases hj : j < depv.length
  · rw [getD_eq_getElem _ _ hj]
    exact (h _ (getElem_mem hj)).valid
  · rw [getD_eq_default _ _ (Nat.le_of_not_lt hj)]
    exact valid_of_direction (by decide)

theorem VecBuilt.normalize (h : VecBuilt depv) (hn : n < depv.length) :
    VecBuilt (depv.set n (normalizeDep (step n) (depv.getD n 0))) := by
  refine h.set ?_ n
  rw [getD_eq_getElem _ _ hn]
  exact (h _ (getElem_mem hn)).normalizeDep _

theorem HalfNormalized.next (h : HalfNormalized s k n depv) (hb : VecBuilt depv)
    (hn : n < depv.length) (hs : s n ≠ 0) (hstep : step n = s n ∨ step n = 0) :
    HalfNormalized s k (n + 1) (depv.set n (normalizeDep (step n) (depv.getD n 0))) := by
  have hat := h.untouched n hn le_rfl
  refine ⟨(hb.normalize hn).valid, fun j hj hjn => ?_, fun j hj hjn => ?_⟩ <;>
    rw [length_set] at hj <;> rw [getD_set depv hn]
  · split_ifs with heq
    · subst heq
      rcases hstep with ht | ht <;> rw [ht]
      · exact contains_normalizeDep hs hat
      · exact contains_normalizeDep_unknown (h.valid n) hs hat
    · exact h.done j hj (by omega)
  · rw [if_neg (by omega)]
    exact h.untouched j hj (by omega)

/-- The loop over the dimensions, by induction on those passed. -/
theorem normalizeStep_spec (hnodes : ∀ depv ∈ nodes, depv.length = dvDim ∧ VecBuilt depv)
    (hstep : ∀ i < dvDim, s i ≠ 0 ∧ (step i = s i ∨ step i = 0)) : ∀ n ≤ dvDim,
    (∀ depv ∈ normalizeStep step n nodes, depv.length = dvDim ∧ VecBuilt depv) ∧
      ((∃ depv ∈ nodes, HalfNormalized s k 0 depv) →
        ∃ depv ∈ normalizeStep step n nodes, HalfNormalized s k n depv) := by
  intro n
  induction n with
  | zero => exact fun _ => ⟨hnodes, id⟩
  | succ n ih =>
    intro hn
    obtain ⟨hall, hex⟩ := ih (by omega)
    obtain ⟨hs, ht⟩ := hstep n hn
    unfold normalizeStep at *
    rw [range_succ, foldl_append, foldl_cons, foldl_nil]
    unfold normalizeDim at *
    split_ifs with hone
    · refine ⟨fun depv hmem => ?_, fun hnode => ?_⟩
      · obtain ⟨d, hd, rfl⟩ := mem_map.mp hmem
        obtain ⟨hlen, hb⟩ := hall d hd
        exact ⟨length_set.trans hlen, hb.normalize (hlen ▸ hn)⟩
      · obtain ⟨d, hd, h⟩ := hex hnode
        obtain ⟨hlen, hb⟩ := hall d hd
        exact ⟨_, mem_map_of_mem hd, h.next hb (hlen ▸ hn) hs ht⟩
    · refine ⟨hall, fun hnode => ?_⟩
      obtain ⟨d, hd, h⟩ := hex hnode
      refine ⟨d, hd, h.valid, fun j hj hjn => ?_, fun j hj hjn => h.untouched j hj (by omega)⟩
      rcases Nat.lt_succ_iff_lt_or_eq.mp hjn with hlt | rfl
      · exact h.done j hj hlt
      · -- a step of 1 is known
        have hat := h.untouched j hj le_rfl
        rwa [show s j = 1 by omega, one_mul] at hat

/-- What a list covers in index values, the normalized list covers in iterations. -/
theorem normalizeStep_covers {v k : List Int}
    (hnodes : ∀ depv ∈ nodes, depv.length = dvDim ∧ VecBuilt depv)
    (hstep : ∀ i < dvDim, s i ≠ 0 ∧ (step i = s i ∨ step i = 0)) (hk : k.length = dvDim)
    (hv : ∀ i < dvDim, v.getD i 0 = s i * k.getD i 0) (hcov : Covers nodes v) :
    Covers (normalizeStep step dvDim nodes) k := by
  obtain ⟨hall, hex⟩ := normalizeStep_spec (k := fun i => k.getD i 0) hnodes hstep dvDim le_rfl
  obtain ⟨depv, hmem, hcontains⟩ := hcov
  obtain ⟨hlen, hb⟩ := hnodes depv hmem
  have hat := (vecContains_iff.mp hcontains).2
  obtain ⟨d, hd, h⟩ := hex ⟨depv, hmem, hb.valid, fun j _ hj => absurd hj (Nat.not_lt_zero j),
    fun j hj _ => hv j (hlen ▸ hj) ▸ hat j hj⟩
  have hdlen := (hall d hd).1
  exact ⟨d, hd, vecContains_iff.mpr ⟨hdlen.trans hk.symm, fun j hj => h.done j hj (hdlen ▸ hj)⟩⟩

/-- **Normalized and decomposed**: of steps `s`, each known or given as 0, the parts of the
normalized list are lexicographically positive and lose no distance in iterations. -/
theorem normalizeStep_lexPosDecompose (dvDim : Nat) (keepPosEquals keepNegEquals : Bool)
    (step s : Nat → Int) (nodes : List DEPV) (out : Decomposition)
    (hnodes : ∀ depv ∈ nodes, depv.length = dvDim ∧ VecBuilt depv)
    (hstep : ∀ i < dvDim, s i ≠ 0 ∧ (step i = s i ∨ step i = 0)) :
    ∃ pos neg, lexPosDecompose dvDim keepPosEquals keepNegEquals (normalizeStep step dvDim nodes)
          out = (normalizeStep step dvDim nodes, ⟨out.pos ++ pos, out.neg ++ neg⟩) ∧
      (∀ v k : List Int, k.length = dvDim → (∀ i < dvDim, v.getD i 0 = s i * k.getD i 0) →
        Covers nodes v → (AllZero k → keepPosEquals = true ∨ keepNegEquals = true) →
          Covers pos k ∨ Covers neg (k.map fun z => -z)) ∧
      AllPositive keepPosEquals pos ∧ AllPositive keepNegEquals neg := by
  have hspec := normalizeStep_spec (k := 0) hnodes hstep dvDim le_rfl
  have hbuilt := fun depv h => (hspec.1 depv h).2
  obtain ⟨hpos, hneg⟩ := @parts_positive keepPosEquals keepNegEquals _ hbuilt
  exact ⟨_, _, lexPosDecompose_eq _ _ _ _ (fun depv h => (hspec.1 depv h).1) out,
    fun v k hk hv hcov hzero => parts_cover hbuilt (normalizeStep_covers hnodes hstep hk hv hcov)
      hzero, hpos, hneg⟩

theorem normalizeStep_lexPosDecompose_six : ∃ pos neg, lexPosDecompose 1 false false
    (normalizeStep (fun _ => -2) 1 [[setDistance 6]]) ⟨[], []⟩ =
      (normalizeStep (fun _ => -2) 1 [[setDistance 6]], ⟨[] ++ pos, [] ++ neg⟩) ∧
        (Covers pos [-3] ∨ Covers neg [3]) := by
  obtain ⟨pos, neg, heq, hcov, -⟩ := normalizeStep_lexPosDecompose 1 false false (fun _ => -2)
    (fun _ => -2) [[setDistance 6]] ⟨[], []⟩
    (fun depv h => mem_singleton.mp h ▸ ⟨rfl, fun d hd => mem_singleton.mp hd ▸ .setDistance 6⟩)
    fun _ _ => ⟨by decide, .inl rfl⟩
  refine ⟨pos, neg, heq, hcov [6] [-3] rfl (fun i hi => ?_) ?_ fun h =>
    absurd (h (-3) mem_cons_self) (by decide)⟩
  · obtain rfl : i = 0 := Nat.lt_one_iff.mp hi
    decide
  · exact ⟨_, mem_cons_self, .cons ((contains_setDistance_self 6).mpr (by decide)) .nil⟩

end vectors

end Dep
