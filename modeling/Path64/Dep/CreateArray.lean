import Path64.Dep.Compute

/-! # Collapsing a list of dependence vectors

A `DEPV_ARRAY` counts its vectors in 8 bits. `Create_DEPV_ARRAY` makes
one vector of a longer list, the union of the directions in every
dimension, and decomposes it where the list was lexicographically
positive. -/

namespace Dep

open List

/-! ## The code -/

structure DepvList where
  numDim : Nat
  numUnusedDim : Nat
  nodes : List DEPV
  length_eq : ∀ depv ∈ nodes, depv.length = numDim
  built : ∀ depv ∈ nodes, VecBuilt depv

/-- `DEP_UnionDirection(dep, DEP_Direction(dep'))`. -/
def unionWith (dep dep' : DEP) : DEP :=
  match direction dep' with
  | some dir => unionDirection dep dir
  | none => setDist (makeDistNonConst dep) 0

/-- The union of the directions, in every dimension. -/
def collapse (numDim : Nat) (nodes : List DEPV) : DEPV :=
  nodes.foldl (fun tmp depv => tmp.zipWith unionWith depv) ((nodes.headD []).take numDim)

/-- `Is_Lexpos` of a vector. -/
def isLexpos : DEPV → Bool
  | [] => true
  | dep :: deps =>
    match direction dep with
    | some .pos => true
    | some .neg | some .negeq | some .posneg | some .star => false
    | _ => isLexpos deps

/-- The loop of `Contains_All_Equals` over one vector. -/
def mayAllEqual (depv : DEPV) : Bool :=
  depv.all fun dep =>
    match direction dep with
    | some .pos | some .neg | some .posneg => false
    | _ => true

def containsAllEquals (nodes : List DEPV) : Bool := nodes.any mayAllEqual

/-- How `Create_DEPV_ARRAY` ends: null, an assertion, a write behind a vector, or an array. -/
inductive Created where
  | null
  | assertion
  | overrun
  | array (vecs : List DEPV)

/-- The vectors of a list are copied to a new array. -/
def fillArray (numDim numUnusedDim : Nat) (vecs : List DEPV) : Created :=
  if vecs = [] then .null
  else if numDim > 15 then .assertion
  else if numUnusedDim > 15 then .assertion
  else .array vecs

/-- `new_depvlist`: `Append(tmp, num_unused_dim)` to an empty list. -/
def newDepvList (numDim numUnusedDim : Nat) (tmp : DEPV) : List DEPV :=
  appendOuter (numDim - numUnusedDim) numUnusedDim (tmp.take (numDim - numUnusedDim))

/-- What the collapsed list becomes. -/
def collapsed (l : DepvList) : List DEPV :=
  let new := newDepvList l.numDim l.numUnusedDim (collapse l.numDim l.nodes)
  if l.nodes.all isLexpos then
    (lexPosDecompose l.numDim (containsAllEquals l.nodes) false new ⟨[], []⟩).2.pos
  else new

def createDepvArray (l : DepvList) : Created :=
  if l.nodes.length > 255 then
    -- `Append` sets the dimension `num_bad_outer - 1` of a new vector
    if l.numUnusedDim > l.numDim then .overrun
    else if (collapsed l).length > 255 then .assertion
    else fillArray l.numDim l.numUnusedDim (collapsed l)
  else fillArray l.numDim l.numUnusedDim l.nodes

/-! ## Directions -/

/-- The distances of the direction of a dependence. -/
def DirHolds (dep : DEP) (z : Int) : Prop := ∃ dir, direction dep = some dir ∧ dir.Holds z

theorem Valid.dirHolds {dep : DEP} (hv : Valid dep) {z : Int} (h : Contains dep z) :
    DirHolds dep z := hv.direction_holds h

/-- A dependence that stands for all distances of its direction. -/
def Loose (dep : DEP) : Prop := ∀ z, Contains dep z ↔ DirHolds dep z

theorem loose_of_not_distance {dep : DEP} (h : isDistance dep = false) : Loose dep := fun z =>
  contains_of_not_distance (by rw [h]; exact Bool.false_ne_true) z

theorem loose_of_eq {dep : DEP} (hv : Valid dep) (h : direction dep = some .eq) : Loose dep := by
  intro z
  refine ⟨hv.dirHolds, ?_⟩
  rintro ⟨dir, hdir, hz⟩
  rw [h] at hdir
  cases hdir
  have hz0 : z = 0 := hz
  by_cases hd : isDistance dep = true
  · have hsign : signDirection (distance dep) = .eq :=
      Option.some.inj ((hv hd).symm.trans h)
    have hdist := signDirection_holds (distance dep)
    rw [hsign] at hdist
    unfold Contains
    rw [if_pos hd]
    exact hz0.trans hdist.symm
  · exact (contains_of_not_distance hd z).mpr ⟨.eq, h, hz⟩

theorem loose_unionDirection {dep : DEP} (hv : Valid dep) (dir : Direction) :
    Loose (unionDirection dep dir) := by
  unfold unionDirection
  split_ifs with hdir heq
  · apply loose_of_not_distance
    rw [isDistance_setDist (directionBound_mem dir).1 (directionBound_mem dir).2, isDistance_eq]
    simp [makeDistNonConst]
  · rw [not_not] at heq
    rw [heq] at hdir
    exact loose_of_eq hv hdir
  · apply loose_of_not_distance
    rw [isDistance_setDist (by decide) (by decide), isDistance_eq]
    cases dir <;> simp [makeDistNonConst, Direction.code]

theorem dirHolds_unionDirection (dep : DEP) (dir : Direction) (z : Int) :
    DirHolds (unionDirection dep dir) z ↔ DirHolds dep z ∨ dir.Holds z := by
  have hsame : direction dep = some dir → (DirHolds dep z ∨ dir.Holds z ↔ DirHolds dep z) := by
    intro hdir
    exact or_iff_left_of_imp fun hz => ⟨dir, hdir, hz⟩
  unfold unionDirection
  split_ifs with hdir heq
  · rw [hsame hdir]
    unfold DirHolds
    rw [direction_setDist (directionBound_mem dir).1 (directionBound_mem dir).2,
      direction_holds_iff, direction_holds_iff]
    simp [makeDistNonConst]
  · exact (hsame hdir).symm
  · unfold DirHolds
    rw [direction_setDist (by decide) (by decide), direction_holds_iff, direction_holds_iff,
      Direction.holds_iff]
    simp only [makeDistNonConst, BitVec.getElem_or, Bool.or_eq_true]
    have hkeep : (dep &&& ~~~0x8000#16)[12] = dep[12] ∧ (dep &&& ~~~0x8000#16)[13] = dep[13] ∧
        (dep &&& ~~~0x8000#16)[14] = dep[14] := by simp
    rw [hkeep.1, hkeep.2.1, hkeep.2.2]
    grind

theorem Built.nonempty {dep : DEP} (h : Built dep) : ∃ z, Contains dep z := by
  induction h with
  | setDistance z =>
    by_cases hz : -2048 ≤ z
    · exact ⟨z, (contains_setDistance_self z).mpr hz⟩
    · refine ⟨1, ?_⟩
      rw [setDistance_far (by omega), contains_setDir .pos (by decide) (by decide)]
      exact Int.one_pos
  | setDirection dir =>
    have hsome : ∃ z, dir.Holds z := by
      cases dir with
      | pos => exact ⟨1, Int.one_pos⟩
      | neg => exact ⟨-1, (by decide : (-1 : Int) < 0)⟩
      | eq => exact ⟨0, rfl⟩
      | posneg => exact ⟨1, Int.one_ne_zero⟩
      | poseq => exact ⟨0, le_refl _⟩
      | negeq => exact ⟨0, le_refl _⟩
      | star => exact ⟨0, trivial⟩
    obtain ⟨z, hz⟩ := hsome
    exact ⟨z, (contains_setDirection dir z).mpr hz⟩
  | unionDirection dir hb ih =>
    obtain ⟨z, hz⟩ := ih
    exact ⟨z, contains_unionDirection hb.valid (.inl hz)⟩
  | negate _ ih =>
    obtain ⟨z, hz⟩ := ih
    exact ⟨-z, contains_negate hz⟩

theorem Built.directed {dep : DEP} (h : Built dep) : ∃ dir, direction dep = some dir := by
  obtain ⟨z, hz⟩ := h.nonempty
  obtain ⟨dir, hdir, -⟩ := h.valid.direction_holds hz
  exact ⟨dir, hdir⟩

theorem Built.unionWith {dep dep' : DEP} (h : Built dep) (h' : Built dep') :
    Built (unionWith dep dep') := by
  obtain ⟨dir, hdir⟩ := h'.directed
  unfold Dep.unionWith
  rw [hdir]
  exact h.unionDirection dir

variable {dep' : DEP} {dir : Direction} {depv : DEPV} {v : List Int} {i : Nat} {arr : List DEPV}

theorem dirHolds_unionWith {dep : DEP} (h' : Built dep') (z : Int) :
    DirHolds (unionWith dep dep') z ↔ DirHolds dep z ∨ DirHolds dep' z := by
  obtain ⟨dir, hdir⟩ := h'.directed
  have hholds : DirHolds dep' z ↔ dir.Holds z := by
    unfold DirHolds
    rw [hdir]
    exact ⟨fun ⟨d, hd, hz⟩ => Option.some.inj hd ▸ hz, fun hz => ⟨dir, rfl, hz⟩⟩
  unfold unionWith
  rw [hdir, hholds]
  exact dirHolds_unionDirection dep dir z

theorem loose_unionWith {dep : DEP} (h : Built dep) (h' : Built dep') :
    Loose (unionWith dep dep') := by
  obtain ⟨dir, hdir⟩ := h'.directed
  unfold unionWith
  rw [hdir]
  exact loose_unionDirection h.valid dir

theorem Built.contains_zero {dep : DEP} (h : Built dep) : Contains dep 0 ↔ DirHolds dep 0 := by
  refine ⟨h.valid.dirHolds, ?_⟩
  rintro ⟨dir, hdir, hz⟩
  by_cases hd : isDistance dep = true
  · -- of the directions of a distance only `=` holds 0
    have hsign := (h.valid hd).symm.trans hdir
    have hdist := signDirection_holds (distance dep)
    rw [Option.some.inj hsign] at hdist
    have hdir' : dir = .eq := by
      unfold signDirection at hsign
      split_ifs at hsign with h1 h2
      · cases hsign
        exact absurd hz (lt_irrefl 0)
      · cases hsign
        exact absurd hz (lt_irrefl 0)
      · exact (Option.some.inj hsign).symm
    rw [hdir'] at hdir
    exact (loose_of_eq h.valid hdir 0).mpr ⟨.eq, hdir, rfl⟩
  · exact (contains_of_not_distance hd 0).mpr ⟨dir, hdir, hz⟩

theorem Built.contains_neg {dep : DEP} (h : Built dep)
    (hdir : direction dep = some dir) (hneg : dir.Holds (-1)) : ∃ z < 0, Contains dep z := by
  by_cases hd : isDistance dep = true
  · have hsign := (h.valid hd).symm.trans hdir
    have hdist := signDirection_holds (distance dep)
    rw [Option.some.inj hsign] at hdist
    refine ⟨distance dep, ?_, by unfold Contains; rw [if_pos hd]⟩
    unfold signDirection at hsign
    split_ifs at hsign with h1 h2
    · cases hsign
      exact absurd hneg (by decide : ¬ (0 : Int) < -1)
    · exact h2
    · cases hsign
      exact absurd hneg (by decide : ¬ (-1 : Int) = 0)
  · exact ⟨-1, (by decide : (-1 : Int) < 0), (contains_of_not_distance hd (-1)).mpr ⟨dir, hdir, hneg⟩⟩

/-! ## The collapsed vector -/

theorem getD_zipWith {f : DEP → DEP → DEP} {a b : DEPV} {k : Nat} (ha : k < a.length)
    (hb : k < b.length) : (a.zipWith f b).getD k 0 = f (a.getD k 0) (b.getD k 0) := by
  have hk : k < (a.zipWith f b).length := by
    rw [length_zipWith]
    omega
  rw [getD_eq_getElem _ _ hk, getD_eq_getElem _ _ ha, getD_eq_getElem _ _ hb,
    getElem_zipWith]

theorem Built.getD {depv : DEPV} (h : VecBuilt depv) {k : Nat} (hk : k < depv.length) :
    Built (depv.getD k 0) := by
  rw [getD_eq_getElem _ _ hk]
  exact h _ (getElem_mem hk)

section fold
variable {d : Nat} {nodes : List DEPV}

theorem foldl_unionWith (hlen : ∀ depv ∈ nodes, depv.length = d)
    (hbuilt : ∀ depv ∈ nodes, VecBuilt depv) : ∀ tmp : DEPV, tmp.length = d → VecBuilt tmp →
      (nodes.foldl (fun tmp depv => tmp.zipWith unionWith depv) tmp).length = d ∧
      VecBuilt (nodes.foldl (fun tmp depv => tmp.zipWith unionWith depv) tmp) ∧ ∀ k < d, ∀ z,
        (DirHolds ((nodes.foldl (fun tmp depv => tmp.zipWith unionWith depv) tmp).getD k 0) z ↔
          DirHolds (tmp.getD k 0) z ∨ ∃ depv ∈ nodes, DirHolds (depv.getD k 0) z) ∧
        ((Loose (tmp.getD k 0) ∨ nodes ≠ []) →
          Loose ((nodes.foldl (fun tmp depv => tmp.zipWith unionWith depv) tmp).getD k 0)) := by
  induction nodes with
  | nil =>
    intro tmp htmp hb
    refine ⟨htmp, hb, fun k hk z => ⟨?_, fun h => h.resolve_right fun hne => hne rfl⟩⟩
    simp only [foldl_nil, not_mem_nil, false_and, exists_false, or_false]
  | cons depv nodes ih =>
    intro tmp htmp hb
    have hdepv := hlen depv mem_cons_self
    have hbdepv := hbuilt depv mem_cons_self
    have hlen' : (tmp.zipWith unionWith depv).length = d := by
      rw [length_zipWith, htmp, hdepv, min_self]
    have hb' : VecBuilt (tmp.zipWith unionWith depv) := by
      intro dep hdep
      obtain ⟨k, hk, rfl⟩ := mem_iff_getElem.mp hdep
      rw [getElem_zipWith]
      exact (hb _ (getElem_mem _)).unionWith (hbdepv _ (getElem_mem _))
    obtain ⟨hl, hbl, hrest⟩ := ih (fun e he => hlen e (mem_cons_of_mem _ he))
      (fun e he => hbuilt e (mem_cons_of_mem _ he)) _ hlen' hb'
    refine ⟨hl, hbl, fun k hk z => ?_⟩
    have hget := @getD_zipWith unionWith tmp depv k (by omega) (by omega)
    have hbk : Built (depv.getD k 0) := Built.getD hbdepv (by omega)
    have hbt : Built (tmp.getD k 0) := Built.getD hb (by omega)
    rw [foldl_cons]
    refine ⟨?_, fun _ => (hrest k hk z).2 (.inl ?_)⟩
    · rw [(hrest k hk z).1, hget, dirHolds_unionWith hbk, or_assoc]
      simp only [mem_cons, exists_eq_or_imp]
    · rw [hget]
      exact loose_unionWith hbt hbk

end fold

theorem collapse_spec {d : Nat} {nodes : List DEPV} (hne : nodes ≠ [])
    (hlen : ∀ depv ∈ nodes, depv.length = d) (hbuilt : ∀ depv ∈ nodes, VecBuilt depv) :
    (collapse d nodes).length = d ∧ VecBuilt (collapse d nodes) ∧
      ∀ k < d, ∀ z, Contains ((collapse d nodes).getD k 0) z ↔
        ∃ depv ∈ nodes, DirHolds (depv.getD k 0) z := by
  obtain ⟨first, rest, rfl⟩ := exists_cons_of_ne_nil hne
  have hfirst : ((first :: rest).headD []).take d = first := by
    rw [headD_cons, ← hlen first mem_cons_self, take_length]
  unfold collapse
  rw [hfirst]
  obtain ⟨hl, hb, hrest⟩ := foldl_unionWith hlen hbuilt first (hlen first mem_cons_self)
    (hbuilt first mem_cons_self)
  refine ⟨hl, hb, fun k hk z => ?_⟩
  -- the first vector is joined with itself too, so no distance is left
  rw [(hrest k hk z).2 (.inr hne) z, (hrest k hk z).1]
  exact or_iff_right_of_imp fun h => ⟨first, mem_cons_self, h⟩

/-! ## The tests of the code -/

theorem VecBuilt.nonempty {depv : DEPV} (h : VecBuilt depv) : ∃ v, VecContains depv v := by
  induction depv with
  | nil => exact ⟨[], List.Forall₂.nil⟩
  | cons dep deps ih =>
    obtain ⟨z, hz⟩ := (h dep mem_cons_self).nonempty
    obtain ⟨v, hv⟩ := ih fun e he => h e (mem_cons_of_mem _ he)
    exact ⟨z :: v, List.Forall₂.cons hz hv⟩

theorem mayAllEqual_iff (h : VecBuilt depv) :
    mayAllEqual depv = true ↔ ∃ v, VecContains depv v ∧ AllZero v := by
  have hone : ∀ dep ∈ depv, ((match direction dep with
      | some .pos | some .neg | some .posneg => false
      | _ => true) = true ↔ Contains dep 0) := by
    intro dep hdep
    rw [(h dep hdep).contains_zero]
    obtain ⟨dir, hdir⟩ := (h dep hdep).directed
    unfold DirHolds
    rw [hdir]
    cases dir <;> simp [Direction.Holds]
  unfold mayAllEqual
  rw [all_eq_true]
  constructor
  · intro hall
    refine ⟨replicate depv.length 0, ?_, fun z hz => (mem_replicate.mp hz).2⟩
    rw [vecContains_iff]
    refine ⟨length_replicate.symm, fun j hj => ?_⟩
    rw [getD_replicate _ hj, getD_eq_getElem _ _ hj]
    exact (hone _ (getElem_mem hj)).mp (hall _ (getElem_mem hj))
  · rintro ⟨v, hv, hzero⟩ dep hdep
    obtain ⟨j, hj, rfl⟩ := mem_iff_getElem.mp hdep
    rw [hone _ (getElem_mem hj)]
    obtain ⟨hlen, hc⟩ := vecContains_iff.mp hv
    have hj' : j < v.length := by omega
    have hcj := hc j hj
    rwa [getD_eq_getElem _ _ hj, getD_eq_getElem _ _ hj',
      hzero _ (getElem_mem hj')] at hcj

/-- The test on directions says that every vector contained is lexicographically positive or
zero. -/
theorem isLexpos_iff (h : VecBuilt depv) :
    isLexpos depv = true ↔ ∀ v, VecContains depv v → LexPos v ∨ AllZero v := by
  induction depv with
  | nil =>
    refine ⟨fun _ v hv => .inr ?_, fun _ => rfl⟩
    cases hv
    intro z hz
    cases hz
  | cons dep deps ih =>
    have hb := h dep mem_cons_self
    have hbs : VecBuilt deps := fun e he => h e (mem_cons_of_mem _ he)
    obtain ⟨dir, hdir⟩ := hb.directed
    have hsign : ∀ {z}, Contains dep z → dir.Holds z := by
      intro z hz
      obtain ⟨dir', hdir', hholds⟩ := hb.valid.direction_holds hz
      rw [hdir] at hdir'
      cases hdir'
      exact hholds
    have hcons : ∀ {z v}, LexPos (z :: v) ∨ AllZero (z :: v) ↔
        0 < z ∨ (z = 0 ∧ (LexPos v ∨ AllZero v)) := by
      intro z v
      unfold AllZero
      simp only [LexPos, forall_mem_cons]
      tauto
    -- a direction without negative distances passes the question on
    have hpass : Contains dep 0 → (∀ {z}, Contains dep z → 0 ≤ z) →
        ((∀ v, VecContains (dep :: deps) v → LexPos v ∨ AllZero v) ↔
          ∀ v, VecContains deps v → LexPos v ∨ AllZero v) := by
      intro h0 hnn
      constructor
      · intro hall v hv
        have := hcons.mp (hall (0 :: v) (List.Forall₂.cons h0 hv))
        rcases this with hlt | ⟨-, hrest⟩
        · exact absurd hlt (lt_irrefl 0)
        · exact hrest
      · intro hall w hw
        obtain ⟨z, v, hz, hv, rfl⟩ := forall₂_cons_left_iff.mp hw
        rw [hcons]
        rcases (hnn hz).lt_or_eq with hlt | heq
        · exact .inl hlt
        · exact .inr ⟨heq.symm, hall v hv⟩
    -- a negative distance makes a negative vector
    have hfail : ∀ z < 0, Contains dep z →
        ¬ ∀ v, VecContains (dep :: deps) v → LexPos v ∨ AllZero v := by
      intro z hneg hz hall
      obtain ⟨v, hv⟩ := hbs.nonempty
      have := hcons.mp (hall (z :: v) (List.Forall₂.cons hz hv))
      omega
    have hstop : dir.Holds (-1) →
        (false = true ↔ ∀ v, VecContains (dep :: deps) v → LexPos v ∨ AllZero v) := by
      intro hneg
      obtain ⟨z, hz, hc⟩ := hb.contains_neg hdir hneg
      exact ⟨fun hf => absurd hf Bool.false_ne_true, fun hall => absurd hall (hfail z hz hc)⟩
    unfold isLexpos
    rw [hdir]
    cases dir with
    | pos =>
      refine ⟨fun _ w hw => ?_, fun _ => rfl⟩
      obtain ⟨z, v, hz, hv, rfl⟩ := forall₂_cons_left_iff.mp hw
      exact hcons.mpr (.inl (hsign hz))
    | neg => exact hstop (by decide : (-1 : Int) < 0)
    | eq =>
      rw [hpass (hb.contains_zero.mpr ⟨.eq, hdir, rfl⟩) fun hz => le_of_eq (hsign hz).symm]
      exact ih hbs
    | posneg => exact hstop (by decide : (-1 : Int) ≠ 0)
    | poseq =>
      rw [hpass (hb.contains_zero.mpr ⟨.poseq, hdir, le_refl (0 : Int)⟩) fun hz => hsign hz]
      exact ih hbs
    | negeq => exact hstop (by decide : (-1 : Int) ≤ 0)
    | star => exact hstop trivial

theorem not_lexPos_of_allZero (h : AllZero v) : ¬ LexPos v := by
  induction v with
  | nil => exact fun hpos => hpos
  | cons z v ih =>
    have hz := h z mem_cons_self
    rintro (hpos | ⟨-, hpos⟩)
    · omega
    · exact ih (fun y hy => h y (mem_cons_of_mem z hy)) hpos

theorem lexPos_negated (h : LexPos v ∨ AllZero v) : ¬ LexPos (v.map fun z => -z):= by
  induction v with
  | nil => exact fun hpos => hpos
  | cons z v ih =>
    rw [map_cons]
    have hz : 0 < z ∨ (z = 0 ∧ (LexPos v ∨ AllZero v)) := by
      rcases h with (hlt | ⟨h0, hrest⟩) | hall
      · exact .inl hlt
      · exact .inr ⟨h0, .inl hrest⟩
      · exact .inr ⟨hall z mem_cons_self,
          .inr fun y hy => hall y (mem_cons_of_mem z hy)⟩
    rintro (hneg | ⟨h0, hneg⟩)
    · omega
    · rcases hz with hlt | ⟨-, hrest⟩
      · omega
      · exact ih hrest hneg

theorem containsAllEquals_iff {nodes : List DEPV} (hbuilt : ∀ depv ∈ nodes, VecBuilt depv) :
    containsAllEquals nodes = true ↔ ∃ v, Covers nodes v ∧ AllZero v := by
  unfold containsAllEquals
  rw [any_eq_true]
  constructor
  · rintro ⟨depv, hmem, hmay⟩
    obtain ⟨v, hv, hzero⟩ := (mayAllEqual_iff (hbuilt depv hmem)).mp hmay
    exact ⟨v, ⟨depv, hmem, hv⟩, hzero⟩
  · rintro ⟨v, ⟨depv, hmem, hv⟩, hzero⟩
    exact ⟨depv, hmem, (mayAllEqual_iff (hbuilt depv hmem)).mpr ⟨v, hv, hzero⟩⟩

theorem all_isLexpos_iff {nodes : List DEPV} (hbuilt : ∀ depv ∈ nodes, VecBuilt depv) :
    nodes.all isLexpos = true ↔ ∀ v, Covers nodes v → LexPos v ∨ AllZero v := by
  rw [all_eq_true]
  constructor
  · rintro hall v ⟨depv, hmem, hv⟩
    exact (isLexpos_iff (hbuilt depv hmem)).mp (hall depv hmem) v hv
  · intro hall depv hmem
    exact (isLexpos_iff (hbuilt depv hmem)).mpr fun v hv => hall v ⟨depv, hmem, hv⟩

/-! ## The new list -/

theorem getD_around {total j : Nat} (hj : j < total) (hi : i < total) (dir : Direction) :
    (replicate i (setDirection .star) ++
      setDirection dir :: replicate (total - (i + 1)) (setDirection .star)).getD j 0
      = if j = i then setDirection dir else setDirection .star := by
  rcases lt_trichotomy j i with hlt | rfl | hgt
  · rw [getD_append _ _ _ _ (by rw [length_replicate]; exact hlt),
      getD_replicate _ hlt, if_neg (by omega)]
  · rw [getD_append_right _ _ _ _ (by rw [length_replicate]), length_replicate,
      Nat.sub_self, if_pos rfl]
    rfl
  · rw [getD_append_right _ _ _ _ (by rw [length_replicate]; omega),
      length_replicate, show j - i = (j - (i + 1)) + 1 by omega, getD_cons_succ,
      getD_replicate _ (by omega), if_neg (by omega)]

theorem vecContains_around {total : Nat} (hi : i < total) (dir : Direction) (v : List Int) :
    VecContains (replicate i (setDirection .star) ++
      setDirection dir :: replicate (total - (i + 1)) (setDirection .star)) v ↔
      v.length = total ∧ dir.Holds (v.getD i 0) := by
  have hlen : (replicate i (setDirection .star) ++
      setDirection dir :: replicate (total - (i + 1)) (setDirection .star)).length = total := by
    simp only [length_append, length_replicate, length_cons]
    omega
  rw [vecContains_iff, hlen, eq_comm]
  refine and_congr_right fun _ => ⟨fun h => ?_, fun h j hj => ?_⟩
  · have hd := h i hi
    rwa [getD_around hi hi, if_pos rfl, contains_setDirection] at hd
  · rw [getD_around hj hi]
    split_ifs with hij
    · rw [contains_setDirection, hij]
      exact h
    · exact (contains_setDirection .star _).mpr trivial

section newList
variable {d u : Nat} {tmp : DEPV}

section

variable (hu : u ≤ d) (htmp : tmp.length = d)
include hu htmp

theorem vecContains_moved (v : List Int) :
    VecContains (replicate u (setDirection .eq) ++ tmp.take (d - u)) v ↔
      v.length = d ∧ (∀ i < u, v.getD i 0 = 0) ∧
        ∀ k < d - u, Contains (tmp.getD k 0) (v.getD (u + k) 0) := by
  have htake : (tmp.take (d - u)).length = d - u := by
    rw [length_take]
    omega
  have hlen : (replicate u (setDirection .eq) ++ tmp.take (d - u)).length = d := by
    rw [length_append, length_replicate, htake]
    omega
  have hfront : ∀ i < u, (replicate u (setDirection .eq) ++ tmp.take (d - u)).getD i 0
      = setDirection .eq := by
    intro i hi
    rw [getD_append _ _ _ _ (by rw [length_replicate]; exact hi), getD_replicate _ hi]
  have hback : ∀ k < d - u, (replicate u (setDirection .eq) ++ tmp.take (d - u)).getD (u + k) 0
      = tmp.getD k 0 := by
    intro k hk
    rw [getD_append_right _ _ _ _ (by rw [length_replicate]; omega),
      length_replicate, Nat.add_sub_cancel_left, getD_eq_getElem _ _ (by omega),
      getD_eq_getElem _ _ (by omega), getElem_take]
  rw [vecContains_iff, hlen, eq_comm]
  refine and_congr_right fun _ => ⟨fun h => ⟨fun i hi => ?_, fun k hk => ?_⟩, fun h j hj => ?_⟩
  · have hc := h i (by omega)
    rwa [hfront i hi, contains_setDirection] at hc
  · have hc := h (u + k) (by omega)
    rwa [hback k hk] at hc
  · rcases lt_or_ge j u with hlt | hge
    · rw [hfront j hlt, contains_setDirection]
      exact h.1 j hlt
    · obtain ⟨k, rfl⟩ := Nat.exists_eq_add_of_le hge
      rw [hback k (by omega)]
      exact h.2 k (by omega)

/-- What the new list covers: a nonzero outer entry, or zeros outside and the collapsed entries
inside. -/
theorem covers_newDepvList (v : List Int) :
    Covers (newDepvList d u tmp) v ↔ v.length = d ∧ ((∃ i < u, v.getD i 0 ≠ 0) ∨
      ∀ k < d - u, Contains (tmp.getD k 0) (v.getD (u + k) 0)) := by
  have htotal : u + (d - u) = d := by omega
  unfold newDepvList appendOuter
  rw [covers_append]
  dsimp only
  rw [htotal]
  constructor
  · rintro (⟨depv, hmem, hv⟩ | ⟨depv, hmem, hv⟩)
    · obtain ⟨i, hi, hmem⟩ := mem_flatMap.mp hmem
      have hi := mem_range.mp hi
      rcases mem_cons.mp hmem with rfl | hmem
      · obtain ⟨hlen, hpos⟩ := (vecContains_around (by omega) .pos v).mp hv
        have hpos : 0 < v.getD i 0 := hpos
        exact ⟨hlen, .inl ⟨i, hi, by omega⟩⟩
      · rw [mem_singleton] at hmem
        rw [hmem] at hv
        obtain ⟨hlen, hneg⟩ := (vecContains_around (by omega) .neg v).mp hv
        have hneg : v.getD i 0 < 0 := hneg
        exact ⟨hlen, .inl ⟨i, hi, by omega⟩⟩
    · rw [mem_singleton] at hmem
      rw [hmem] at hv
      obtain ⟨hlen, -, hk⟩ := (vecContains_moved hu htmp v).mp hv
      exact ⟨hlen, .inr hk⟩
  · rintro ⟨hlen, h⟩
    by_cases hzero : ∃ i < u, v.getD i 0 ≠ 0
    · obtain ⟨i, hi, hne⟩ := hzero
      refine .inl ?_
      rcases lt_or_gt_of_ne hne with hneg | hpos
      · refine ⟨_, mem_flatMap.mpr ⟨i, mem_range.mpr hi, ?_⟩,
          (vecContains_around (by omega) .neg v).mpr ⟨hlen, hneg⟩⟩
        exact mem_cons_of_mem _ mem_cons_self
      · exact ⟨_, mem_flatMap.mpr ⟨i, mem_range.mpr hi, mem_cons_self⟩,
          (vecContains_around (by omega) .pos v).mpr ⟨hlen, hpos⟩⟩
    · have hk := h.resolve_left hzero
      push Not at hzero
      exact .inr (covers_singleton ((vecContains_moved hu htmp v).mpr ⟨hlen, hzero, hk⟩))

theorem newDepvList_wf (hb : VecBuilt tmp) : (∀ depv ∈ newDepvList d u tmp, depv.length = d) ∧
      ∀ depv ∈ newDepvList d u tmp, VecBuilt depv := by
  have hstar : ∀ n, VecBuilt (replicate n (setDirection .star)) := fun n dep hdep =>
    (mem_replicate.mp hdep).2 ▸ Built.setDirection .star
  have haround : ∀ (i : Nat) (dir : Direction), VecBuilt (replicate i (setDirection .star) ++
      setDirection dir :: replicate (u + (d - u) - (i + 1)) (setDirection .star)) := by
    intro i dir dep hdep
    rcases mem_append.mp hdep with h | h
    · exact hstar _ dep h
    · rcases mem_cons.mp h with rfl | h
      · exact Built.setDirection dir
      · exact hstar _ dep h
  have hmoved : VecBuilt (replicate u (setDirection .eq) ++ tmp.take (d - u)) := by
    intro dep hdep
    rcases mem_append.mp hdep with h | h
    · exact (mem_replicate.mp h).2 ▸ Built.setDirection .eq
    · exact hb dep (mem_of_mem_take h)
  unfold newDepvList appendOuter
  constructor
  · intro depv hmem
    rcases mem_append.mp hmem with h | h
    · obtain ⟨i, hi, h⟩ := mem_flatMap.mp h
      have hi := mem_range.mp hi
      simp only [mem_cons, not_mem_nil, or_false] at h
      rcases h with rfl | rfl
      · simp only [length_append, length_replicate, length_cons]
        omega
      · simp only [length_append, length_replicate, length_cons]
        omega
    · rw [mem_singleton.mp h, length_append, length_replicate, length_take]
      omega
  · intro depv hmem
    rcases mem_append.mp hmem with h | h
    · obtain ⟨i, -, h⟩ := mem_flatMap.mp h
      simp only [mem_cons, not_mem_nil, or_false] at h
      rcases h with rfl | rfl
      · exact haround i .pos
      · exact haround i .neg
    · rw [mem_singleton.mp h]
      exact hmoved

end

end newList

/-! ## The parts of the new list -/

theorem Valid.loose {dep : DEP} (hv : Valid dep) (hdir : direction dep = some dir)
    (hpos : dir ≠ .pos) (hneg : dir ≠ .neg) : Loose dep := by
  by_cases hd : isDistance dep = true
  · have hsign := Option.some.inj ((hv hd).symm.trans hdir)
    unfold signDirection at hsign
    split_ifs at hsign
    -- a distance has the direction of its sign
    · exact absurd hsign.symm hpos
    · exact absurd hsign.symm hneg
    · exact loose_of_eq hv (hsign ▸ hdir)
  · exact loose_of_not_distance (Bool.not_eq_true _ ▸ hd)

/-- A positive part contains no vector that the whole did not. -/
theorem split_pos_sub (kp kn : Bool) (hb : VecBuilt depv) :
    ∀ part ∈ (split kp kn depv).pos, ∀ v, VecContains part v → VecContains depv v := by
  induction depv with
  | nil =>
    intro part hmem v hv
    have hnil : part = [] := by
      unfold split at hmem
      cases kp with
      | false => cases hmem
      | true => exact mem_singleton.mp hmem
    rwa [hnil] at hv
  | cons dep deps ih =>
    have hbd := hb dep mem_cons_self
    have ih := ih fun e he => hb e (mem_cons_of_mem _ he)
    -- the parts with a first dimension of their own
    have hhead : ∀ (dir : Direction) (dir' : Direction) (rest : DEPV), direction dep = some dir →
        dir ≠ .pos → dir ≠ .neg → (∀ z, dir'.Holds z → dir.Holds z) →
        (∀ v, VecContains rest v → VecContains deps v) →
        ∀ v, VecContains (setDirection dir' :: rest) v → VecContains (dep :: deps) v := by
      intro dir dir' rest hdir hpos hneg hsub hrest v hv
      obtain ⟨z, w, hz, hw, rfl⟩ := forall₂_cons_left_iff.mp hv
      refine List.Forall₂.cons ((hbd.valid.loose hdir hpos hneg z).mpr ⟨dir, hdir, ?_⟩) (hrest w hw)
      exact hsub z ((contains_setDirection dir' z).mp hz)
    intro part hmem v hv
    unfold split at hmem
    dsimp only at hmem
    split at hmem
    · next hdir =>
      rw [mem_singleton.mp hmem] at hv
      exact hv
    · cases hmem
    · next hdir =>
      rw [mem_singleton.mp hmem] at hv
      exact hhead .posneg .pos deps hdir (by decide) (by decide) (fun z hz => ne_of_gt hz)
        (fun _ h => h) v hv
    · next hdir =>
      rcases mem_append.mp hmem with h | h
      · rw [mem_singleton.mp h] at hv
        exact hhead .poseq .pos deps hdir (by decide) (by decide) (fun z hz => le_of_lt hz)
          (fun _ h => h) v hv
      · obtain ⟨rest, hrest, rfl⟩ := mem_map.mp h
        exact hhead .poseq .eq rest hdir (by decide) (by decide) (fun z hz => le_of_eq hz.symm)
          (ih rest hrest) v hv
    · next hdir =>
      obtain ⟨rest, hrest, rfl⟩ := mem_map.mp hmem
      exact hhead .negeq .eq rest hdir (by decide) (by decide) (fun z hz => le_of_eq hz)
        (ih rest hrest) v hv
    · next hdir =>
      rcases mem_append.mp hmem with h | h
      · rw [mem_singleton.mp h] at hv
        exact hhead .star .pos deps hdir (by decide) (by decide) (fun _ _ => trivial)
          (fun _ h => h) v hv
      · obtain ⟨rest, hrest, rfl⟩ := mem_map.mp h
        exact hhead .star .eq rest hdir (by decide) (by decide) (fun _ _ => trivial)
          (ih rest hrest) v hv
    · obtain ⟨rest, hrest, rfl⟩ := mem_map.mp hmem
      obtain ⟨z, w, hz, hw, rfl⟩ := forall₂_cons_left_iff.mp hv
      exact List.Forall₂.cons hz (ih rest hrest w hw)

section size
variable (kp kn : Bool)

theorem split_pos_length_le (depv : DEPV) : (split kp kn depv).pos.length ≤ depv.length + 1:= by
  induction depv with
  | nil =>
    cases kp with
    | false => exact Nat.zero_le _
    | true => exact le_refl 1
  | cons dep deps ih =>
    unfold split
    dsimp only
    split
    all_goals
      simp only [length_append, length_map, length_cons, length_nil]
      omega

theorem split_stars_length (rest : DEPV) (i : Nat) :
    (split kp kn (replicate i (setDirection .star) ++ rest)).pos.length
      = i + (split kp kn rest).pos.length := by
  induction i with
  | zero =>
    rw [replicate_zero, nil_append, Nat.zero_add]
  | succ i ih =>
    rw [replicate_succ, cons_append, split]
    simp only [direction_setDirection_star, length_append, length_map, ih,
      length_singleton]
    omega

theorem split_equals_length (rest : DEPV) (i : Nat) :
    (split kp kn (replicate i (setDirection .eq) ++ rest)).pos.length
      = (split kp kn rest).pos.length := by
  have heq : direction (setDirection .eq) = some .eq := by decide
  induction i with
  | zero => rw [replicate_zero, nil_append]
  | succ i ih =>
    rw [replicate_succ, cons_append, split]
    simp only [heq, nil_append, length_map, ih]

theorem split_pos_cons_length (rest : DEPV) :
    (split kp kn (setDirection .pos :: rest)).pos.length = 1 := by
  have hpos : direction (setDirection .pos) = some .pos := by decide
  rw [split]
  simp only [hpos, length_singleton]

theorem split_neg_cons_length (rest : DEPV) :
    (split kp kn (setDirection .neg :: rest)).pos.length = 0 := by
  have hneg : direction (setDirection .neg) = some .neg := by decide
  rw [split]
  simp only [hneg, length_nil]

theorem around_parts_length (total n : Nat) : (((range n).flatMap fun i =>
      [replicate i (setDirection .star) ++
          setDirection .pos :: replicate (total - (i + 1)) (setDirection .star),
        replicate i (setDirection .star) ++
          setDirection .neg :: replicate (total - (i + 1)) (setDirection .star)]).flatMap
      fun depv => (split kp kn depv).pos).length = n * n := by
  induction n with
  | zero => rfl
  | succ n ih =>
    rw [range_succ, flatMap_append, flatMap_append, length_append, ih]
    simp only [flatMap_cons, flatMap_nil, append_nil, length_append,
      split_stars_length, split_pos_cons_length, split_neg_cons_length]
    ring

theorem newDepvList_parts_length {d u : Nat} {tmp : DEPV} (hu : u ≤ d) (hd : d ≤ 15) :
    ((newDepvList d u tmp).flatMap fun depv => (split kp kn depv).pos).length ≤ 255 := by
  have hmoved := split_pos_length_le kp kn (tmp.take (d - u))
  have htake := length_take_le (d - u) tmp
  have hsq : u * u ≤ 15 * u := Nat.mul_le_mul_right u (by omega)
  unfold newDepvList appendOuter
  dsimp only
  rw [flatMap_append, length_append, around_parts_length, flatMap_singleton,
    split_equals_length]
  omega

theorem newDepvList_length {d u : Nat} (tmp : DEPV) : (newDepvList d u tmp).length = 2 * u + 1 := by
  unfold newDepvList appendOuter
  dsimp only
  rw [length_append, length_flatMap]
  simp only [length_cons, length_nil, map_const', sum_replicate,
    length_range, nsmul_eq_mul, Nat.cast_id]
  omega

end size

/-! ## The array -/

/-- What the list has behind the unused dimensions is in the union, as many dimensions before. -/
def MovedKept (l : DepvList) : Prop :=
  ∀ depv ∈ l.nodes, (∀ i < l.numUnusedDim, Contains (depv.getD i 0) 0) →
    ∀ k < l.numDim - l.numUnusedDim, ∀ z, Contains (depv.getD (l.numUnusedDim + k) 0) z →
      ∃ depv' ∈ l.nodes, DirHolds (depv'.getD k 0) z

/-- The array is small enough, conservative, and lexicographically positive if the list is. -/
structure Conservative (nodes arr : List DEPV) : Prop where
  small : arr.length ≤ 255
  covers : ∀ v, Covers nodes v → Covers arr v
  positive : ∀ keep, AllPositive keep nodes → AllPositive keep arr

section collapsed
variable {l : DepvList}

section

variable (hne : l.nodes ≠ []) (hu : l.numUnusedDim ≤ l.numDim)
include hne hu

/-- Which lists lose nothing when their outer dimensions are moved. -/
theorem covers_new_iff : (∀ v, Covers l.nodes v →
      Covers (newDepvList l.numDim l.numUnusedDim (collapse l.numDim l.nodes)) v) ↔ MovedKept l:= by
  obtain ⟨htmp, -, hcontains⟩ := collapse_spec hne l.length_eq l.built
  simp only [covers_newDepvList hu htmp]
  constructor
  · intro hall depv hmem hzero k hk z hz
    have hlen := l.length_eq depv hmem
    -- a distance vector with zeros in front and `z` in its place
    have hex : ∀ j, ∃ y, j < l.numDim → Contains (depv.getD j 0) y ∧
        (j < l.numUnusedDim → y = 0) ∧ (j = l.numUnusedDim + k → y = z) := by
      intro j
      rcases lt_trichotomy j (l.numUnusedDim + k) with hlt | heq | hgt
      · by_cases hj : j < l.numUnusedDim
        · exact ⟨0, fun _ => ⟨hzero j hj, fun _ => rfl, fun h => by omega⟩⟩
        · by_cases hd : j < l.numDim
          · obtain ⟨y, hy⟩ := (Built.getD (l.built depv hmem) (k := j) (by omega)).nonempty
            exact ⟨y, fun _ => ⟨hy, fun h => by omega, fun h => by omega⟩⟩
          · exact ⟨0, fun h => by omega⟩
      · exact ⟨z, fun _ => ⟨heq ▸ hz, fun h => by omega, fun _ => rfl⟩⟩
      · by_cases hd : j < l.numDim
        · obtain ⟨y, hy⟩ := (Built.getD (l.built depv hmem) (k := j) (by omega)).nonempty
          exact ⟨y, fun _ => ⟨hy, fun h => by omega, fun h => by omega⟩⟩
        · exact ⟨0, fun h => by omega⟩
    choose f hf using hex
    have hget : ∀ j < l.numDim, ((range l.numDim).map f).getD j 0 = f j := by
      intro j hj
      rw [getD_eq_getElem _ _ (by rw [length_map, length_range]; exact hj),
        getElem_map, getElem_range]
    have hv : VecContains depv ((range l.numDim).map f) := by
      rw [vecContains_iff, hlen]
      refine ⟨by rw [length_map, length_range], fun j hj => ?_⟩
      rw [hget j hj]
      exact (hf j hj).1
    obtain ⟨-, ⟨i, hi, hne0⟩ | hk'⟩ := hall _ ⟨depv, hmem, hv⟩
    · rw [hget i (by omega)] at hne0
      exact absurd ((hf i (by omega)).2.1 hi) hne0
    · have hc := hk' k hk
      rw [hget _ (by omega), (hf _ (by omega)).2.2 rfl] at hc
      exact (hcontains k (by omega) z).mp hc
  · rintro hkept v ⟨depv, hmem, hv⟩
    have hlen := l.length_eq depv hmem
    obtain ⟨hlen', hc⟩ := vecContains_iff.mp hv
    refine ⟨by omega, ?_⟩
    by_cases hzero : ∃ i < l.numUnusedDim, v.getD i 0 ≠ 0
    · exact .inl hzero
    · push Not at hzero
      refine .inr fun k hk => (hcontains k (by omega) _).mpr ?_
      refine hkept depv hmem (fun i hi => ?_) k hk _ (hc _ (by omega))
      have hci := hc i (by omega)
      rwa [hzero i hi] at hci

theorem covers_collapsed_sub (h : Covers (collapsed l) v) :
    Covers (newDepvList l.numDim l.numUnusedDim (collapse l.numDim l.nodes)) v := by
  obtain ⟨htmp, hb, -⟩ := collapse_spec hne l.length_eq l.built
  obtain ⟨hdim, hbuilt⟩ := newDepvList_wf hu htmp hb
  unfold collapsed at h
  dsimp only at h
  split at h
  · rw [lexPosDecompose_eq _ _ _ _ hdim] at h
    obtain ⟨part, hpart, hv⟩ := h
    rw [nil_append] at hpart
    obtain ⟨depv, hmem, hpart⟩ := mem_flatMap.mp hpart
    exact ⟨depv, hmem, split_pos_sub _ _ (hbuilt depv hmem) part hpart v hv⟩
  · exact h

theorem collapsed_length (hd : l.numDim ≤ 15) : (collapsed l).length ≤ 255 := by
  obtain ⟨htmp, hb, -⟩ := collapse_spec hne l.length_eq l.built
  obtain ⟨hdim, -⟩ := newDepvList_wf hu htmp hb
  unfold collapsed
  dsimp only
  split
  · rw [lexPosDecompose_eq _ _ _ _ hdim, nil_append]
    exact newDepvList_parts_length _ _ hu hd
  · rw [newDepvList_length]
    omega

theorem collapsed_conservative (hkept : MovedKept l) :
    (∀ v, Covers l.nodes v → Covers (collapsed l) v) ∧
      ∀ keep, AllPositive keep l.nodes → AllPositive keep (collapsed l) := by
  obtain ⟨htmp, hb, -⟩ := collapse_spec hne l.length_eq l.built
  obtain ⟨hdim, hbuilt⟩ := newDepvList_wf hu htmp hb
  have hnew := (covers_new_iff hne hu).mpr hkept
  unfold collapsed
  dsimp only
  by_cases hpos : l.nodes.all isLexpos = true
  · rw [if_pos hpos]
    have hlex := (all_isLexpos_iff l.built).mp hpos
    have hequals := containsAllEquals_iff l.built
    generalize containsAllEquals l.nodes = kp at hequals ⊢
    obtain ⟨hposAll, hnegAll⟩ := @parts_positive kp false _ hbuilt
    rw [lexPosDecompose_eq _ _ _ _ hdim, nil_append]
    refine ⟨fun v hv => ?_, fun keep hkeep => ?_⟩
    · have hzero : AllZero v → kp = true ∨ false = true := fun hzero =>
        .inl (hequals.mpr ⟨v, hv, hzero⟩)
      rcases parts_cover hbuilt (hnew v hv) hzero with h | h
      · exact h
      · -- the negative part has no vector that is positive or zero
        obtain ⟨part, hpart, hc⟩ := h
        rcases hnegAll part hpart _ hc with hneg | ⟨hf, -⟩
        · exact absurd hneg (lexPos_negated (hlex v hv))
        · exact absurd hf Bool.false_ne_true
    · cases keep with
      | true =>
        intro depv hmem v hv
        exact (hposAll depv hmem v hv).imp_right fun h => ⟨rfl, h.2⟩
      | false =>
        -- without zero in the list none is kept
        have hkp : kp = false := by
          by_contra hne'
          obtain ⟨v, ⟨depv, hmem, hv⟩, hzero⟩ := hequals.mp (Bool.not_eq_false _ ▸ hne')
          rcases hkeep depv hmem v hv with h | ⟨hf, -⟩
          · exact not_lexPos_of_allZero hzero h
          · exact absurd hf Bool.false_ne_true
        subst hkp
        exact hposAll
  · -- a list that the test turns down has a vector that is not positive
    rw [if_neg hpos]
    refine ⟨hnew, fun keep hkeep => absurd ?_ hpos⟩
    rw [all_isLexpos_iff l.built]
    rintro v ⟨depv, hmem, hv⟩
    exact (hkeep depv hmem v hv).imp_right And.right

end

end collapsed

theorem fillArray_eq_iff {d u : Nat} {vecs : List DEPV} :
    fillArray d u vecs = .array arr ↔ vecs ≠ [] ∧ d ≤ 15 ∧ u ≤ 15 ∧ arr = vecs := by
  unfold fillArray
  split_ifs with h1 h2 h3
  · simp [h1]
  · simp only [false_iff]
    omega
  · simp only [false_iff]
    omega
  · rw [Created.array.injEq, eq_comm]
    constructor
    · exact fun h => ⟨h1, by omega, by omega, h⟩
    · exact fun h => h.2.2.2

theorem createDepvArray_long {l : DepvList} (hlong : l.nodes.length > 255)
    (h : createDepvArray l = .array arr) :
    l.numUnusedDim ≤ l.numDim ∧ l.numDim ≤ 15 ∧ l.numUnusedDim ≤ 15 ∧ arr = collapsed l := by
  unfold createDepvArray at h
  rw [if_pos hlong] at h
  split_ifs at h with hu hlen
  obtain ⟨-, hd, hu', rfl⟩ := fillArray_eq_iff.mp h
  exact ⟨by omega, hd, hu', rfl⟩

/-- Where the array is conservative: the list is short, or it had the moved vector's distances. -/
structure CollapseKept (l : DepvList) : Prop where
  nonempty : l.nodes ≠ []
  dims : l.numDim ≤ 15
  unused : l.numUnusedDim ≤ 15
  kept : l.nodes.length ≤ 255 ∨ (l.numUnusedDim ≤ l.numDim ∧ MovedKept l)

/-- **Collapsing dependence vectors**: the code ends with a conservative array just for these lists.
-/
theorem createDepvArray_conservative_iff (l : DepvList) :
    (∃ arr, createDepvArray l = .array arr ∧ Conservative l.nodes arr) ↔ CollapseKept l := by
  by_cases hlong : l.nodes.length > 255
  · have hne : l.nodes ≠ [] := by
      intro h
      rw [h, length_nil] at hlong
      omega
    constructor
    · rintro ⟨arr, harr, hcons⟩
      obtain ⟨hu, hd, hu', rfl⟩ := createDepvArray_long hlong harr
      exact ⟨hne, hd, hu', .inr ⟨hu, (covers_new_iff hne hu).mp fun v hv =>
        covers_collapsed_sub hne hu (hcons.covers v hv)⟩⟩
    · rintro ⟨-, hd, hu', hkept⟩
      obtain ⟨hu, hmoved⟩ := hkept.resolve_left (by omega)
      obtain ⟨hcovers, hpositive⟩ := collapsed_conservative hne hu hmoved
      have hlen := collapsed_length hne hu hd
      unfold createDepvArray
      rw [if_pos hlong, if_neg (by omega), if_neg (by omega)]
      refine ⟨collapsed l, fillArray_eq_iff.mpr ⟨?_, hd, hu', rfl⟩, hlen, hcovers, hpositive⟩
      -- the list stands for some vector, so the array is not empty
      intro hnil
      obtain ⟨depv, hmem⟩ := exists_mem_of_ne_nil _ hne
      obtain ⟨v, hv⟩ := (l.built depv hmem).nonempty
      obtain ⟨part, hpart, -⟩ := hcovers v ⟨depv, hmem, hv⟩
      rw [hnil] at hpart
      cases hpart
  · unfold createDepvArray
    rw [if_neg hlong]
    constructor
    · rintro ⟨arr, harr, -⟩
      obtain ⟨hne, hd, hu, -⟩ := fillArray_eq_iff.mp harr
      exact ⟨hne, hd, hu, .inl (by omega)⟩
    · rintro ⟨hne, hd, hu, -⟩
      exact ⟨l.nodes, fillArray_eq_iff.mpr ⟨hne, hd, hu, rfl⟩, by omega, fun _ h => h,
        fun _ h => h⟩

/-- 256 times the vector `(=, +)`, behind one unused dimension. -/
def equalThenPositive : DepvList where
  numDim := 2
  numUnusedDim := 1
  nodes := replicate 256 [setDirection .eq, setDirection .pos]
  length_eq := fun depv hmem => (mem_replicate.mp hmem).2 ▸ rfl
  built := fun depv hmem dep hdep => by
    rw [(mem_replicate.mp hmem).2] at hdep
    rcases mem_cons.mp hdep with rfl | hdep
    · exact Built.setDirection .eq
    · rw [mem_singleton.mp hdep]
      exact Built.setDirection .pos

/-- The array for it is `(+, *)` alone: the vector `(=, +)` is lost. -/
theorem createDepvArray_loses :
    ¬ ∀ l : DepvList, l.nodes ≠ [] → l.numDim ≤ 15 → l.numUnusedDim ≤ 15 →
      ∃ arr, createDepvArray l = .array arr ∧ Conservative l.nodes arr := by
  intro hall
  have hmem : [setDirection .eq, setDirection .pos] ∈ equalThenPositive.nodes :=
    mem_replicate.mpr ⟨Nat.succ_ne_zero 255, rfl⟩
  have hlen : equalThenPositive.nodes.length = 256 := length_replicate
  have hlong : equalThenPositive.nodes.length > 255 := by omega
  have hne : equalThenPositive.nodes ≠ [] := ne_nil_of_mem hmem
  obtain ⟨arr, harr, hcons⟩ := hall equalThenPositive hne (by decide) (by decide)
  obtain ⟨hu, -, -, harr⟩ := createDepvArray_long hlong harr
  have hkept := (covers_new_iff hne hu).mp fun v hv =>
    covers_collapsed_sub hne hu (harr ▸ hcons.covers v hv)
  have hzero : ∀ i < equalThenPositive.numUnusedDim,
      Contains ([setDirection .eq, setDirection .pos].getD i 0) 0 := by
    intro i hi
    have hi0 : i = 0 := Nat.lt_one_iff.mp hi
    rw [hi0]
    exact (contains_setDirection .eq 0).mpr rfl
  obtain ⟨depv, hdepv, dir, hdir, hone⟩ := hkept _ hmem hzero 0 (by decide) 1
    ((contains_setDirection .pos 1).mpr Int.one_pos)
  rw [(mem_replicate.mp hdepv).2] at hdir
  have heq : dir = .eq := (Option.some.inj (hdir.symm.trans (by decide)))
  rw [heq] at hone
  exact absurd hone Int.one_ne_zero

end Dep
