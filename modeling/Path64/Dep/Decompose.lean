import Path64.Dep.Encoding

/-! # The lexicographic decomposition of dependence vectors

`DEPV_LIST::Lex_Pos_Decompose` splits every vector of a list into
lexicographically positive vectors and the negations of lexicographically
negative ones. The code works in place: it overwrites the dimension at
which it splits, copies the vector, and puts the dimension back. -/

namespace Dep

open List

/-! ## The code -/

/-- `DEPV`: the dimensions of a dependence vector. -/
abbrev DEPV := List DEP

/-- The lists `pos` and `neg` of a decomposition. -/
structure Decomposition where
  pos : List DEPV
  neg : List DEPV

/-- `pos->Append` of a copy. -/
def Decomposition.appendPos (out : Decomposition) (depv : DEPV) : Decomposition :=
  { out with pos := out.pos ++ [depv] }

/-- `neg->Append` of a copy. -/
def Decomposition.appendNeg (out : Decomposition) (depv : DEPV) : Decomposition :=
  { out with neg := out.neg ++ [depv] }

/-- The loop that sets the dimensions of `n` from `first` on to the negated ones of `depv`. -/
def negateFrom (dvDim first : Nat) (depv n : DEPV) : DEPV :=
  (range' first (dvDim - first)).foldl (fun n i => n.set i (negate (depv.getD i 0))) n

/-- `DEPV_NODE::Lex_Pos_Decompose`: the vector as left, and the lists. -/
def nodeDecompose (dvDim : Nat) (keepPosEquals keepNegEquals : Bool) :
    Nat → Nat → DEPV → Decomposition → DEPV × Decomposition
  | 0, _, depv, out =>
    let out := if keepPosEquals then out.appendPos depv else out
    let out := if keepNegEquals then out.appendNeg depv else out
    (depv, out)
  | remaining + 1, firstDim, depv, out =>
    let orig := depv.getD firstDim 0
    let recurse := nodeDecompose dvDim keepPosEquals keepNegEquals remaining (firstDim + 1)
    let (depv, out) :=
      match direction orig with
      | some .pos => (depv, out.appendPos depv)
      | some .neg => (depv, out.appendNeg (negateFrom dvDim firstDim depv depv))
      | some .posneg =>
        let depv := depv.set firstDim (setDirection .pos)
        let n := depv.set firstDim (setDirection .pos)
        (depv, (out.appendPos depv).appendNeg (negateFrom dvDim (firstDim + 1) depv n))
      | some .poseq =>
        let depv := depv.set firstDim (setDirection .pos)
        recurse (depv.set firstDim (setDirection .eq)) (out.appendPos depv)
      | some .negeq =>
        let n := depv.set firstDim (setDirection .pos)
        recurse (depv.set firstDim (setDirection .eq))
          (out.appendNeg (negateFrom dvDim (firstDim + 1) depv n))
      | some .star =>
        let depv := depv.set firstDim (setDirection .pos)
        recurse (depv.set firstDim (setDirection .eq))
          ((out.appendPos depv).appendNeg (negateFrom dvDim (firstDim + 1) depv depv))
      | _ => recurse depv out
    (depv.set firstDim orig, out)

section
-- derives the equations
attribute [local simp] nodeDecompose
end

/-- `DEPV_LIST::Lex_Pos_Decompose`: the nodes of the list as they are left, and the lists. -/
def lexPosDecompose (dvDim : Nat) (keepPosEquals keepNegEquals : Bool) :
    List DEPV → Decomposition → List DEPV × Decomposition
  | [], out => ([], out)
  | depv :: nodes, out =>
    let (depv, out) := nodeDecompose dvDim keepPosEquals keepNegEquals dvDim 0 depv out
    let (nodes, out) := lexPosDecompose dvDim keepPosEquals keepNegEquals nodes out
    (depv :: nodes, out)

/-! ## The decomposition by recursion -/

/-- The decomposition of the dimensions of one vector. -/
def split (keepPosEquals keepNegEquals : Bool) : DEPV → Decomposition
  | [] => ⟨if keepPosEquals then [[]] else [], if keepNegEquals then [[]] else []⟩
  | dep :: deps =>
    let rest := split keepPosEquals keepNegEquals deps
    let carried := fun (d : DEP) (pos neg : List DEPV) =>
      (⟨pos ++ rest.pos.map (d :: ·), neg ++ rest.neg.map (d :: ·)⟩ : Decomposition)
    let plus := setDirection .pos
    match direction dep with
    | some .pos => ⟨[dep :: deps], []⟩
    | some .neg => ⟨[], [negate dep :: deps.map negate]⟩
    | some .posneg => ⟨[plus :: deps], [plus :: deps.map negate]⟩
    | some .poseq => carried (setDirection .eq) [plus :: deps] []
    | some .negeq => carried (setDirection .eq) [] [plus :: deps.map negate]
    | some .star => carried (setDirection .eq) [plus :: deps] [plus :: deps.map negate]
    | _ => carried dep [] []

theorem set_append_length {α : Type*} (pre : List α) (x y : α) (l : List α) :
    (pre ++ x :: l).set pre.length y = pre ++ y :: l := by
  rw [set_append_right _ _ (le_refl _), Nat.sub_self]
  rfl

theorem getD_append_length (pre : DEPV) (x : DEP) (l : DEPV) :
    (pre ++ x :: l).getD pre.length 0 = x := by
  simp

theorem negateFrom_append (tail : DEPV) : ∀ (pre pre' n : DEPV), pre'.length = pre.length →
    n.length = tail.length →
    negateFrom (pre.length + tail.length) pre.length (pre ++ tail) (pre' ++ n) =
      pre' ++ tail.map negate := by
  induction tail with
  | nil =>
    intro pre pre' n _ hn
    rw [length_eq_zero_iff.mp hn]
    simp [negateFrom]
  | cons dep deps ih =>
    intro pre pre' n hpre hn
    obtain ⟨e, es, rfl⟩ := exists_cons_of_length_eq_add_one hn
    have hstep := ih (pre ++ [dep]) (pre' ++ [negate dep]) es (by simp [hpre])
      (Nat.succ.inj hn)
    unfold negateFrom at hstep ⊢
    have hlen : pre.length + (dep :: deps).length - pre.length =
        ((pre ++ [dep]).length + deps.length - (pre ++ [dep]).length) + 1 := by
      simp only [length_cons, length_append, length_nil]
      omega
    rw [hlen, range'_succ, foldl_cons, getD_append_length, ← hpre, set_append_length,
      hpre]
    simpa using hstep

/-- The recursion over the dimensions writes the parts of `split` and restores the vector it works
on. -/
theorem nodeDecompose_eq (kp kn : Bool) (tail : DEPV) : ∀ (pre : DEPV) (out : Decomposition),
      nodeDecompose (pre.length + tail.length) kp kn tail.length pre.length (pre ++ tail) out =
        (pre ++ tail, ⟨out.pos ++ (split kp kn tail).pos.map (pre ++ ·),
            out.neg ++ (split kp kn tail).neg.map (pre ++ ·)⟩) := by
  induction tail with
  | nil =>
    intro pre out
    cases kp <;> cases kn <;>
      simp [nodeDecompose, split, Decomposition.appendPos, Decomposition.appendNeg]
  | cons dep deps ih =>
    intro pre out
    -- the recursive call on the same vector with the split dimension replaced
    have hrec : ∀ (d : DEP) (out : Decomposition),
        nodeDecompose (pre.length + (deps.length + 1)) kp kn deps.length (pre.length + 1)
          (pre ++ d :: deps) out =
        (pre ++ d :: deps,
          ⟨out.pos ++ (split kp kn deps).pos.map (pre ++ d :: ·),
            out.neg ++ (split kp kn deps).neg.map (pre ++ d :: ·)⟩) := by
      intro d out
      have h := ih (pre ++ [d]) out
      simp only [length_append, length_cons, length_nil, append_assoc,
        cons_append, nil_append, Nat.zero_add, Nat.add_assoc] at h ⊢
      rwa [Nat.add_comm deps.length 1]
    have hneg : ∀ (d e : DEP),
        negateFrom (pre.length + (deps.length + 1)) (pre.length + 1) (pre ++ d :: deps)
          (pre ++ e :: deps) = pre ++ e :: deps.map negate := by
      intro d e
      have h := negateFrom_append deps (pre ++ [d]) (pre ++ [e]) deps (by simp) rfl
      simp only [length_append, length_cons, length_nil, append_assoc,
        cons_append, nil_append, Nat.zero_add, Nat.add_assoc] at h ⊢
      rwa [Nat.add_comm deps.length 1]
    have hneg0 := negateFrom_append (dep :: deps) pre pre (dep :: deps) rfl rfl
    rw [length_cons] at hneg0
    rw [length_cons, nodeDecompose, getD_append_length]
    unfold split
    have hdirs : direction dep = none ∨ ∃ dir, direction dep = some dir := by
      cases direction dep with
      | none => exact .inl rfl
      | some dir => exact .inr ⟨dir, rfl⟩
    rcases hdirs with hdir | ⟨dir, hdir⟩
    · simp [hdir, hrec, Function.comp_def]
    · cases dir <;>
        simp [hdir, hrec, hneg, hneg0, Decomposition.appendPos, Decomposition.appendNeg,
          Function.comp_def]

/-! ## Vectors of distances -/

/-- The distance vectors that a dependence vector stands for. -/
def VecContains (depv : DEPV) (v : List Int) : Prop := List.Forall₂ Contains depv v

/-- Lexicographically positive. -/
def LexPos : List Int → Prop
  | [] => False
  | z :: v => 0 < z ∨ (z = 0 ∧ LexPos v)

/-- The all-zero vector. -/
def AllZero (v : List Int) : Prop := ∀ z ∈ v, z = 0

/-- Every dimension is a dependence that the operations build. -/
def VecBuilt (depv : DEPV) : Prop := ∀ dep ∈ depv, Built dep

variable {depv : DEPV} {v : List Int} {z : Int} {l1 l2 l : List DEPV}

theorem vecContains_negate (h : VecContains depv v) :
    VecContains (depv.map negate) (v.map fun z => -z) := by
  unfold VecContains at h ⊢
  rw [forall₂_map_left_iff, forall₂_map_right_iff]
  exact h.imp fun _ _ hz => contains_negate hz

theorem Valid.holds {dep : DEP} {dir : Direction} (hv : Valid dep)
    (hdir : direction dep = some dir) (hz : Contains dep z) : dir.Holds z := by
  obtain ⟨dir', hdir', hholds⟩ := hv.direction_holds hz
  rw [hdir] at hdir'
  cases hdir'
  exact hholds

theorem Valid.zero {dep : DEP} (hv : Valid dep) (hz : Contains dep z)
    (hdir : direction dep = some .eq ∨ direction dep = none) : z = 0 := by
  obtain ⟨dir, hdir', hholds⟩ := hv.direction_holds hz
  rcases hdir with hdir | hdir
  · rw [hdir] at hdir'
    cases hdir'
    exact hholds
  · rw [hdir] at hdir'
    cases hdir'

theorem Valid.negate_pos {dep : DEP} (hv : Valid dep) (hdir : direction dep = some .neg)
    (hz : Contains (Dep.negate dep) z) : 0 < z := by
  unfold Dep.negate at hz
  split_ifs at hz with hd
  · have hneg : distance dep < 0 := hv.holds hdir (by
      unfold Contains
      rw [if_pos hd])
    have hrange := distance_range dep
    by_cases hmin : distance dep = -2048
    · rw [hmin, setDistance_far (by decide), contains_setDir .pos (by decide) (by decide)] at hz
      exact hz
    · rw [contains_setDistance (by omega) (by omega)] at hz
      omega
  · rw [hdir] at hz
    exact (contains_setDir .pos (by decide) (by decide) z).mp hz

/-! ## No dependence is lost -/

/-- One of the vectors stands for `v`. -/
def Covers (list : List DEPV) (v : List Int) : Prop := ∃ depv ∈ list, VecContains depv v

/-- The lists `pos` and `neg` cover `v`: itself, or negated. -/
def Decomposition.Covers (out : Decomposition) (v : List Int) : Prop :=
  Dep.Covers out.pos v ∨ Dep.Covers out.neg (v.map fun z => -z)

theorem covers_append : Covers (l1 ++ l2) v ↔ Covers l1 v ∨ Covers l2 v := by
  simp only [Covers, mem_append, or_and_right, exists_or]

theorem covers_cons {dep : DEP} (hz : Contains dep z)
    (h : Covers l v) : Covers (l.map (dep :: ·)) (z :: v) := by
  obtain ⟨depv, hmem, hv⟩ := h
  exact ⟨dep :: depv, mem_map_of_mem hmem, List.Forall₂.cons hz hv⟩

theorem covers_singleton (h : VecContains depv v) :
    Covers [depv] v := ⟨depv, mem_singleton.mpr rfl, h⟩

/-- Each vector contained is in a positive part, or its negation is in a negative one; zero goes
where it is kept. -/
theorem split_covers (kp kn : Bool) (hb : VecBuilt depv)
    (hv : VecContains depv v) (hzero : AllZero v → kp = true ∨ kn = true) :
    (split kp kn depv).Covers v := by
  induction hv with
  | nil =>
    rcases hzero (by simp [AllZero]) with h | h
    · exact .inl (by rw [split, h]; exact covers_singleton List.Forall₂.nil)
    · exact .inr (by rw [split, h]; exact covers_singleton List.Forall₂.nil)
  | @cons dep z deps zs hz hzs ih =>
    have hvalid : Valid dep := (hb dep mem_cons_self).valid
    have hdeps : VecBuilt deps := fun d hd => hb d (mem_cons_of_mem _ hd)
    have plus : ∀ {y : Int}, 0 < y → Contains (setDirection .pos) y := fun hy =>
      (contains_setDirection .pos _).mpr hy
    -- the vector itself, with a positive first dimension
    have positive : 0 < z → Covers [setDirection .pos :: deps] (z :: zs) := fun h =>
      covers_singleton (List.Forall₂.cons (plus h) hzs)
    -- its negation, with a positive first dimension
    have negative : z < 0 →
        Covers [setDirection .pos :: deps.map negate] ((z :: zs).map fun y => -y) := fun h =>
      covers_singleton (List.Forall₂.cons (plus (Int.neg_pos_of_neg h)) (vecContains_negate hzs))
    -- the equal part, carried by a later dimension
    have equal : ∀ {d : DEP}, z = 0 → Contains d 0 → ∀ pos neg,
        (⟨pos ++ (split kp kn deps).pos.map (d :: ·), neg ++ (split kp kn deps).neg.map (d :: ·)⟩ :
          Decomposition).Covers (z :: zs) := by
      intro d hz0 hd pos neg
      have hrest := ih hdeps fun h => hzero (by
        intro y hy
        rcases mem_cons.mp hy with rfl | hy
        · exact hz0
        · exact h y hy)
      rcases hrest with h | h
      · exact .inl (covers_append.mpr (.inr (covers_cons (by rw [hz0]; exact hd) h)))
      · refine .inr (covers_append.mpr (.inr ?_))
        exact covers_cons (by rw [hz0]; exact hd) h
    have heq : Contains (setDirection .eq) 0 := (contains_setDirection .eq 0).mpr rfl
    unfold split
    cases hdir : direction dep with
    | none =>
      have h0 := hvalid.zero hz (.inr hdir)
      exact equal h0 (h0 ▸ hz) [] []
    | some dir =>
      have hholds := hvalid.holds hdir hz
      cases dir with
      | pos => exact .inl (covers_singleton (List.Forall₂.cons hz hzs))
      | neg =>
        exact .inr (covers_singleton (List.Forall₂.cons (contains_negate hz)
          (vecContains_negate hzs)))
      | eq =>
        have h0 : z = 0 := hholds
        exact equal h0 (h0 ▸ hz) [] []
      | posneg =>
        rcases lt_or_gt_of_ne hholds with h | h
        · exact .inr (negative h)
        · exact .inl (positive h)
      | poseq =>
        rcases eq_or_lt_of_le (show 0 ≤ z from hholds) with h | h
        · exact equal h.symm heq _ _
        · exact .inl (covers_append.mpr (.inl (positive h)))
      | negeq =>
        rcases eq_or_lt_of_le (show z ≤ 0 from hholds) with h | h
        · exact equal h heq _ _
        · exact .inr (covers_append.mpr (.inl (negative h)))
      | star =>
        rcases lt_trichotomy z 0 with h | h | h
        · exact .inr (covers_append.mpr (.inl (negative h)))
        · exact equal h heq _ _
        · exact .inl (covers_append.mpr (.inl (positive h)))

/-! ## Every part is lexicographically positive -/

/-- Every distance vector is lexicographically positive, or zero where zero is kept. -/
def AllPositive (keepEquals : Bool) (list : List DEPV) : Prop :=
  ∀ depv ∈ list, ∀ v, VecContains depv v → LexPos v ∨ (keepEquals = true ∧ AllZero v)

theorem allPositive_append {keep : Bool} (h1 : AllPositive keep l1)
    (h2 : AllPositive keep l2) : AllPositive keep (l1 ++ l2) := by
  intro depv hmem
  rcases mem_append.mp hmem with h | h
  · exact h1 depv h
  · exact h2 depv h

theorem allPositive_nil (keep : Bool) : AllPositive keep [] := by
  intro depv hmem
  cases hmem

theorem allPositive_first {keep : Bool} {dep : DEP} {deps : DEPV}
    (h : ∀ z, Contains dep z → 0 < z) : AllPositive keep [dep :: deps] := by
  intro depv hmem v hv
  rw [mem_singleton.mp hmem] at hv
  obtain ⟨z, zs, hz, -, rfl⟩ := forall₂_cons_left_iff.mp hv
  exact .inl (.inl (h z hz))

theorem allPositive_carried {keep : Bool} {dep : DEP}
    (h : ∀ z, Contains dep z → z = 0) (hl : AllPositive keep l) :
    AllPositive keep (l.map (dep :: ·)) := by
  intro depv hmem v hv
  obtain ⟨deps, hdeps, rfl⟩ := mem_map.mp hmem
  obtain ⟨z, zs, hz, hzs, rfl⟩ := forall₂_cons_left_iff.mp hv
  rcases hl deps hdeps zs hzs with hpos | ⟨hk, hzero⟩
  · exact .inl (.inr ⟨h z hz, hpos⟩)
  · refine .inr ⟨hk, fun y hy => ?_⟩
    rcases mem_cons.mp hy with rfl | hy
    · exact h y hz
    · exact hzero y hy

theorem allPositive_kept (keep : Bool) : AllPositive keep (if keep then [[]] else []) := by
  cases keep with
  | false => exact allPositive_nil _
  | true =>
    intro depv hmem v hv
    rw [if_pos rfl, mem_singleton] at hmem
    rw [hmem] at hv
    cases hv
    exact .inr ⟨rfl, by simp [AllZero]⟩

theorem split_positive (kp kn : Bool) (hb : VecBuilt depv) :
    AllPositive kp (split kp kn depv).pos ∧ AllPositive kn (split kp kn depv).neg := by
  induction depv with
  | nil => exact ⟨allPositive_kept kp, allPositive_kept kn⟩
  | cons dep deps ih =>
    have hvalid : Valid dep := (hb dep mem_cons_self).valid
    obtain ⟨ihp, ihn⟩ := ih fun d hd => hb d (mem_cons_of_mem _ hd)
    have plus : ∀ z, Contains (setDirection .pos) z → 0 < z := fun z hz =>
      (contains_setDirection .pos z).mp hz
    have zero : ∀ z, Contains (setDirection .eq) z → z = 0 := fun z hz =>
      (contains_setDirection .eq z).mp hz
    unfold split
    cases hdir : direction dep with
    | none =>
      have h0 : ∀ z, Contains dep z → z = 0 := fun z hz => hvalid.zero hz (.inr hdir)
      exact ⟨allPositive_carried h0 ihp, allPositive_carried h0 ihn⟩
    | some dir =>
      cases dir with
      | pos => exact ⟨allPositive_first fun z hz => hvalid.holds hdir hz, allPositive_nil _⟩
      | neg => exact ⟨allPositive_nil _, allPositive_first fun z hz => hvalid.negate_pos hdir hz⟩
      | eq =>
        have h0 : ∀ z, Contains dep z → z = 0 := fun z hz => hvalid.zero hz (.inl hdir)
        exact ⟨allPositive_carried h0 ihp, allPositive_carried h0 ihn⟩
      | posneg => exact ⟨allPositive_first plus, allPositive_first plus⟩
      | poseq =>
        exact ⟨allPositive_append (allPositive_first plus) (allPositive_carried zero ihp),
          allPositive_carried zero ihn⟩
      | negeq =>
        exact ⟨allPositive_carried zero ihp,
          allPositive_append (allPositive_first plus) (allPositive_carried zero ihn)⟩
      | star =>
        exact ⟨allPositive_append (allPositive_first plus) (allPositive_carried zero ihp),
          allPositive_append (allPositive_first plus) (allPositive_carried zero ihn)⟩

/-! ## The whole list -/

theorem nodeDecompose_zero (kp kn : Bool) (depv : DEPV) (out : Decomposition) :
    nodeDecompose depv.length kp kn depv.length 0 depv out =
      (depv, ⟨out.pos ++ (split kp kn depv).pos, out.neg ++ (split kp kn depv).neg⟩) := by
  have h := nodeDecompose_eq kp kn depv [] out
  simpa using h

theorem lexPosDecompose_eq (kp kn : Bool) (dvDim : Nat) (nodes : List DEPV)
    (hdim : ∀ depv ∈ nodes, depv.length = dvDim) : ∀ out : Decomposition,
    lexPosDecompose dvDim kp kn nodes out =
      (nodes, ⟨out.pos ++ nodes.flatMap fun depv => (split kp kn depv).pos,
        out.neg ++ nodes.flatMap fun depv => (split kp kn depv).neg⟩) := by
  induction nodes with
  | nil =>
    intro out
    simp [lexPosDecompose]
  | cons depv nodes ih =>
    intro out
    have hlen := hdim depv mem_cons_self
    subst hlen
    rw [lexPosDecompose, nodeDecompose_zero]
    simp only [ih fun d hd => hdim d (mem_cons_of_mem _ hd), flatMap_cons,
      append_assoc]

section parts
variable {kp kn : Bool} {nodes : List DEPV}

theorem parts_cover (hbuilt : ∀ depv ∈ nodes, VecBuilt depv) (hv : Covers nodes v)
    (hzero : AllZero v → kp = true ∨ kn = true) :
    Covers (nodes.flatMap fun depv => (split kp kn depv).pos) v ∨
      Covers (nodes.flatMap fun depv => (split kp kn depv).neg) (v.map fun z => -z) := by
  obtain ⟨depv, hmem, hv⟩ := hv
  rcases split_covers _ _ (hbuilt depv hmem) hv hzero with ⟨part, hpart, hc⟩ | ⟨part, hpart, hc⟩
  · exact .inl ⟨part, mem_flatMap.mpr ⟨depv, hmem, hpart⟩, hc⟩
  · exact .inr ⟨part, mem_flatMap.mpr ⟨depv, hmem, hpart⟩, hc⟩

theorem parts_positive (hbuilt : ∀ depv ∈ nodes, VecBuilt depv) :
    AllPositive kp (nodes.flatMap fun depv => (split kp kn depv).pos) ∧
      AllPositive kn (nodes.flatMap fun depv => (split kp kn depv).neg) := by
  constructor
  · intro part hpart
    obtain ⟨depv, hmem, hpart⟩ := mem_flatMap.mp hpart
    exact (split_positive _ _ (hbuilt depv hmem)).1 part hpart
  · intro part hpart
    obtain ⟨depv, hmem, hpart⟩ := mem_flatMap.mp hpart
    exact (split_positive _ _ (hbuilt depv hmem)).2 part hpart

end parts

/-- The decomposition appends to `pos` and `neg` parts that lose no distance vector and are
lexicographically positive. -/
theorem lexPosDecompose_complete (dvDim : Nat) (keepPosEquals keepNegEquals : Bool)
    (nodes : List DEPV) (hdim : ∀ depv ∈ nodes, depv.length = dvDim)
    (hbuilt : ∀ depv ∈ nodes, VecBuilt depv) (out : Decomposition) :
    ∃ pos neg, lexPosDecompose dvDim keepPosEquals keepNegEquals nodes out =
        (nodes, ⟨out.pos ++ pos, out.neg ++ neg⟩) ∧
      (∀ v, Covers nodes v → (AllZero v → keepPosEquals = true ∨ keepNegEquals = true) →
        Covers pos v ∨ Covers neg (v.map fun z => -z)) ∧
      AllPositive keepPosEquals pos ∧ AllPositive keepNegEquals neg := by
  obtain ⟨hpos, hneg⟩ := @parts_positive keepPosEquals keepNegEquals _ hbuilt
  exact ⟨_, _, lexPosDecompose_eq _ _ _ _ hdim out,
    fun v hv hzero => parts_cover hbuilt hv hzero, hpos, hneg⟩

theorem lexPosDecompose_complete_star :
    ∃ pos neg, lexPosDecompose 2 false true [[setDirection .star, setDistance 3]] ⟨[], []⟩ =
        ([[setDirection .star, setDistance 3]], ⟨[] ++ pos, [] ++ neg⟩) ∧
      (∀ v, Covers [[setDirection .star, setDistance 3]] v →
        (AllZero v → false = true ∨ true = true) → Covers pos v ∨ Covers neg (v.map fun z => -z)) ∧
      AllPositive false pos ∧ AllPositive true neg := by
  refine lexPosDecompose_complete 2 false true _ ?_ ?_ _
  · intro depv h
    rw [mem_singleton.mp h]
    rfl
  · intro depv h dep hdep
    rw [mem_singleton.mp h] at hdep
    rcases mem_cons.mp hdep with rfl | hdep
    · exact Built.setDirection _
    · rw [mem_singleton.mp hdep]
      exact Built.setDistance _

end Dep
