import Mathlib.Data.List.GetD
import Path64.Dep.Decompose

/-! # The part of a dependence list that lets loops be blocked

`DEPV_LIST::Blockable_Part` keeps of every vector what is not negative in
the loops to be blocked. The code works in place: it overwrites a
dimension with a direction that has no negative distances, goes on with
the next dimension, and puts the dimension back. -/

namespace Dep

open List

/-! ## The code -/

/-- `DEPV_NODE::Blockable_Part`: the vector as it is left, and the list. -/
def nodeBlockablePart (dvDim numUnusedDim : Nat) : Nat → Nat → DEPV → List DEPV → DEPV × List DEPV
  | 0, _, depv, block => (depv, block ++ [depv.take dvDim])
  | remaining + 1, startDepth, depv, block =>
    let startDim := startDepth - numUnusedDim
    let orig := depv.getD startDim 0
    let recurse := nodeBlockablePart dvDim numUnusedDim remaining (startDepth + 1)
    let (depv, block) :=
      match direction orig with
      | some .pos | some .poseq | some .eq => recurse depv block
      | some .posneg => recurse (depv.set startDim (setDirection .pos)) block
      | some .negeq => recurse (depv.set startDim (setDirection .eq)) block
      | some .star =>
        let (depv, block) := recurse (depv.set startDim (setDirection .pos)) block
        recurse (depv.set startDim (setDirection .eq)) block
      -- `DIR_NEG` has no case
      | _ => (depv, block)
    (depv.set startDim orig, block)

/-- `DEPV_LIST::Blockable_Part`: the nodes of the list as they are left, and `dl_block`. -/
def blockablePart (dvDim numUnusedDim startDepth stopDepth : Nat) :
    List DEPV → List DEPV → List DEPV × List DEPV
  | [], block => ([], block)
  | depv :: nodes, block =>
    let (depv, block) :=
      nodeBlockablePart dvDim numUnusedDim (stopDepth + 1 - startDepth) startDepth depv block
    let (nodes, block) := blockablePart dvDim numUnusedDim startDepth stopDepth nodes block
    (depv :: nodes, block)

/-! ## The part by recursion -/

/-- The dependences that a dimension is replaced by. -/
def nonnegPart (dep : DEP) : List DEP :=
  match direction dep with
  | some .pos | some .poseq | some .eq => [dep]
  | some .posneg => [setDirection .pos]
  | some .negeq => [setDirection .eq]
  | some .star => [setDirection .pos, setDirection .eq]
  | _ => []

/-- The first `n` dimensions replaced in all ways. -/
def part : Nat → DEPV → List DEPV
  | 0, deps => [deps]
  | _ + 1, [] => []
  | n + 1, dep :: deps => (nonnegPart dep).flatMap fun d => (part n deps).map (d :: ·)

/-- The recursion over the dimensions writes the vectors of `part`, in order, and leaves the list as
it was. -/
theorem nodeBlockablePart_eq (numUnusedDim : Nat) : ∀ (n : Nat) (pre tail : DEPV) (block : List DEPV),
    n ≤ tail.length →
      nodeBlockablePart (pre.length + tail.length) numUnusedDim n (numUnusedDim + pre.length)
          (pre ++ tail) block = (pre ++ tail, block ++ (part n tail).map (pre ++ ·)):= by
  intro n
  induction n with
  | zero =>
    intro pre tail block _
    rw [nodeBlockablePart, ← length_append, take_length]
    rfl
  | succ n ih =>
    intro pre tail block hn
    cases tail with
    | nil => exact absurd hn (Nat.not_succ_le_zero n)
    | cons dep deps =>
      -- the recursive call on the vector with the dimension replaced
      have hrec : ∀ (d : DEP) (block : List DEPV),
          nodeBlockablePart (pre.length + (deps.length + 1)) numUnusedDim n
            (numUnusedDim + pre.length + 1) (pre ++ d :: deps) block =
          (pre ++ d :: deps, block ++ (part n deps).map (pre ++ d :: ·)) := by
        intro d block
        have h := ih (pre ++ [d]) deps block (Nat.le_of_succ_le_succ hn)
        simp only [length_append, length_cons, length_nil, append_assoc,
          cons_append, nil_append, Nat.zero_add, Nat.add_assoc] at h ⊢
        rwa [Nat.add_comm deps.length 1]
      rw [length_cons, nodeBlockablePart, Nat.add_sub_cancel_left, getD_append_length, part]
      unfold nonnegPart
      cases hdir : direction dep with
      | none => simp
      | some dir => cases dir <;> simp [hrec, Function.comp_def]

theorem blockablePart_eq {dvDim numUnusedDim startDepth stopDepth : Nat}
    (hlo : numUnusedDim ≤ startDepth) (hle : startDepth ≤ stopDepth)
    (hhi : stopDepth < numUnusedDim + dvDim) :
    ∀ {nodes : List DEPV} (block : List DEPV), (∀ depv ∈ nodes, depv.length = dvDim) →
      blockablePart dvDim numUnusedDim startDepth stopDepth nodes block =
        (nodes, block ++ nodes.flatMap fun depv =>
          (part (stopDepth + 1 - startDepth) (depv.drop (startDepth - numUnusedDim))).map
            (depv.take (startDepth - numUnusedDim) ++ ·)) := by
  intro nodes
  induction nodes with
  | nil =>
    intro block _
    simp [blockablePart]
  | cons depv nodes ih =>
    intro block hlen
    have hdim := hlen depv mem_cons_self
    have hpre : (depv.take (startDepth - numUnusedDim)).length = startDepth - numUnusedDim := by
      rw [length_take]
      omega
    have htail : (depv.drop (startDepth - numUnusedDim)).length =
        dvDim - (startDepth - numUnusedDim) := by
      rw [length_drop, hdim]
    have hnode := nodeBlockablePart_eq numUnusedDim (stopDepth + 1 - startDepth)
      (depv.take (startDepth - numUnusedDim)) (depv.drop (startDepth - numUnusedDim)) block
      (by omega)
    rw [take_append_drop, hpre, htail,
      show startDepth - numUnusedDim + (dvDim - (startDepth - numUnusedDim)) = dvDim by omega,
      show numUnusedDim + (startDepth - numUnusedDim) = startDepth by omega] at hnode
    have hnodes := ih (block ++ (part (stopDepth + 1 - startDepth)
      (depv.drop (startDepth - numUnusedDim))).map (depv.take (startDepth - numUnusedDim) ++ ·))
      (fun d hd => hlen d (mem_cons_of_mem _ hd))
    simp only [blockablePart, hnode, hnodes, flatMap_cons, append_assoc]

/-! ## What the part stands for -/

/-- The parts made for one entry contain just the distances of it that are not negative. -/
theorem nonnegPart_contains {dep : DEP} (hv : Valid dep) (z : Int) :
    (∃ d ∈ nonnegPart dep, Contains d z) ↔ Contains dep z ∧ 0 ≤ z := by
  -- what a direction other than the dependence's own stands for
  have hself : ∀ {dir : Direction}, direction dep = some dir → ¬ isDistance dep = true →
      (Contains dep z ↔ dir.Holds z) := by
    intro dir hdir hd
    rw [contains_of_not_distance hd, hdir]
    exact ⟨fun ⟨_, he, h⟩ => (Option.some.inj he) ▸ h, fun h => ⟨dir, rfl, h⟩⟩
  -- a distance has the direction of its sign
  have hsigned : ∀ {dir : Direction}, direction dep = some dir → dir ≠ .pos → dir ≠ .neg →
      dir ≠ .eq → ¬ isDistance dep = true := by
    intro dir hdir hpos hneg heq hd
    have hsign := hv hd
    rw [hdir] at hsign
    unfold signDirection at hsign
    split_ifs at hsign <;> simp_all
  have hnone : direction dep = none → ¬ Contains dep z := by
    intro hdir hz
    obtain ⟨dir, hdir', -⟩ := hv.direction_holds hz
    rw [hdir] at hdir'
    cases hdir'
  unfold nonnegPart
  cases hdir : direction dep with
  | none =>
    have := hnone hdir
    simp [this]
  | some dir =>
    cases dir with
    | pos =>
      have hholds := fun hz => hv.holds hdir (z := z) hz
      simp only [mem_singleton, exists_eq_left]
      exact ⟨fun hz => ⟨hz, le_of_lt (hholds hz)⟩, fun hz => hz.1⟩
    | neg =>
      have hholds : Contains dep z → z < 0 := fun hz => hv.holds hdir hz
      simp only [not_mem_nil, false_and, exists_false, false_iff, not_and, not_le]
      exact hholds
    | eq =>
      have hholds : Contains dep z → z = 0 := fun hz => hv.holds hdir hz
      simp only [mem_singleton, exists_eq_left]
      exact ⟨fun hz => ⟨hz, le_of_eq (hholds hz).symm⟩, fun hz => hz.1⟩
    | posneg =>
      rw [hself hdir (hsigned hdir (by decide) (by decide) (by decide))]
      simp only [mem_singleton, exists_eq_left, contains_setDirection]
      show 0 < z ↔ z ≠ 0 ∧ 0 ≤ z
      omega
    | poseq =>
      have hholds : Contains dep z → 0 ≤ z := fun hz => hv.holds hdir hz
      simp only [mem_singleton, exists_eq_left]
      exact ⟨fun hz => ⟨hz, hholds hz⟩, fun hz => hz.1⟩
    | negeq =>
      rw [hself hdir (hsigned hdir (by decide) (by decide) (by decide))]
      simp only [mem_singleton, exists_eq_left, contains_setDirection]
      show z = 0 ↔ z ≤ 0 ∧ 0 ≤ z
      omega
    | star =>
      rw [hself hdir (hsigned hdir (by decide) (by decide) (by decide))]
      simp only [mem_cons, not_mem_nil, or_false, exists_eq_or_imp, exists_eq_left,
        contains_setDirection]
      show 0 < z ∨ z = 0 ↔ True ∧ 0 ≤ z
      rw [true_and]
      omega

theorem vecContains_cons {dep : DEP} {deps : DEPV} {v : List Int} :
    VecContains (dep :: deps) v ↔ ∃ z zs, v = z :: zs ∧ Contains dep z ∧ VecContains deps zs := by
  unfold VecContains
  rw [forall₂_cons_left_iff]
  exact ⟨fun ⟨z, zs, hz, hzs, hv⟩ => ⟨z, zs, hv, hz, hzs⟩,
    fun ⟨z, zs, hv, hz, hzs⟩ => ⟨z, zs, hz, hzs, hv⟩⟩

/-- The vectors of `part` contain just the vectors whose inner entries are not negative. -/
theorem part_covers {n : Nat} : ∀ {deps : DEPV}, VecBuilt deps → n ≤ deps.length → ∀ (v : List Int),
    Covers (part n deps) v ↔ VecContains deps v ∧ ∀ j < n, 0 ≤ v.getD j 0 := by
  induction n with
  | zero =>
    intro deps _ _ v
    simp [part, Covers]
  | succ n ih =>
    intro deps hb hn v
    cases deps with
    | nil => exact absurd hn (Nat.not_succ_le_zero n)
    | cons dep deps =>
      have hvalid := (hb dep mem_cons_self).valid
      have hrest := ih (fun d hd => hb d (mem_cons_of_mem _ hd)) (Nat.le_of_succ_le_succ hn)
      rw [vecContains_cons]
      constructor
      · rintro ⟨depv, hmem, hv⟩
        rw [part, mem_flatMap] at hmem
        obtain ⟨d, hd, hmap⟩ := hmem
        obtain ⟨ds, hds, rfl⟩ := mem_map.mp hmap
        obtain ⟨z, zs, rfl, hz, hzs⟩ := vecContains_cons.mp hv
        have hhead := (nonnegPart_contains hvalid z).mp ⟨d, hd, hz⟩
        have htail := (hrest zs).mp ⟨ds, hds, hzs⟩
        refine ⟨⟨z, zs, rfl, hhead.1, htail.1⟩, ?_⟩
        intro j hj
        cases j with
        | zero => exact hhead.2
        | succ j => exact htail.2 j (Nat.lt_of_succ_lt_succ hj)
      · rintro ⟨⟨z, zs, rfl, hz, hzs⟩, hnonneg⟩
        obtain ⟨d, hd, hdz⟩ := (nonnegPart_contains hvalid z).mpr ⟨hz, hnonneg 0 (Nat.succ_pos n)⟩
        obtain ⟨ds, hds, hdzs⟩ := (hrest zs).mpr
          ⟨hzs, fun j hj => hnonneg (j + 1) (Nat.succ_lt_succ hj)⟩
        refine ⟨d :: ds, ?_, vecContains_cons.mpr ⟨z, zs, rfl, hdz, hdzs⟩⟩
        rw [part, mem_flatMap]
        exact ⟨d, hd, mem_map.mpr ⟨ds, hds, rfl⟩⟩

theorem vecContains_append {deps1 deps2 : DEPV} {v : List Int} : VecContains (deps1 ++ deps2) v ↔
      ∃ v1 v2, VecContains deps1 v1 ∧ VecContains deps2 v2 ∧ v = v1 ++ v2 := by
  constructor
  · intro h
    refine ⟨v.take deps1.length, v.drop deps1.length, ?_, ?_, (take_append_drop _ _).symm⟩
    · exact forall₂_take_append v deps1 deps2 h.flip |>.flip
    · exact forall₂_drop_append v deps1 deps2 h.flip |>.flip
  · rintro ⟨v1, v2, h1, h2, rfl⟩
    exact rel_append h1 h2

theorem prefix_covers {depv : DEPV} (hb : VecBuilt depv) {d n : Nat} (hn : d + n ≤ depv.length)
    (v : List Int) : Covers ((part n (depv.drop d)).map (depv.take d ++ ·)) v ↔
      VecContains depv v ∧ ∀ j, d ≤ j → j < d + n → 0 ≤ v.getD j 0 := by
  have hpart : ∀ w, Covers (part n (depv.drop d)) w ↔ _ :=
    part_covers (fun e he => hb e (mem_of_mem_drop he)) (by rw [length_drop]; omega)
  constructor
  · rintro ⟨ds, hmem, hv⟩
    obtain ⟨tail, htail, rfl⟩ := mem_map.mp hmem
    obtain ⟨v1, v2, hv1, hv2, rfl⟩ := vecContains_append.mp hv
    have hlen : v1.length = d := by
      rw [← hv1.length_eq, length_take]
      omega
    obtain ⟨hcont, hnonneg⟩ := (hpart v2).mp ⟨tail, htail, hv2⟩
    refine ⟨?_, fun j hlo hhi => ?_⟩
    · have happ := vecContains_append.mpr ⟨_, _, hv1, hcont, rfl⟩
      rwa [take_append_drop] at happ
    · rw [getD_append_right _ _ _ _ (by omega)]
      exact hnonneg (j - v1.length) (by omega)
  · rintro ⟨hcont, hnonneg⟩
    rw [← take_append_drop d depv] at hcont
    obtain ⟨v1, v2, hv1, hv2, rfl⟩ := vecContains_append.mp hcont
    have hlen : v1.length = d := by
      rw [← hv1.length_eq, length_take]
      omega
    obtain ⟨tail, htail, htailv⟩ := (hpart v2).mpr ⟨hv2, fun j hj => by
      have h := hnonneg (d + j) (by omega) (by omega)
      rwa [getD_append_right _ _ _ _ (by omega), hlen, Nat.add_sub_cancel_left] at h⟩
    exact ⟨_, mem_map.mpr ⟨tail, htail, rfl⟩,
      vecContains_append.mpr ⟨_, _, hv1, htailv, rfl⟩⟩

/-- `DEPV_LIST::Blockable_Part` leaves its list as it is, and what it appends to `dl_block` stands
for the distance vectors of the list that are not negative in the dimensions of the depths
`startDepth` to `stopDepth`. -/
theorem blockablePart_exact {dvDim numUnusedDim startDepth stopDepth : Nat}
    (hlo : numUnusedDim ≤ startDepth) (hle : startDepth ≤ stopDepth)
    (hhi : stopDepth < numUnusedDim + dvDim) {nodes : List DEPV}
    (hdim : ∀ depv ∈ nodes, depv.length = dvDim ∧ VecBuilt depv) (block : List DEPV) :
    (blockablePart dvDim numUnusedDim startDepth stopDepth nodes block).1 = nodes ∧
      ∃ added, (blockablePart dvDim numUnusedDim startDepth stopDepth nodes block).2 =
          block ++ added ∧
        ∀ v, Covers added v ↔ Covers nodes v ∧ ∀ depth, startDepth ≤ depth → depth ≤ stopDepth →
          0 ≤ v.getD (depth - numUnusedDim) 0 := by
  rw [blockablePart_eq hlo hle hhi block fun depv hmem => (hdim depv hmem).1]
  refine ⟨rfl, _, rfl, fun v => ?_⟩
  have hvec : ∀ depv ∈ nodes, ∀ v,
      Covers ((part (stopDepth + 1 - startDepth) (depv.drop (startDepth - numUnusedDim))).map
          (depv.take (startDepth - numUnusedDim) ++ ·)) v ↔
        VecContains depv v ∧ ∀ depth, startDepth ≤ depth → depth ≤ stopDepth →
          0 ≤ v.getD (depth - numUnusedDim) 0 := by
    intro depv hmem v
    rw [prefix_covers (hdim depv hmem).2 (by rw [(hdim depv hmem).1]; omega)]
    refine and_congr_right fun _ => ⟨fun h depth h1 h2 => h _ (by omega) (by omega), ?_⟩
    intro h j h1 h2
    have hj := h (j + numUnusedDim) (by omega) (by omega)
    rwa [Nat.add_sub_cancel] at hj
  constructor
  · rintro ⟨ds, hmem, hv⟩
    obtain ⟨depv, hdepv, hds⟩ := mem_flatMap.mp hmem
    obtain ⟨hcont, hnonneg⟩ := (hvec depv hdepv v).mp ⟨ds, hds, hv⟩
    exact ⟨⟨depv, hdepv, hcont⟩, hnonneg⟩
  · rintro ⟨⟨depv, hdepv, hcont⟩, hnonneg⟩
    obtain ⟨ds, hds, hv⟩ := (hvec depv hdepv v).mpr ⟨hcont, hnonneg⟩
    exact ⟨ds, mem_flatMap.mpr ⟨depv, hdepv, hds⟩, hv⟩

theorem blockablePart_exact_star : (blockablePart 2 1 1 2 [[setDirection .star, setDirection .star],
        [setDirection .pos, setDirection .neg]] []).1 =
      [[setDirection .star, setDirection .star], [setDirection .pos, setDirection .neg]] :=
  (@blockablePart_exact 2 1 1 2 (by decide) (by decide) (by decide) _ (by
    intro depv hmem
    rcases mem_cons.mp hmem with rfl | hmem
    · exact ⟨rfl, by
        intro dep hdep
        rw [mem_cons, mem_singleton, or_self] at hdep
        exact hdep ▸ Built.setDirection .star⟩
    · rw [mem_singleton.mp hmem]
      exact ⟨rfl, by
        intro dep hdep
        rcases mem_cons.mp hdep with rfl | hdep
        · exact Built.setDirection .pos
        · exact mem_singleton.mp hdep ▸ Built.setDirection .neg⟩) []).1

end Dep
