import Path64.Lib.Paths
import Path64.Lib.Sweep

/-! # Dominators and post-dominators

`Calculate_Dominators` starts with sets that are too large and trims them,
in place and in the order of the list of blocks, until nothing changes.
Dominators start with all blocks; post-dominators start with the blocks
that can be reached, which are collected first, since a block need not
reach an exit. -/

namespace Cg

open List Finset Function Paths Sweep

/-! ## Model -/

/-- The blocks in the order of `BB_next`; `entry` holds of the entry of the region too. -/
structure FlowGraph where
  puBBCount : Nat
  bbs : List Nat
  preds : Nat → List Nat
  succs : Nat → List Nat
  entry : Nat → Bool
  exit : Nat → Bool
  range : ∀ b ∈ bbs, 1 ≤ b ∧ b ≤ puBBCount
  preds_mem : ∀ b ∈ bbs, ∀ p ∈ preds b, p ∈ bbs
  succs_mem : ∀ b ∈ bbs, ∀ s ∈ succs b, s ∈ bbs
  edges : ∀ p ∈ bbs, ∀ b ∈ bbs, p ∈ preds b ↔ b ∈ succs p

namespace FlowGraph

variable (g : FlowGraph)

/-- `BB_ID_PRE_ENTRY`, the predecessor of all entries. -/
def preEntry : Nat := 0

/-- `BB_ID_POST_EXIT`, the successor of all exits. -/
def postExit : Nat := 1 + g.puBBCount

/-- All blocks, and the dummy predecessor of the entries. -/
def domInit : Finset Nat := insert preEntry g.bbs.toFinset

/-- The dominator set that `Init_BB_Dom_Info` sets. -/
def initDomSet (b : Nat) : Finset Nat :=
  if g.entry b then {preEntry, b} else g.domInit

/-- The post-dominator set that it sets. -/
def initPdomSet (b : Nat) : Finset Nat :=
  if g.exit b then {b, g.postExit} else {b}

/-- The body of the loop for dominators. -/
def trimDomSet (dom : Nat → Finset Nat) (b : Nat) : Finset Nat :=
  match g.preds b with
  | [] => dom b
  | preds => insert b (preds.foldl (fun isect p => isect ∩ dom p) (dom b))

/-- The body of the loop that collects what can be reached. -/
def growPdomSet (pdom : Nat → Finset Nat) (b : Nat) : Finset Nat :=
  match g.succs b with
  | [] => pdom b
  | succs => succs.foldl (fun isect s => isect ∪ pdom s) (pdom b)

/-- The body of the loop for post-dominators. -/
def trimPdomSet (pdom : Nat → Finset Nat) (b : Nat) : Finset Nat :=
  match g.succs b with
  | [] => pdom b
  | succs => insert b (succs.foldl (fun isect s => isect ∩ pdom s) (pdom b))

/-- `Calculate_Dominators`; `fuel` bounds the number of sweeps of each of the three loops. -/
def calculateDominators (fuel : Nat) : Option ((Nat → Finset Nat) × (Nat → Finset Nat)) := do
  let dom ← untilStable g.trimDomSet g.bbs fuel g.initDomSet
  let reach ← untilStable g.growPdomSet g.bbs.reverse fuel g.initPdomSet
  let pdom ← untilStable g.trimPdomSet g.bbs.reverse fuel reach
  -- the dummy blocks are removed
  some (fun b => (dom b).erase preEntry, fun b => (pdom b).erase g.postExit)

/-- An edge of the graph. -/
def Edge (p b : Nat) : Prop := p ∈ g.bbs ∧ b ∈ g.succs p

/-- An entry of the graph. -/
def IsEntry (e : Nat) : Prop := e ∈ g.bbs ∧ g.entry e = true

end FlowGraph

/-! ## What the loops compute -/

variable {f pdom : Nat → Finset Nat} {p e : Nat}

theorem mem_foldl_inter {x : Nat} (bs : List Nat) :
    ∀ s : Finset Nat, x ∈ bs.foldl (fun isect b => isect ∩ f b) s ↔ x ∈ s ∧ ∀ b ∈ bs, x ∈ f b := by
  induction bs with
  | nil => simp
  | cons b bs ih =>
    intro s
    rw [foldl_cons, ih, mem_inter]
    simp [and_assoc]

theorem mem_foldl_union {x : Nat} (bs : List Nat) :
    ∀ s : Finset Nat, x ∈ bs.foldl (fun isect b => isect ∪ f b) s ↔ x ∈ s ∨ ∃ b ∈ bs, x ∈ f b := by
  induction bs with
  | nil => simp
  | cons b bs ih =>
    intro s
    rw [foldl_cons, ih, mem_union]
    simp [or_assoc]

namespace FlowGraph

variable {g : FlowGraph} {b x : Nat}

theorem Edge.mem (h : g.Edge p b) : b ∈ g.bbs := g.succs_mem p h.1 b h.2

theorem Edge.pred_mem (h : g.Edge p b) : p ∈ g.preds b := (g.edges p h.1 b h.mem).mpr h.2

theorem edge_of_pred (hb : b ∈ g.bbs) (h : p ∈ g.preds b) : g.Edge p b :=
  ⟨g.preds_mem b hb p h, (g.edges p (g.preds_mem b hb p h) b hb).mp h⟩

theorem mem_trimDomSet {dom : Nat → Finset Nat} (hself : b ∈ dom b) :
    x ∈ g.trimDomSet dom b ↔ x ∈ dom b ∧ (x = b ∨ ∀ p ∈ g.preds b, x ∈ dom p) := by
  unfold trimDomSet
  split
  · rename_i hnil
    simp [hnil]
  · rw [mem_insert, mem_foldl_inter]
    constructor
    · rintro (rfl | ⟨hx, hall⟩)
      · exact ⟨hself, .inl rfl⟩
      · exact ⟨hx, .inr hall⟩
    · rintro ⟨hx, rfl | hall⟩
      · exact .inl rfl
      · exact .inr ⟨hx, hall⟩

theorem mem_trimPdomSet (hself : b ∈ pdom b) :
    x ∈ g.trimPdomSet pdom b ↔ x ∈ pdom b ∧ (x = b ∨ ∀ s ∈ g.succs b, x ∈ pdom s) := by
  unfold trimPdomSet
  split
  · rename_i hnil
    simp [hnil]
  · rw [mem_insert, mem_foldl_inter]
    constructor
    · rintro (rfl | ⟨hx, hall⟩)
      · exact ⟨hself, .inl rfl⟩
      · exact ⟨hx, .inr hall⟩
    · rintro ⟨hx, rfl | hall⟩
      · exact .inl rfl
      · exact .inr ⟨hx, hall⟩

theorem mem_growPdomSet :
    x ∈ g.growPdomSet pdom b ↔ x ∈ pdom b ∨ ∃ s ∈ g.succs b, x ∈ pdom s := by
  unfold growPdomSet
  split
  · rename_i hnil
    simp [hnil]
  · rw [mem_foldl_union]

/-! ## Dominators -/

/-- The dominators are there, and an entry has no others. -/
structure DomInv (g : FlowGraph) (dom : Nat → Finset Nat) : Prop where
  self : ∀ b ∈ g.bbs, b ∈ dom b
  above : ∀ b ∈ g.bbs, ∀ x ∈ g.bbs, Dominates g.Edge g.IsEntry x b → x ∈ dom b
  entry : ∀ e, g.IsEntry e → dom e ⊆ {preEntry, e}

theorem domInv_init : DomInv g g.initDomSet := by
  refine ⟨?_, ?_, ?_⟩
  · intro b hb
    unfold initDomSet domInit
    split <;> simp [hb]
  · intro b hb x hx hdom
    unfold initDomSet domInit
    split
    · rename_i he
      -- the path of an entry alone
      have hmem := hdom b [b] ⟨hb, he⟩ .single
      simp [List.mem_singleton.mp hmem]
    · simp [hx]
  · intro e he
    unfold initDomSet
    rw [if_pos he.2]

/-- One step of the sweep: a set only shrinks and stays above the true dominators. -/
theorem DomInv.trim {dom : Nat → Finset Nat} (h : DomInv g dom) (hb : b ∈ g.bbs) :
    g.trimDomSet dom b ⊆ dom b ∧ DomInv g (update dom b (g.trimDomSet dom b)) := by
  have hsub : g.trimDomSet dom b ⊆ dom b :=
    fun x hx => ((mem_trimDomSet (h.self b hb)).mp hx).1
  refine ⟨hsub, ?_, ?_, ?_⟩
  · intro c hc
    by_cases hcb : c = b
    · subst hcb
      rw [update_self, mem_trimDomSet (h.self c hc)]
      exact ⟨h.self c hc, .inl rfl⟩
    · rw [update_of_ne hcb]
      exact h.self c hc
  · intro c hc x hx hdom
    by_cases hcb : c = b
    · subst hcb
      rw [update_self, mem_trimDomSet (h.self c hc)]
      refine ⟨h.above c hc x hx hdom, or_iff_not_imp_left.mpr fun hne p hp => ?_⟩
      -- a dominator of a block is one of its predecessors
      have hedge := edge_of_pred hc hp
      refine h.above p hedge.1 x hx fun e q he hq => ?_
      exact (mem_cons.mp (hdom e _ he (hq.snoc hedge))).resolve_left hne
    · rw [update_of_ne hcb]
      exact h.above c hc x hx hdom
  · intro e he
    by_cases heb : e = b
    · subst heb
      rw [update_self]
      exact hsub.trans (h.entry e he)
    · rw [update_of_ne heb]
      exact h.entry e he

theorem DomInv.dominates {dom : Nat → Finset Nat} (h : DomInv g dom)
    (hstable : ∀ b ∈ g.bbs, g.trimDomSet dom b = dom b) (hx : x ≠ preEntry) {p : List Nat}
    (he : g.IsEntry e) (hp : Path g.Edge e b p) : x ∈ dom b → x ∈ p := by
  induction hp with
  | single =>
    intro hmem
    have := h.entry e he hmem
    simp only [Finset.mem_insert, Finset.mem_singleton] at this
    exact List.mem_singleton.mpr (this.resolve_left hx)
  | snoc hq hedge ih =>
    rename_i c d q
    intro hmem
    have hd := hedge.mem
    rw [← hstable d hd, mem_trimDomSet (h.self d hd)] at hmem
    rcases hmem.2 with rfl | hall
    · exact mem_cons_self
    · exact mem_cons_of_mem _ (ih (hall c hedge.pred_mem))

/-! ## Post-dominators -/

/-- `x` is `b`, or every block that `b` reaches past `x` can reach `x`. -/
def PostDominates (g : FlowGraph) (x b : Nat) : Prop :=
  x = b ∨ ∀ c p, Path g.Edge b c p → x ∉ p → Reaches g.Edge c x

/-- What is collected can be reached. -/
structure ReachInv (g : FlowGraph) (pdom : Nat → Finset Nat) : Prop where
  self : ∀ b ∈ g.bbs, b ∈ pdom b
  reach : ∀ b ∈ g.bbs, ∀ x ∈ pdom b, x = g.postExit ∨ x ∈ g.bbs ∧ Reaches g.Edge b x

theorem reachInv_init : ReachInv g g.initPdomSet := by
  refine ⟨fun b hb => ?_, fun b hb x hx => ?_⟩
  · unfold initPdomSet
    split <;> simp
  · unfold initPdomSet at hx
    split at hx
    · rcases mem_insert.mp hx with rfl | hx
      · exact .inr ⟨hb, .refl _⟩
      · exact .inl (Finset.mem_singleton.mp hx)
    · rw [Finset.mem_singleton.mp hx]
      exact .inr ⟨hb, .refl _⟩

theorem ReachInv.grow (h : ReachInv g pdom) (hb : b ∈ g.bbs) :
    pdom b ⊆ g.growPdomSet pdom b ∧ g.growPdomSet pdom b ⊆ insert g.postExit g.bbs.toFinset ∧
      ReachInv g (update pdom b (g.growPdomSet pdom b)) := by
  have hsub : pdom b ⊆ g.growPdomSet pdom b := fun x hx => mem_growPdomSet.mpr (.inl hx)
  have hreach : ∀ x ∈ g.growPdomSet pdom b, x = g.postExit ∨ x ∈ g.bbs ∧ Reaches g.Edge b x := by
    intro x hx
    rcases mem_growPdomSet.mp hx with hx | ⟨s, hs, hx⟩
    · exact h.reach b hb x hx
    · refine (h.reach s (g.succs_mem b hb s hs) x hx).imp id fun ⟨hxb, hsx⟩ => ?_
      exact ⟨hxb, .head ⟨hb, hs⟩ hsx⟩
  refine ⟨hsub, fun x hx => ?_, fun c hc => ?_, fun c hc => ?_⟩
  · rcases hreach x hx with rfl | ⟨hxb, -⟩
    · exact Finset.mem_insert_self _ _
    · exact Finset.mem_insert_of_mem (List.mem_toFinset.mpr hxb)
  · by_cases hcb : c = b
    · subst hcb
      rw [update_self]
      exact hsub (h.self c hc)
    · rw [update_of_ne hcb]
      exact h.self c hc
  · by_cases hcb : c = b
    · subst hcb
      rw [update_self]
      exact hreach
    · rw [update_of_ne hcb]
      exact h.reach c hc

theorem ReachInv.all (h : ReachInv g pdom)
    (hstable : ∀ b ∈ g.bbs, g.growPdomSet pdom b = pdom b) (hb : b ∈ g.bbs) {p : List Nat}
    (hp : Path g.Edge b x p) : x ∈ pdom b := by
  have hall : ∀ {a : Nat} {q : List Nat}, Path g.Edge a x q → a ∈ g.bbs → x ∈ pdom a := by
    intro a q hq
    refine Path.head_induction (C := fun a _ => a ∈ g.bbs → x ∈ pdom a) (h.self x) ?_ hq
    intro a c q hedge _ ih ha
    rw [← hstable a ha]
    exact mem_growPdomSet.mpr (.inr ⟨c, hedge.2, ih hedge.mem⟩)
  exact hall hp hb

/-- The post-dominators are there, and all that is there can be reached. -/
structure PdomInv (g : FlowGraph) (pdom : Nat → Finset Nat) : Prop extends ReachInv g pdom where
  above : ∀ b ∈ g.bbs, ∀ x ∈ g.bbs, PostDominates g x b → x ∈ pdom b

/-- The same step for post-dominators, over the successors. -/
theorem PdomInv.trim (h : PdomInv g pdom) (hb : b ∈ g.bbs) :
    g.trimPdomSet pdom b ⊆ pdom b ∧ PdomInv g (update pdom b (g.trimPdomSet pdom b)) := by
  have hsub : g.trimPdomSet pdom b ⊆ pdom b :=
    fun x hx => ((mem_trimPdomSet (h.self b hb)).mp hx).1
  refine ⟨hsub, ⟨?_, ?_⟩, ?_⟩
  · intro c hc
    by_cases hcb : c = b
    · subst hcb
      rw [update_self, mem_trimPdomSet (h.self c hc)]
      exact ⟨h.self c hc, .inl rfl⟩
    · rw [update_of_ne hcb]
      exact h.self c hc
  · intro c hc
    by_cases hcb : c = b
    · subst hcb
      rw [update_self]
      exact fun x hx => h.reach c hc x (hsub hx)
    · rw [update_of_ne hcb]
      exact h.reach c hc
  · intro c hc x hx hpost
    by_cases hcb : c = b
    · subst hcb
      rw [update_self, mem_trimPdomSet (h.self c hc)]
      refine ⟨h.above c hc x hx hpost, or_iff_not_imp_left.mpr fun hne s hs => ?_⟩
      have hedge : g.Edge c s := ⟨hc, hs⟩
      refine h.above s hedge.mem x hx (or_iff_not_imp_left.mpr fun hne' d q hq hxq => ?_)
      -- a path from the successor is one from the block
      obtain ⟨r, hr, hmem⟩ := (Path.single.snoc hedge).append hq
      refine hpost.resolve_left hne d r hr ?_
      rw [hmem]
      rintro (hx' | hx')
      · rcases mem_cons.mp hx' with rfl | hx'
        · exact hne' rfl
        · exact hne (List.mem_singleton.mp hx')
      · exact hxq hx'
    · rw [update_of_ne hcb]
      exact h.above c hc x hx hpost

theorem PdomInv.postDominates (h : PdomInv g pdom)
    (hstable : ∀ b ∈ g.bbs, g.trimPdomSet pdom b = pdom b) (hb : b ∈ g.bbs)
    (hne : x ≠ g.postExit) (hmem : x ∈ pdom b) : PostDominates g x b := by
  refine or_iff_not_imp_left.mpr fun _ c p hp hxp => ?_
  -- along a path that misses it, the block stays in the sets
  have hkeep : c ∈ g.bbs ∧ x ∈ pdom c := by
    induction hp with
    | single => exact ⟨hb, hmem⟩
    | snoc hq hedge ih =>
      rename_i c d q
      rw [List.mem_cons, not_or] at hxp
      obtain ⟨hc, hxc⟩ := ih hxp.2
      rw [← hstable c hc, mem_trimPdomSet (h.self c hc)] at hxc
      refine ⟨hedge.mem, hxc.2.resolve_left ?_ d hedge.2⟩
      rintro rfl
      exact hxp.2 hq.last_mem
  exact ((h.reach c hkeep.1 x hkeep.2).resolve_left hne).2

theorem ReachInv.pdomInv (h : ReachInv g pdom)
    (hstable : ∀ b ∈ g.bbs, g.growPdomSet pdom b = pdom b) : PdomInv g pdom := by
  refine ⟨h, fun b hb x hx hpost => ?_⟩
  have hreach : Reaches g.Edge b x := by
    rcases hpost with rfl | hpost
    · exact .refl x
    · -- the path that stays at the block
      by_cases hxb : x = b
      · subst hxb
        exact .refl x
      · exact hpost b [b] .single (fun hmem => hxb (List.mem_singleton.mp hmem))
  obtain ⟨p, hp⟩ := hreach
  exact h.all hstable hb hp

/-! ## The sets are exact -/

theorem preEntry_not_mem : preEntry ∉ g.bbs := fun h => by
  have := g.range _ h
  unfold preEntry at this
  omega

theorem postExit_not_mem : g.postExit ∉ g.bbs := fun h => by
  have := g.range _ h
  unfold postExit at this
  omega

theorem Path.mem_bbs {p : List Nat} (he : e ∈ g.bbs) (hp : Path g.Edge e b p) :
    ∀ x ∈ p, x ∈ g.bbs := by
  induction hp with
  | single =>
    intro x hx
    rwa [List.mem_singleton.mp hx]
  | snoc _ hedge ih =>
    intro x hx
    rcases mem_cons.mp hx with rfl | hx
    · exact hedge.mem
    · exact ih x hx

theorem DomInv.exact {dom : Nat → Finset Nat} (h : DomInv g dom)
    (hstable : ∀ b ∈ g.bbs, g.trimDomSet dom b = dom b)
    (hreach : ∃ e, g.IsEntry e ∧ Reaches g.Edge e b) :
    x ∈ (dom b).erase preEntry ↔ Dominates g.Edge g.IsEntry x b := by
  rw [mem_erase]
  constructor
  · rintro ⟨hx, hmem⟩ e p he hp
    exact h.dominates hstable hx he hp hmem
  · intro hdom
    obtain ⟨e, he, p, hp⟩ := hreach
    have hb : b ∈ g.bbs := Path.mem_bbs he.1 hp b hp.last_mem
    have hx : x ∈ g.bbs := Path.mem_bbs he.1 hp x (hdom e p he hp)
    refine ⟨?_, h.above b hb x hx hdom⟩
    rintro rfl
    exact preEntry_not_mem hx

theorem PdomInv.exact {pdom : Nat → Finset Nat} (h : PdomInv g pdom)
    (hstable : ∀ b ∈ g.bbs, g.trimPdomSet pdom b = pdom b) (hb : b ∈ g.bbs) (hx : x ∈ g.bbs) :
    x ∈ (pdom b).erase g.postExit ↔ PostDominates g x b := by
  have hne : x ≠ g.postExit := by
    rintro rfl
    exact postExit_not_mem hx
  rw [mem_erase]
  exact ⟨fun hmem => h.postDominates hstable hb hne hmem.2,
    fun hpost => ⟨hne, h.above b hb x hx hpost⟩⟩

/-- The loops end; the dominators of a block that an entry reaches are the blocks on all paths from
the entries to it; and the post-dominators of a block are exact too. -/
theorem calculateDominators_exact (g : FlowGraph) :
    ∃ N, ∀ fuel ≥ N, ∃ dom pdom, g.calculateDominators fuel = some (dom, pdom) ∧
      (∀ b, (∃ e, g.IsEntry e ∧ Reaches g.Edge e b) →
        ∀ x, x ∈ dom b ↔ Dominates g.Edge g.IsEntry x b) ∧ (∀ b ∈ g.bbs, ∀ x ∈ g.bbs, x ∈ pdom b ↔
        x = b ∨ ∀ c p, Path g.Edge b c p → x ∉ p → Reaches g.Edge c x) := by
  obtain ⟨N1, h1⟩ := untilStable_shrink (l := g.bbs) (fun _ _ hb hinv => DomInv.trim hinv hb)
    (domInv_init (g := g))
  obtain ⟨N2, h2⟩ := untilStable_grow (l := g.bbs.reverse) (insert g.postExit g.bbs.toFinset)
    (fun _ _ hb hinv => ReachInv.grow hinv (mem_reverse.mp hb)) (reachInv_init (g := g))
  obtain ⟨reach, hreach, hinv2, hst2⟩ := h2 N2 le_rfl
  have hpdom := hinv2.pdomInv fun b hb => hst2 b (mem_reverse.mpr hb)
  obtain ⟨N3, h3⟩ := untilStable_shrink (l := g.bbs.reverse)
    (fun _ _ hb hinv => PdomInv.trim hinv (mem_reverse.mp hb)) hpdom
  refine ⟨N1 + N2 + N3, fun fuel hfuel => ?_⟩
  obtain ⟨dom, hdom, hinv1, hst1⟩ := h1 fuel (by omega)
  obtain ⟨pdom, hpdom', hinv3, hst3⟩ := h3 fuel (by omega)
  have hreach' := untilStable_mono hreach (show N2 ≤ fuel by omega)
  refine ⟨_, _, ?_, fun b hb x => hinv1.exact hst1 hb,
    fun b hb x hx => hinv3.exact (fun b hb => hst3 b (mem_reverse.mpr hb)) hb hx⟩
  unfold calculateDominators
  rw [hdom, hreach']
  simp only [Option.bind_eq_bind, Option.bind_some]
  rw [hpdom']
  rfl

theorem calculateDominators_dom (g : FlowGraph) : ∃ N, ∀ fuel ≥ N, ∃ dom pdom,
    g.calculateDominators fuel = some (dom, pdom) ∧ ∀ b, (∃ e, g.IsEntry e ∧ Reaches g.Edge e b) →
      ∀ x, x ∈ dom b ↔ Dominates g.Edge g.IsEntry x b := by
  obtain ⟨N1, h1⟩ := untilStable_shrink (l := g.bbs) (fun _ _ hb hinv => DomInv.trim hinv hb)
    (domInv_init (g := g))
  obtain ⟨N2, h2⟩ := untilStable_grow (l := g.bbs.reverse) (insert g.postExit g.bbs.toFinset)
    (fun _ _ hb hinv => ReachInv.grow hinv (mem_reverse.mp hb)) (reachInv_init (g := g))
  obtain ⟨reach, hreach, hinv, hstable⟩ := h2 N2 le_rfl
  have hpdom := hinv.pdomInv fun b hb => hstable b (mem_reverse.mpr hb)
  obtain ⟨N3, h3⟩ := untilStable_shrink (l := g.bbs.reverse)
    (fun _ _ hb hinv => PdomInv.trim hinv (mem_reverse.mp hb)) hpdom
  refine ⟨N1 + N2 + N3, fun fuel hfuel => ?_⟩
  obtain ⟨dom, hdom, hinv1, hst1⟩ := h1 fuel (by omega)
  obtain ⟨pdom, hpdom, -⟩ := h3 fuel (by omega)
  refine ⟨_, fun b => (pdom b).erase g.postExit, ?_, fun b hb x => hinv1.exact hst1 hb⟩
  unfold calculateDominators
  rw [hdom, untilStable_mono hreach (show N2 ≤ fuel by omega)]
  simp only [Option.bind_eq_bind, Option.bind_some]
  rw [hpdom]
  rfl

end FlowGraph

end Cg
