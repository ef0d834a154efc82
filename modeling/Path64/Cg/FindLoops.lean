import Path64.Cg.Dominate
import Path64.Lib.Dfs
import Path64.Lib.Loop

/-! # Natural loops

`LOOP_DESCR_Detect_Loops` looks for edges whose target dominates their
source, collects the ancestors of the source up to the target, and keeps
the loops in one list: loops with the same head are merged, and a loop is
inserted before the first one that contains it. -/

namespace Cg

open List Paths Dfs

/-! ## Model -/

/-- A flow graph and what `BB_Depth_First_Map` starts from. -/
structure LoopGraph extends FlowGraph where
  /-- `CGRIN_entry`, when a proper region is compiled. -/
  regionEntry : Option Nat
  /-- `Entry_BB_Head`. -/
  entryHead : List Nat
  /-- `PU_Has_Nonlocal_Goto_Target`. -/
  hasNonlocalGotoTarget : Bool
  bbEntry : Nat → Bool
  hasNonLocalLabel : Nat → Bool
  regionEntry_mem : ∀ e, regionEntry = some e → e ∈ bbs
  entryHead_mem : ∀ e ∈ entryHead, e ∈ bbs

structure LoopDescr where
  bbset : Finset Nat
  loophead : Nat
  nestlevel : Nat

namespace LoopGraph

variable (g : LoopGraph)

/-- The blocks from which `BB_Depth_First_Map` starts. -/
def roots : List Nat :=
  match g.regionEntry with
  | some e => [e]
  | none =>
    g.entryHead ++
      if g.hasNonlocalGotoTarget then
        g.bbs.filter fun b => !g.bbEntry b && g.hasNonLocalLabel b && (g.preds b).isEmpty
      else []

/-- `map_depth_first`: the map, and the largest number given so far. -/
def mapDepthFirst : Search Nat ((Nat → Nat) × Nat) where
  adj := g.succs
  seen s b := s.1 b != 0
  mark _ b s := (Function.update s.1 b (s.2 + 1), s.2 + 1)

/-- `BB_Depth_First_Map(NULL, NULL)`. -/
def depthFirstMap (fuel : Nat) : Option (Nat → Nat) :=
  (g.mapDepthFirst.visitAll fuel g.roots (fun _ => 0, 0)).map Prod.fst

/-- `BB_Add_Ancestors`. -/
def addAncestors : Search Nat (Finset Nat) where
  adj := g.preds
  seen s b := decide (b ∈ s)
  mark _ b s := insert b s

/-- The descriptor for a back edge, before it is merged. -/
def newLoop (fuel bb succ : Nat) : Option LoopDescr :=
  if bb ≠ succ then
    match g.addAncestors.visit fuel none bb {succ} with
    | none => none
    | some loopSet => some ⟨loopSet, succ, 1⟩
  else some ⟨{succ}, succ, 1⟩

/-- The loop over `the_loops`: loops with the same head are merged; the new one goes before the
first that contains it. -/
def insertLoop (newloop : LoopDescr) : List LoopDescr → List LoopDescr
  | [] => [newloop]
  | cloop :: next =>
    if cloop.loophead = newloop.loophead then
      insertLoop { newloop with bbset := newloop.bbset ∪ cloop.bbset } next
    else if newloop.bbset ⊆ cloop.bbset then newloop :: cloop :: next
    else cloop :: insertLoop newloop next

/-- The body of the loop over the successors of `bb`. -/
def visitEdge (dfoMap : Nat → Nat) (dom : Nat → Finset Nat) (fuel bb : Nat)
    (theLoops : List LoopDescr) (succ : Nat) : Option (List LoopDescr) :=
  if dfoMap bb < dfoMap succ then some theLoops
  else if succ ∉ dom bb then some theLoops
  else
    match g.newLoop fuel bb succ with
    | none => none
    | some newloop => some (insertLoop newloop theLoops)

/-- The loop over the blocks. -/
def findLoops (dfoMap : Nat → Nat) (dom : Nat → Finset Nat) (fuel : Nat) : Option (List LoopDescr):=
  g.bbs.foldlM (fun theLoops bb =>
    if dfoMap bb = 0 then some theLoops
    else (g.succs bb).foldlM (g.visitEdge dfoMap dom fuel bb) theLoops) []

/-- The nest levels: one more for each loop behind in the list that contains it. -/
def setNestlevels : List LoopDescr → List LoopDescr
  | [] => []
  | cloop :: next =>
    { cloop with
      nestlevel := next.foldl
        (fun n enclLoop => if cloop.bbset ⊆ enclLoop.bbset then n + 1 else n) cloop.nestlevel }
      :: setNestlevels next

/-- `LOOP_DESCR_map`: blocks to places in the list. A block that has a loop keeps it. -/
def setLoopMap : List LoopDescr → Nat → (Nat → Option Nat) → Nat → Option Nat
  | [], _, map => map
  | cloop :: next, i, map =>
    setLoopMap next (i + 1)
      fun bb => if bb ∈ cloop.bbset ∧ map bb = none then some i else map bb

/-- `LOOP_DESCR_Detect_Loops`; `fuel` bounds the depth of the two searches. -/
def detectLoops (dom : Nat → Finset Nat) (fuel : Nat) :
    Option (List LoopDescr × (Nat → Option Nat)) := do
  let dfoMap ← g.depthFirstMap fuel
  let theLoops ← g.findLoops dfoMap dom fuel
  some (setNestlevels theLoops, setLoopMap theLoops 0 fun _ => none)

/-- The loop of `LOOP_DESCR_Is_Exit_Edge`. -/
def exitLoop (bb succ : Nat) : List LoopDescr → Option LoopDescr → Option LoopDescr
  | [], exitloop => exitloop
  | loop :: next, exitloop =>
    if bb ∈ loop.bbset ∧ succ ∉ loop.bbset then
      if loop.nestlevel = 1 then some loop else exitLoop bb succ next (some loop)
    else exitLoop bb succ next exitloop

/-- `LOOP_DESCR_Is_Exit_Edge`. -/
def isExitEdge (theLoops : List LoopDescr) (map : Nat → Option Nat) (bb succ : Nat) :
    Option LoopDescr :=
  match map bb with
  | none => none
  | some i => exitLoop bb succ (theLoops.drop i) none

/-! ## What loops are -/

/-- Blocks that the search from the roots reaches. -/
def Reachable (b : Nat) : Prop := ∃ r, r ∈ g.roots ∧ Reaches g.Edge r b

/-- `h` is on every path from the roots to `b`. -/
def Dom (h b : Nat) : Prop := Dominates g.Edge (· ∈ g.roots) h b

/-- An edge, of a block that can be reached, whose target dominates its source. -/
def BackEdge (t h : Nat) : Prop := g.Edge t h ∧ g.Reachable t ∧ g.Dom h t

/-- The natural loop of a back edge: the head, and what reaches the tail past it. -/
def NaturalLoop (t h m : Nat) : Prop := m = h ∨ ∃ p, Path g.Edge m t p ∧ h ∉ p

variable {g}

variable {r t m t' h' fuel : Nat} {dfoMap : Nat → Nat}

theorem roots_mem (h : r ∈ g.roots) : r ∈ g.bbs := by
  unfold roots at h
  split at h
  · rename_i e he
    rw [mem_singleton.mp h]
    exact g.regionEntry_mem e he
  · rcases mem_append.mp h with h | h
    · exact g.entryHead_mem r h
    · split at h
      · exact (mem_filter.mp h).1
      · cases h

theorem Reachable.mem {b : Nat} (h : g.Reachable b) : b ∈ g.bbs := by
  obtain ⟨r, hr, p, hp⟩ := h
  exact FlowGraph.Path.mem_bbs (roots_mem hr) hp b hp.last_mem

theorem BackEdge.reachable {h : Nat} (hb : g.BackEdge t h) : g.Reachable h := by
  obtain ⟨he, ⟨r, hr, hreach⟩, -⟩ := hb
  exact ⟨r, hr, hreach.snoc he⟩

theorem NaturalLoop.dom {h : Nat} (hm : g.NaturalLoop t h m) (hb : g.BackEdge t h) :
    g.Dom h m := by
  rcases hm with rfl | ⟨p, hp, hnot⟩
  · exact Dominates.refl m
  · exact hb.2.2.of_path hp hnot

theorem NaturalLoop.sub {h : Nat} (hb : g.BackEdge t h) (hb' : g.BackEdge t' h')
    (hne : h ≠ h') (hh : g.NaturalLoop t' h' h) (hm : g.NaturalLoop t h m) :
    g.NaturalLoop t' h' m := by
  have hdom : g.Dom h' h := hh.dom hb'
  obtain ⟨q, hq, hq'⟩ := hh.resolve_left hne
  rcases hm with rfl | ⟨p, hp, hp'⟩
  · exact .inr ⟨q, hq, hq'⟩
  · have hmiss : h' ∉ p := by
      intro hmem
      -- from the outer head there would be a way into the loop past its own head
      obtain ⟨r, s, rfl, -⟩ := eq_append_cons_of_mem hmem
      refine hne (hdom.antisymm (hb.2.2.of_path hp.split.1 fun hx => hp' ?_) hb.reachable).symm
      rcases mem_append.mp hx with hx | hx
      · exact mem_append_left _ hx
      · rw [mem_singleton.mp hx]
        exact hmem
    obtain ⟨r, hr, hmem⟩ := (hp.snoc hb.1).append hq
    refine .inr ⟨r, hr, fun hx => ?_⟩
    rcases (hmem h').mp hx with hx | hx
    · rcases mem_cons.mp hx with rfl | hx
      · exact hne rfl
      · exact hmiss hx
    · exact hq' hx

theorem NaturalLoop.head_mem {h : Nat} (hb : g.BackEdge t h) (hb' : g.BackEdge t' h')
    (hdom : g.Dom h' h) (hm : g.NaturalLoop t h m) (hm' : g.NaturalLoop t' h' m)
    (hreach : g.Reachable m) : g.NaturalLoop t' h' h := by
  by_cases hne : h' = h
  · exact .inl hne.symm
  · obtain ⟨p, hp, hp'⟩ := (hm.dom hb).path_below hdom hne hreach
    rcases hm' with rfl | ⟨q, hq, hq'⟩
    · -- the outer head is in the inner loop: then they dominate each other
      exact absurd (hdom.antisymm (hm.dom hb) hb.reachable) hne
    · obtain ⟨r, hr, hmem⟩ := hp.append hq
      exact .inr ⟨r, hr, fun hx => ((hmem h').mp hx).elim hp' hq'⟩

/-! ## The two searches -/

theorem mapDepthFirst_lawful : g.mapDepthFirst.Lawful := by
  intro _ v s w
  by_cases hw : w = v
  · simp [mapDepthFirst, hw]
  · simp [mapDepthFirst, hw]

theorem addAncestors_lawful : g.addAncestors.Lawful := by
  intro _ v s w
  simp [addAncestors]

/-- A numbered block is a root, or comes from a block with a smaller number. -/
structure DfoInv (g : LoopGraph) (s : (Nat → Nat) × Nat) : Prop where
  bound : ∀ b, s.1 b ≤ s.2
  mem : ∀ b, s.1 b ≠ 0 → b ∈ g.bbs
  src : ∀ b, s.1 b ≠ 0 → b ∈ g.roots ∨ ∃ p, s.1 p ≠ 0 ∧ s.1 p < s.1 b ∧ b ∈ g.succs p

/-- Numbering one more block: it is a root, or has a predecessor with a smaller number. -/
theorem DfoInv.mark {s : (Nat → Nat) × Nat} {p : Option Nat} {v : Nat} (h : DfoInv g s)
    (hnew : g.mapDepthFirst.seen s v = false) (hp : g.mapDepthFirst.Origin g.roots p v s) :
    DfoInv g (g.mapDepthFirst.mark p v s) := by
  have hv : s.1 v = 0 := by simpa [mapDepthFirst] using hnew
  have hself : (g.mapDepthFirst.mark p v s).1 v = s.2 + 1 := Function.update_self ..
  have hother : ∀ b, b ≠ v → (g.mapDepthFirst.mark p v s).1 b = s.1 b :=
    fun b hb => Function.update_of_ne hb ..
  have hparent : ∀ u, s.1 u ≠ 0 → (g.mapDepthFirst.mark p v s).1 u = s.1 u := by
    intro u hu
    refine hother u ?_
    rintro rfl
    exact hu hv
  refine ⟨fun b => ?_, fun b hb => ?_, fun b hb => ?_⟩
  · by_cases hbv : b = v
    · rw [hbv, hself]
      exact le_rfl
    · rw [hother b hbv]
      exact (h.bound b).trans (Nat.le_succ _)
  · by_cases hbv : b = v
    · subst hbv
      cases p with
      | none => exact roots_mem hp
      | some u => exact g.succs_mem u (h.mem u (by simpa [mapDepthFirst] using hp.1)) b hp.2
    · rw [hother b hbv] at hb
      exact h.mem b hb
  · by_cases hbv : b = v
    · subst hbv
      cases p with
      | none => exact .inl hp
      | some u =>
        have hu : s.1 u ≠ 0 := by simpa [mapDepthFirst] using hp.1
        refine .inr ⟨u, ?_, ?_, hp.2⟩
        · rwa [hparent u hu]
        · rw [hparent u hu, hself]
          exact Nat.lt_succ_of_le (h.bound u)
    · rw [hother b hbv] at hb ⊢
      refine (h.src b hb).imp id fun ⟨u, hu, hlt, hsucc⟩ => ⟨u, ?_, ?_, hsucc⟩
      · rwa [hparent u hu]
      · rwa [hparent u hu]

theorem DfoInv.path {s : (Nat → Nat) × Nat} (h : DfoInv g s) {b : Nat} (hb : s.1 b ≠ 0) :
    ∃ r, r ∈ g.roots ∧ ∃ p, Path g.Edge r b p ∧ ∀ x ∈ p, s.1 x ≤ s.1 b := by
  induction hn : s.1 b using Nat.strong_induction_on generalizing b with
  | _ n ih =>
    subst hn
    rcases h.src b hb with hroot | ⟨u, hu, hlt, hsucc⟩
    · refine ⟨b, hroot, [b], .single, fun x hx => ?_⟩
      rw [mem_singleton.mp hx]
    · obtain ⟨r, hr, p, hp, hle⟩ := ih (s.1 u) hlt hu rfl
      refine ⟨r, hr, b :: p, hp.snoc ⟨h.mem u hu, hsucc⟩, fun x hx => ?_⟩
      rcases mem_cons.mp hx with rfl | hx
      · exact le_rfl
      · exact (hle x hx).trans hlt.le

theorem reaches_adj_iff {b : Nat} (hr : r ∈ g.bbs) :
    Reaches g.mapDepthFirst.Adj r b ↔ Reaches g.Edge r b := by
  constructor
  · rintro ⟨p, hp⟩
    have hgen : Reaches g.Edge r b ∧ b ∈ g.bbs := by
      induction hp with
      | single => exact ⟨.refl r, hr⟩
      | snoc _ hadj ih => exact ⟨ih.1.snoc ⟨ih.2, hadj⟩, g.succs_mem _ ih.2 _ hadj⟩
    exact hgen.1
  · rintro ⟨p, hp⟩
    induction hp with
    | single => exact .refl r
    | snoc _ hedge ih => exact ih.snoc hedge.2

theorem depthFirstMap_spec (hfuel : g.bbs.toFinset.card ≤ fuel) :
    ∃ dfoMap, g.depthFirstMap fuel = some dfoMap ∧ (∀ b, dfoMap b ≠ 0 ↔ g.Reachable b) ∧
      ∀ h b, g.Reachable b → g.Dom h b → dfoMap h ≤ dfoMap b := by
  have hclosed : ∀ b ∈ g.bbs.toFinset, ∀ c ∈ g.mapDepthFirst.adj b, c ∈ g.bbs.toFinset :=
    fun b hb c hc => mem_toFinset.mpr (g.succs_mem b (mem_toFinset.mp hb) c hc)
  obtain ⟨s, hs⟩ := Search.visitAll_isSome mapDepthFirst_lawful hclosed
    (s := ((fun _ => 0 : Nat → Nat), 0)) (fun r hr => mem_toFinset.mpr (roots_mem hr)) hfuel
  have hinv : DfoInv g s := Search.visitAll_inv mapDepthFirst_lawful
    (fun p v s hs hnew hp => hs.mark hnew hp)
    ⟨fun b => le_rfl, fun b hb => absurd rfl hb, fun b hb => absurd rfl hb⟩ hs
  have hseen : ∀ b, s.1 b ≠ 0 ↔ g.Reachable b := by
    intro b
    have h := Search.visitAll_seen mapDepthFirst_lawful (fun v => rfl) hs (w := b)
    have hb : g.mapDepthFirst.seen s b = true ↔ s.1 b ≠ 0 := by simp [mapDepthFirst]
    rw [← hb, h]
    exact ⟨fun ⟨r, hr, hreach⟩ => ⟨r, hr, (reaches_adj_iff (roots_mem hr)).mp hreach⟩,
      fun ⟨r, hr, hreach⟩ => ⟨r, hr, (reaches_adj_iff (roots_mem hr)).mpr hreach⟩⟩
  refine ⟨s.1, ?_, hseen, fun h b hb hdom => ?_⟩
  · unfold depthFirstMap
    rw [hs]
    rfl
  · obtain ⟨r, hr, p, hp, hle⟩ := hinv.path ((hseen b).mpr hb)
    exact hle h (hdom r p hr hp)

theorem ancestors_path {p : List Nat} (ht : t ∈ g.bbs) (hp : Path g.addAncestors.Adj t m p) :
    m ∈ g.bbs ∧ ∃ q, Path g.Edge m t q ∧ ∀ x, x ∈ q ↔ x ∈ p := by
  induction hp with
  | single => exact ⟨ht, [t], .single, fun _ => Iff.rfl⟩
  | snoc _ hadj ih =>
    obtain ⟨hb, q, hq, hmem⟩ := ih
    have hedge := FlowGraph.edge_of_pred hb hadj
    obtain ⟨r, hr, hmem'⟩ := (Path.single.snoc hedge).append hq
    refine ⟨hedge.1, r, hr, fun x => ?_⟩
    rw [hmem', hmem, mem_cons, mem_singleton, mem_cons]
    constructor
    · rintro ((rfl | rfl) | hx)
      · exact .inr ((hmem _).mp hq.first_mem)
      · exact .inl rfl
      · exact .inr hx
    · rintro (rfl | hx)
      · exact .inl (.inr rfl)
      · exact .inr hx

theorem path_ancestors {q : List Nat} (hq : Path g.Edge m t q) :
    ∃ p, Path g.addAncestors.Adj t m p ∧ ∀ x ∈ p, x ∈ q := by
  refine Path.head_induction (C := fun m q => ∃ p, Path g.addAncestors.Adj t m p ∧ ∀ x ∈ p, x ∈ q)
    ⟨[t], .single, fun x hx => hx⟩ ?_ hq
  rintro a c q hedge - ⟨p, hp, hsub⟩
  refine ⟨a :: p, hp.snoc hedge.pred_mem, fun x hx => ?_⟩
  rcases mem_cons.mp hx with rfl | hx
  · exact mem_append_right _ (mem_singleton_self _)
  · exact mem_append_left _ (hsub x hx)

/-- The backward search from the tail of a back edge collects its natural loop. -/
theorem newLoop_spec {h : Nat} (hfuel : g.bbs.toFinset.card ≤ fuel) (ht : t ∈ g.bbs) :
    ∃ l, g.newLoop fuel t h = some l ∧ l.loophead = h ∧ l.nestlevel = 1 ∧
      ∀ m, m ∈ l.bbset ↔ g.NaturalLoop t h m := by
  unfold newLoop
  by_cases hth : t = h
  · subst hth
    rw [if_neg (not_not_intro rfl)]
    refine ⟨_, rfl, rfl, rfl, fun m => ?_⟩
    rw [Finset.mem_singleton]
    exact ⟨.inl, fun hm => hm.resolve_right fun ⟨p, hp, hnot⟩ => hnot hp.last_mem⟩
  · rw [if_pos hth]
    have hclosed : ∀ b ∈ g.bbs.toFinset, ∀ c ∈ g.addAncestors.adj b, c ∈ g.bbs.toFinset :=
      fun b hb c hc => mem_toFinset.mpr (g.preds_mem b (mem_toFinset.mp hb) c hc)
    have hseen : ∀ (s : Finset Nat) (b : Nat), g.addAncestors.seen s b = true ↔ b ∈ s :=
      fun s b => by simp [addAncestors]
    have hnew : g.addAncestors.seen {h} t = false := by
      simp [addAncestors, hth]
    obtain ⟨s, hs⟩ := Search.visit_isSome addAncestors_lawful hclosed (p := none)
      (mem_toFinset.mpr ht) hnew ((Finset.card_filter_le _ _).trans hfuel)
    rw [hs]
    refine ⟨_, rfl, rfl, rfl, fun m => ?_⟩
    have hiff := Search.visit_seen addAncestors_lawful hnew hs (w := m)
    rw [hseen, hseen, Finset.mem_singleton] at hiff
    rw [hiff]
    refine or_congr_right ⟨fun ⟨p, hp, hfresh⟩ => ?_, fun ⟨q, hq, hnot⟩ => ?_⟩
    · obtain ⟨-, q, hq, hmem⟩ := ancestors_path ht hp
      refine ⟨q, hq, fun hx => ?_⟩
      have := hfresh h ((hmem h).mp hx)
      simp [addAncestors] at this
    · obtain ⟨p, hp, hsub⟩ := path_ancestors hq
      refine ⟨p, hp, fun x hx => ?_⟩
      have hxh : x ≠ h := by
        rintro rfl
        exact hnot (hsub x hx)
      simp [addAncestors, hxh]

/-! ## The list of loops -/

/-- A descriptor of some of the back edges to its head. -/
def IsLoop (g : LoopGraph) (l : LoopDescr) : Prop :=
  ∃ T : Nat → Prop, (∃ t, T t) ∧ (∀ t, T t → g.BackEdge t l.loophead) ∧
    ∀ m, m ∈ l.bbset ↔ ∃ t, T t ∧ g.NaturalLoop t l.loophead m

section IsLoop

variable {l l' : LoopDescr}

section

variable (h : g.IsLoop l)
include h

theorem IsLoop.head_mem : l.loophead ∈ l.bbset := by
  obtain ⟨T, ⟨t, ht⟩, -, hmem⟩ := h
  exact (hmem _).mpr ⟨t, ht, .inl rfl⟩

theorem IsLoop.reachable : g.Reachable l.loophead := by
  obtain ⟨T, ⟨t, ht⟩, hback, -⟩ := h
  exact (hback t ht).reachable

theorem IsLoop.dom {m : Nat} (hm : m ∈ l.bbset) : g.Dom l.loophead m := by
  obtain ⟨T, -, hback, hmem⟩ := h
  obtain ⟨t, ht, hnat⟩ := (hmem m).mp hm
  exact hnat.dom (hback t ht)

theorem IsLoop.sub (h' : g.IsLoop l') (hne : l.loophead ≠ l'.loophead)
    (hhead : l.loophead ∈ l'.bbset) : l.bbset ⊆ l'.bbset := by
  obtain ⟨T, -, hback, hmem⟩ := h
  obtain ⟨T', -, hback', hmem'⟩ := h'
  intro m hm
  obtain ⟨t, ht, hnat⟩ := (hmem m).mp hm
  obtain ⟨t', ht', hnat'⟩ := (hmem' _).mp hhead
  exact (hmem' m).mpr ⟨t', ht', hnat'.sub (hback t ht) (hback' t' ht') hne hnat⟩

theorem IsLoop.antisymm (h' : g.IsLoop l') (hhead : l.loophead ∈ l'.bbset)
    (hhead' : l'.loophead ∈ l.bbset) : l.loophead = l'.loophead :=
  (h.dom hhead').antisymm (h'.dom hhead) h'.reachable

theorem IsLoop.chain (h' : g.IsLoop l') (hreach : g.Reachable m)
    (hm : m ∈ l.bbset) (hm' : m ∈ l'.bbset) : l.loophead ∈ l'.bbset ∨ l'.loophead ∈ l.bbset:= by
  have hdom := h.dom hm
  have hdom' := h'.dom hm'
  obtain ⟨T, -, hback, hmem⟩ := h
  obtain ⟨T', -, hback', hmem'⟩ := h'
  obtain ⟨t, ht, hnat⟩ := (hmem m).mp hm
  obtain ⟨t', ht', hnat'⟩ := (hmem' m).mp hm'
  rcases hdom.total hdom' hreach with hd | hd
  · exact .inr ((hmem _).mpr ⟨t, ht, hnat'.head_mem (hback' t' ht') (hback t ht) hd hnat hreach⟩)
  · exact .inl ((hmem' _).mpr ⟨t', ht', hnat.head_mem (hback t ht) (hback' t' ht') hd hnat' hreach⟩)

theorem IsLoop.union (h' : g.IsLoop l') (heq : l'.loophead = l.loophead) :
    g.IsLoop { l with bbset := l.bbset ∪ l'.bbset } := by
  obtain ⟨T, ⟨t, ht⟩, hback, hmem⟩ := h
  obtain ⟨T', -, hback', hmem'⟩ := h'
  rw [heq] at hback' hmem'
  refine ⟨fun t => T t ∨ T' t, ⟨t, .inl ht⟩, fun t ht => ht.elim (hback t) (hback' t),
    fun m => ?_⟩
  rw [Finset.mem_union, hmem, hmem', ← exists_or]
  exact exists_congr fun t => or_and_right.symm

end

end IsLoop

/-- No loop has the head of a later one: inner loops come first. -/
def Ordered (ls : List LoopDescr) : Prop := ls.Pairwise fun l l' => l'.loophead ∉ l.bbset

/-- Inserting a loop, by induction on the list: it is merged with a loop of the same head, and the
list stays ordered by nesting. -/
theorem insertLoop_spec {ls : List LoopDescr} : ∀ {new : LoopDescr}, g.IsLoop new →
    (∀ l ∈ ls, g.IsLoop l) → Ordered ls → Ordered (insertLoop new ls) ∧
      (∀ l ∈ insertLoop new ls, l ∈ ls ∧ l.loophead ≠ new.loophead ∨
        l.loophead = new.loophead ∧ l.nestlevel = new.nestlevel ∧
          ∀ m, m ∈ l.bbset ↔ m ∈ new.bbset ∨ ∃ c ∈ ls, c.loophead = new.loophead ∧ m ∈ c.bbset) ∧
      (∀ l ∈ ls, l.loophead ≠ new.loophead → l ∈ insertLoop new ls) ∧
      ∃ l ∈ insertLoop new ls, l.loophead = new.loophead := by
  induction ls with
  | nil =>
    -- at the end of the list
    intro new hnew _ _
    unfold insertLoop
    refine ⟨pairwise_singleton _ _, fun l hl => .inr ?_, fun l hl => (by cases hl),
      new, mem_singleton_self _, rfl⟩
    rw [mem_singleton.mp hl]
    exact ⟨rfl, rfl, fun m => by simp⟩
  | cons c ls ih =>
    intro new hnew hls hord
    have hc := hls c mem_cons_self
    have hls' : ∀ l ∈ ls, g.IsLoop l := fun l hl => hls l (mem_cons_of_mem c hl)
    obtain ⟨hcls, hord'⟩ := pairwise_cons.mp hord
    unfold insertLoop
    split
    · -- merged with `c`
      rename_i heq
      obtain ⟨ho, hmem, hkeep, hex⟩ := ih (hnew.union hc heq) hls' hord'
      refine ⟨ho, fun l hl => ?_, fun l hl hne => ?_, hex⟩
      · rcases hmem l hl with ⟨hl, hne⟩ | ⟨hhead, hnest, hset⟩
        · exact .inl ⟨mem_cons_of_mem c hl, hne⟩
        · refine .inr ⟨hhead, hnest, fun m => ?_⟩
          rw [hset m, Finset.mem_union]
          simp [heq, or_assoc]
      · rcases mem_cons.mp hl with rfl | hl
        · exact absurd heq hne
        · exact hkeep l hl hne
    · rename_i hne
      split
      · -- before `c`, which contains it
        rename_i hsub
        have hout : c.loophead ∉ new.bbset := fun hmem =>
          hne (hc.antisymm hnew hmem (hsub hnew.head_mem))
        have hlater : ∀ l ∈ c :: ls, l.loophead ∉ new.bbset := by
          intro l hl hmem
          rcases mem_cons.mp hl with rfl | hl
          · exact hout hmem
          · exact hcls l hl (hsub hmem)
        have hheads : ∀ l ∈ c :: ls, l.loophead ≠ new.loophead := fun l hl heq =>
          hlater l hl (heq ▸ hnew.head_mem)
        refine ⟨pairwise_cons.mpr ⟨hlater, hord⟩, fun l hl => ?_,
          fun l hl _ => mem_cons_of_mem new hl, new, mem_cons_self, rfl⟩
        rcases mem_cons.mp hl with rfl | hl
        · refine .inr ⟨rfl, rfl, fun m => ⟨.inl, fun hm => hm.resolve_right ?_⟩⟩
          rintro ⟨d, hd, heq, -⟩
          exact hheads d hd heq
        · exact .inl ⟨hl, hheads l hl⟩
      · -- behind `c`
        rename_i hsub
        obtain ⟨ho, hmem, hkeep, l, hl, hhead⟩ := ih hnew hls' hord'
        refine ⟨pairwise_cons.mpr ⟨fun l hl => ?_, ho⟩, fun l hl => ?_, fun l hl hne' => ?_,
          l, mem_cons_of_mem c hl, hhead⟩
        · rcases hmem l hl with ⟨hl, -⟩ | ⟨hhead, -, -⟩
          · exact hcls l hl
          · rw [hhead]
            exact fun hin => hsub (hnew.sub hc (Ne.symm hne) hin)
        · rcases mem_cons.mp hl with rfl | hl
          · exact .inl ⟨mem_cons_self, hne⟩
          · rcases hmem l hl with ⟨hl, hne'⟩ | ⟨hhead, hnest, hset⟩
            · exact .inl ⟨mem_cons_of_mem c hl, hne'⟩
            · refine .inr ⟨hhead, hnest, fun m => ?_⟩
              rw [hset m]
              simp [hne]
        · rcases mem_cons.mp hl with rfl | hl
          · exact mem_cons_self
          · exact mem_cons_of_mem c (hkeep l hl hne')

/-- The loops of the back edges in `E`, inner ones first. -/
structure LoopList (g : LoopGraph) (E : Nat → Nat → Prop) (ls : List LoopDescr) : Prop where
  back : ∀ t h, E t h → g.BackEdge t h
  ordered : Ordered ls
  tail : ∀ l ∈ ls, ∃ t, E t l.loophead
  exact : ∀ l ∈ ls, ∀ m, m ∈ l.bbset ↔ ∃ t, E t l.loophead ∧ g.NaturalLoop t l.loophead m
  all : ∀ t h, E t h → ∃ l ∈ ls, l.loophead = h

/-- While the list is built, every nest level is 1. -/
structure LoopsOf (g : LoopGraph) (E : Nat → Nat → Prop) (ls : List LoopDescr) : Prop
    extends LoopList g E ls where
  nest : ∀ l ∈ ls, l.nestlevel = 1

theorem LoopList.isLoop {E : Nat → Nat → Prop} {ls : List LoopDescr} (h : LoopList g E ls)
    {l : LoopDescr} (hl : l ∈ ls) : g.IsLoop l :=
  ⟨fun t => E t l.loophead, h.tail l hl, fun t ht => h.back t _ ht, h.exact l hl⟩

theorem LoopsOf.congr {E E' : Nat → Nat → Prop} {ls : List LoopDescr} (h : LoopsOf g E ls)
    (heq : ∀ t h, E t h ↔ E' t h) : LoopsOf g E' ls := by
  have : E = E' := funext fun t => funext fun h => propext (heq t h)
  rwa [← this]

section

variable {E : Nat → Nat → Prop} {ls : List LoopDescr}

/-- One more back edge: the list then holds one loop for each head met so far, the union of its
natural loops. -/
theorem LoopsOf.insert (h : LoopsOf g E ls)
    {t : Nat} {new : LoopDescr} (hback : g.BackEdge t new.loophead) (hnest : new.nestlevel = 1)
    (hset : ∀ m, m ∈ new.bbset ↔ g.NaturalLoop t new.loophead m) :
    LoopsOf g (fun t' h' => E t' h' ∨ t' = t ∧ h' = new.loophead) (insertLoop new ls) := by
  have hnew : g.IsLoop new :=
    ⟨fun t' => t' = t, ⟨t, rfl⟩, fun t' ht => ht ▸ hback, fun m => by simp [hset m]⟩
  obtain ⟨ho, hmem, hkeep, hex⟩ := insertLoop_spec hnew (fun l hl => h.isLoop hl) h.ordered
  refine ⟨⟨?_, ho, fun l hl => ?_, fun l hl m => ?_, ?_⟩, fun l hl => ?_⟩
  · rintro t' h' (he | ⟨rfl, rfl⟩)
    · exact h.back t' h' he
    · exact hback
  · rcases hmem l hl with ⟨hl, -⟩ | ⟨hhead, -, -⟩
    · obtain ⟨t', ht'⟩ := h.tail l hl
      exact ⟨t', .inl ht'⟩
    · exact ⟨t, .inr ⟨rfl, hhead⟩⟩
  · rcases hmem l hl with ⟨hl, hne⟩ | ⟨hhead, -, hunion⟩
    · rw [h.exact l hl m]
      simp [hne]
    · rw [hunion m, hset m, hhead]
      constructor
      · rintro (hm | ⟨c, hc, heq, hm⟩)
        · exact ⟨t, .inr ⟨rfl, rfl⟩, hm⟩
        · obtain ⟨t', ht', hm⟩ := (h.exact c hc m).mp hm
          rw [heq] at ht' hm
          exact ⟨t', .inl ht', hm⟩
      · rintro ⟨t', ht' | ⟨rfl, -⟩, hm⟩
        · obtain ⟨c, hc, heq⟩ := h.all t' _ ht'
          refine .inr ⟨c, hc, heq, (h.exact c hc m).mpr ⟨t', ?_, ?_⟩⟩
          · rwa [heq]
          · rwa [heq]
        · exact .inl hm
  · rintro t' h' (he | ⟨-, rfl⟩)
    · obtain ⟨c, hc, heq⟩ := h.all t' h' he
      by_cases hne : c.loophead = new.loophead
      · obtain ⟨l, hl, hhead⟩ := hex
        exact ⟨l, hl, by rw [hhead, ← hne, heq]⟩
      · exact ⟨c, hkeep c hc hne, heq⟩
    · exact hex
  · rcases hmem l hl with ⟨hl, -⟩ | ⟨-, hnest', -⟩
    · exact h.nest l hl
    · rw [hnest', hnest]

theorem visitEdge_loopsOf
    {dom : Nat → Finset Nat} {h : Nat} (hls : LoopsOf g E ls)
    (hfuel : g.bbs.toFinset.card ≤ fuel) (ht : g.Reachable t) (hsucc : h ∈ g.succs t)
    (hdfo : g.Dom h t → dfoMap h ≤ dfoMap t) (hdom : h ∈ dom t ↔ g.Dom h t) :
    ∃ ls', g.visitEdge dfoMap dom fuel t ls h = some ls' ∧
      LoopsOf g (fun t' h' => E t' h' ∨ t' = t ∧ h' = h ∧ g.BackEdge t h) ls' := by
  have hback : g.BackEdge t h ↔ g.Dom h t := ⟨fun hb => hb.2.2, fun hd => ⟨⟨ht.mem, hsucc⟩, ht, hd⟩⟩
  have hkeep : ¬ g.Dom h t →
      LoopsOf g (fun t' h' => E t' h' ∨ t' = t ∧ h' = h ∧ g.BackEdge t h) ls := by
    intro hnot
    refine hls.congr fun t' h' => ⟨.inl, fun hor => hor.resolve_right ?_⟩
    rintro ⟨-, -, hb⟩
    exact hnot (hback.mp hb)
  unfold LoopGraph.visitEdge
  split
  · rename_i hlt
    -- a dominator has no larger number
    exact ⟨ls, rfl, hkeep fun hd => absurd (hdfo hd) (not_le.mpr hlt)⟩
  · split
    · rename_i hmem
      exact ⟨ls, rfl, hkeep fun hd => hmem (hdom.mpr hd)⟩
    · rename_i hmem
      have hb := hback.mpr (hdom.mp (not_not.mp hmem))
      obtain ⟨new, hnew, hhead, hnest, hset⟩ := newLoop_spec (h := h) hfuel ht.mem
      subst hhead
      rw [hnew]
      refine ⟨_, rfl, (hls.insert hb hnest hset).congr fun t' h' => ?_⟩
      simp [hb]

theorem visitEdges_loopsOf
    {dom : Nat → Finset Nat} (hls : LoopsOf g E ls)
    (hfuel : g.bbs.toFinset.card ≤ fuel) (ht : g.Reachable t)
    (hdfo : ∀ h, g.Dom h t → dfoMap h ≤ dfoMap t) (hdom : ∀ h, h ∈ dom t ↔ g.Dom h t) :
    ∃ ls', (g.succs t).foldlM (g.visitEdge dfoMap dom fuel t) ls = some ls' ∧
      LoopsOf g (fun t' h => E t' h ∨ t' = t ∧ g.BackEdge t h) ls' := by
  have hstep : ∀ (done : List Nat) (s : Nat) (ls : List LoopDescr), s ∈ g.succs t →
      LoopsOf g (fun t' h => E t' h ∨ t' = t ∧ h ∈ done ∧ g.BackEdge t h) ls →
      ∃ ls', g.visitEdge dfoMap dom fuel t ls s = some ls' ∧
        LoopsOf g (fun t' h => E t' h ∨ t' = t ∧ h ∈ s :: done ∧ g.BackEdge t h) ls' := by
    intro done s ls hs hinv
    obtain ⟨ls', hls', hinv'⟩ := visitEdge_loopsOf hinv hfuel ht hs (hdfo s) (hdom s)
    refine ⟨ls', hls', hinv'.congr fun t' h => ?_⟩
    rw [mem_cons]
    constructor
    · rintro ((he | ⟨rfl, hh, he⟩) | ⟨rfl, rfl, he⟩)
      · exact .inl he
      · exact .inr ⟨rfl, .inr hh, he⟩
      · exact .inr ⟨rfl, .inl rfl, he⟩
    · rintro (he | ⟨rfl, rfl | hh, he⟩)
      · exact .inl (.inl he)
      · exact .inr ⟨rfl, rfl, he⟩
      · exact .inl (.inr ⟨rfl, hh, he⟩)
  obtain ⟨ls', hls', hinv⟩ := Loop.foldlM_total
    (J := fun done ls => LoopsOf g (fun t' h => E t' h ∨ t' = t ∧ h ∈ done ∧ g.BackEdge t h) ls)
    [] hstep (hls.congr fun t' h => by simp)
  refine ⟨ls', hls', hinv.congr fun t' h => or_congr_right (and_congr_right fun _ => ?_)⟩
  rw [append_nil, mem_reverse]
  exact ⟨And.right, fun he => ⟨he.1.2, he⟩⟩

end

/-- All back edges in turn give the loops of all back edges. -/
theorem findLoops_spec {dom : Nat → Finset Nat}
    (hfuel : g.bbs.toFinset.card ≤ fuel) (hseen : ∀ b, dfoMap b ≠ 0 ↔ g.Reachable b)
    (hdfo : ∀ h b, g.Reachable b → g.Dom h b → dfoMap h ≤ dfoMap b)
    (hdom : ∀ b, g.Reachable b → ∀ x, x ∈ dom b ↔ g.Dom x b) :
    ∃ ls, g.findLoops dfoMap dom fuel = some ls ∧ LoopsOf g g.BackEdge ls := by
  have hstep : ∀ (done : List Nat) (b : Nat) (ls : List LoopDescr), b ∈ g.bbs →
      LoopsOf g (fun t h => t ∈ done ∧ g.BackEdge t h) ls → ∃ ls', (if dfoMap b = 0 then some ls
          else (g.succs b).foldlM (g.visitEdge dfoMap dom fuel b) ls) = some ls' ∧
        LoopsOf g (fun t h => t ∈ b :: done ∧ g.BackEdge t h) ls' := by
    intro done b ls _ hinv
    by_cases hzero : dfoMap b = 0
    · -- a block that is not reached has no back edges
      refine ⟨ls, if_pos hzero, hinv.congr fun t h => ?_⟩
      rw [mem_cons]
      refine ⟨fun he => ⟨.inr he.1, he.2⟩, fun he => ⟨he.1.resolve_left ?_, he.2⟩⟩
      rintro rfl
      exact (hseen t).mpr he.2.2.1 hzero
    · have hreach := (hseen b).mp hzero
      obtain ⟨ls', hls', hinv'⟩ := visitEdges_loopsOf hinv hfuel hreach
        (fun h => hdfo h b hreach) (hdom b hreach)
      refine ⟨ls', (if_neg hzero).trans hls', hinv'.congr fun t h => ?_⟩
      rw [mem_cons]
      constructor
      · rintro (⟨ht, he⟩ | ⟨rfl, he⟩)
        · exact ⟨.inr ht, he⟩
        · exact ⟨.inl rfl, he⟩
      · rintro ⟨rfl | ht, he⟩
        · exact .inr ⟨rfl, he⟩
        · exact .inl ⟨ht, he⟩
  have hstart : LoopsOf g (fun t h => t ∈ ([] : List Nat) ∧ g.BackEdge t h) [] := by
    refine ⟨⟨fun t h he => (by cases he.1), List.Pairwise.nil, ?_, ?_, fun t h he => (by cases he.1)⟩, ?_⟩
    all_goals
      intro l hl
      cases hl
  obtain ⟨ls, hls, hinv⟩ := Loop.foldlM_total
    (J := fun done ls => LoopsOf g (fun t h => t ∈ done ∧ g.BackEdge t h) ls) [] hstep hstart
  refine ⟨ls, hls, hinv.congr fun t h => ⟨fun he => he.2, fun he => ⟨?_, he⟩⟩⟩
  rw [append_nil]
  exact mem_reverse.mpr he.1.1

/-! ## What relies on the order -/

theorem foldl_nestlevel {l : LoopDescr} (ls : List LoopDescr) : ∀ n : Nat,
    ls.foldl (fun n enclLoop => if l.bbset ⊆ enclLoop.bbset then n + 1 else n) n
      = n + ls.countP fun l' => l.bbset ⊆ l'.bbset := by
  induction ls with
  | nil => exact fun n => rfl
  | cons c ls ih =>
    intro n
    rw [foldl_cons, ih, countP_cons]
    by_cases hsub : l.bbset ⊆ c.bbset
    · simp only [hsub, if_true, decide_true]
      omega
    · simp [hsub]

theorem setNestlevels_map (ls : List LoopDescr) :
    (setNestlevels ls).map (fun l => (l.bbset, l.loophead))
      = ls.map fun l => (l.bbset, l.loophead) := by
  induction ls with
  | nil => rfl
  | cons c ls ih =>
    unfold setNestlevels
    rw [map_cons, map_cons, ih]

section

variable {ls : List LoopDescr}

theorem setNestlevels_level (hls : ∀ l ∈ ls, l.nestlevel = 1) :
    ∀ {pre post : List LoopDescr} {l : LoopDescr}, setNestlevels ls = pre ++ l :: post →
      l.nestlevel = 1 + post.countP fun l' => l.bbset ⊆ l'.bbset := by
  induction ls with
  | nil =>
    intro pre post l h
    cases pre <;> cases h
  | cons c ls ih =>
    intro pre post l h
    unfold setNestlevels at h
    cases pre with
    | cons d pre =>
      rw [cons_append] at h
      exact ih (fun l hl => hls l (mem_cons_of_mem c hl)) (cons.inj h).2
    | nil =>
      rw [nil_append] at h
      obtain ⟨rfl, rfl⟩ := cons.inj h
      simp only
      rw [foldl_nestlevel, hls c mem_cons_self]
      -- only the sets are counted
      have hmap := congrArg (countP fun q : Finset Nat × Nat => c.bbset ⊆ q.1)
        (setNestlevels_map ls)
      rw [countP_map, countP_map] at hmap
      exact congrArg (1 + ·) hmap.symm

/-- Each block is mapped to the first loop of the list that has it, which is the innermost one. -/
theorem setLoopMap_spec {b : Nat} : ∀ {i : Nat} {m : Nat → Option Nat},
    (∀ k, m b = some k → setLoopMap ls i m b = some k) ∧
      (m b = none → match setLoopMap ls i m b with
        | none => ∀ l ∈ ls, b ∉ l.bbset
        | some k => ∃ pre l post, ls = pre ++ l :: post ∧ k = i + pre.length ∧ b ∈ l.bbset ∧
            ∀ l' ∈ pre, b ∉ l'.bbset) := by
  induction ls with
  | nil =>
    intro i m
    refine ⟨fun k hk => hk, fun hnone => ?_⟩
    unfold setLoopMap
    rw [hnone]
    exact fun l hl => by cases hl
  | cons c ls ih =>
    intro i m
    unfold setLoopMap
    refine ⟨fun k hk => ih.1 k ?_, fun hnone => ?_⟩
    · simp [hk]
    · by_cases hb : b ∈ c.bbset
      · rw [ih.1 i (by simp [hb, hnone])]
        exact ⟨[], c, ls, rfl, rfl, hb, fun l hl => by cases hl⟩
      · have h := (ih (i := i + 1) (m := fun bb =>
          if bb ∈ c.bbset ∧ m bb = none then some i else m bb)).2 (by simp [hb, hnone])
        revert h
        cases setLoopMap ls (i + 1) (fun bb =>
            if bb ∈ c.bbset ∧ m bb = none then some i else m bb) b with
        | none =>
          intro h l hl
          rcases mem_cons.mp hl with rfl | hl
          · exact hb
          · exact h l hl
        | some k =>
          rintro ⟨pre, l, post, rfl, rfl, hl, hpre⟩
          refine ⟨c :: pre, l, post, rfl, ?_, hl, fun l' hl' => ?_⟩
          · rw [length_cons]
            omega
          · rcases mem_cons.mp hl' with rfl | hl'
            · exact hb
            · exact hpre l' hl'

theorem mem_of_setNestlevels {l : LoopDescr} (hl : l ∈ setNestlevels ls) :
    ∃ l' ∈ ls, l'.bbset = l.bbset ∧ l'.loophead = l.loophead := by
  have h := mem_map_of_mem (f := fun l : LoopDescr => (l.bbset, l.loophead)) hl
  rw [setNestlevels_map, mem_map] at h
  obtain ⟨l', hl', heq⟩ := h
  exact ⟨l', hl', (Prod.mk.inj heq).1, (Prod.mk.inj heq).2⟩

theorem setNestlevels_of_mem {l : LoopDescr} (hl : l ∈ ls) :
    ∃ l' ∈ setNestlevels ls, l'.bbset = l.bbset ∧ l'.loophead = l.loophead := by
  have h := mem_map_of_mem (f := fun l : LoopDescr => (l.bbset, l.loophead)) hl
  rw [← setNestlevels_map, mem_map] at h
  obtain ⟨l', hl', heq⟩ := h
  exact ⟨l', hl', (Prod.mk.inj heq).1, (Prod.mk.inj heq).2⟩

end

theorem setLoopMap_setNestlevels (ls : List LoopDescr) : ∀ (i : Nat) (m : Nat → Option Nat),
    setLoopMap (setNestlevels ls) i m = setLoopMap ls i m := by
  induction ls with
  | nil => exact fun i m => rfl
  | cons c ls ih =>
    intro i m
    unfold setNestlevels setLoopMap
    exact ih _ _

section Listed

variable {E : Nat → Nat → Prop} {ls : List LoopDescr}

theorem LoopList.setNestlevels (h : LoopList g E ls) : LoopList g E (setNestlevels ls) := by
  refine ⟨h.back, ?_, fun l hl => ?_, fun l hl m => ?_, fun t b he => ?_⟩
  · have hord : (ls.map fun l => (l.bbset, l.loophead)).Pairwise fun q q' => q'.2 ∉ q.1 :=
      pairwise_map.mpr h.ordered
    rw [← setNestlevels_map] at hord
    exact pairwise_map.mp hord
  · obtain ⟨l', hl', -, hhead⟩ := mem_of_setNestlevels hl
    rw [← hhead]
    exact h.tail l' hl'
  · obtain ⟨l', hl', hset, hhead⟩ := mem_of_setNestlevels hl
    rw [← hhead, ← hset]
    exact h.exact l' hl' m
  · obtain ⟨l, hl, hhead⟩ := h.all t b he
    obtain ⟨l', hl', -, hhead'⟩ := setNestlevels_of_mem hl
    exact ⟨l', hl', hhead'.trans hhead⟩

section

variable {pre post : List LoopDescr} {l l' : LoopDescr} (h : LoopList g E (pre ++ l :: post))
  (hl' : l' ∈ post)
include h hl'

theorem LoopList.head_not_mem : l'.loophead ∉ l.bbset :=
  (pairwise_cons.mp (pairwise_append.mp h.ordered).2.1).1 l' hl'

theorem LoopList.before {b : Nat} (hreach : g.Reachable b)
    (hb : b ∈ l.bbset) (hb' : b ∈ l'.bbset) : l.bbset ⊂ l'.bbset := by
  have hout := h.head_not_mem hl'
  have hisl : g.IsLoop l := h.isLoop (by simp)
  have hisl' : g.IsLoop l' := h.isLoop (by simp [hl'])
  have hhead := (hisl.chain hisl' hreach hb hb').resolve_right hout
  have hne : l.loophead ≠ l'.loophead := fun heq => hout (heq ▸ hisl.head_mem)
  exact (Finset.ssubset_iff_of_subset (hisl.sub hisl' hne hhead)).mpr
    ⟨l'.loophead, hisl'.head_mem, hout⟩

end

theorem LoopList.nodup (h : LoopList g E ls) : (ls.map LoopDescr.loophead).Nodup := by
  refine pairwise_map.mpr (List.Pairwise.imp_of_mem ?_ h.ordered)
  intro l l' hl _ hout heq
  exact hout (heq ▸ (h.isLoop hl).head_mem)

theorem LoopList.lt_of_ssubset (h : LoopList g E ls) {i j : Nat} (hi : i < ls.length)
    (hj : j < ls.length) (hsub : ls[i].bbset ⊂ ls[j].bbset) : i < j := by
  by_contra hle
  rcases Nat.lt_or_eq_of_le (not_lt.mp hle) with hlt | rfl
  · have hout := pairwise_iff_getElem.mp h.ordered j i hj hi hlt
    exact hout (hsub.1 (h.isLoop (getElem_mem hi)).head_mem)
  · exact hsub.ne rfl

theorem LoopList.countP_eq {pre post : List LoopDescr} {l : LoopDescr}
    (h : LoopList g E (pre ++ l :: post)) : (pre ++ l :: post).countP (fun l' => l.bbset ⊂ l'.bbset)
      = post.countP fun l' => l.bbset ⊆ l'.bbset := by
  have hisl : g.IsLoop l := h.isLoop (by simp)
  have hpre : pre.countP (fun l' => decide (l.bbset ⊂ l'.bbset)) = 0 := by
    refine countP_eq_zero.mpr fun l' hl' hsub => ?_
    have hout := (pairwise_append.mp h.ordered).2.2 l' hl' l mem_cons_self
    exact hout ((of_decide_eq_true hsub).1 hisl.head_mem)
  have hself : ¬ l.bbset ⊂ l.bbset := fun hsub => hsub.ne rfl
  rw [countP_append, hpre, countP_cons]
  simp only [hself, decide_false, Bool.false_eq_true, if_false]
  rw [Nat.zero_add, Nat.add_zero]
  refine countP_congr fun l' hl' => ?_
  simp only [decide_eq_true_eq]
  refine ⟨fun hsub => hsub.1, fun hsub => (Finset.ssubset_iff_of_subset hsub).mpr
    ⟨l'.loophead, (h.isLoop (by simp [hl'])).head_mem, h.head_not_mem hl'⟩⟩

end Listed

theorem exitLoop_spec {b s : Nat} {ls : List LoopDescr} : ∀ {e : Option LoopDescr},
    (∀ l ∈ ls, ¬ (b ∈ l.bbset ∧ s ∉ l.bbset)) ∧ exitLoop b s ls e = e ∨
      ∃ pre l post, ls = pre ++ l :: post ∧ (b ∈ l.bbset ∧ s ∉ l.bbset) ∧
        exitLoop b s ls e = some l ∧
        (l.nestlevel = 1 ∨ ∀ l' ∈ post, ¬ (b ∈ l'.bbset ∧ s ∉ l'.bbset)) := by
  induction ls with
  | nil => exact fun {e} => .inl ⟨fun l hl => (by cases hl), rfl⟩
  | cons c ls ih =>
    intro e
    unfold exitLoop
    by_cases hc : b ∈ c.bbset ∧ s ∉ c.bbset
    · rw [if_pos hc]
      by_cases hnest : c.nestlevel = 1
      · rw [if_pos hnest]
        exact .inr ⟨[], c, ls, rfl, hc, rfl, .inl hnest⟩
      · rw [if_neg hnest]
        rcases ih (e := some c) with ⟨hnone, heq⟩ | ⟨pre, l, post, rfl, hl, heq, hlast⟩
        · exact .inr ⟨[], c, ls, rfl, hc, heq, .inr hnone⟩
        · exact .inr ⟨c :: pre, l, post, rfl, hl, heq, hlast⟩
    · rw [if_neg hc]
      rcases ih (e := e) with ⟨hnone, heq⟩ | ⟨pre, l, post, rfl, hl, heq, hlast⟩
      · refine .inl ⟨fun l hl => ?_, heq⟩
        rcases mem_cons.mp hl with rfl | hl
        · exact hc
        · exact hnone l hl
      · exact .inr ⟨c :: pre, l, post, rfl, hl, heq, hlast⟩

section Results

variable {E : Nat → Nat → Prop} {ls : List LoopDescr} {b : Nat}

theorem LoopList.loopMap (h : LoopList g E ls) (hb : g.Reachable b) :
    match setLoopMap ls 0 (fun _ => none) b with
    | none => ∀ l ∈ ls, b ∉ l.bbset
    | some i => ∃ l, ls[i]? = some l ∧ b ∈ l.bbset ∧
        ∀ l' ∈ ls, b ∈ l'.bbset → l.bbset ⊆ l'.bbset := by
  have hspec := (@setLoopMap_spec ls b 0 fun _ => none).2 rfl
  revert hspec
  cases setLoopMap ls 0 (fun _ => none) b with
  | none => exact id
  | some i =>
    rintro ⟨pre, l, post, rfl, rfl, hl, hpre⟩
    refine ⟨l, by simp, hl, fun l' hl' hb' => ?_⟩
    rcases mem_append.mp hl' with hl' | hl'
    · exact absurd hb' (hpre l' hl')
    · rcases mem_cons.mp hl' with rfl | hl'
      · exact Finset.Subset.refl _
      · exact (h.before hl' hb hl hb').1

/-- Climbing from the innermost loop of a block finds the outermost loop that the edge leaves. -/
theorem LoopList.isExitEdge (h : LoopList g E ls) (hb : g.Reachable b)
    (hlevel : ∀ l ∈ ls, l.nestlevel = 1 + ls.countP fun l' => l.bbset ⊂ l'.bbset) (s : Nat) :
    match isExitEdge ls (setLoopMap ls 0 fun _ => none) b s with
    | none => ∀ l ∈ ls, ¬ (b ∈ l.bbset ∧ s ∉ l.bbset)
    | some l => l ∈ ls ∧ b ∈ l.bbset ∧ s ∉ l.bbset ∧
        ∀ l' ∈ ls, b ∈ l'.bbset → s ∉ l'.bbset → l'.bbset ⊆ l.bbset := by
  have hspec := (@setLoopMap_spec ls b 0 fun _ => none).2 rfl
  unfold LoopGraph.isExitEdge
  revert hspec
  cases setLoopMap ls 0 (fun _ => none) b with
  | none => exact fun hnone l hl hleft => hnone l hl hleft.1
  | some i =>
    rintro ⟨first, c, rest, rfl, rfl, -, hfirst⟩
    simp only [Nat.zero_add, drop_left]
    rcases @exitLoop_spec b s (c :: rest) none with
      ⟨hnone, heq⟩ | ⟨pre, l, post, hsplit, hleft, heq, hlast⟩
    · rw [heq]
      intro l hl hleft
      rcases mem_append.mp hl with hl | hl
      · exact hfirst l hl hleft.1
      · exact hnone l hl hleft
    · rw [heq]
      rw [hsplit] at h hlevel ⊢
      have hassoc : first ++ (pre ++ l :: post) = (first ++ pre) ++ l :: post := by simp
      refine ⟨by simp, hleft.1, hleft.2, fun l' hl' hb' hs' => ?_⟩
      rcases mem_append.mp hl' with hl' | hl'
      · exact absurd hb' (hfirst l' hl')
      rcases mem_append.mp hl' with hl' | hl'
      · -- an earlier loop with the block is smaller
        obtain ⟨q, r, rfl⟩ := append_of_mem hl'
        have hassoc' : first ++ ((q ++ l' :: r) ++ l :: post)
            = (first ++ q) ++ l' :: (r ++ l :: post) := by simp
        rw [hassoc'] at h
        exact (h.before (by simp) hb hb' hleft.1).1
      rcases mem_cons.mp hl' with rfl | hl'
      · exact Finset.Subset.refl _
      · rcases hlast with hone | hnone
        · -- nothing contains a loop of level 1
          have hlt := (hassoc ▸ h).before hl' hb hleft.1 hb'
          have hlevel' := hlevel l (by simp)
          have hzero : (first ++ (pre ++ l :: post)).countP (fun l' => l.bbset ⊂ l'.bbset) = 0 := by
            omega
          exact absurd (decide_eq_true hlt) (countP_eq_zero.mp hzero l' (by simp [hl']))
        · exact absurd ⟨hb', hs'⟩ (hnone l' hl')

theorem level_lt (hlevel : ∀ l ∈ ls, l.nestlevel = 1 + ls.countP fun l' => l.bbset ⊂ l'.bbset)
    {l l' : LoopDescr} (hl : l ∈ ls) (hl' : l' ∈ ls) (hsub : l.bbset ⊂ l'.bbset) :
    l'.nestlevel < l.nestlevel := by
  rw [hlevel l hl, hlevel l' hl']
  obtain ⟨pre, post, rfl⟩ := append_of_mem hl'
  have hmono : ∀ xs : List LoopDescr, xs.countP (fun x => decide (l'.bbset ⊂ x.bbset))
      ≤ xs.countP fun x => decide (l.bbset ⊂ x.bbset) := fun xs =>
    countP_mono_left fun x _ hx => decide_eq_true (hsub.trans (of_decide_eq_true hx))
  have hself : ¬ l'.bbset ⊂ l'.bbset := fun h => h.ne rfl
  have hpre := hmono pre
  have hpost := hmono post
  simp only [countP_append, countP_cons, hself, hsub, decide_false, decide_true,
    Bool.false_eq_true, if_true, if_false]
  omega

end Results

theorem detectLoops_list (g : LoopGraph) (dom : Nat → Finset Nat)
    (hdom : ∀ b, g.Reachable b → ∀ x, x ∈ dom b ↔ g.Dom x b) {fuel : Nat}
    (hfuel : g.bbs.toFinset.card ≤ fuel) :
    ∃ ls, g.detectLoops dom fuel = some (ls, setLoopMap ls 0 fun _ => none) ∧
      LoopList g g.BackEdge ls ∧
      ∀ l ∈ ls, l.nestlevel = 1 + ls.countP fun l' => l.bbset ⊂ l'.bbset := by
  obtain ⟨dfoMap, hmap, hseen, hdfo⟩ := depthFirstMap_spec hfuel
  obtain ⟨ls, hls, hlist⟩ := findLoops_spec hfuel hseen hdfo hdom
  have h := hlist.toLoopList.setNestlevels
  refine ⟨setNestlevels ls, ?_, h, fun l hl => ?_⟩
  · unfold detectLoops
    rw [hmap, setLoopMap_setNestlevels]
    simp only [Option.bind_eq_bind, Option.bind_some, hls]
  · obtain ⟨pre, post, hsplit⟩ := append_of_mem hl
    have h' := h
    rw [hsplit] at h'
    rw [setNestlevels_level hlist.nest hsplit, hsplit, h'.countP_eq]

/-- The list has one loop for each target of a back edge, with the union of the natural loops; inner
loops come first; the nest level of a loop is one more than the number of loops around it; the map
leads to the smallest loop; and an exit edge is attributed to the outermost loop that it leaves. -/
theorem detectLoops_natural (g : LoopGraph) (dom : Nat → Finset Nat)
    (hdom : ∀ b, g.Reachable b → ∀ x, x ∈ dom b ↔ g.Dom x b) :
    ∃ N, ∀ fuel ≥ N, ∃ loops map, g.detectLoops dom fuel = some (loops, map) ∧
      (loops.map LoopDescr.loophead).Nodup ∧
      (∀ h, h ∈ loops.map LoopDescr.loophead ↔ ∃ t, g.BackEdge t h) ∧
      (∀ l ∈ loops, ∀ m,
        m ∈ l.bbset ↔ ∃ t, g.BackEdge t l.loophead ∧ g.NaturalLoop t l.loophead m) ∧
      (∀ (i j : Nat) (hi : i < loops.length) (hj : j < loops.length),
        loops[i].bbset ⊂ loops[j].bbset → i < j) ∧
      (∀ l ∈ loops, l.nestlevel = 1 + loops.countP fun l' => l.bbset ⊂ l'.bbset) ∧
      (∀ b, g.Reachable b →
        match map b with
        | none => ∀ l ∈ loops, b ∉ l.bbset
        | some i => ∃ l, loops[i]? = some l ∧ b ∈ l.bbset ∧
            ∀ l' ∈ loops, b ∈ l'.bbset → l.bbset ⊆ l'.bbset) ∧
      (∀ b s, g.Reachable b →
        match isExitEdge loops map b s with
        | none => ∀ l ∈ loops, ¬ (b ∈ l.bbset ∧ s ∉ l.bbset)
        | some l => l ∈ loops ∧ b ∈ l.bbset ∧ s ∉ l.bbset ∧
            ∀ l' ∈ loops, b ∈ l'.bbset → s ∉ l'.bbset → l'.bbset ⊆ l.bbset) := by
  refine ⟨g.bbs.toFinset.card, fun fuel hfuel => ?_⟩
  obtain ⟨ls, hrun, h, hlevel⟩ := detectLoops_list g dom hdom hfuel
  refine ⟨ls, _, hrun, h.nodup, fun t => ?_, h.exact, fun i j hi hj => h.lt_of_ssubset hi hj, hlevel,
    fun b hb => h.loopMap hb, fun b s hb => h.isExitEdge hb hlevel s⟩
  rw [mem_map]
  constructor
  · rintro ⟨l, hl, rfl⟩
    exact h.tail l hl
  · rintro ⟨t', he⟩
    exact h.all t' t he

theorem dom_exact_of_paths {dom : Nat → Finset Nat} {S : List Nat}
    (hroots : ∀ r ∈ g.roots, r ∈ S ∧ dom r ⊆ {r})
    (hclosed : ∀ b ∈ S, ∀ c ∈ g.succs b, c ∈ S ∧ dom c ⊆ insert c (dom b))
    (hpath : ∀ b ∈ S, ∃ r ∈ g.roots, ∃ p, Path g.Edge r b p ∧ ∀ x ∈ p, x ∈ dom b) (b : Nat)
    (hb : g.Reachable b) (x : Nat) : x ∈ dom b ↔ g.Dom x b := by
  have hall : ∀ r, r ∈ g.roots → ∀ b p, Path g.Edge r b p → b ∈ S ∧ ∀ x ∈ dom b, x ∈ p := by
    intro r hr b p hp
    induction hp with
    | single =>
      exact ⟨(hroots r hr).1, fun x hx => by simpa using (hroots r hr).2 hx⟩
    | snoc _ hedge ih =>
      obtain ⟨hmem, hsub⟩ := hclosed _ ih.1 _ hedge.2
      refine ⟨hmem, fun x hx => ?_⟩
      rcases Finset.mem_insert.mp (hsub hx) with rfl | hx
      · exact mem_cons_self
      · exact mem_cons_of_mem _ (ih.2 x hx)
  constructor
  · intro hx r p hr hp
    exact (hall r hr b p hp).2 x hx
  · intro hd
    obtain ⟨r, hr, p, hp⟩ := hb
    obtain ⟨r', hr', q, hq, hsub⟩ := hpath b (hall r hr b p hp).1
    exact hsub x (hd r' q hr' hq)

/-- `1 → 2 → 3 → 2`. -/
def whileLoop : LoopGraph where
  puBBCount := 3
  bbs := [1, 2, 3]
  preds b := if b = 2 then [1, 3] else if b = 3 then [2] else []
  succs b := if b = 1 then [2] else if b = 2 then [3] else if b = 3 then [2] else []
  entry b := b == 1
  exit _ := false
  range := by decide
  preds_mem := by decide
  succs_mem := by decide
  edges := by decide
  regionEntry := none
  entryHead := [1]
  hasNonlocalGotoTarget := false
  bbEntry b := b == 1
  hasNonLocalLabel _ := false
  regionEntry_mem := fun _ h => by cases h
  entryHead_mem := by decide

def whileDom (b : Nat) : Finset Nat := if b = 1 then {1} else if b = 2 then {1, 2} else {1, 2, 3}

theorem whileDom_exact (b : Nat) (hb : whileLoop.Reachable b) (x : Nat) :
    x ∈ whileDom b ↔ whileLoop.Dom x b := by
  have h1 : Path whileLoop.Edge 1 1 [1] := .single
  have h2 : Path whileLoop.Edge 1 2 [2, 1] := h1.snoc ⟨by decide, by decide⟩
  have h3 : Path whileLoop.Edge 1 3 [3, 2, 1] := h2.snoc ⟨by decide, by decide⟩
  refine dom_exact_of_paths (S := [1, 2, 3]) (by decide) (by decide) (fun b hb => ?_) b hb x
  simp only [mem_cons, not_mem_nil, or_false] at hb
  rcases hb with rfl | rfl | rfl
  · exact ⟨1, by decide, _, h1, by decide⟩
  · exact ⟨1, by decide, _, h2, by decide⟩
  · exact ⟨1, by decide, _, h3, by decide⟩

theorem detectLoops_natural_while :
    ∃ N, ∀ fuel ≥ N, ∃ loops map, whileLoop.detectLoops whileDom fuel = some (loops, map) ∧
      (2 ∈ loops.map LoopDescr.loophead ↔ ∃ t, whileLoop.BackEdge t 2) := by
  obtain ⟨N, hN⟩ := detectLoops_natural whileLoop whileDom whileDom_exact
  refine ⟨N, fun fuel hfuel => ?_⟩
  obtain ⟨loops, map, hrun, -, hheads, -⟩ := hN fuel hfuel
  exact ⟨loops, map, hrun, hheads 2⟩

/-- Two loops, `3 → 4 → 6 → 3` and `1 → 2 → 1`, with edges from the unreachable block `5`. -/
def sharedAncestor : LoopGraph where
  puBBCount := 6
  bbs := [1, 3, 4, 6, 2, 5]
  preds b := if b = 1 then [2] else if b = 2 then [1, 5] else if b = 3 then [1, 6]
    else if b = 4 then [3, 5] else if b = 6 then [4] else []
  succs b := if b = 1 then [3, 2] else if b = 2 then [1] else if b = 3 then [4]
    else if b = 4 then [6] else if b = 5 then [4, 2] else if b = 6 then [3] else []
  entry b := b == 1
  exit _ := false
  range := by decide
  preds_mem := by decide
  succs_mem := by decide
  edges := by decide
  regionEntry := none
  entryHead := [1]
  hasNonlocalGotoTarget := false
  bbEntry b := b == 1
  hasNonLocalLabel _ := false
  regionEntry_mem := fun _ h => by cases h
  entryHead_mem := by decide

def sharedDom (b : Nat) : Finset Nat :=
  if b = 1 then {1} else if b = 2 then {1, 2} else if b = 3 then {1, 3}
  else if b = 4 then {1, 3, 4} else if b = 6 then {1, 3, 4, 6} else {0, 1, 2, 3, 4, 5, 6}

theorem sharedDom_exact (b : Nat) (hb : sharedAncestor.Reachable b) (x : Nat) :
    x ∈ sharedDom b ↔ sharedAncestor.Dom x b := by
  have h1 : Path sharedAncestor.Edge 1 1 [1] := .single
  have h2 : Path sharedAncestor.Edge 1 2 [2, 1] := h1.snoc ⟨by decide, by decide⟩
  have h3 : Path sharedAncestor.Edge 1 3 [3, 1] := h1.snoc ⟨by decide, by decide⟩
  have h4 : Path sharedAncestor.Edge 1 4 [4, 3, 1] := h3.snoc ⟨by decide, by decide⟩
  have h6 : Path sharedAncestor.Edge 1 6 [6, 4, 3, 1] := h4.snoc ⟨by decide, by decide⟩
  refine dom_exact_of_paths (S := [1, 2, 3, 4, 6]) (by decide) (by decide) (fun b hb => ?_) b hb x
  simp only [mem_cons, not_mem_nil, or_false] at hb
  rcases hb with rfl | rfl | rfl | rfl | rfl
  · exact ⟨1, by decide, _, h1, by decide⟩
  · exact ⟨1, by decide, _, h2, by decide⟩
  · exact ⟨1, by decide, _, h3, by decide⟩
  · exact ⟨1, by decide, _, h4, by decide⟩
  · exact ⟨1, by decide, _, h6, by decide⟩

/-- The block is in both loops; the map leads to the larger one. -/
theorem detectLoops_unreached :
    (∀ b, sharedAncestor.Reachable b → ∀ x, x ∈ sharedDom b ↔ sharedAncestor.Dom x b) ∧
      (sharedAncestor.detectLoops sharedDom 6).map
          (fun r => (r.1.map fun l => (l.loophead, l.bbset), r.2 5))
        = some ([(3, {3, 4, 5, 6}), (1, {1, 2, 5})], some 0) :=
  ⟨sharedDom_exact, by decide⟩

/-! ## Both passes -/

/-- **The loops of a flow graph**: where the search starts from the entries, the loops found with
the dominators of `Calculate_Dominators` are the natural ones; of the blocks that can be reached
each is dominated by the heads of its loops, which are nested. -/
theorem calculateDominators_detectLoops (g : LoopGraph) (hroots : ∀ e, e ∈ g.roots ↔ g.IsEntry e) :
    ∃ N, ∀ fuel ≥ N, ∃ dom pdom, g.calculateDominators fuel = some (dom, pdom) ∧
      ∃ M, ∀ fuel ≥ M, ∃ loops map, g.detectLoops dom fuel = some (loops, map) ∧
        (∀ h m, (∃ l ∈ loops, l.loophead = h ∧ m ∈ l.bbset) ↔
          ∃ t, g.BackEdge t h ∧ g.NaturalLoop t h m) ∧
        ∀ b, g.Reachable b → ∀ l ∈ loops, b ∈ l.bbset → l.loophead ∈ dom b ∧
          ∀ l' ∈ loops, b ∈ l'.bbset → l.bbset ⊆ l'.bbset ∨ l'.bbset ⊆ l.bbset := by
  obtain ⟨N, hN⟩ := g.calculateDominators_dom
  refine ⟨N, fun fuel hfuel => ?_⟩
  obtain ⟨dom, pdom, hrun, hexact⟩ := hN fuel hfuel
  have hdom : ∀ b, g.Reachable b → ∀ x, x ∈ dom b ↔ g.Dom x b := by
    rintro b ⟨r, hr, hb⟩ x
    unfold Dom
    rw [show (· ∈ g.roots) = g.IsEntry from funext fun e => propext (hroots e)]
    exact hexact b ⟨r, (hroots r).mp hr, hb⟩ x
  refine ⟨dom, pdom, hrun, g.bbs.toFinset.card, fun fuel hfuel => ?_⟩
  obtain ⟨ls, hls, h, -⟩ := detectLoops_list g dom hdom hfuel
  refine ⟨ls, _, hls, fun head m => ⟨?_, ?_⟩, fun b hb l hl hbl => ⟨?_, fun l' hl' hbl' => ?_⟩⟩
  · rintro ⟨l, hl, rfl, hm⟩
    exact (h.exact l hl m).mp hm
  · rintro ⟨t, hback, hm⟩
    obtain ⟨l, hl, rfl⟩ := h.all t head hback
    exact ⟨l, hl, rfl, (h.exact l hl m).mpr ⟨t, hback, hm⟩⟩
  · exact (hdom b hb _).mpr ((h.isLoop hl).dom hbl)
  · have hloop := h.isLoop hl
    have hloop' := h.isLoop hl'
    by_cases hne : l.loophead = l'.loophead
    · -- loops of one head are one loop
      exact .inl fun m hm => (h.exact l' hl' m).mpr (hne ▸ (h.exact l hl m).mp hm)
    · exact (hloop.chain hloop' hb hbl hbl').imp (hloop.sub hloop' hne)
        (hloop'.sub hloop (Ne.symm hne))

theorem calculateDominators_detectLoops_while : ∃ N, ∀ fuel ≥ N, ∃ dom pdom,
    whileLoop.calculateDominators fuel = some (dom, pdom) ∧ ∃ M, ∀ fuel ≥ M, ∃ loops map,
      whileLoop.detectLoops dom fuel = some (loops, map) ∧
        ((∃ l ∈ loops, l.loophead = 2 ∧ 3 ∈ l.bbset) ↔
          ∃ t, whileLoop.BackEdge t 2 ∧ whileLoop.NaturalLoop t 2 3) := by
  obtain ⟨N, hN⟩ := calculateDominators_detectLoops whileLoop fun e => by
    simp only [roots, whileLoop, FlowGraph.IsEntry, Bool.false_eq_true, if_false, append_nil,
      mem_singleton, beq_iff_eq]
    exact ⟨fun h => ⟨h ▸ mem_cons_self, h⟩, And.right⟩
  refine ⟨N, fun fuel hfuel => ?_⟩
  obtain ⟨dom, pdom, hrun, M, hM⟩ := hN fuel hfuel
  refine ⟨dom, pdom, hrun, M, fun fuel hfuel => ?_⟩
  obtain ⟨loops, map, hloops, hnatural, -⟩ := hM fuel hfuel
  exact ⟨loops, map, hloops, hnatural 2 3⟩

end LoopGraph

end Cg
