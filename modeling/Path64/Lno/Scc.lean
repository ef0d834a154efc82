import Path64.Graph.DirectedGraph16
import Path64.Lib.Tarjan
import Mathlib.Data.Set.Card
import Mathlib.Order.Interval.Finset.Nat

/-! # Strongly connected components of a dependence graph

A graph keeps the number of its components and the component of every
vertex, and throws them away when an operation may have changed them.
The condensation has the components as its vertices. -/

namespace Lno

open List Function Graph Graph.DirectedGraph16 Links Paths Tarjan
open Option (map_some bind_some)

/-! ## Model -/

structure SccDirectedGraph16 where
  graph : DirectedGraph16
  sccCnt : Nat
  sccId : Nat → Nat

/-- The temporary arrays of a search, and what it finds. -/
structure SccState where
  link : Nat → Nat
  dfn : Nat → Nat
  visited : Nat → Bool
  inStack : Nat → Bool
  dfsStack : List Nat
  dfCount : Nat
  sccId : Nat → Nat
  sccCnt : Nat

/-- The loop of `Scc_Dfs` that takes a component off the stack. -/
def popScc (n : Nat) : List Nat → SccState → Option SccState
  | [], _ => none
  | j :: rest, st =>
    let st :=
      { st with
        dfsStack := rest
        inStack := update st.inStack j false
        sccId := update st.sccId j st.sccCnt }
    if j ≠ n then popScc n rest st else some st

/-- The loop of `Scc_Dfs` over the out edges of a vertex. -/
def outLoop (g : DirectedGraph16) (call : Nat → SccState → Option SccState) (n : Nat) :
    Nat → Nat → SccState → Option SccState
  | 0, _, _ => none
  | fuel + 1, e, st =>
    if e ≠ 0 then
      let j := (g.e e).getSink
      if !st.visited j then
        (call j st).bind fun st =>
          outLoop g call n fuel (g.e e).getNextOutEdge
            (if st.link j < st.link n then { st with link := update st.link n (st.link j) }
              else st)
      else if st.dfn j < st.dfn n && st.inStack j then
        outLoop g call n fuel (g.e e).getNextOutEdge
          (if st.dfn j < st.link n then { st with link := update st.link n (st.dfn j) }
            else st)
      else outLoop g call n fuel (g.e e).getNextOutEdge st
    else some st

/-- `Scc_Dfs`; the numbers are at most one above the number of vertices. -/
def sccDfs (g : DirectedGraph16) : Nat → Nat → SccState → Option SccState
  | 0, _, _ => none
  | fuel + 1, n, st =>
    let st :=
      { st with
        visited := update st.visited n true
        dfn := update st.dfn n st.dfCount
        link := update st.link n st.dfCount
        dfCount := st.dfCount + 1
        dfsStack := n :: st.dfsStack
        inStack := update st.inStack n true }
    (outLoop g (sccDfs g fuel) n walkFuel (g.v n).getOutEdge st).bind fun st =>
      if st.link n = st.dfn n then
        (popScc n st.dfsStack st).map fun st => { st with sccCnt := st.sccCnt + 1 }
      else some st

/-- The loop of `Find_Scc` over the vertices. -/
def dfsAll (g : DirectedGraph16) (fuel : Nat) : List Nat → SccState → Option SccState
  | [], st => some st
  | i :: is, st =>
    if !st.visited i then (sccDfs g fuel i st).bind (dfsAll g fuel is) else dfsAll g fuel is st

namespace SccDirectedGraph16

def sccIsValid (g : SccDirectedGraph16) : Bool := g.sccCnt != invalidVindex16

def invalidateScc (g : SccDirectedGraph16) : SccDirectedGraph16 := { g with sccCnt := invalidVindex16 }

/-- The constructor. -/
def init (v : Nat → Vertex16) (e : Nat → Edge16) (sccId : Nat → Nat) : SccDirectedGraph16 :=
  ⟨.init v e, invalidVindex16, sccId⟩

/-- `Find_Scc`; `link` and `dfn` are what the arrays held when they were allocated. -/
def findScc (link dfn : Nat → Nat) (g : SccDirectedGraph16) : Option SccDirectedGraph16 :=
  if g.sccIsValid then some g
  else
    (dfsAll g.graph walkFuel (range' 1 g.graph.vcnt)
      { link := link, dfn := dfn, visited := fun _ => false, inStack := fun _ => false,
        dfsStack := [], dfCount := 1, sccId := g.sccId, sccCnt := 1 }).map fun st =>
      { g with sccCnt := st.sccCnt - 1, sccId := st.sccId }

def addVertex (capacity : Nat) (g : SccDirectedGraph16) : Nat × SccDirectedGraph16 :=
  let g := g.invalidateScc
  ((g.graph.addVertex capacity).1, { g with graph := (g.graph.addVertex capacity).2 })

/-- The test of `Add_Edge` and `Add_Unique_Edge`. -/
def invalidateBetween (g : SccDirectedGraph16) (source sink : Nat) : SccDirectedGraph16 :=
  if g.sccIsValid && g.sccId source != g.sccId sink then g.invalidateScc else g

def addEdge (capacity : Nat) (g : SccDirectedGraph16) (source sink : Nat) : SccDirectedGraph16 :=
  let g := g.invalidateBetween source sink
  { g with graph := (g.graph.addEdge capacity source sink).2 }

def addUniqueEdge (capacity : Nat) (g : SccDirectedGraph16) (source sink : Nat) :
    Option SccDirectedGraph16 :=
  let g := g.invalidateBetween source sink
  (g.graph.addUniqueEdge capacity source sink).map fun p => { g with graph := p.2 }

def deleteVertex (g : SccDirectedGraph16) (v : Nat) : Option SccDirectedGraph16 :=
  let g := g.invalidateScc
  (g.graph.deleteVertex v).map fun graph => { g with graph := graph }

def deleteEdge (g : SccDirectedGraph16) (e : Nat) : Option SccDirectedGraph16 :=
  let source := (g.graph.e e).getSource
  let sink := (g.graph.e e).getSink
  let g := if g.sccIsValid && g.sccId source == g.sccId sink then g.invalidateScc else g
  (g.graph.deleteEdge e).map fun graph => { g with graph := graph }

/-- The loop of `Acyclic_Condensation` over the components. -/
def addVertices (capacity : Nat) : List Nat → SccDirectedGraph16 → Option SccDirectedGraph16
  | [], g => some g
  | i :: is, g =>
    if (g.addVertex capacity).1 = i then addVertices capacity is (g.addVertex capacity).2 else none

/-- The loop of `Acyclic_Condensation` over the edges. -/
def condenseEdges (capacity : Nat) (g : SccDirectedGraph16) :
    Nat → Nat → SccDirectedGraph16 → Option SccDirectedGraph16
  | 0, _, _ => none
  | fuel + 1, e, c =>
    if e ≠ 0 then
      let source := g.sccId (g.graph.e e).getSource
      let sink := g.sccId (g.graph.e e).getSink
      (if source ≠ sink then c.addUniqueEdge capacity source sink else some c).bind
        (condenseEdges capacity g fuel (g.graph.getNextEdge e))
    else some c

/-- `Acyclic_Condensation`; the condensation starts as the graph `empty`. -/
def acyclicCondensation (capacity : Nat) (link dfn : Nat → Nat) (empty g : SccDirectedGraph16) :
    Option SccDirectedGraph16 :=
  (g.findScc link dfn).bind fun g =>
    (addVertices capacity (range' 1 g.sccCnt) empty).bind
      (condenseEdges capacity g walkFuel g.graph.getEdge)

end SccDirectedGraph16

/-- What a client does to a graph. -/
inductive SccOp where
  | graph (op : Op)
  | findScc (link dfn : Nat → Nat)

/-- The vertices of a graph are the first ones. -/
def Contiguous (g : DirectedGraph16) : Prop := ∀ v, g.vertexIsInGraph v = true ↔ 0 < v ∧ v ≤ g.vcnt

/-- Components are asked for when the vertices are the first ones. -/
def SccOp.Allowed (g : SccDirectedGraph16) : SccOp → Prop
  | .graph op => op.Allowed g.graph
  | .findScc _ _ => Contiguous g.graph

def sccStep (capacity : Nat) (g : SccDirectedGraph16) : SccOp → Option SccDirectedGraph16
  | .graph .addVertex => some (g.addVertex capacity).2
  | .graph (.addEdge source sink) => some (g.addEdge capacity source sink)
  | .graph (.addUniqueEdge source sink) => g.addUniqueEdge capacity source sink
  | .graph (.deleteEdge e) => g.deleteEdge e
  | .graph (.deleteVertex v) => g.deleteVertex v
  | .findScc link dfn => g.findScc link dfn

/-- The graphs that operations lead to. -/
inductive SccRun (capacity : Nat) : SccDirectedGraph16 → Prop
  | init (v : Nat → Vertex16) (e : Nat → Edge16) (sccId : Nat → Nat) :
      SccRun capacity (.init v e sccId)
  | step {g g' : SccDirectedGraph16} {op : SccOp} : SccRun capacity g → op.Allowed g →
      sccStep capacity g op = some g' → SccRun capacity g'

/-- An edge of a graph. -/
def Arc (g : DirectedGraph16) (v w : Nat) : Prop := ∃ e, g.edge e = some (v, w)

/-- The components of a graph, numbered so that edges go down. -/
structure Components (g : DirectedGraph16) (sccId : Nat → Nat) (sccCnt : Nat) : Prop where
  range : ∀ v, g.LiveV v → 0 < sccId v ∧ sccId v ≤ sccCnt
  onto : ∀ i, 0 < i → i ≤ sccCnt → ∃ v, g.LiveV v ∧ sccId v = i
  same : ∀ v w, g.LiveV v → g.LiveV w →
    (sccId v = sccId w ↔ Reaches (Arc g) v w ∧ Reaches (Arc g) w v)
  order : ∀ v w, Arc g v w → sccId w ≤ sccId v

/-! ## The search -/

variable {n v e fuel : Nat}

section Search

variable {g : DirectedGraph16} {s s' : State Nat} {st st' : SccState}

/-- The state of the search, and that of the source. -/
structure Sim (s : State Nat) (st : SccState) : Prop where
  link : st.link = s.link
  dfn : st.dfn = s.dfn
  visited : st.visited = s.visited
  inStack : st.inStack = s.inStack
  dfsStack : st.dfsStack = s.stack
  dfCount : st.dfCount = s.dfCount
  sccCnt : st.sccCnt = s.comps.length + 1
  sccId : ∀ w ∈ s.comps.flatten, st.sccId w = s.sccId w + 1

/-- Popping a component numbers its vertices and takes them off the stack. -/
theorem popScc_eq {c rest : List Nat} :
    ∀ {stack : List Nat} {st : SccState}, popTo n stack = some (c, rest) →
      ∃ st', popScc n stack st = some st' ∧ st' =
        { st with
          dfsStack := rest
          inStack := fun w => if w ∈ c then false else st.inStack w
          sccId := fun w => if w ∈ c then st.sccCnt else st.sccId w } := by
  intro stack
  induction stack generalizing c rest with
  | nil =>
    intro st h
    cases h
  | cons j stack ih =>
    intro st h
    unfold popTo at h
    unfold popScc
    simp only
    split at h
    · rename_i hj
      obtain ⟨rfl, rfl⟩ := Prod.mk.inj (Option.some.inj h)
      rw [if_neg (not_not.mpr hj)]
      refine ⟨_, rfl, ?_⟩
      congr 1
      · funext w
        simp [update_apply]
      · funext w
        simp [update_apply]
    · rename_i hj
      obtain ⟨p, hp, heq⟩ := Option.map_eq_some_iff.mp h
      obtain ⟨rfl, rfl⟩ := Prod.mk.inj heq
      rw [if_pos hj]
      obtain ⟨st', hst', heq'⟩ := ih hp
      refine ⟨st', hst', heq'.trans ?_⟩
      congr 1
      · funext w
        by_cases hw : w ∈ p.1
        · simp [hw]
        · simp [hw, update_apply]
      · funext w
        by_cases hw : w ∈ p.1
        · simp [hw]
        · simp [hw, update_apply]

theorem Sim.enter (h : Sim s st) (n : Nat) : Sim (Tarjan.enter n s)
      { st with
        visited := update st.visited n true
        dfn := update st.dfn n st.dfCount
        link := update st.link n st.dfCount
        dfCount := st.dfCount + 1
        dfsStack := n :: st.dfsStack
        inStack := update st.inStack n true } := by
  obtain ⟨h1, h2, h3, h4, h5, h6, h7, h8⟩ := h
  refine ⟨?_, ?_, ?_, ?_, ?_, ?_, h7, h8⟩ <;> simp only [Tarjan.enter, h1, h2, h3, h4, h5, h6]

theorem Sim.relax (h : Sim s st) (n bound : Nat) : Sim (Tarjan.relax n bound s)
      (if bound < st.link n then { st with link := update st.link n bound } else st) := by
  unfold Tarjan.relax
  rw [h.link]
  split
  · exact ⟨rfl, h.dfn, h.visited, h.inStack, h.dfsStack, h.dfCount, h.sccCnt, h.sccId⟩
  · exact h

theorem Sim.finish (h : Sim s st) {n : Nat} (hs : Tarjan.finish n s = some s') :
    ∃ st', (if st.link n = st.dfn n then
        (popScc n st.dfsStack st).map fun st => { st with sccCnt := st.sccCnt + 1 }
      else some st) = some st' ∧ Sim s' st' := by
  unfold Tarjan.finish at hs
  rw [h.link, h.dfn, h.dfsStack]
  split at hs
  · rename_i hroot
    rw [if_pos hroot]
    obtain ⟨⟨c, rest⟩, hpop, rfl⟩ := Option.map_eq_some_iff.mp hs
    obtain ⟨st', hst', heq⟩ := popScc_eq hpop
    rw [hst', map_some]
    refine ⟨_, rfl, ?_⟩
    subst heq
    unfold complete
    refine ⟨h.link, h.dfn, h.visited, ?_, rfl, h.dfCount, ?_, fun w hw => ?_⟩
    · simp only [h.inStack]
    · simp [h.sccCnt]
    · simp only
      split
      · rw [h.sccCnt]
      · rename_i hwc
        refine h.sccId w ?_
        simpa [hwc] using hw
  · rename_i hroot
    rw [if_neg hroot]
    obtain rfl := Option.some.inj hs
    exact ⟨st, rfl, h⟩

/-- The walk along the outgoing edges follows the abstract scan of the successors. -/
theorem outLoop_sim {call : Nat → State Nat → Option (State Nat)}
    {call' : Nat → SccState → Option SccState}
    (hcall : ∀ j, g.LiveV j → ∀ s s' st, call j s = some s' → Sim s st →
      ∃ st', call' j st = some st' ∧ Sim s' st') :
    ∀ (l : List Nat) (a fuel : Nat) (s s' : State Nat) (st : SccState), Linked g.outNext a l →
      (∀ e ∈ l, g.LiveV (g.e e).getSink) → l.length < fuel → scan call n (l.map fun e => (g.e e).getSink) s = some s' → Sim s st →
        ∃ st', outLoop g call' n fuel a st = some st' ∧ Sim s' st' := by
  intro l
  induction l with
  | nil =>
    intro a fuel s s' st hl _ hfuel hs h
    obtain ⟨fuel, rfl⟩ : ∃ k, fuel = k + 1 := ⟨fuel - 1, by simp at hfuel; omega⟩
    obtain rfl := Option.some.inj hs
    unfold outLoop
    rw [if_neg (not_not.mpr (linked_nil.mp hl))]
    exact ⟨st, rfl, h⟩
  | cons e l ih =>
    intro a fuel s s' st hl hlive hfuel hs h
    have hrest := fun x hx => hlive x (mem_cons_of_mem e hx)
    obtain ⟨fuel, rfl⟩ : ∃ k, fuel = k + 1 := ⟨fuel - 1, by simp at hfuel; omega⟩
    obtain ⟨rfl, ha, hl⟩ := hl
    have hlen : l.length < fuel := by simp at hfuel; omega
    rw [map_cons] at hs
    unfold scan at hs
    rw [← h.visited, ← h.dfn, ← h.inStack] at hs
    unfold outLoop
    rw [if_pos ha]
    simp only
    split at hs
    · rename_i hnew
      rw [if_pos hnew]
      split at hs
      · cases hs
      · rename_i s1 hs1
        obtain ⟨st1, hst1, h1⟩ := hcall _ (hlive a mem_cons_self) _ _ _ hs1 h
        rw [hst1, bind_some]
        refine ih _ fuel _ s' _ hl hrest hlen hs ?_
        rw [← h1.link]
        exact h1.relax n _
    · rename_i hold
      rw [if_neg hold]
      split at hs
      · rename_i hback
        rw [if_pos hback]
        exact ih _ fuel _ s' _ hl hrest hlen hs (h.relax n _)
      · rename_i hback
        rw [if_neg hback]
        exact ih _ fuel _ s' _ hl hrest hlen hs h

/-- The sinks of the out edges. -/
def succs (g : DirectedGraph16) (outs : Nat → List Nat) (v : Nat) : List Nat :=
  if g.vertexIsInGraph v then (outs v).map fun e => (g.e e).getSink else []

variable {capacity : Nat} {outs ins : Nat → List Nat} {fv fe : List Nat}

section

variable (h : Rep capacity g outs ins fv fe)
include h

theorem edge_of_mem_outs (hv : g.LiveV v)
    (he : e ∈ outs v) : g.edge e = some (v, (g.e e).getSink) := by
  obtain ⟨p, hp, hfst⟩ := Option.map_eq_some_iff.mp ((h.out.mem v hv e).mp he)
  obtain ⟨-, -, hsink⟩ := edge_isSome hp
  rw [hp, ← hfst, hsink]

theorem mem_succs (v w : Nat) : w ∈ succs g outs v ↔ Arc g v w:= by
  unfold succs
  split
  · rename_i hv
    rw [mem_map]
    constructor
    · rintro ⟨e, he, rfl⟩
      exact ⟨e, edge_of_mem_outs h hv he⟩
    · rintro ⟨e, he⟩
      exact ⟨e, (h.out.mem v hv e).mpr (by rw [he]; rfl), (edge_isSome he).2.2⟩
  · rename_i hv
    refine iff_of_false not_mem_nil ?_
    rintro ⟨e, he⟩
    exact hv (h.ends e _ he).1

theorem adj_eq : Adj (succs g outs) = Arc g := by
  funext v w
  exact propext (mem_succs h v w)

theorem sccDfs_sim (hcap : capacity ≤ 0xfffe) :
    ∀ n, g.LiveV n → ∀ s s' st, visit (succs g outs) fuel n s = some s' → Sim s st →
      ∃ st', sccDfs g fuel n st = some st' ∧ Sim s' st' := by
  induction fuel with
  | zero =>
    intro n _ s s' st hs
    cases hs
  | succ fuel ih =>
    intro n hn s s' st hs hsim
    unfold visit at hs
    obtain ⟨s1, hs1, hfin⟩ := Option.bind_eq_some_iff.mp hs
    have hlinked := h.out.linked n hn
    have hlive : ∀ e ∈ outs n, g.LiveV (g.e e).getSink := fun e he =>
      (h.ends e _ (edge_of_mem_outs h hn he)).2
    have hlen : (outs n).length < walkFuel := by
      have hsub : outs n ⊆ range' 1 g.eLast := by
        intro e he
        have := (edgeIsInGraph_iff.mp (edge_isSome (edge_of_mem_outs h hn he)).1).1
        rw [mem_range'_1]
        omega
      have hle := hlinked.nodup.length_le_of_subset hsub
      have heLast := h.eLast
      rw [length_range'] at hle
      unfold walkFuel
      omega
    rw [succs, if_pos hn] at hs1
    obtain ⟨st1, hst1, hsim1⟩ :=
      outLoop_sim (g := g) ih (outs n) _ walkFuel _ _ _ hlinked hlive hlen hs1 (hsim.enter n)
    obtain ⟨st', hst', hsim'⟩ := hsim1.finish hfin
    refine ⟨st', ?_, hsim'⟩
    unfold sccDfs
    have hst1' : outLoop g (sccDfs g fuel) n walkFuel (g.v n).getOutEdge _ = some st1 := hst1
    simp only
    rw [hst1', bind_some]
    exact hst'

theorem dfsAll_sim (hcap : capacity ≤ 0xfffe) :
    ∀ (roots : List Nat) (s s' : State Nat) (st : SccState), (∀ r ∈ roots, g.LiveV r) →
      visitAll (succs g outs) fuel roots s = some s' → Sim s st →
        ∃ st', dfsAll g fuel roots st = some st' ∧ Sim s' st' := by
  intro roots
  induction roots with
  | nil =>
    intro s s' st _ hs hsim
    obtain rfl := Option.some.inj hs
    exact ⟨st, rfl, hsim⟩
  | cons r roots ih =>
    intro s s' st hroots hs hsim
    have hrest := fun x hx => hroots x (mem_cons_of_mem r hx)
    unfold visitAll at hs
    unfold dfsAll
    rw [hsim.visited]
    split at hs
    · rename_i hnew
      rw [if_pos hnew]
      split at hs
      · cases hs
      · rename_i s1 hs1
        obtain ⟨st1, hst1, hsim1⟩ :=
          sccDfs_sim h hcap r (hroots r mem_cons_self) _ _ _ hs1 hsim
        rw [hst1, bind_some]
        exact ih _ _ _ hrest hs hsim1
    · rename_i hold
      rw [if_neg hold]
      exact ih _ _ _ hrest hs hsim

end

theorem length_le_flatten {α : Type} {l : List (List α)} (h : ∀ c ∈ l, c ≠ []) :
    l.length ≤ l.flatten.length := by
  induction l with
  | nil => exact Nat.le_refl _
  | cons c l ih =>
    have hc := length_pos_of_ne_nil (h c mem_cons_self)
    have hl := ih fun d hd => h d (mem_cons_of_mem c hd)
    rw [length_cons, flatten_cons, length_append]
    omega

/-- From the simulation: two vertices get one number just when each reaches the other. -/
theorem findScc_spec {g : SccDirectedGraph16} (hok : g.graph.Ok capacity) (hcap : capacity ≤ 0xfffe)
    (hvs : Contiguous g.graph) (hinvalid : g.sccIsValid = false) (link dfn : Nat → Nat) :
    ∃ g', g.findScc link dfn = some g' ∧ g'.graph = g.graph ∧
      Components g.graph g'.sccId g'.sccCnt ∧ g'.sccCnt ≤ g.graph.vcnt := by
  obtain ⟨outs, ins, fv, fe, h⟩ := hok
  have hroots : ∀ r ∈ range' 1 g.graph.vcnt, g.graph.LiveV r := by
    intro r hr
    rw [mem_range'_1] at hr
    exact (hvs r).mpr (by omega)
  have hmemU : ∀ v, v ∈ (range' 1 g.graph.vcnt).toFinset ↔ g.graph.LiveV v := by
    intro v
    rw [mem_toFinset, mem_range'_1]
    refine Iff.trans ?_ (hvs v).symm
    omega
  have hU : ∀ w ∈ (range' 1 g.graph.vcnt).toFinset, ∀ x ∈ succs g.graph outs w,
      x ∈ (range' 1 g.graph.vcnt).toFinset := by
    intro w _ x hx
    obtain ⟨e, he⟩ := (mem_succs h w x).mp hx
    exact (hmemU x).mpr (h.ends e _ he).2
  have hcard : (range' 1 g.graph.vcnt).toFinset.card ≤ walkFuel := by
    have hle := (range' 1 g.graph.vcnt).toFinset_card_le
    have h1 := h.vcnt
    have h2 := h.vLast
    rw [length_range'] at hle
    unfold walkFuel
    omega
  -- the abstract search sees every live vertex
  obtain ⟨s', hs', hinv, -, hall, hfound⟩ := visitAll_spec hU (range' 1 g.graph.vcnt)
    ⟨fun _ => false, dfn, link, fun _ => false, [], 1, g.sccId, []⟩
    (fun r hr => (hmemU r).mpr (hroots r hr))
    (inv_start (fun _ => rfl) (fun _ => rfl) rfl rfl) hcard
  obtain ⟨st', hst', hsim⟩ := dfsAll_sim h hcap _ _ _
    ⟨link, dfn, fun _ => false, fun _ => false, [], 1, g.sccId, 1⟩ hroots hs'
    ⟨rfl, rfl, rfl, rfl, rfl, rfl, rfl, fun w hw => by cases hw⟩
  have hdone : ∀ v, Done s' v ↔ g.graph.LiveV v := by
    intro v
    unfold Done
    rw [hinv.stack_nil]
    constructor
    · rintro ⟨hv, -⟩
      rcases hfound v hv with hv | ⟨r, hr, p, hp⟩
      · cases hv
      · induction hp with
        | single => exact hroots r hr
        | snoc _ hadj ih =>
          obtain ⟨e, he⟩ := (mem_succs h _ _).mp hadj
          exact (h.ends e _ he).2
    · intro hv
      have := (hmemU v).mpr hv
      rw [mem_toFinset] at this
      exact ⟨hall v this, not_mem_nil⟩
  have hid : ∀ v, g.graph.LiveV v → st'.sccId v = s'.sccId v + 1 := fun v hv =>
    hsim.sccId v ((hinv.comps v).mpr ((hdone v).mpr hv))
  have hcnt : st'.sccCnt - 1 = s'.comps.length := by
    rw [hsim.sccCnt]
    omega
  have hreach : Tarjan.Reach (succs g.graph outs) = Reaches (Arc g.graph) := by
    unfold Tarjan.Reach
    rw [adj_eq h]
  refine ⟨{ g with sccCnt := st'.sccCnt - 1, sccId := st'.sccId }, ?_, rfl,
    ⟨fun v hv => ?_, fun i hi hle => ?_, fun v w hv hw => ?_, fun v w hvw => ?_⟩, ?_⟩
  · unfold SccDirectedGraph16.findScc
    rw [hinvalid, hst']
    rfl
  · have hlt := (hinv.sccId_lt ((hdone v).mpr hv)).1
    simp only [hid v hv, hcnt]
    omega
  · simp only at hle
    rw [hcnt] at hle
    obtain ⟨hne, hids⟩ := hinv.sccId (i - 1) _ (getElem?_eq_getElem (by omega))
    obtain ⟨w, hw⟩ := exists_mem_of_ne_nil _ hne
    have hwlive : g.graph.LiveV w := (hdone w).mp ((hinv.comps w).mp
      (mem_flatten.mpr ⟨_, getElem_mem _, hw⟩))
    refine ⟨w, hwlive, ?_⟩
    simp only [hid w hwlive, hids w hw]
    omega
  · simp only [hid v hv, hid w hw, Nat.add_right_cancel_iff]
    rw [hinv.same v w ((hdone v).mpr hv) ((hdone w).mpr hw), hreach]
  · obtain ⟨e, he⟩ := id hvw
    obtain ⟨hv, hw⟩ := h.ends e _ he
    have := hinv.order v ((hdone v).mpr hv) w ((mem_succs h v w).mpr hvw)
    simp only [hid v hv, hid w hw]
    omega
  · -- components are disjoint and none is empty
    have hsub : s'.comps.flatten ⊆ range' 1 g.graph.vcnt := by
      intro w hw
      have hlive := (hdone w).mp ((hinv.comps w).mp hw)
      have := (hmemU w).mpr hlive
      rwa [mem_toFinset] at this
    have hle := hinv.nodup.length_le_of_subset hsub
    have hlen := length_le_flatten fun c hc => by
      obtain ⟨i, hi⟩ := getElem?_of_mem hc
      exact (hinv.sccId i c hi).1
    rw [length_range'] at hle
    simp only [hcnt]
    omega

end Search

/-! ## Components that are kept -/

section Runs

variable {g g' : DirectedGraph16} {sccId : Nat → Nat} {sccCnt capacity : Nat}

theorem Components.congr (h : Components g sccId sccCnt) (hlive : ∀ v, g'.LiveV v ↔ g.LiveV v)
    (hmutual : ∀ v w, (Reaches (Arc g') v w ∧ Reaches (Arc g') w v) ↔
      Reaches (Arc g) v w ∧ Reaches (Arc g) w v)
    (harc : ∀ v w, Arc g' v w → Arc g v w ∨ sccId v = sccId w) : Components g' sccId sccCnt := by
  refine ⟨fun v hv => h.range v ((hlive v).mp hv), fun i hi hle => ?_, fun v w hv hw => ?_,
    fun v w hvw => ?_⟩
  · obtain ⟨v, hv, hvi⟩ := h.onto i hi hle
    exact ⟨v, (hlive v).mpr hv, hvi⟩
  · rw [hmutual]
    exact h.same v w ((hlive v).mp hv) ((hlive w).mp hw)
  · exact (harc v w hvw).elim (h.order v w) fun heq => heq.symm.le

theorem reaches_mono {r r' : Nat → Nat → Prop} (h : ∀ v w, r v w → Reaches r' v w) {w : Nat}
    (hvw : Reaches r v w) : Reaches r' v w := by
  obtain ⟨p, hp⟩ := hvw
  induction hp with
  | single => exact Reaches.refl v
  | snoc _ hadj ih => exact ih.trans (h _ _ hadj)

theorem Components.addEdge (h : Components g sccId sccCnt) (hlive : ∀ v, g'.LiveV v ↔ g.LiveV v)
    {source sink new : Nat} (hs : g.LiveV source) (ht : g.LiveV sink)
    (hsame : sccId source = sccId sink) (hnew : g.edge new = none)
    (hedge : ∀ x, g'.edge x = if x = new then some (source, sink) else g.edge x) :
    Components g' sccId sccCnt := by
  have hup : ∀ v w, Arc g v w → Arc g' v w := by
    rintro v w ⟨x, hx⟩
    refine ⟨x, ?_⟩
    rw [hedge, if_neg, hx]
    rintro rfl
    rw [hnew] at hx
    cases hx
  have hdown : ∀ v w, Arc g' v w → Arc g v w ∨ v = source ∧ w = sink := by
    rintro v w ⟨x, hx⟩
    rw [hedge] at hx
    split at hx
    · exact .inr ⟨(congrArg Prod.fst (Option.some.inj hx)).symm,
        (congrArg Prod.snd (Option.some.inj hx)).symm⟩
    · exact .inl ⟨x, hx⟩
  have hreach : ∀ v w, Reaches (Arc g') v w ↔ Reaches (Arc g) v w := by
    refine fun v w => ⟨reaches_mono fun a b hab => ?_, reaches_mono fun a b hab => ?_⟩
    · rcases hdown a b hab with hab | ⟨rfl, rfl⟩
      · exact (Reaches.refl a).snoc hab
      · exact ((h.same a b hs ht).mp hsame).1
    · exact (Reaches.refl a).snoc (hup a b hab)
  refine h.congr hlive (fun v w => by rw [hreach, hreach]) fun v w hvw => ?_
  rcases hdown v w hvw with hvw | ⟨rfl, rfl⟩
  · exact .inl hvw
  · exact .inr hsame

/-- An edge between two components is on no cycle, so the components stay without it. -/
theorem Components.deleteEdge (h : Components g sccId sccCnt) (hlive : ∀ v, g'.LiveV v ↔ g.LiveV v)
    (hends : ∀ v w, Arc g v w → g.LiveV v ∧ g.LiveV w) {p : Nat × Nat}
    (he : g.edge e = some p) (hdiff : sccId p.1 ≠ sccId p.2)
    (hedge : ∀ x, g'.edge x = if x = e then none else g.edge x) : Components g' sccId sccCnt := by
  have hdown : ∀ v w, Arc g' v w → Arc g v w := by
    rintro v w ⟨x, hx⟩
    rw [hedge] at hx
    split at hx
    · cases hx
    · exact ⟨x, hx⟩
  have hup : ∀ v w, Arc g v w → sccId v = sccId w → Arc g' v w := by
    rintro v w ⟨x, hx⟩ hid
    refine ⟨x, ?_⟩
    rw [hedge, if_neg, hx]
    rintro rfl
    rw [hx] at he
    obtain rfl := Option.some.inj he
    exact hdiff hid
  have hkeep : ∀ v w, Reaches (Arc g) v w → Reaches (Arc g) w v → Reaches (Arc g') v w := by
    rintro v w ⟨q, hq⟩
    induction hq with
    | single => exact fun _ => Reaches.refl v
    | snoc hq hadj ih =>
      intro hback
      obtain ⟨hx, hw⟩ := hends _ _ hadj
      have hxw := (Reaches.refl _).snoc hadj
      refine (ih (Reaches.head hadj hback)).snoc (hup _ _ hadj ?_)
      exact (h.same _ _ hx hw).mpr ⟨hxw, hback.trans ⟨_, hq⟩⟩
  refine h.congr hlive (fun v w => ⟨fun ⟨h1, h2⟩ => ?_, fun ⟨h1, h2⟩ => ?_⟩)
    fun v w hvw => .inl (hdown v w hvw)
  · exact ⟨reaches_mono (fun a b hab => (Reaches.refl a).snoc (hdown a b hab)) h1,
      reaches_mono (fun a b hab => (Reaches.refl a).snoc (hdown a b hab)) h2⟩
  · exact ⟨hkeep v w h1 h2, hkeep w v h2 h1⟩

/-- The components are those of the graph whenever they are marked valid. -/
structure SccOk (capacity : Nat) (g : SccDirectedGraph16) : Prop where
  ok : g.graph.Ok capacity
  valid : g.sccIsValid = true → Contiguous g.graph ∧ Components g.graph g.sccId g.sccCnt

theorem Contiguous.congr (h : Contiguous g) (hlive : ∀ v, g'.LiveV v ↔ g.LiveV v)
    (hvcnt : g'.vcnt = g.vcnt) : Contiguous g' := fun v => by
  rw [hvcnt, ← h v]
  exact hlive v

/-- What the test of `Add_Edge` leaves valid is within a component. -/
theorem invalidateBetween_spec (g : SccDirectedGraph16) (source sink : Nat) :
    (g.invalidateBetween source sink).graph = g.graph ∧
      (g.invalidateBetween source sink).sccId = g.sccId ∧
      ((g.invalidateBetween source sink).sccIsValid = true →
        g.invalidateBetween source sink = g ∧ g.sccIsValid = true ∧ g.sccId source = g.sccId sink) := by
  unfold SccDirectedGraph16.invalidateBetween
  split
  · exact ⟨rfl, rfl, fun hv => (by cases hv)⟩
  · rename_i hnot
    refine ⟨rfl, rfl, fun hv => ⟨rfl, hv, ?_⟩⟩
    rw [hv, Bool.true_and] at hnot
    simpa using hnot

section

variable {g : SccDirectedGraph16} (h : SccOk capacity g) (hcap : capacity ≤ 0xfffe)
include h hcap

theorem SccOk.findScc (hvs : Contiguous g.graph) (link dfn : Nat → Nat) :
    ∃ g', g.findScc link dfn = some g' ∧ SccOk capacity g' ∧ g'.graph = g.graph ∧
      Components g.graph g'.sccId g'.sccCnt := by
  cases hv : g.sccIsValid with
  | true =>
    refine ⟨g, ?_, h, rfl, (h.valid hv).2⟩
    unfold SccDirectedGraph16.findScc
    rw [if_pos hv]
  | false =>
    obtain ⟨g', hg', hgraph, hcomp, -⟩ := findScc_spec h.ok hcap hvs hv link dfn
    refine ⟨g', hg', ⟨hgraph ▸ h.ok, fun _ => ?_⟩, hgraph, hcomp⟩
    rw [hgraph]
    exact ⟨hvs, hcomp⟩

theorem SccOk.addEdge {source sink : Nat} (hs : g.graph.LiveV source) (ht : g.graph.LiveV sink) :
    SccOk capacity (g.addEdge capacity source sink) := by
  obtain ⟨outs, ins, fv, fe, hrep⟩ := id h.ok
  obtain ⟨hgraph, hid, hvalid⟩ := invalidateBetween_spec g source sink
  obtain ⟨g', hg', hok⟩ := h.ok.step hcap (show Op.Allowed g.graph (.addEdge source sink) from ⟨hs, ht⟩)
  obtain rfl := Option.some.inj hg'
  unfold SccDirectedGraph16.addEdge
  simp only [hgraph]
  refine ⟨hok, fun hv => ?_⟩
  obtain ⟨heq, hv', hsame⟩ := hvalid hv
  simp only [heq]
  obtain ⟨hcont, hcomp⟩ := h.valid hv'
  by_cases hroom : g.graph.ecnt = capacity
  · unfold DirectedGraph16.addEdge
    rw [if_pos hroom]
    exact ⟨hcont, hcomp⟩
  · obtain ⟨new, g'', fe', hg'', -, hnew, -, hedge, hlive, hvcnt, -⟩ := hrep.addEdge hcap hroom hs ht
    rw [hg'']
    exact ⟨hcont.congr hlive hvcnt, hcomp.addEdge hlive hs ht hsame hnew hedge⟩

theorem SccOk.addUniqueEdge
    {source sink : Nat} (hs : g.graph.LiveV source) (ht : g.graph.LiveV sink) :
    ∃ g', g.addUniqueEdge capacity source sink = some g' ∧ SccOk capacity g' := by
  obtain ⟨hgraph, hid, hvalid⟩ := invalidateBetween_spec g source sink
  obtain ⟨x, hx, hfound⟩ := h.ok.getEdgeOf hcap sink hs
  have hok := h.addEdge hcap hs ht
  unfold SccDirectedGraph16.addUniqueEdge DirectedGraph16.addUniqueEdge
  unfold SccDirectedGraph16.addEdge at hok
  simp only [hgraph, hx, map_some] at hok ⊢
  refine ⟨_, rfl, ?_⟩
  split
  · refine ⟨h.ok, fun hv => ?_⟩
    obtain ⟨heq, hv', -⟩ := hvalid hv
    simp only [heq]
    exact h.valid hv'
  · exact hok

theorem SccOk.deleteEdge {e : Nat} (he : g.graph.edgeIsInGraph e = true) :
    ∃ g', g.deleteEdge e = some g' ∧ SccOk capacity g' := by
  obtain ⟨outs, ins, fv, fe, hrep⟩ := id h.ok
  have hends : ∀ v w, Arc g.graph v w → g.graph.LiveV v ∧ g.graph.LiveV w := by
    rintro v w ⟨x, hx⟩
    exact hrep.ends x _ hx
  have hedge : g.graph.edge e = some ((g.graph.e e).getSource, (g.graph.e e).getSink) := if_pos he
  obtain ⟨g', hg', hrep', hedge', hlive, hvcnt, -⟩ := hrep.deleteEdge hcap hedge
  unfold SccDirectedGraph16.deleteEdge
  simp only
  split
  · simp only [SccDirectedGraph16.invalidateScc, hg', map_some]
    exact ⟨_, rfl, ⟨_, _, _, _, hrep'⟩, fun hv => by cases hv⟩
  · rename_i hnot
    simp only [hg', map_some]
    refine ⟨_, rfl, ⟨_, _, _, _, hrep'⟩, fun hv => ?_⟩
    have hv' : g.sccIsValid = true := hv
    obtain ⟨hcont, hcomp⟩ := h.valid hv'
    rw [hv', Bool.true_and, beq_iff_eq] at hnot
    exact ⟨hcont.congr hlive hvcnt, hcomp.deleteEdge hlive hends hedge hnot hedge'⟩

theorem SccOk.deleteVertex {v : Nat} (hv : g.graph.LiveV v) :
    ∃ g', g.deleteVertex v = some g' ∧ SccOk capacity g' := by
  obtain ⟨g', hg', hok, -⟩ := h.ok.deleteVertex hcap hv
  unfold SccDirectedGraph16.deleteVertex
  simp only [SccDirectedGraph16.invalidateScc, hg', map_some]
  exact ⟨_, rfl, hok, fun hv => by cases hv⟩

theorem SccOk.addVertex : SccOk capacity (g.addVertex capacity).2:= by
  obtain ⟨g', hg', hok⟩ := h.ok.step hcap (show Op.Allowed g.graph .addVertex from trivial)
  obtain rfl := Option.some.inj hg'
  exact ⟨hok, fun hv => by cases hv⟩

theorem SccOk.step
    {op : SccOp} (hop : op.Allowed g) : ∃ g', sccStep capacity g op = some g' ∧ SccOk capacity g' := by
  cases op with
  | findScc link dfn =>
    obtain ⟨g', hg', hok, -⟩ := h.findScc hcap hop link dfn
    exact ⟨g', hg', hok⟩
  | graph op =>
    cases op with
    | addVertex => exact ⟨_, rfl, h.addVertex hcap⟩
    | addEdge source sink => exact ⟨_, rfl, h.addEdge hcap hop.1 hop.2⟩
    | addUniqueEdge source sink => exact h.addUniqueEdge hcap hop.1 hop.2
    | deleteEdge e => exact h.deleteEdge hcap hop
    | deleteVertex v => exact h.deleteVertex hcap hop

end

theorem SccRun.ok {g : SccDirectedGraph16} (h : SccRun capacity g) (hcap : capacity ≤ 0xfffe) :
    SccOk capacity g := by
  induction h with
  | init v e sccId => exact ⟨⟨_, _, _, _, Rep.init v e⟩, fun hv => by cases hv⟩
  | step _ hop hstep ih =>
    obtain ⟨g', hg', hok⟩ := ih.step hcap hop
    rw [hstep] at hg'
    obtain rfl := Option.some.inj hg'
    exact hok

end Runs

/-! ## Queries -/

section Queries

namespace SccDirectedGraph16

def getSccId (link dfn : Nat → Nat) (g : SccDirectedGraph16) (i : Nat) :
    Option (Nat × SccDirectedGraph16) :=
  (g.findScc link dfn).map fun g => (g.sccId i, g)

def getSccCount (link dfn : Nat → Nat) (g : SccDirectedGraph16) :
    Option (Nat × SccDirectedGraph16) :=
  (g.findScc link dfn).map fun g => (g.sccCnt, g)

/-- `Get_Scc_Size`, which goes over the numbers up to the number of vertices. -/
def getSccSize (link dfn : Nat → Nat) (g : SccDirectedGraph16) (i : Nat) :
    Option (Nat × SccDirectedGraph16) :=
  (g.findScc link dfn).map fun g' => ((range' 1 g.graph.vcnt).countP fun j => g'.sccId j = i, g')

end SccDirectedGraph16

/-- The vertices that reach `v` and are reached from it. -/
def componentOf (g : DirectedGraph16) (v : Nat) : Set Nat :=
  {w | g.LiveV w ∧ Reaches (Arc g) v w ∧ Reaches (Arc g) w v}

def components (g : DirectedGraph16) : Set (Set Nat) := componentOf g '' {v | g.LiveV v}

/-- What the queries say is true of the graph as it is. -/
structure Current (g : SccDirectedGraph16) (link dfn : Nat → Nat) : Prop where
  id : ∀ v w, g.graph.LiveV v → g.graph.LiveV w → ∃ i j g' g'',
    g.getSccId link dfn v = some (i, g') ∧ g'.getSccId link dfn w = some (j, g'') ∧
      (i = j ↔ Reaches (Arc g.graph) v w ∧ Reaches (Arc g.graph) w v)
  count : ∃ g', g.getSccCount link dfn = some ((components g.graph).ncard, g')
  size : ∀ v, g.graph.LiveV v → ∃ i g' g'', g.getSccId link dfn v = some (i, g') ∧
    g'.getSccSize link dfn i = some ((componentOf g.graph v).ncard, g'')

variable {g : DirectedGraph16} {sccId : Nat → Nat} {sccCnt capacity : Nat}

theorem Components.componentOf_eq (h : Components g sccId sccCnt) (hv : g.LiveV v) :
    componentOf g v = {w | g.LiveV w ∧ sccId w = sccId v} := by
  ext w
  refine and_congr_right fun hw => ?_
  rw [← h.same v w hv hw, eq_comm]

theorem Components.ncard_components (h : Components g sccId sccCnt) :
    (components g).ncard = sccCnt := by
  have heq : components g =
      (fun i => {w | g.LiveV w ∧ sccId w = i}) '' (Finset.Icc 1 sccCnt : Finset Nat) := by
    ext C
    constructor
    · rintro ⟨v, hv, rfl⟩
      exact ⟨sccId v, Finset.mem_coe.mpr (Finset.mem_Icc.mpr (h.range v hv)),
        (h.componentOf_eq hv).symm⟩
    · rintro ⟨i, hi, rfl⟩
      obtain ⟨hlo, hhi⟩ := Finset.mem_Icc.mp (Finset.mem_coe.mp hi)
      obtain ⟨v, hv, rfl⟩ := h.onto i hlo hhi
      exact ⟨v, hv, h.componentOf_eq hv⟩
  rw [heq, Set.InjOn.ncard_image, Set.ncard_coe_finset, Nat.card_Icc, Nat.add_sub_cancel]
  -- a number has a vertex, which is in no other class
  intro i hi j _ hij
  obtain ⟨hlo, hhi⟩ := Finset.mem_Icc.mp (Finset.mem_coe.mp hi)
  obtain ⟨v, hv, rfl⟩ := h.onto i hlo hhi
  exact ((Set.ext_iff.mp hij v).mp ⟨hv, rfl⟩).2

theorem SccOk.findScc_twice {g : SccDirectedGraph16} (h : SccOk capacity g) (hcap : capacity ≤ 0xfffe)
    (hvs : Contiguous g.graph) (link dfn : Nat → Nat) :
    ∃ g', g.findScc link dfn = some g' ∧ g'.findScc link dfn = some g' ∧ g'.graph = g.graph ∧
      Components g.graph g'.sccId g'.sccCnt := by
  cases hv : g.sccIsValid with
  | true => exact ⟨g, if_pos hv, if_pos hv, rfl, (h.valid hv).2⟩
  | false =>
    obtain ⟨g', hg', hgraph, hcomp, hle⟩ := findScc_spec h.ok hcap hvs hv link dfn
    obtain ⟨outs, ins, fv, fe, hrep⟩ := h.ok
    have hvcnt := hrep.vcnt
    have hvLast := hrep.vLast
    refine ⟨g', hg', if_pos ?_, hgraph, hcomp⟩
    rw [SccDirectedGraph16.sccIsValid, bne_iff_ne]
    unfold invalidVindex16
    omega

/-- The queries are right after every run in which the components are asked for when the live
vertices are those up to the number of vertices. -/
theorem SccRun.current {g : SccDirectedGraph16} (h : SccRun capacity g) (hcap : capacity ≤ 0xfffe)
    (hvs : Contiguous g.graph) (link dfn : Nat → Nat) : Current g link dfn := by
  obtain ⟨g', hg', htwice, hgraph, hcomp⟩ := (h.ok hcap).findScc_twice hcap hvs link dfn
  have hid : ∀ v, g.getSccId link dfn v = some (g'.sccId v, g') := fun v => by
    rw [SccDirectedGraph16.getSccId, hg', map_some]
  have hid' : ∀ v, g'.getSccId link dfn v = some (g'.sccId v, g') := fun v => by
    rw [SccDirectedGraph16.getSccId, htwice, map_some]
  refine ⟨fun v w hv hw => ⟨_, _, _, _, hid v, hid' w, hcomp.same v w hv hw⟩, ⟨g', ?_⟩,
    fun v hv => ⟨_, _, g', hid v, ?_⟩⟩
  · rw [SccDirectedGraph16.getSccCount, hg', map_some, hcomp.ncard_components]
  · have hset : componentOf g.graph v =
        ((range' 1 g.graph.vcnt).filter fun j => g'.sccId j = g'.sccId v).toFinset := by
      ext w
      rw [hcomp.componentOf_eq hv, Finset.mem_coe, mem_toFinset, mem_filter, mem_range'_1,
        decide_eq_true_iff]
      refine and_congr_left fun _ => (hvs w).trans ?_
      omega
    rw [SccDirectedGraph16.getSccSize, htwice, map_some, hset, Set.ncard_coe_finset,
      toFinset_card_of_nodup (Nodup.filter _ nodup_range'), ← countP_eq_length_filter, hgraph]

/-- Two vertices and no edge. -/
def twoVertices : SccDirectedGraph16 :=
  ((SccDirectedGraph16.init (fun _ => ⟨0, 0⟩) (fun _ => ⟨0, 0, 0, 0⟩) (fun _ => 0)).addVertex 2).2
    |>.addVertex 2 |>.2

theorem twoVertices_run : SccRun 2 twoVertices := by
  have hadd : ∀ g, SccOp.Allowed g (.graph .addVertex) := fun _ => trivial
  exact .step (.step (.init _ _ _) (hadd _) rfl) (hadd _) rfl

theorem SccRun.current_two : Current twoVertices (fun _ => 0) (fun _ => 0) := by
  refine SccRun.current twoVertices_run (by decide) (fun v => ?_) _ _
  refine vertexIsInGraph_iff.trans (and_iff_left_of_imp fun hv => ?_)
  obtain rfl | rfl : v = 1 ∨ v = 2 := by
    have hle : v ≤ 2 := hv.2
    omega
  · decide
  · decide

/-- The first of the vertices is deleted. -/
def oneVertex : SccDirectedGraph16 := (twoVertices.deleteVertex 1).get rfl

/-- The other vertex is not counted. -/
theorem SccRun.not_current : ¬ ∀ g link dfn, SccRun 2 g → Current g link dfn := by
  intro h
  have hallowed : SccOp.Allowed twoVertices (.graph (.deleteVertex 1)) := rfl
  obtain ⟨i, g', g'', hid, hsize⟩ := (h oneVertex (fun _ => 0) (fun _ => 0)
    (.step twoVertices_run hallowed (Option.some_get rfl).symm)).size 2 rfl
  have hzero : ((oneVertex.getSccId (fun _ => 0) (fun _ => 0) 2).bind fun p =>
      p.2.getSccSize (fun _ => 0) (fun _ => 0) p.1).map Prod.fst = some 0 := by decide
  rw [hid, bind_some, hsize, map_some, Option.some.injEq] at hzero
  have hfin : (componentOf oneVertex.graph 2).Finite :=
    (Set.finite_Iic 2).subset fun w hw => (vertexIsInGraph_iff.mp hw.1).1.2
  rw [Set.ncard_eq_zero hfin] at hzero
  exact (Set.ext_iff.mp hzero 2).mp ⟨rfl, Reaches.refl 2, Reaches.refl 2⟩

end Queries

/-! ## The condensation -/

section Condensation

variable {capacity : Nat} {g : SccDirectedGraph16}

/-- The condensation when its first `k` vertices are there. -/
structure Vertices (capacity k : Nat) (c : SccDirectedGraph16) : Prop where
  ok : c.graph.Ok capacity
  invalid : c.sccIsValid = false
  vfree : c.graph.vfree = 0
  vLast : c.graph.vLast = k
  none : ∀ e, c.graph.edge e = none
  ecnt : c.graph.ecnt = 0

theorem vertices_init (v : Nat → Vertex16) (e : Nat → Edge16) (sccId : Nat → Nat) :
    Vertices capacity 0 (.init v e sccId) := by
  refine ⟨⟨_, _, _, _, Rep.init v e⟩, by simp [SccDirectedGraph16.init, SccDirectedGraph16.sccIsValid],
    rfl, rfl, fun x => ?_, rfl⟩
  rw [edge_eq_none, edgeIsInGraph_iff]
  simp only [SccDirectedGraph16.init, DirectedGraph16.init]
  omega

theorem Vertices.addVertex {c : SccDirectedGraph16} {k : Nat} (h : Vertices capacity k c)
    (hcap : capacity ≤ 0xfffe) (hk : k < capacity) :
    (c.addVertex capacity).1 = k + 1 ∧ Vertices capacity (k + 1) (c.addVertex capacity).2 := by
  obtain ⟨outs, ins, fv, fe, hrep⟩ := h.ok
  have hvcnt := hrep.vcnt
  have hlinked := hrep.freeV
  rw [h.vfree] at hlinked
  rw [hlinked.unique (show Linked c.graph.freeNextV 0 [] from rfl), h.vLast] at hvcnt
  have hroom : c.graph.vcnt ≠ capacity := by
    simp only [length_nil] at hvcnt
    omega
  have hlast := h.vLast
  obtain ⟨hnew, hfree', hvLast'⟩ := addVertex_last hroom h.vfree (by omega)
  obtain ⟨new, g', fv', hg', -, -, hrep', hedge, -, -, hecnt⟩ := hrep.addVertex hcap hroom
  rw [hg'] at hnew hfree' hvLast'
  unfold SccDirectedGraph16.addVertex
  simp only [SccDirectedGraph16.invalidateScc, hg']
  simp only at hnew hfree' hvLast'
  refine ⟨by rw [hnew, hlast], ⟨_, _, _, _, hrep'⟩, by simp [SccDirectedGraph16.sccIsValid], hfree',
    by rw [hvLast', hlast], fun e => ?_, by rw [hecnt, h.ecnt]⟩
  rw [hedge]
  exact h.none e

theorem addVertices_spec (hcap : capacity ≤ 0xfffe) :
    ∀ (m k : Nat) (c : SccDirectedGraph16), Vertices capacity k c → k + m ≤ capacity →
      ∃ c', SccDirectedGraph16.addVertices capacity (range' (k + 1) m) c = some c' ∧
        Vertices capacity (k + m) c' := by
  intro m
  induction m with
  | zero => exact fun k c h _ => ⟨c, rfl, h⟩
  | succ m ih =>
    intro k c h hle
    obtain ⟨hnew, h'⟩ := h.addVertex hcap (by omega)
    obtain ⟨c', hc', hv'⟩ := ih (k + 1) _ h' (by omega)
    rw [range'_succ]
    unfold SccDirectedGraph16.addVertices
    rw [if_pos hnew]
    exact ⟨c', hc', by rwa [show k + (m + 1) = k + 1 + m by omega]⟩

/-- What an edge of the graph becomes. -/
def condensed (g : SccDirectedGraph16) (e : Nat) : Nat × Nat :=
  (g.sccId (g.graph.e e).getSource, g.sccId (g.graph.e e).getSink)

/-- The condensation when the edges in `passed` have been seen. -/
structure Condensing (capacity : Nat) (g : SccDirectedGraph16) (passed : List Nat)
    (c : SccDirectedGraph16) : Prop where
  ok : c.graph.Ok capacity
  invalid : c.sccIsValid = false
  live : ∀ v, c.graph.LiveV v ↔ 0 < v ∧ v ≤ g.sccCnt
  ecnt : c.graph.ecnt ≤ passed.length
  edges : ∀ p, (∃ e, c.graph.edge e = some p) ↔
    ∃ x ∈ passed, condensed g x = p ∧ p.1 ≠ p.2
  unique : ∀ e e' p, c.graph.edge e = some p → c.graph.edge e' = some p → e = e'

section

variable {passed : List Nat} {c : SccDirectedGraph16} {x : Nat} (h : Condensing capacity g passed c)
include h

theorem Condensing.skip (hx : (condensed g x).1 = (condensed g x).2) :
    Condensing capacity g (passed ++ [x]) c := by
  refine ⟨h.ok, h.invalid, h.live, ?_, fun p => ?_, h.unique⟩
  · rw [length_append]
    exact h.ecnt.trans (Nat.le_add_right _ _)
  · rw [h.edges]
    constructor
    · rintro ⟨y, hy, hyp⟩
      exact ⟨y, mem_append_left _ hy, hyp⟩
    · rintro ⟨y, hy, rfl, hne⟩
      rcases mem_append.mp hy with hy | hy
      · exact ⟨y, hy, rfl, hne⟩
      · rw [mem_singleton.mp hy] at hne
        exact absurd hx hne

/-- One edge more of the condensation, unless it is there already. -/
theorem Condensing.add (hcap : capacity ≤ 0xfffe) (hroom : passed.length < capacity)
    (hx : (condensed g x).1 ≠ (condensed g x).2)
    (hrange : ∀ i, i = (condensed g x).1 ∨ i = (condensed g x).2 → 0 < i ∧ i ≤ g.sccCnt) :
    ∃ c', c.addUniqueEdge capacity (condensed g x).1 (condensed g x).2 = some c' ∧
      Condensing capacity g (passed ++ [x]) c' := by
  have hbetween : c.invalidateBetween (condensed g x).1 (condensed g x).2 = c := by
    unfold SccDirectedGraph16.invalidateBetween
    rw [h.invalid]
    rfl
  have hecnt := h.ecnt
  obtain ⟨y, g', hg', hok, hlive, -, hle, hcase⟩ := h.ok.addUniqueEdge hcap (by omega)
    ((h.live _).mpr (hrange _ (.inl rfl))) ((h.live _).mpr (hrange _ (.inr rfl)))
  unfold SccDirectedGraph16.addUniqueEdge
  simp only [hbetween, hg', map_some]
  refine ⟨_, rfl, hok, h.invalid, fun v => (hlive v).trans (h.live v), ?_, fun p => ?_,
    fun e e' p he he' => ?_⟩
  · rw [length_append, length_singleton]
    exact hle.trans (Nat.add_le_add_right hecnt 1)
  · have hpassed : (∃ z ∈ passed ++ [x], condensed g z = p ∧ p.1 ≠ p.2) ↔
        (∃ z ∈ passed, condensed g z = p ∧ p.1 ≠ p.2) ∨ p = condensed g x := by
      constructor
      · rintro ⟨z, hz, rfl, hne⟩
        rcases mem_append.mp hz with hz | hz
        · exact .inl ⟨z, hz, rfl, hne⟩
        · rw [mem_singleton.mp hz]
          exact .inr rfl
      · rintro (⟨z, hz, hzp⟩ | rfl)
        · exact ⟨z, mem_append_left _ hz, hzp⟩
        · exact ⟨x, by simp, rfl, hx⟩
    rw [hpassed, ← h.edges p]
    rcases hcase with ⟨⟨e, he⟩, heq⟩ | ⟨-, new, hnew, hedge⟩
    · -- the edge was there
      rw [heq]
      exact ⟨.inl, fun hor => hor.elim id fun hp => ⟨e, hp ▸ he⟩⟩
    · -- it is added
      constructor
      · rintro ⟨e, he⟩
        replace he : g'.edge e = some p := he
        rw [hedge] at he
        split at he
        · exact .inr (Option.some.inj he).symm
        · exact .inl ⟨e, he⟩
      · rintro (⟨e, he⟩ | rfl)
        · refine ⟨e, (hedge e).trans ?_⟩
          rw [if_neg, he]
          rintro rfl
          rw [hnew] at he
          cases he
        · exact ⟨new, (hedge new).trans (if_pos rfl)⟩
  · replace he : g'.edge e = some p := he
    replace he' : g'.edge e' = some p := he'
    rcases hcase with ⟨-, heq⟩ | ⟨hnone, new, hnew, hedge⟩
    · rw [heq] at he he'
      exact h.unique e e' p he he'
    · rw [hedge] at he he'
      split at he
      · rename_i hen
        split at he'
        · rename_i hen'
          rw [hen, hen']
        · obtain rfl := Option.some.inj he
          exact absurd he' (hnone e')
      · split at he'
        · obtain rfl := Option.some.inj he'
          exact absurd he (hnone e)
        · exact h.unique e e' p he he'

end

/-- The loop over the edges adds an edge for each pair of components that one of them joins. -/
theorem condenseEdges_spec (hcap : capacity ≤ 0xfffe)
    (hrange : ∀ e, g.graph.edgeIsInGraph e = true → ∀ i,
      i = (condensed g e).1 ∨ i = (condensed g e).2 → 0 < i ∧ i ≤ g.sccCnt) :
    ∀ (l passed : List Nat) (e fuel : Nat) (c : SccDirectedGraph16),
      Linked g.graph.getNextEdge e l → l.length < fuel → (passed ++ l).length ≤ capacity →
      (∀ x ∈ l, g.graph.edgeIsInGraph x = true) → Condensing capacity g passed c →
        ∃ c', SccDirectedGraph16.condenseEdges capacity g fuel e c = some c' ∧
          Condensing capacity g (passed ++ l) c' := by
  intro l
  induction l with
  | nil =>
    intro passed e fuel c hl hfuel _ _ h
    obtain ⟨fuel, rfl⟩ : ∃ k, fuel = k + 1 := ⟨fuel - 1, by simp at hfuel; omega⟩
    unfold SccDirectedGraph16.condenseEdges
    rw [if_neg (not_not.mpr (linked_nil.mp hl)), append_nil]
    exact ⟨c, rfl, h⟩
  | cons x l ih =>
    intro passed e fuel c hl hfuel hle hlive h
    obtain ⟨fuel, rfl⟩ : ∃ k, fuel = k + 1 := ⟨fuel - 1, by simp at hfuel; omega⟩
    obtain ⟨rfl, he, hl⟩ := hl
    have hlen : l.length < fuel := by simp at hfuel; omega
    have hassoc : passed ++ e :: l = passed ++ [e] ++ l := by rw [append_assoc]; rfl
    have hroom : passed.length < capacity := by
      rw [length_append, length_cons] at hle
      omega
    rw [hassoc] at hle ⊢
    have hrest := fun y hy => hlive y (mem_cons_of_mem e hy)
    unfold SccDirectedGraph16.condenseEdges
    rw [if_pos he]
    simp only
    by_cases hne : (condensed g e).1 = (condensed g e).2
    · have hne' : ¬ g.sccId (g.graph.e e).getSource ≠ g.sccId (g.graph.e e).getSink :=
        not_not.mpr hne
      rw [if_neg hne', bind_some]
      exact ih _ _ fuel c hl hlen hle hrest (h.skip hne)
    · have hne' : g.sccId (g.graph.e e).getSource ≠ g.sccId (g.graph.e e).getSink := hne
      obtain ⟨c', hc', h'⟩ := h.add hcap hroom hne (hrange e (hlive e mem_cons_self))
      have hadd : c.addUniqueEdge capacity (g.sccId (g.graph.e e).getSource)
          (g.sccId (g.graph.e e).getSink) = some c' := hc'
      rw [if_pos hne', hadd, bind_some]
      exact ih _ _ fuel c' hl hlen hle hrest h'

/-- The components, and an edge for every two that an edge of the graph connects. -/
structure Condensation (g c : DirectedGraph16) (sccId : Nat → Nat) (sccCnt : Nat) : Prop where
  live : ∀ v, c.LiveV v ↔ 0 < v ∧ v ≤ sccCnt
  edges : ∀ i j, (∃ v w, Arc g v w ∧ sccId v = i ∧ sccId w = j ∧ i ≠ j) → ∃! e, c.edge e = some (i, j)
  sound : ∀ e i j, c.edge e = some (i, j) → ∃ v w, Arc g v w ∧ sccId v = i ∧ sccId w = j ∧ i ≠ j
  down : ∀ i j, Arc c i j → j < i
  acyclic : ∀ i j, Arc c i j → ¬ Reaches (Arc c) j i

theorem SccOk.acyclicCondensation (h : SccOk capacity g) (hcap : capacity ≤ 0xfffe)
    (hvs : Contiguous g.graph) (link dfn : Nat → Nat) (v : Nat → Vertex16) (e : Nat → Edge16)
    (sccId : Nat → Nat) : ∃ g' c, g.findScc link dfn = some g' ∧
      SccDirectedGraph16.acyclicCondensation capacity link dfn (.init v e sccId) g = some c ∧
      Condensation g.graph c.graph g'.sccId g'.sccCnt := by
  obtain ⟨g', hg', hok', hgraph, hcomp⟩ := h.findScc hcap hvs link dfn
  obtain ⟨outs, ins, fv, fe, hrep⟩ := h.ok
  have hlists := hrep.lists
  have hecnt := hlists.ecnt
  have hbound := hrep.ecnt
  have heLast := hrep.eLast
  -- there are no more components than vertices
  have hcnt : g'.sccCnt ≤ capacity := by
    have hvcnt := hrep.vcnt
    have hvLast := hrep.vLast
    have hinj : (range' 1 g'.sccCnt) ⊆ (range' 1 g.graph.vcnt).map g'.sccId := by
      intro i hi
      rw [mem_range'_1] at hi
      obtain ⟨w, hw, rfl⟩ := hcomp.onto i (by omega) (by omega)
      have := (hvs w).mp hw
      exact mem_map_of_mem (mem_range'_1.mpr (by omega))
    have hnd : (range' 1 g'.sccCnt).Nodup := nodup_range'
    have hle := hnd.length_le_of_subset hinj
    simp only [length_map, length_range'] at hle
    omega
  obtain ⟨c0, hc0, hv0⟩ := addVertices_spec hcap g'.sccCnt 0 _ (vertices_init v e sccId) (by omega)
  rw [Nat.zero_add] at hv0
  have hstart : Condensing capacity g' [] c0 := by
    obtain ⟨outs0, ins0, fv0, fe0, hrep0⟩ := id hv0.ok
    refine ⟨hv0.ok, hv0.invalid, fun w => ?_, by rw [hv0.ecnt]; exact Nat.zero_le _, fun p => ?_,
      fun x x' p hx => ?_⟩
    · rw [hrep0.live_iff hv0.vfree, hv0.vLast]
    · refine iff_of_false ?_ ?_
      · rintro ⟨x, hx⟩
        rw [hv0.none] at hx
        cases hx
      · rintro ⟨x, hx, -⟩
        cases hx
    · rw [hv0.none] at hx
      cases hx
  have harc : ∀ x, g'.graph.edgeIsInGraph x = true →
      Arc g.graph (g'.graph.e x).getSource (g'.graph.e x).getSink := by
    intro x hx
    rw [hgraph] at hx ⊢
    exact ⟨x, if_pos hx⟩
  have hrange : ∀ x, g'.graph.edgeIsInGraph x = true → ∀ i,
      i = (condensed g' x).1 ∨ i = (condensed g' x).2 → 0 < i ∧ i ≤ g'.sccCnt := by
    intro x hx i hi
    obtain ⟨y, hy⟩ := harc x hx
    obtain ⟨hs, ht⟩ := hrep.ends y _ hy
    rcases hi with rfl | rfl
    · exact hcomp.range _ hs
    · exact hcomp.range _ ht
  have hlinked : Linked g'.graph.getNextEdge g'.graph.getEdge
      (slots (fun y => (g.graph.e y).isFree) g.graph.eLast) := by
    rw [hgraph]
    exact hlists.edges
  have hlive : ∀ x ∈ slots (fun y => (g.graph.e y).isFree) g.graph.eLast,
      g'.graph.edgeIsInGraph x = true := fun x hx => by
    rw [hgraph]
    exact (hlists.memE x).mp hx
  -- and one edge for each pair that an edge joins
  obtain ⟨c, hc, hcond⟩ := condenseEdges_spec hcap hrange _ [] _ walkFuel c0 hlinked
    (by rw [← hecnt]; unfold walkFuel; omega) (by rw [nil_append, ← hecnt]; omega) hlive hstart
  rw [nil_append] at hcond
  have hedges : ∀ i j, (∃ x, c.graph.edge x = some (i, j)) ↔
      ∃ v w, Arc g.graph v w ∧ g'.sccId v = i ∧ g'.sccId w = j ∧ i ≠ j := by
    intro i j
    rw [hcond.edges]
    constructor
    · rintro ⟨x, hx, heq, hne⟩
      obtain ⟨rfl, rfl⟩ := Prod.mk.inj heq
      exact ⟨_, _, harc x (hlive x hx), rfl, rfl, hne⟩
    · rintro ⟨a, b, ⟨x, hx⟩, rfl, rfl, hne⟩
      obtain ⟨hin, hsource, hsink⟩ := edge_isSome hx
      refine ⟨x, (hlists.memE x).mpr hin, ?_, hne⟩
      unfold condensed
      rw [hgraph, hsource, hsink]
  -- every edge leads to a lower number, so there is no cycle
  have hdown : ∀ i j, Arc c.graph i j → j < i := by
    intro i j hij
    obtain ⟨a, b, hab, rfl, rfl, hne⟩ := (hedges i j).mp hij
    have := hcomp.order a b hab
    omega
  have hreach : ∀ i j, Reaches (Arc c.graph) i j → j ≤ i := by
    rintro i j ⟨p, hp⟩
    induction hp with
    | single => exact Nat.le_refl _
    | snoc _ hadj ih => exact (hdown _ _ hadj).le.trans ih
  refine ⟨g', c, hg', ?_, hcond.live, fun i j hij => ?_, fun x i j hx => (hedges i j).mp ⟨x, hx⟩, hdown,
    fun i j hij hji => ?_⟩
  · unfold SccDirectedGraph16.acyclicCondensation
    rw [hg', bind_some, hc0, bind_some, hc]
  · obtain ⟨x, hx⟩ := (hedges i j).mpr hij
    exact ⟨x, hx, fun y hy => hcond.unique y x _ hy hx⟩
  · have h1 := hdown i j hij
    have h2 := hreach j i hji
    omega

end Condensation

end Lno
