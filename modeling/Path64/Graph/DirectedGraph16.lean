import Mathlib.Algebra.Group.Nat.Defs
import Path64.Lib.Links

/-! # The directed graph container

Vertices and edges live in two growing arrays. An edge is linked into the
out list of its source and the in list of its sink; deleted ones are linked
into a free list, through the field that a live vertex or edge uses for
something else, and marked in another. -/

namespace Graph

open Nat Option List Function Links

/-! ## Vertices and edges -/

def invalidVindex16 : Nat := 0xffff

structure Vertex16 where
  from_ : Nat
  to_ : Nat

namespace Vertex16

def setNextFreeVertex (v : Vertex16) (i : Nat) : Vertex16 := { v with from_ := i }
def setToFree (v : Vertex16) : Vertex16 := { v with to_ := invalidVindex16 }
def isFree (v : Vertex16) : Bool := v.to_ == invalidVindex16
def getNextFreeVertex (v : Vertex16) : Nat := v.from_
def setOutEdge (v : Vertex16) (i : Nat) : Vertex16 := { v with from_ := i }
def setInEdge (v : Vertex16) (i : Nat) : Vertex16 := { v with to_ := i }
def getInEdge (v : Vertex16) : Nat := v.to_
def getOutEdge (v : Vertex16) : Nat := v.from_

end Vertex16

structure Edge16 where
  from_ : Nat
  to_ : Nat
  nfrom : Nat
  nto : Nat

namespace Edge16

def setSource (e : Edge16) (i : Nat) : Edge16 := { e with from_ := i }
def setSink (e : Edge16) (i : Nat) : Edge16 := { e with to_ := i }
def setNextOutEdge (e : Edge16) (i : Nat) : Edge16 := { e with nfrom := i }
def setNextInEdge (e : Edge16) (i : Nat) : Edge16 := { e with nto := i }
def setNextFreeEdge (e : Edge16) (i : Nat) : Edge16 := { e with from_ := i }
def setToFree (e : Edge16) : Edge16 := { e with to_ := invalidVindex16 }
def isFree (e : Edge16) : Bool := e.to_ == invalidVindex16
def getNextFreeEdge (e : Edge16) : Nat := e.from_
def getNextOutEdge (e : Edge16) : Nat := e.nfrom
def getNextInEdge (e : Edge16) : Nat := e.nto
def getSource (e : Edge16) : Nat := e.from_
def getSink (e : Edge16) : Nat := e.to_

end Edge16

/-! ## The container -/

/-- `DIRECTED_GRAPH16`; `vLast` and `eLast` are the last indices of the arrays. -/
structure DirectedGraph16 where
  vfree : Nat
  efree : Nat
  v : Nat → Vertex16
  vLast : Nat
  vcnt : Nat
  e : Nat → Edge16
  eLast : Nat
  ecnt : Nat

/-- A walk over links of 16 bits that takes more steps does not end. -/
def walkFuel : Nat := 2 ^ 16

namespace DirectedGraph16

def modifyV (g : DirectedGraph16) (i : Nat) (f : Vertex16 → Vertex16) : DirectedGraph16 :=
  { g with v := update g.v i (f (g.v i)) }

def modifyE (g : DirectedGraph16) (i : Nat) (f : Edge16 → Edge16) : DirectedGraph16 :=
  { g with e := update g.e i (f (g.e i)) }

/-- The constructor; what the arrays hold is left as it was allocated. -/
def init (v : Nat → Vertex16) (e : Nat → Edge16) : DirectedGraph16 :=
  { vfree := 0, efree := 0, v := v, vLast := 0, vcnt := 0, e := e, eLast := 0, ecnt := 0 }

def vertexIsInGraph (g : DirectedGraph16) (v : Nat) : Bool :=
  decide (v ≤ g.vLast) && decide (0 < v) && !(g.v v).isFree

def edgeIsInGraph (g : DirectedGraph16) (e : Nat) : Bool :=
  decide (e ≤ g.eLast) && decide (0 < e) && !(g.e e).isFree

/-- The slot that `Add_Vertex` takes: the end of the array, or a free one. -/
def newVertexSlot (g : DirectedGraph16) : Nat × DirectedGraph16 :=
  if g.vfree = 0 then ((g.vLast + 1) % 2 ^ 16, { g with vLast := g.vLast + 1 })
  else (g.vfree, { g with vfree := (g.v g.vfree).getNextFreeVertex })

/-- The slot that `Add_Edge` takes. -/
def newEdgeSlot (g : DirectedGraph16) : Nat × DirectedGraph16 :=
  if g.efree = 0 then ((g.eLast + 1) % 2 ^ 16, { g with eLast := g.eLast + 1 })
  else (g.efree, { g with efree := (g.e g.efree).getNextFreeEdge })

/-- `Add_Vertex`, for a `GRAPH16_CAPACITY`. -/
def addVertex (capacity : Nat) (g : DirectedGraph16) : Nat × DirectedGraph16 :=
  if g.vcnt = capacity then (0, g)
  else
    let (newVertex, g) := g.newVertexSlot
    let g := g.modifyV newVertex fun v => (v.setOutEdge 0).setInEdge 0
    (newVertex, { g with vcnt := (g.vcnt + 1) % 2 ^ 16 })

def addEdge (capacity : Nat) (g : DirectedGraph16) (source sink : Nat) : Nat × DirectedGraph16 :=
  if g.ecnt = capacity then (0, g)
  else
    let (newEdge, g) := g.newEdgeSlot
    let g := g.modifyE newEdge fun e => (e.setSource source).setSink sink
    let g := { g with ecnt := (g.ecnt + 1) % 2 ^ 16 }
    let g := g.modifyE newEdge fun e => e.setNextOutEdge (g.v source).getOutEdge
    let g := g.modifyV source fun v => v.setOutEdge newEdge
    let g := g.modifyE newEdge fun e => e.setNextInEdge (g.v sink).getInEdge
    let g := g.modifyV sink fun v => v.setInEdge newEdge
    (newEdge, g)

/-- The loop of `Get_Edge` of two vertices. -/
def edgeTo (g : DirectedGraph16) (sink : Nat) : Nat → Nat → Option Nat
  | 0, _ => none
  | fuel + 1, e =>
    if e ≠ 0 then
      if (g.e e).getSink = sink then some e
      else edgeTo g sink fuel (g.e e).getNextOutEdge
    else some 0

/-- `Get_Edge` of two vertices. -/
def getEdgeOf (g : DirectedGraph16) (source sink : Nat) : Option Nat :=
  g.edgeTo sink walkFuel (g.v source).getOutEdge

def addUniqueEdge (capacity : Nat) (g : DirectedGraph16) (source sink : Nat) :
    Option (Nat × DirectedGraph16) :=
  (g.getEdgeOf source sink).map fun newEdge =>
    if newEdge ≠ 0 then (newEdge, g) else g.addEdge capacity source sink

/-- The first half of `Delete_Edge`: out of the list of the source. -/
def unlinkOut (g : DirectedGraph16) (e source : Nat) : Option DirectedGraph16 :=
  if (g.v source).getOutEdge = e then  -- to delete the first edge in list
    some (g.modifyV source fun v => v.setOutEdge (g.e e).getNextOutEdge)
  else
    (findPrev (fun x => (g.e x).getNextOutEdge) e walkFuel (g.v source).getOutEdge).map fun e₁ =>
      g.modifyE e₁ fun x => x.setNextOutEdge (g.e e).getNextOutEdge

/-- The second half: out of the list of the sink. -/
def unlinkIn (g : DirectedGraph16) (e sink : Nat) : Option DirectedGraph16 :=
  if (g.v sink).getInEdge = e then  -- to delete the first edge in list
    some (g.modifyV sink fun v => v.setInEdge (g.e e).getNextInEdge)
  else
    (findPrev (fun x => (g.e x).getNextInEdge) e walkFuel (g.v sink).getInEdge).map fun e₁ =>
      g.modifyE e₁ fun x => x.setNextInEdge (g.e e).getNextInEdge

def deleteEdge (g : DirectedGraph16) (e : Nat) : Option DirectedGraph16 := do
  let source := (g.e e).getSource
  let sink := (g.e e).getSink
  let g ← g.unlinkOut e source
  let g ← g.unlinkIn e sink
  let g := g.modifyE e fun x => (x.setNextFreeEdge g.efree).setToFree
  some { g with efree := e, ecnt := g.ecnt - 1 }

/-- A loop of `Delete_Vertex`: delete what `first` finds at the vertex. -/
def deleteEdges (first : Vertex16 → Nat) (v : Nat) : Nat → DirectedGraph16 → Option DirectedGraph16
  | 0, _ => none
  | fuel + 1, g =>
    if first (g.v v) ≠ 0 then (g.deleteEdge (first (g.v v))).bind (deleteEdges first v fuel)
    else some g

def deleteVertex (g : DirectedGraph16) (v : Nat) : Option DirectedGraph16 := do
  let g ← deleteEdges Vertex16.getInEdge v walkFuel g
  let g ← deleteEdges Vertex16.getOutEdge v walkFuel g
  let g := g.modifyV v fun x => (x.setNextFreeVertex g.vfree).setToFree
  some { g with vfree := v, vcnt := g.vcnt - 1 }

/-- The loops that skip free slots. -/
def skipFree (isFree : Nat → Bool) : Nat → Nat
  | 0 => 0
  | i + 1 => if isFree (i + 1) then skipFree isFree i else i + 1

def getVertex (g : DirectedGraph16) : Nat :=
  if g.vcnt = 0 then 0 else skipFree (fun v => (g.v v).isFree) g.vLast

/-- `Get_Next_Vertex`, of a vertex. -/
def getNextVertex (g : DirectedGraph16) (v : Nat) : Nat :=
  skipFree (fun v => (g.v v).isFree) (v - 1)

def getEdge (g : DirectedGraph16) : Nat :=
  if g.ecnt = 0 then 0 else skipFree (fun e => (g.e e).isFree) g.eLast

/-- `Get_Next_Edge`, of an edge. -/
def getNextEdge (g : DirectedGraph16) (e : Nat) : Nat :=
  skipFree (fun e => (g.e e).isFree) (e - 1)

end DirectedGraph16

/-! ## Runs -/

/-- What a client does to a graph. -/
inductive Op where
  | addVertex
  | addEdge (source sink : Nat)
  | addUniqueEdge (source sink : Nat)
  | deleteEdge (e : Nat)
  | deleteVertex (v : Nat)

/-- Only vertices and edges of the graph are named. -/
def Op.Allowed (g : DirectedGraph16) : Op → Prop
  | .addVertex => True
  | .addEdge source sink => g.vertexIsInGraph source ∧ g.vertexIsInGraph sink
  | .addUniqueEdge source sink => g.vertexIsInGraph source ∧ g.vertexIsInGraph sink
  | .deleteEdge e => g.edgeIsInGraph e
  | .deleteVertex v => g.vertexIsInGraph v

/-- The graph after an operation; `none` when it does not end. -/
def step (capacity : Nat) (g : DirectedGraph16) : Op → Option DirectedGraph16
  | .addVertex => some (g.addVertex capacity).2
  | .addEdge source sink => some (g.addEdge capacity source sink).2
  | .addUniqueEdge source sink => (g.addUniqueEdge capacity source sink).map Prod.snd
  | .deleteEdge e => g.deleteEdge e
  | .deleteVertex v => g.deleteVertex v

/-- The graphs that operations lead to. -/
inductive Run (capacity : Nat) : DirectedGraph16 → Prop
  | init (v : Nat → Vertex16) (e : Nat → Edge16) : Run capacity (.init v e)
  | step {g g' : DirectedGraph16} {op : Op} : Run capacity g → op.Allowed g →
      step capacity g op = some g' → Run capacity g'

/-! ## What can be seen of a graph -/

namespace DirectedGraph16

variable {g g' : DirectedGraph16}

abbrev LiveV (g : DirectedGraph16) (v : Nat) : Prop := g.vertexIsInGraph v = true

/-- Source and sink of an edge of the graph. -/
def edge (g : DirectedGraph16) (e : Nat) : Option (Nat × Nat) :=
  if g.edgeIsInGraph e then some ((g.e e).getSource, (g.e e).getSink) else none

def outHead (g : DirectedGraph16) (v : Nat) : Nat := (g.v v).getOutEdge
def inHead (g : DirectedGraph16) (v : Nat) : Nat := (g.v v).getInEdge
def outNext (g : DirectedGraph16) (e : Nat) : Nat := (g.e e).getNextOutEdge
def inNext (g : DirectedGraph16) (e : Nat) : Nat := (g.e e).getNextInEdge
def freeNextV (g : DirectedGraph16) (v : Nat) : Nat := (g.v v).getNextFreeVertex
def freeNextE (g : DirectedGraph16) (e : Nat) : Nat := (g.e e).getNextFreeEdge

theorem edgeIsInGraph_iff {e : Nat} :
    g.edgeIsInGraph e = true ↔ (0 < e ∧ e ≤ g.eLast) ∧ (g.e e).to_ ≠ invalidVindex16 := by
  unfold edgeIsInGraph Edge16.isFree
  simp only [Bool.and_eq_true, decide_eq_true_eq, Bool.not_eq_true', beq_eq_false_iff_ne]
  tauto

variable {v x w n : Nat}

theorem vertexIsInGraph_iff :
    g.LiveV v ↔ (0 < v ∧ v ≤ g.vLast) ∧ (g.v v).to_ ≠ invalidVindex16 := by
  unfold LiveV vertexIsInGraph Vertex16.isFree
  simp only [Bool.and_eq_true, decide_eq_true_eq, Bool.not_eq_true', beq_eq_false_iff_ne]
  tauto

theorem edge_eq_none {e : Nat} : g.edge e = none ↔ ¬ g.edgeIsInGraph e = true := by
  unfold edge
  split <;> simp [*]

theorem edge_isSome {e : Nat} {p : Nat × Nat} (h : g.edge e = some p) :
    g.edgeIsInGraph e = true ∧ (g.e e).getSource = p.1 ∧ (g.e e).getSink = p.2 := by
  unfold edge at h
  split at h
  · rename_i hlive
    obtain rfl := some.inj h
    exact ⟨hlive, rfl, rfl⟩
  · cases h

/-- How the lists run. -/
structure Rep (capacity : Nat) (g : DirectedGraph16) (outs ins : Nat → List Nat)
    (fv fe : List Nat) : Prop where
  out : Family g.LiveV g.outHead g.outNext (fun e => (g.edge e).map Prod.fst) outs
  inn : Family g.LiveV g.inHead g.inNext (fun e => (g.edge e).map Prod.snd) ins
  freeV : Linked g.freeNextV g.vfree fv
  freeE : Linked g.freeNextE g.efree fe
  memV : ∀ v, v ∈ fv ↔ (0 < v ∧ v ≤ g.vLast) ∧ ¬ g.LiveV v
  memE : ∀ e, e ∈ fe ↔ (0 < e ∧ e ≤ g.eLast) ∧ g.edge e = none
  ends : ∀ e p, g.edge e = some p → g.LiveV p.1 ∧ g.LiveV p.2
  vcnt : g.vcnt + fv.length = g.vLast
  ecnt : g.ecnt + fe.length = g.eLast
  vLast : g.vLast ≤ capacity
  eLast : g.eLast ≤ capacity

variable {capacity : Nat} {outs ins : Nat → List Nat} {fv fe : List Nat} {e : Nat} {p : Nat × Nat}

theorem Rep.init (v : Nat → Vertex16) (e : Nat → Edge16) :
    Rep capacity (.init v e) (fun _ => []) (fun _ => []) [] [] := by
  have hv : ∀ w, ¬ (DirectedGraph16.init v e).LiveV w := by
    intro w hw
    have := (vertexIsInGraph_iff.mp hw).1
    simp only [DirectedGraph16.init] at this
    omega
  have he : ∀ x, (DirectedGraph16.init v e).edge x = none := by
    intro x
    rw [edge_eq_none, edgeIsInGraph_iff]
    simp only [DirectedGraph16.init]
    omega
  refine ⟨⟨fun k hk => absurd hk (hv k), fun k hk => absurd hk (hv k)⟩,
    ⟨fun k hk => absurd hk (hv k), fun k hk => absurd hk (hv k)⟩, rfl, rfl, fun w => ?_, fun x => ?_,
    fun x p hx => ?_, rfl, rfl, zero_le _, zero_le _⟩
  · simp only [DirectedGraph16.init, not_mem_nil, false_iff]
    omega
  · simp only [DirectedGraph16.init, not_mem_nil, false_iff]
    omega
  · rw [he x] at hx
    cases hx

/-! ### Adding -/

theorem Rep.fe_bound (h : Rep capacity g outs ins fv fe) (hx : x ∈ fe) :
    0 < x ∧ x ≤ g.eLast ∧ g.edge x = none := by
  obtain ⟨⟨hpos, hle⟩, hnone⟩ := (h.memE x).mp hx
  exact ⟨hpos, hle, hnone⟩

/-- A slot for an edge comes from the free list, or from behind the last one. -/
theorem Rep.newEdgeSlot_spec (h : Rep capacity g outs ins fv fe) (hcap : capacity ≤ 0xfffe)
    (hroom : g.ecnt ≠ capacity) :
    ∃ new efree eLast fe', g.newEdgeSlot = (new, { g with efree := efree, eLast := eLast }) ∧
      0 < new ∧ new ≤ eLast ∧ eLast ≤ capacity ∧ g.eLast ≤ eLast ∧ g.edge new = none ∧
      (∀ x, x ≤ eLast → x ≤ g.eLast ∨ x = new) ∧ Linked g.freeNextE efree fe' ∧
      (∀ x, x ∈ fe' ↔ x ∈ fe ∧ x ≠ new) ∧ g.ecnt + fe'.length + 1 = eLast := by
  have hlinked := h.freeE
  have hecnt := h.ecnt
  have heLast := h.eLast
  unfold newEdgeSlot
  split
  · rename_i hzero
    rw [hzero] at hlinked
    obtain rfl : fe = [] := hlinked.unique rfl
    simp only [length_nil, Nat.add_zero] at hecnt
    refine ⟨g.eLast + 1, g.efree, g.eLast + 1, [], ?_, by omega, Nat.le_refl _, by omega, by omega, ?_,
      fun x hx => by omega, by rw [hzero]; rfl, by simp, by simp [hecnt]⟩
    · rw [mod_eq_of_lt (by omega)]
    · rw [edge_eq_none, edgeIsInGraph_iff]
      omega
  · rename_i hne
    cases hfe : fe with
    | nil =>
      rw [hfe] at hlinked
      exact absurd hlinked hne
    | cons x fe' =>
      have hnd := hlinked.nodup
      rw [hfe] at hlinked hecnt hnd
      obtain ⟨hx, hpos, hrest⟩ := hlinked
      obtain ⟨-, hle, hnone⟩ := h.fe_bound (hfe ▸ mem_cons_self : x ∈ fe)
      have hnot := (nodup_cons.mp hnd).1
      rw [hx]
      refine ⟨x, _, g.eLast, fe', rfl, by omega, hle, heLast, Nat.le_refl _, hnone, fun y hy => .inl hy,
        hrest, fun y => ?_, by simp only [length_cons] at hecnt; omega⟩
      rw [mem_cons]
      constructor
      · intro hy
        exact ⟨.inr hy, fun heq => hnot (heq ▸ hy)⟩
      · rintro ⟨rfl | hy, hyx⟩
        · exact absurd rfl hyx
        · exact hy

/-- The graph with an edge in a slot, at the front of both lists. -/
def withEdge (g : DirectedGraph16) (efree eLast new source sink : Nat) : DirectedGraph16 :=
  { g with
    efree := efree
    eLast := eLast
    ecnt := g.ecnt + 1
    v := fun w => ⟨if w = source then new else g.outHead w, if w = sink then new else g.inHead w⟩
    e := fun x => if x = new then ⟨source, sink, g.outHead source, g.inHead sink⟩ else g.e x }

section WithEdge

variable {efree eLast new source sink : Nat}

theorem addEdge_eq (source sink : Nat) (hroom : g.ecnt ≠ capacity) (hecnt : g.ecnt + 1 < 2 ^ 16)
    (hslot : g.newEdgeSlot = (new, { g with efree := efree, eLast := eLast })) :
    g.addEdge capacity source sink = (new, g.withEdge efree eLast new source sink) := by
  unfold DirectedGraph16.addEdge withEdge
  rw [if_neg hroom, hslot]
  simp only [modifyE, modifyV, Prod.mk.injEq, true_and, mod_eq_of_lt hecnt]
  congr 1
  · funext w
    simp only [update_apply, Vertex16.setOutEdge, Vertex16.setInEdge, outHead, inHead,
      Vertex16.getOutEdge, Vertex16.getInEdge]
    split_ifs <;> simp_all
  · funext x
    simp only [update_apply, Vertex16.setOutEdge, Edge16.setSource, Edge16.setSink,
      Edge16.setNextOutEdge, Edge16.setNextInEdge, outHead, inHead, Vertex16.getOutEdge,
      Vertex16.getInEdge]
    split_ifs <;> simp_all

theorem withEdge_edge (hpos : 0 < new) (hle : new ≤ eLast) (hsink : sink ≠ invalidVindex16)
    (hgrow : g.eLast ≤ eLast) (hold : ∀ x, x ≤ eLast → x ≤ g.eLast ∨ x = new) (x : Nat) :
    (g.withEdge efree eLast new source sink).edge x =
      if x = new then some (source, sink) else g.edge x := by
  unfold edge
  by_cases hx : x = new
  · subst hx
    have hlive : (g.withEdge efree eLast x source sink).edgeIsInGraph x = true := by
      rw [edgeIsInGraph_iff]
      unfold withEdge
      simp only [if_true]
      exact ⟨⟨hpos, hle⟩, hsink⟩
    rw [if_pos hlive, if_pos rfl]
    unfold withEdge
    simp only [if_true, Edge16.getSource, Edge16.getSink]
  · have hiff : (g.withEdge efree eLast new source sink).edgeIsInGraph x = g.edgeIsInGraph x := by
      rw [Bool.eq_iff_iff, edgeIsInGraph_iff, edgeIsInGraph_iff]
      unfold withEdge
      simp only [if_neg hx]
      have := hold x
      refine and_congr_left fun _ => and_congr_right fun _ => ⟨fun hxe => ?_, fun hxe => ?_⟩
      · exact (this hxe).resolve_right hx
      · omega
    rw [hiff, if_neg hx]
    unfold withEdge
    simp only [if_neg hx]

theorem withEdge_liveV (hnew : new ≠ invalidVindex16) (ht : g.LiveV sink) (w : Nat) :
    (g.withEdge efree eLast new source sink).LiveV w ↔ g.LiveV w := by
  rw [vertexIsInGraph_iff, vertexIsInGraph_iff]
  unfold withEdge inHead Vertex16.getInEdge
  simp only
  refine and_congr_right fun _ => ?_
  by_cases hw : w = sink
  · subst hw
    rw [if_pos rfl]
    exact iff_of_true hnew (vertexIsInGraph_iff.mp ht).2
  · rw [if_neg hw]

end WithEdge

section

variable (h : Rep capacity g outs ins fv fe)
include h

theorem Rep.not_live_of_mem (hw : w ∈ fv) : ¬ g.LiveV w:= ((h.memV w).mp hw).2

/-- An edge added stands at the head of both its lists; all else is unchanged. -/
theorem Rep.addEdge (hcap : capacity ≤ 0xfffe)
    (hroom : g.ecnt ≠ capacity) {source sink : Nat} (hs : g.LiveV source) (ht : g.LiveV sink) :
    ∃ new g' fe', g.addEdge capacity source sink = (new, g') ∧ 0 < new ∧ g.edge new = none ∧
      Rep capacity g' (update outs source (new :: outs source))
        (update ins sink (new :: ins sink)) fv fe' ∧
      (∀ x, g'.edge x = if x = new then some (source, sink) else g.edge x) ∧
      (∀ w, g'.LiveV w ↔ g.LiveV w) ∧ g'.vcnt = g.vcnt ∧ g'.ecnt = g.ecnt + 1 := by
  obtain ⟨new, efree, eLast, fe', hslot, hpos, hle, heLast, hgrow, hnone, hold, hfree, hmem, hcnt⟩ :=
    h.newEdgeSlot_spec hcap hroom
  have hvLast := h.vLast
  have hsink := (vertexIsInGraph_iff.mp ht).1
  have hadd := addEdge_eq source sink hroom (by omega) hslot
  obtain ⟨g', hg'⟩ : ∃ g', g' = g.withEdge efree eLast new source sink := ⟨_, rfl⟩
  rw [← hg'] at hadd
  have hedge : ∀ x, g'.edge x = if x = new then some (source, sink) else g.edge x :=
    hg' ▸ withEdge_edge hpos hle (by unfold invalidVindex16; omega) hgrow hold
  have hlive : ∀ w, g'.LiveV w ↔ g.LiveV w :=
    hg' ▸ withEdge_liveV (by unfold invalidVindex16; omega) ht
  have hout : Family g.LiveV g'.outHead g'.outNext (fun x => (g'.edge x).map Prod.fst)
      (update outs source (new :: outs source)) := by
    refine h.out.push hs (by omega) (by rw [hnone]; rfl) ?_ (fun j _ hj => ?_) ?_ (fun x hx => ?_)
      fun x => by rw [hedge]; split <;> rfl
    · simp [hg', withEdge, outHead, Vertex16.getOutEdge]
    · simp [hg', withEdge, outHead, Vertex16.getOutEdge, hj]
    · simp [hg', withEdge, outNext, Edge16.getNextOutEdge]
    · simp [hg', withEdge, outNext, hx]
  -- and of that of its sink
  have hin : Family g.LiveV g'.inHead g'.inNext (fun x => (g'.edge x).map Prod.snd)
      (update ins sink (new :: ins sink)) := by
    refine h.inn.push ht (by omega) (by rw [hnone]; rfl) ?_ (fun j _ hj => ?_) ?_ (fun x hx => ?_)
      fun x => by rw [hedge]; split <;> rfl
    · simp [hg', withEdge, inHead, Vertex16.getInEdge]
    · simp [hg', withEdge, inHead, Vertex16.getInEdge, hj]
    · simp [hg', withEdge, inNext, Edge16.getNextInEdge]
    · simp [hg', withEdge, inNext, hx]
  refine ⟨new, g', fe', hadd, hpos, hnone, ⟨hout.restrict fun j hj => (hlive j).mp hj,
    hin.restrict fun j hj => (hlive j).mp hj, ?_, ?_, fun w => ?_, fun x => ?_, fun x p hx => ?_,
    ?_, ?_, ?_, ?_⟩, hedge, hlive, by rw [hg']; rfl, by rw [hg']; rfl⟩
  · rw [show g'.vfree = g.vfree by rw [hg']; rfl]
    refine h.freeV.congr fun w hw => ?_
    have hne : w ≠ source := fun heq => h.not_live_of_mem hw (heq ▸ hs)
    simp [freeNextV, hg', withEdge, Vertex16.getNextFreeVertex, outHead, Vertex16.getOutEdge, hne]
  · rw [show g'.efree = efree by rw [hg']; rfl]
    refine hfree.congr fun x hx => ?_
    have hne : x ≠ new := ((hmem x).mp hx).2
    simp [freeNextE, hg', withEdge, hne]
  · rw [hlive, h.memV, hg']
    rfl
  · rw [hmem, h.memE, hedge, show g'.eLast = eLast by rw [hg']; rfl]
    have := hold x
    by_cases hx : x = new
    · simp [hx]
    · simp only [hx, if_false]
      constructor
      · rintro ⟨⟨⟨hx0, hxe⟩, hnone'⟩, -⟩
        exact ⟨⟨hx0, by omega⟩, hnone'⟩
      · rintro ⟨⟨hx0, hxe⟩, hnone'⟩
        exact ⟨⟨⟨hx0, (this hxe).resolve_right hx⟩, hnone'⟩, hx⟩
  · rw [hlive, hlive]
    rw [hedge] at hx
    split at hx
    · obtain rfl := some.inj hx
      exact ⟨hs, ht⟩
    · exact h.ends x p hx
  · rw [hg']
    exact h.vcnt
  · rw [hg']
    simp only [withEdge]
    omega
  · rw [hg']
    exact h.vLast
  · rw [hg']
    exact heLast

theorem Rep.newVertexSlot_spec (hcap : capacity ≤ 0xfffe) (hroom : g.vcnt ≠ capacity) :
    ∃ new vfree vLast fv', g.newVertexSlot = (new, { g with vfree := vfree, vLast := vLast }) ∧
      0 < new ∧ new ≤ vLast ∧ vLast ≤ capacity ∧ g.vLast ≤ vLast ∧ ¬ g.LiveV new ∧
      (∀ x, x ≤ vLast → x ≤ g.vLast ∨ x = new) ∧ Linked g.freeNextV vfree fv' ∧
      (∀ x, x ∈ fv' ↔ x ∈ fv ∧ x ≠ new) ∧ g.vcnt + fv'.length + 1 = vLast := by
  have hlinked := h.freeV
  have hvcnt := h.vcnt
  have hvLast := h.vLast
  unfold newVertexSlot
  split
  · rename_i hzero
    rw [hzero] at hlinked
    obtain rfl : fv = [] := hlinked.unique rfl
    simp only [length_nil, Nat.add_zero] at hvcnt
    refine ⟨g.vLast + 1, g.vfree, g.vLast + 1, [], ?_, by omega, Nat.le_refl _, by omega, by omega,
      ?_, fun x hx => by omega, by rw [hzero]; rfl, by simp, by simp [hvcnt]⟩
    · rw [mod_eq_of_lt (by omega)]
    · rw [vertexIsInGraph_iff]
      omega
  · rename_i hne
    cases hfv : fv with
    | nil =>
      rw [hfv] at hlinked
      exact absurd hlinked hne
    | cons x fv' =>
      have hnd := hlinked.nodup
      rw [hfv] at hlinked hvcnt hnd
      obtain ⟨hx, hpos, hrest⟩ := hlinked
      obtain ⟨⟨-, hle⟩, hnone⟩ := (h.memV x).mp (hfv ▸ mem_cons_self)
      have hnot := (nodup_cons.mp hnd).1
      rw [hx]
      refine ⟨x, _, g.vLast, fv', rfl, by omega, hle, hvLast, Nat.le_refl _, hnone,
        fun y hy => .inl hy, hrest, fun y => ?_, by simp only [length_cons] at hvcnt; omega⟩
      rw [mem_cons]
      constructor
      · intro hy
        exact ⟨.inr hy, fun heq => hnot (heq ▸ hy)⟩
      · rintro ⟨rfl | hy, hyx⟩
        · exact absurd rfl hyx
        · exact hy

/-- A vertex added has no edges; all else is unchanged. -/
theorem Rep.addVertex (hcap : capacity ≤ 0xfffe) (hroom : g.vcnt ≠ capacity) :
    ∃ new g' fv', g.addVertex capacity = (new, g') ∧ 0 < new ∧ ¬ g.LiveV new ∧
      Rep capacity g' (update outs new []) (update ins new []) fv' fe ∧
      (∀ x, g'.edge x = g.edge x) ∧ (∀ w, g'.LiveV w ↔ g.LiveV w ∨ w = new) ∧
      g'.vcnt = g.vcnt + 1 ∧ g'.ecnt = g.ecnt := by
  obtain ⟨new, vfree, vLast, fv', hslot, hpos, hle, hvLast, hgrow, hnone, hold, hfree, hmem, hcnt⟩ :=
    h.newVertexSlot_spec hcap hroom
  obtain ⟨g', hg'⟩ : ∃ g' : DirectedGraph16, g' = { g with
        vfree := vfree
        vLast := vLast
        vcnt := g.vcnt + 1
        v := update g.v new ⟨0, 0⟩ } := ⟨_, rfl⟩
  have hadd : g.addVertex capacity = (new, g') := by
    unfold DirectedGraph16.addVertex
    rw [if_neg hroom, hslot, hg']
    simp only [modifyV, mod_eq_of_lt (show g.vcnt + 1 < 2 ^ 16 by omega)]
    rfl
  have hedge : ∀ x, g'.edge x = g.edge x := fun x => by rw [hg']; rfl
  have hlive : ∀ w, g'.LiveV w ↔ g.LiveV w ∨ w = new := by
    intro w
    rw [vertexIsInGraph_iff, vertexIsInGraph_iff, hg']
    have := hold w
    by_cases hw : w = new
    · subst hw
      simp only [update_self]
      exact iff_of_true ⟨⟨hpos, hle⟩, by decide⟩ (.inr trivial)
    · simp only [update_of_ne hw, hw, or_false]
      refine and_congr_left fun _ => and_congr_right fun _ => ⟨fun hwe => ?_, fun hwe => ?_⟩
      · exact (this hwe).resolve_right hw
      · omega
  have hfresh : ∀ x p, g.edge x = some p → p.1 ≠ new ∧ p.2 ≠ new := fun x p hx =>
    ⟨fun heq => hnone (heq ▸ (h.ends x p hx).1), fun heq => hnone (heq ▸ (h.ends x p hx).2)⟩
  have hne : ∀ j, g.LiveV j → j ≠ new := fun j hj heq => hnone (heq ▸ hj)
  -- its lists are empty
  have hout : Family g'.LiveV g'.outHead g'.outNext (fun x => (g'.edge x).map Prod.fst)
      (update outs new []) := by
    have hfam : Family g'.LiveV g'.outHead g.outNext (fun x => (g.edge x).map Prod.fst)
        (update outs new []) := h.out.insert (fun j hj => (hlive j).mp hj) hnone (fun x => ?_)
      (by simp [hg', outHead, Vertex16.getOutEdge]) (fun j hj => by simp [hg', outHead, hne j hj])
    · rw [hg'] at hfam ⊢
      exact hfam
    · cases hx : g.edge x with
      | none => simp
      | some p => simpa using (hfresh x p hx).1
  have hin : Family g'.LiveV g'.inHead g'.inNext (fun x => (g'.edge x).map Prod.snd)
      (update ins new []) := by
    have hfam : Family g'.LiveV g'.inHead g.inNext (fun x => (g.edge x).map Prod.snd)
        (update ins new []) := h.inn.insert (fun j hj => (hlive j).mp hj) hnone (fun x => ?_)
      (by simp [hg', inHead, Vertex16.getInEdge]) (fun j hj => by simp [hg', inHead, hne j hj])
    · rw [hg'] at hfam ⊢
      exact hfam
    · cases hx : g.edge x with
      | none => simp
      | some p => simpa using (hfresh x p hx).2
  refine ⟨new, g', fv', hadd, hpos, hnone, ⟨hout, hin, ?_, ?_, fun w => ?_, fun x => ?_,
    fun x p hx => ?_, ?_, ?_, ?_, ?_⟩, hedge, hlive, by rw [hg'], by rw [hg']⟩
  · rw [show g'.vfree = vfree by rw [hg']]
    refine hfree.congr fun w hw => ?_
    simp [freeNextV, hg', ((hmem w).mp hw).2]
  · rw [hg']
    exact h.freeE
  · rw [hmem, h.memV, hlive, show g'.vLast = vLast by rw [hg']]
    have := hold w
    constructor
    · rintro ⟨⟨⟨hw0, hwe⟩, hnot⟩, hne'⟩
      exact ⟨⟨hw0, by omega⟩, fun hor => hor.elim hnot hne'⟩
    · rintro ⟨⟨hw0, hwe⟩, hnot⟩
      have hne' : w ≠ new := fun heq => hnot (.inr heq)
      exact ⟨⟨⟨hw0, (this hwe).resolve_right hne'⟩, fun hlw => hnot (.inl hlw)⟩, hne'⟩
  · rw [h.memE, hedge, hg']
  · rw [hedge] at hx
    rw [hlive, hlive]
    exact ⟨.inl (h.ends x p hx).1, .inl (h.ends x p hx).2⟩
  · rw [hg']
    simp only
    omega
  · rw [hg']
    exact h.ecnt
  · rw [hg']
    exact hvLast
  · rw [hg']
    exact h.eLast

end

/-! ### Deleting -/

/-- What unlinking an edge leaves as it was; `s` is its source. -/
structure Frame (g g' : DirectedGraph16) (s : Nat) : Prop where
  edge : ∀ x, g'.edge x = g.edge x
  source : ∀ x, (g'.e x).getSource = (g.e x).getSource
  sink : ∀ x, (g'.e x).getSink = (g.e x).getSink
  live : ∀ w, g'.LiveV w ↔ g.LiveV w
  freeNextE : ∀ x, g'.freeNextE x = g.freeNextE x
  freeNextV : ∀ w, w ≠ s → g'.freeNextV w = g.freeNextV w
  vfree : g'.vfree = g.vfree
  efree : g'.efree = g.efree
  vLast : g'.vLast = g.vLast
  eLast : g'.eLast = g.eLast
  vcnt : g'.vcnt = g.vcnt
  ecnt : g'.ecnt = g.ecnt

theorem Frame.trans {g1 g2 : DirectedGraph16} {s : Nat} (h : Frame g g1 s) (h' : Frame g1 g2 s) :
    Frame g g2 s :=
  ⟨fun x => (h'.edge x).trans (h.edge x), fun x => (h'.source x).trans (h.source x),
    fun x => (h'.sink x).trans (h.sink x), fun w => (h'.live w).trans (h.live w),
    fun x => (h'.freeNextE x).trans (h.freeNextE x),
    fun w hw => (h'.freeNextV w hw).trans (h.freeNextV w hw), h'.vfree.trans h.vfree,
    h'.efree.trans h.efree, h'.vLast.trans h.vLast, h'.eLast.trans h.eLast, h'.vcnt.trans h.vcnt,
    h'.ecnt.trans h.ecnt⟩

theorem frame_setOutEdge (s i : Nat) : Frame g (g.modifyV s fun v => v.setOutEdge i) s := by
  have hto : ∀ w, (update g.v s ((g.v s).setOutEdge i) w).to_ = (g.v w).to_ := by
    intro w
    by_cases hw : w = s
    · subst hw
      rw [update_self]
      rfl
    · rw [update_of_ne hw]
  refine ⟨fun _ => rfl, fun _ => rfl, fun _ => rfl, fun w => ?_, fun _ => rfl, fun w hw => ?_, rfl,
    rfl, rfl, rfl, rfl, rfl⟩
  · rw [vertexIsInGraph_iff, vertexIsInGraph_iff]
    unfold modifyV
    simp only [hto]
  · unfold modifyV freeNextV
    simp only
    rw [update_of_ne hw]

theorem frame_setInEdge {t i : Nat} (ht : g.LiveV t) (hi : i ≠ invalidVindex16) (s : Nat) :
    Frame g (g.modifyV t fun v => v.setInEdge i) s := by
  refine ⟨fun _ => rfl, fun _ => rfl, fun _ => rfl, fun w => ?_, fun _ => rfl, fun w _ => ?_, rfl,
    rfl, rfl, rfl, rfl, rfl⟩
  · rw [vertexIsInGraph_iff, vertexIsInGraph_iff]
    unfold modifyV
    refine and_congr_right fun _ => ?_
    by_cases hw : w = t
    · subst hw
      simp only [update_self]
      exact iff_of_true hi (vertexIsInGraph_iff.mp ht).2
    · simp only [update_of_ne hw]
  · unfold modifyV freeNextV Vertex16.getNextFreeVertex
    by_cases hw : w = t
    · subst hw
      simp only [update_self, Vertex16.setInEdge]
    · simp only [update_of_ne hw]

theorem frame_modifyE (f : Edge16 → Edge16) (hfrom : ∀ x, (f x).from_ = x.from_)
    (hto : ∀ x, (f x).to_ = x.to_) (i s : Nat) : Frame g (g.modifyE i f) s := by
  have hfrom' : ∀ x, (update g.e i (f (g.e i)) x).from_ = (g.e x).from_ := by
    intro x
    by_cases hx : x = i
    · subst hx
      rw [update_self, hfrom]
    · rw [update_of_ne hx]
  have hto' : ∀ x, (update g.e i (f (g.e i)) x).to_ = (g.e x).to_ := by
    intro x
    by_cases hx : x = i
    · subst hx
      rw [update_self, hto]
    · rw [update_of_ne hx]
  refine ⟨fun x => ?_, hfrom', hto', fun _ => Iff.rfl, hfrom', fun _ _ => rfl, rfl, rfl, rfl, rfl,
    rfl, rfl⟩
  have hin : (g.modifyE i f).edgeIsInGraph x = g.edgeIsInGraph x := by
    rw [Bool.eq_iff_iff, edgeIsInGraph_iff, edgeIsInGraph_iff]
    unfold modifyE
    simp only [hto']
  unfold edge
  rw [hin]
  unfold modifyE Edge16.getSource Edge16.getSink
  simp only [hfrom', hto']

theorem Rep.length_lt (h : Rep capacity g outs ins fv fe) (hcap : capacity ≤ 0xfffe) {l : List Nat}
    (hnd : l.Nodup) (hl : ∀ x ∈ l, g.edge x ≠ none) : l.length ≤ walkFuel := by
  have hsub : l ⊆ range (g.eLast + 1) := by
    intro x hx
    have hlive := (edge_eq_none.not_left.mp (hl x hx))
    have := (edgeIsInGraph_iff.mp hlive).1
    exact mem_range.mpr (by omega)
  have hlen := hnd.length_le_of_subset hsub
  have heLast := h.eLast
  rw [length_range] at hlen
  unfold walkFuel
  omega

/-- An edge is cut out of a list, of which `head` and `next` were the links. -/
def Cut (head head' next next' : Nat → Nat) (l : List Nat) (k e : Nat) : Prop :=
  (head k = e ∧ head' k = next e ∧ ∀ x, next' x = next x) ∨
    ∃ p ∈ l, next p = e ∧ head' k = head k ∧ next' p = next e ∧ ∀ x, x ≠ p → next' x = next x

section

variable (h : Rep capacity g outs ins fv fe) (hcap : capacity ≤ 0xfffe) (he : g.edge e = some p)
include h hcap he

/-- Unlinking an edge from the list of its source. -/
theorem Rep.unlinkOut : ∃ g', g.unlinkOut e p.1 = some g' ∧ Frame g g' p.1 ∧
      Cut g.outHead g'.outHead g.outNext g'.outNext (outs p.1) p.1 e ∧
      (∀ j, j ≠ p.1 → g'.outHead j = g.outHead j) ∧ g'.inHead = g.inHead ∧ g'.inNext = g.inNext:= by
  have hs := (h.ends e p he).1
  have hlinked := h.out.linked _ hs
  have hmem : e ∈ outs p.1 := (h.out.mem _ hs e).mpr (by rw [he]; rfl)
  have hlen : (outs p.1).length ≤ walkFuel := by
    refine h.length_lt hcap hlinked.nodup fun x hx hnone => ?_
    have howner := (h.out.mem _ hs x).mp hx
    rw [hnone] at howner
    cases howner
  unfold DirectedGraph16.unlinkOut
  by_cases hfirst : (g.v p.1).getOutEdge = e
  · rw [if_pos hfirst]
    refine ⟨_, rfl, frame_setOutEdge _ _, .inl ⟨hfirst, ?_, fun _ => rfl⟩, fun j hj => ?_, ?_, rfl⟩
    · unfold modifyV outHead
      simp only [update_self]
      rfl
    · unfold modifyV outHead
      simp only
      rw [update_of_ne hj]
    · funext w
      unfold modifyV inHead
      by_cases hw : w = p.1
      · subst hw
        simp only [update_self]
        rfl
      · simp only [update_of_ne hw]
  · rw [if_neg hfirst]
    obtain ⟨q, hq, hfind, hqe⟩ := findPrev_spec hlinked hmem hfirst hlen
    have hfind' : findPrev (fun x => (g.e x).getNextOutEdge) e walkFuel (g.v p.1).getOutEdge =
        some q := hfind
    rw [hfind', map_some]
    refine ⟨_, rfl, frame_modifyE (fun x => x.setNextOutEdge (g.e e).getNextOutEdge)
      (fun _ => rfl) (fun _ => rfl) q _, .inr ⟨q, hq, hqe, rfl, ?_, fun x hx => ?_⟩, fun _ _ => rfl, rfl, ?_⟩
    · unfold modifyE outNext
      simp only [update_self]
      rfl
    · unfold modifyE outNext
      simp only
      rw [update_of_ne hx]
    · funext x
      unfold modifyE inNext
      by_cases hx : x = q
      · subst hx
        simp only [update_self]
        rfl
      · simp only [update_of_ne hx]

/-- Unlinking an edge from the list of its sink, after the unlinking at its source. -/
theorem Rep.unlinkIn {g1 : DirectedGraph16} (hframe : Frame g g1 p.1)
    (hhead : g1.inHead = g.inHead) (hnext : g1.inNext = g.inNext) :
    ∃ g', g1.unlinkIn e p.2 = some g' ∧ Frame g1 g' p.1 ∧
      Cut g.inHead g'.inHead g.inNext g'.inNext (ins p.2) p.2 e ∧
      (∀ j, j ≠ p.2 → g'.inHead j = g.inHead j) ∧
      g'.outHead = g1.outHead ∧ g'.outNext = g1.outNext := by
  have ht := (h.ends e p he).2
  have hlinked := h.inn.linked _ ht
  have hmem : e ∈ ins p.2 := (h.inn.mem _ ht e).mpr (by rw [he]; rfl)
  have hlive : ∀ x ∈ ins p.2, g.edge x ≠ none := by
    intro x hx hnone
    have howner := (h.inn.mem _ ht x).mp hx
    rw [hnone] at howner
    cases howner
  have hlen := h.length_lt hcap hlinked.nodup hlive
  rw [← hhead, ← hnext] at hlinked
  unfold DirectedGraph16.unlinkIn
  by_cases hfirst : (g1.v p.2).getInEdge = e
  · rw [if_pos hfirst]
    have hvalid : (g1.e e).getNextInEdge ≠ invalidVindex16 := by
      have heLast := h.eLast
      rcases hlinked.next_mem hmem with hzero | hin
      · intro heq
        have hzero' : (g1.e e).getNextInEdge = 0 := hzero
        rw [heq] at hzero'
        cases hzero'
      · have hbound := (edgeIsInGraph_iff.mp (edge_eq_none.not_left.mp (hlive _ hin))).1.2
        have hbound' : (g1.e e).getNextInEdge ≤ g.eLast := hbound
        unfold invalidVindex16
        omega
    refine ⟨_, rfl, frame_setInEdge ((hframe.live _).mpr ht) hvalid _,
      .inl ⟨hhead ▸ hfirst, ?_, fun x => congrFun hnext x⟩, fun j hj => ?_, ?_, rfl⟩
    · rw [← hnext]
      unfold modifyV inHead
      simp only [update_self]
      rfl
    · rw [← hhead]
      unfold modifyV inHead
      simp only
      rw [update_of_ne hj]
    · funext w
      unfold modifyV outHead
      by_cases hw : w = p.2
      · subst hw
        simp only [update_self]
        rfl
      · simp only [update_of_ne hw]
  · rw [if_neg hfirst]
    obtain ⟨q, hq, hfind, hqe⟩ := findPrev_spec hlinked hmem hfirst hlen
    have hfind' : findPrev (fun x => (g1.e x).getNextInEdge) e walkFuel (g1.v p.2).getInEdge =
        some q := hfind
    rw [hfind', map_some]
    refine ⟨_, rfl, frame_modifyE (fun x => x.setNextInEdge (g1.e e).getNextInEdge)
      (fun _ => rfl) (fun _ => rfl) q _, .inr ⟨q, hq, hnext ▸ hqe, congrFun hhead _, ?_, fun x hx => ?_⟩,
      fun j _ => congrFun hhead j, rfl, ?_⟩
    · rw [← hnext]
      unfold modifyE inNext
      simp only [update_self]
      rfl
    · rw [← hnext]
      unfold modifyE inNext
      simp only
      rw [update_of_ne hx]
    · funext x
      unfold modifyE outNext
      by_cases hx : x = q
      · subst hx
        simp only [update_self]
        rfl
      · simp only [update_of_ne hx]

/-- A deleted edge leaves both lists and its slot joins the free ones. -/
theorem Rep.deleteEdge : ∃ g', g.deleteEdge e = some g' ∧
      Rep capacity g' (update outs p.1 ((outs p.1).erase e))
        (update ins p.2 ((ins p.2).erase e)) fv (e :: fe) ∧
      (∀ x, g'.edge x = if x = e then none else g.edge x) ∧ (∀ w, g'.LiveV w ↔ g.LiveV w) ∧
      g'.vcnt = g.vcnt ∧ g'.ecnt + 1 = g.ecnt := by
  obtain ⟨hein, hsource, hsink⟩ := edge_isSome he
  obtain ⟨hs, ht⟩ := h.ends e p he
  have hebound := (edgeIsInGraph_iff.mp hein).1
  obtain ⟨g1, hg1, hframe1, hcutOut, houts, hinHead, hinNext⟩ := h.unlinkOut hcap he
  obtain ⟨g2, hg2, hframe2, hcutIn, hins, houtHead, houtNext⟩ :=
    h.unlinkIn hcap he hframe1 hinHead hinNext
  have hframe := hframe1.trans hframe2
  obtain ⟨g', hg'⟩ : ∃ g' : DirectedGraph16, g' =
      { g2.modifyE e fun x => (x.setNextFreeEdge g2.efree).setToFree with
        efree := e, ecnt := g2.ecnt - 1 } := ⟨_, rfl⟩
  have hdel : g.deleteEdge e = some g' := by
    unfold DirectedGraph16.deleteEdge
    simp only [hsource, hsink, hg1, hg2, bind_eq_bind, bind_some]
    rw [hg']
    rfl
  -- the slot was in use, so the count is positive
  have hnotfree : e ∉ fe := by
    intro hmem
    rw [((h.memE e).mp hmem).2] at he
    cases he
  have hpos : 0 < g.ecnt := by
    have hsub : e :: fe ⊆ range' 1 g.eLast := by
      intro x hx
      rw [mem_range'_1]
      rcases mem_cons.mp hx with rfl | hx
      · omega
      · have := h.fe_bound hx
        omega
    have hlen := (nodup_cons.mpr ⟨hnotfree, h.freeE.nodup⟩).length_le_of_subset hsub
    have hecnt := h.ecnt
    rw [length_cons, length_range'] at hlen
    omega
  have hedge : ∀ x, g'.edge x = if x = e then none else g.edge x := by
    intro x
    by_cases hx : x = e
    · subst hx
      rw [if_pos rfl, edge_eq_none, edgeIsInGraph_iff, hg']
      simp [modifyE, Edge16.setToFree]
    · rw [if_neg hx, ← hframe.edge, hg']
      unfold edge edgeIsInGraph modifyE
      simp only [update_of_ne hx]
  have hlive : ∀ w, g'.LiveV w ↔ g.LiveV w := by
    intro w
    rw [← hframe.live, hg']
    rfl
  have hnextOut : g'.outNext = g1.outNext := by
    rw [← houtNext, hg']
    funext x
    unfold outNext modifyE
    by_cases hx : x = e
    · subst hx
      simp only [update_self]
      rfl
    · simp only [update_of_ne hx]
  have hnextIn : g'.inNext = g2.inNext := by
    rw [hg']
    funext x
    unfold inNext modifyE
    by_cases hx : x = e
    · subst hx
      simp only [update_self]
      rfl
    · simp only [update_of_ne hx]
  have hheadOut : g'.outHead = g1.outHead := by
    rw [← houtHead, hg']
    rfl
  have hheadIn : g'.inHead = g2.inHead := by
    rw [hg']
    rfl
  -- both lists lose the edge
  have hout : Family g.LiveV g'.outHead g'.outNext (fun x => (g'.edge x).map Prod.fst)
      (update outs p.1 ((outs p.1).erase e)) := by
    rw [hheadOut, hnextOut]
    refine h.out.unlink hs (by omega) (by rw [he]; rfl) ?_ (fun j _ hj => houts j hj)
      fun x => by rw [hedge]; split <;> rfl
    rcases hcutOut with ⟨hfirst, hhead, hnext⟩ | ⟨q, hq, hqe, hhead, hlink, hnext⟩
    · exact .inl ⟨hfirst, hhead, fun x _ => hnext x⟩
    · exact .inr ⟨q, hq, hqe, hhead, hlink, fun x hx _ => hnext x hx⟩
  have hin : Family g.LiveV g'.inHead g'.inNext (fun x => (g'.edge x).map Prod.snd)
      (update ins p.2 ((ins p.2).erase e)) := by
    rw [hheadIn, hnextIn]
    refine h.inn.unlink ht (by omega) (by rw [he]; rfl) ?_ (fun j _ hj => hins j hj)
      fun x => by rw [hedge]; split <;> rfl
    rcases hcutIn with ⟨hfirst, hhead, hnext⟩ | ⟨q, hq, hqe, hhead, hlink, hnext⟩
    · exact .inl ⟨hfirst, hhead, fun x _ => hnext x⟩
    · exact .inr ⟨q, hq, hqe, hhead, hlink, fun x hx _ => hnext x hx⟩
  refine ⟨g', hdel, ⟨hout.restrict fun j hj => (hlive j).mp hj,
    hin.restrict fun j hj => (hlive j).mp hj, ?_, ?_, fun w => ?_, fun x => ?_, fun x q hx => ?_,
    ?_, ?_, ?_, ?_⟩, hedge, hlive, ?_, ?_⟩
  · rw [show g'.vfree = g.vfree by rw [hg']; exact hframe.vfree]
    refine h.freeV.congr fun w hw => ?_
    have hne : w ≠ p.1 := fun heq => h.not_live_of_mem hw (heq ▸ hs)
    rw [← hframe.freeNextV w hne, hg']
    rfl
  · rw [show g'.efree = e by rw [hg']]
    refine h.freeE.push (by omega) ?_ fun x hx => ?_
    · rw [hg', ← hframe.efree]
      simp [freeNextE, modifyE, Edge16.setToFree, Edge16.setNextFreeEdge, Edge16.getNextFreeEdge]
    · have hne : x ≠ e := fun heq => hnotfree (heq ▸ hx)
      rw [← hframe.freeNextE, hg']
      unfold freeNextE modifyE
      simp only [update_of_ne hne]
  · rw [hlive, h.memV, show g'.vLast = g.vLast by rw [hg']; exact hframe.vLast]
  · rw [mem_cons, h.memE, hedge, show g'.eLast = g.eLast by rw [hg']; exact hframe.eLast]
    by_cases hx : x = e
    · simp [hx, hebound]
    · simp [hx]
  · rw [hlive, hlive]
    rw [hedge] at hx
    split at hx
    · cases hx
    · exact h.ends x q hx
  · rw [show g'.vcnt = g.vcnt by rw [hg']; exact hframe.vcnt,
      show g'.vLast = g.vLast by rw [hg']; exact hframe.vLast]
    exact h.vcnt
  · have hecnt := h.ecnt
    rw [show g'.ecnt = g.ecnt - 1 by rw [hg', ← hframe.ecnt],
      show g'.eLast = g.eLast by rw [hg']; exact hframe.eLast, length_cons]
    omega
  · rw [show g'.vLast = g.vLast by rw [hg']; exact hframe.vLast]
    exact h.vLast
  · rw [show g'.eLast = g.eLast by rw [hg']; exact hframe.eLast]
    exact h.eLast
  · rw [hg']
    exact hframe.vcnt
  · rw [show g'.ecnt = g.ecnt - 1 by rw [hg', ← hframe.ecnt]]
    omega

end

/-- A graph that its lists represent. -/
def Ok (capacity : Nat) (g : DirectedGraph16) : Prop := ∃ outs ins fv fe, Rep capacity g outs ins fv fe

theorem deleteEdges_spec (first : Vertex16 → Nat) (side : Nat × Nat → Nat)
    (hcap : capacity ≤ 0xfffe) (hfirst : ∀ g, Ok capacity g → g.LiveV v →
      first (g.v v) = 0 ∧ (∀ x p, g.edge x = some p → side p ≠ v) ∨
        first (g.v v) ≠ 0 ∧ ∃ p, g.edge (first (g.v v)) = some p ∧ side p = v) {fuel : Nat} :
    ∀ {g : DirectedGraph16}, Ok capacity g → g.LiveV v → g.ecnt < fuel →
      ∃ g', deleteEdges first v fuel g = some g' ∧ Ok capacity g' ∧
        (∀ x, g'.edge x = if (g.edge x).map side = some v then none else g.edge x) ∧
        (∀ w, g'.LiveV w ↔ g.LiveV w) ∧ g'.vcnt = g.vcnt ∧ g'.ecnt ≤ g.ecnt := by
  induction fuel with
  | zero => exact fun _ _ hlt => absurd hlt (not_lt_zero _)
  | succ fuel ih =>
    intro g hok hv hlt
    unfold deleteEdges
    rcases hfirst g hok hv with ⟨hzero, hnone⟩ | ⟨hne, p, hp, hside⟩
    · rw [if_neg (not_not.mpr hzero)]
      refine ⟨g, rfl, hok, fun x => ?_, fun _ => Iff.rfl, rfl, Nat.le_refl _⟩
      split
      · rename_i heq
        obtain ⟨q, hq, hqv⟩ := map_eq_some_iff.mp heq
        exact absurd hqv (hnone x q hq)
      · rfl
    · rw [if_pos hne]
      obtain ⟨outs, ins, fv, fe, h⟩ := hok
      obtain ⟨g1, hg1, hrep, hedge, hlive, hvcnt, hecnt⟩ := h.deleteEdge hcap hp
      rw [hg1, bind_some]
      obtain ⟨g2, hg2, hok2, hedge2, hlive2, hvcnt2, hecnt2⟩ :=
        ih ⟨_, _, _, _, hrep⟩ ((hlive v).mpr hv) (by omega)
      refine ⟨g2, hg2, hok2, fun x => ?_, fun w => (hlive2 w).trans (hlive w),
        hvcnt2.trans hvcnt, by omega⟩
      rw [hedge2, hedge]
      by_cases hx : x = first (g.v v)
      · subst hx
        simp [hp, hside]
      · rw [if_neg hx]

theorem family_head {head next : Nat → Nat} {live : Nat → Prop} {owner : Nat → Option Nat}
    {lists : Nat → List Nat} (h : Family live head next owner lists) (hv : live v) :
    head v = 0 ∧ (∀ x, owner x ≠ some v) ∨ head v ≠ 0 ∧ owner (head v) = some v := by
  have hlinked := h.linked v hv
  cases hl : lists v with
  | nil =>
    rw [hl] at hlinked
    refine .inl ⟨hlinked, fun x hx => ?_⟩
    have := (h.mem v hv x).mpr hx
    rw [hl] at this
    cases this
  | cons x l =>
    rw [hl] at hlinked
    refine .inr ⟨fun heq => hlinked.2.1 (hlinked.1.symm.trans heq), (h.mem v hv _).mp ?_⟩
    rw [hl, hlinked.1]
    exact mem_cons_self

/-- A vertex is deleted with its edges: first those that leave it, then those that enter it. -/
theorem Ok.deleteVertex (h : Ok capacity g) (hcap : capacity ≤ 0xfffe) {v : Nat} (hv : g.LiveV v) :
    ∃ g', g.deleteVertex v = some g' ∧ Ok capacity g' ∧
      (∀ x, g'.edge x = (g.edge x).filter fun p => p.1 ≠ v ∧ p.2 ≠ v) ∧
      (∀ w, g'.LiveV w ↔ g.LiveV w ∧ w ≠ v) ∧ g'.vcnt + 1 = g.vcnt ∧ g'.ecnt ≤ g.ecnt := by
  have hfuel : ∀ g, Ok capacity g → g.ecnt < walkFuel := by
    rintro g ⟨outs, ins, fv, fe, h⟩
    have h1 := h.ecnt
    have h2 := h.eLast
    unfold walkFuel
    omega
  have hmap : ∀ (x : Nat) (side : Nat × Nat → Nat) (g : DirectedGraph16),
      (g.edge x).map side = some v → ∃ p, g.edge x = some p ∧ side p = v :=
    fun x side g heq => map_eq_some_iff.mp heq
  -- the edges that enter the vertex go first, then those that leave it
  obtain ⟨g1, hg1, hok1, hedge1, hlive1, hvcnt1, hecnt1⟩ :=
    deleteEdges_spec Vertex16.getInEdge Prod.snd hcap
      (fun g' hok hv' => by
        obtain ⟨outs, ins, fv, fe, hrep⟩ := hok
        rcases family_head hrep.inn hv' with ⟨hzero, hnone⟩ | ⟨hne, hsome⟩
        · exact .inl ⟨hzero, fun x p hp heq => hnone x (by rw [hp, ← heq]; rfl)⟩
        · exact .inr ⟨hne, hmap _ _ _ hsome⟩) h hv (hfuel g h)
  obtain ⟨g2, hg2, ⟨outs, ins, fv, fe, hrep⟩, hedge2, hlive2, hvcnt2, hecnt2⟩ :=
    deleteEdges_spec Vertex16.getOutEdge Prod.fst hcap
      (fun g' hok hv' => by
        obtain ⟨outs, ins, fv, fe, hrep⟩ := hok
        rcases family_head hrep.out hv' with ⟨hzero, hnone⟩ | ⟨hne, hsome⟩
        · exact .inl ⟨hzero, fun x p hp heq => hnone x (by rw [hp, ← heq]; rfl)⟩
        · exact .inr ⟨hne, hmap _ _ _ hsome⟩) hok1 ((hlive1 v).mpr hv) (hfuel g1 hok1)
  have hlive : ∀ w, g2.LiveV w ↔ g.LiveV w := fun w => (hlive2 w).trans (hlive1 w)
  have hv2 := (hlive v).mpr hv
  have hvbound := (vertexIsInGraph_iff.mp hv2).1
  have hedge : ∀ x, g2.edge x = (g.edge x).filter fun p => p.1 ≠ v ∧ p.2 ≠ v := by
    intro x
    rw [hedge2, hedge1]
    cases hx : g.edge x with
    | none => simp
    | some p =>
      by_cases h2 : p.2 = v
      · simp [h2, Option.filter]
      · by_cases h1 : p.1 = v
        · simp [h1, h2, Option.filter]
        · simp [h1, h2, Option.filter]
  have hgone : ∀ x p, g2.edge x = some p → p.1 ≠ v ∧ p.2 ≠ v := by
    intro x p hp
    rw [hedge] at hp
    simpa using (filter_eq_some_iff.mp hp).2
  obtain ⟨g', hg'⟩ : ∃ g' : DirectedGraph16, g' =
      { g2.modifyV v fun x => (x.setNextFreeVertex g2.vfree).setToFree with
        vfree := v, vcnt := g2.vcnt - 1 } := ⟨_, rfl⟩
  have hdel : g.deleteVertex v = some g' := by
    unfold DirectedGraph16.deleteVertex
    simp only [hg1, hg2, bind_eq_bind, bind_some]
    rw [hg']
    rfl
  have hedge' : ∀ x, g'.edge x = g2.edge x := fun x => by rw [hg']; rfl
  have hother : ∀ w, w ≠ v → g'.v w = g2.v w := by
    intro w hw
    rw [hg']
    unfold modifyV
    simp only [update_of_ne hw]
  have hlive' : ∀ w, g'.LiveV w ↔ g2.LiveV w ∧ w ≠ v := by
    intro w
    rw [vertexIsInGraph_iff, vertexIsInGraph_iff]
    by_cases hw : w = v
    · subst hw
      simp [hg', modifyV, Vertex16.setToFree]
    · rw [hother w hw, show g'.vLast = g2.vLast by rw [hg']; rfl]
      simp [hw]
  have hnotfree : v ∉ fv := fun hmem => hrep.not_live_of_mem hmem hv2
  -- the slot was in use, so the count is positive
  have hpos : 0 < g2.vcnt := by
    have hsub : v :: fv ⊆ range' 1 g2.vLast := by
      intro w hw
      rw [mem_range'_1]
      rcases mem_cons.mp hw with rfl | hw
      · omega
      · have := ((hrep.memV w).mp hw).1
        omega
    have hlen := (nodup_cons.mpr ⟨hnotfree, hrep.freeV.nodup⟩).length_le_of_subset hsub
    have hvcnt := hrep.vcnt
    rw [length_cons, length_range'] at hlen
    omega
  refine ⟨g', hdel, ⟨outs, ins, v :: fv, fe, ⟨⟨fun k hk => ?_, fun k hk x => ?_⟩,
    ⟨fun k hk => ?_, fun k hk x => ?_⟩, ?_, ?_, fun w => ?_, fun x => ?_, fun x p hx => ?_, ?_, ?_,
    ?_, ?_⟩⟩, fun x => (hedge' x).trans (hedge x), fun w => ?_, ?_, ?_⟩
  · obtain ⟨hk2, hkv⟩ := (hlive' k).mp hk
    unfold outHead
    rw [hother k hkv, show g'.outNext = g2.outNext by rw [hg']; rfl]
    exact hrep.out.linked k hk2
  · rw [hedge']
    exact hrep.out.mem k ((hlive' k).mp hk).1 x
  · obtain ⟨hk2, hkv⟩ := (hlive' k).mp hk
    unfold inHead
    rw [hother k hkv, show g'.inNext = g2.inNext by rw [hg']; rfl]
    exact hrep.inn.linked k hk2
  · rw [hedge']
    exact hrep.inn.mem k ((hlive' k).mp hk).1 x
  · rw [show g'.vfree = v by rw [hg']]
    refine hrep.freeV.push (by omega) ?_ fun w hw => ?_
    · rw [hg']
      simp [freeNextV, modifyV, Vertex16.setToFree, Vertex16.setNextFreeVertex,
        Vertex16.getNextFreeVertex]
    · unfold freeNextV
      rw [hother w fun heq => hnotfree (heq ▸ hw)]
  · rw [hg']
    exact hrep.freeE
  · rw [mem_cons, hrep.memV, hlive', show g'.vLast = g2.vLast by rw [hg']; rfl]
    by_cases hw : w = v
    · simp [hw, hvbound]
    · simp [hw]
  · rw [hrep.memE, hedge', show g'.eLast = g2.eLast by rw [hg']; rfl]
  · rw [hedge'] at hx
    rw [hlive', hlive']
    obtain ⟨hs, ht⟩ := hrep.ends x p hx
    obtain ⟨h1, h2⟩ := hgone x p hx
    exact ⟨⟨hs, h1⟩, ht, h2⟩
  · have hvcnt := hrep.vcnt
    rw [show g'.vcnt = g2.vcnt - 1 by rw [hg'], show g'.vLast = g2.vLast by rw [hg']; rfl,
      length_cons]
    omega
  · rw [hg']
    exact hrep.ecnt
  · rw [hg']
    exact hrep.vLast
  · rw [hg']
    exact hrep.eLast
  · rw [hlive', hlive]
  · rw [show g'.vcnt = g2.vcnt - 1 by rw [hg']]
    omega
  · rw [show g'.ecnt = g2.ecnt by rw [hg']; rfl]
    omega

/-! ### Looking up and enumerating -/

theorem Ok.getEdgeOf (h : Ok capacity g) (hcap : capacity ≤ 0xfffe) {source : Nat}
    (sink : Nat) (hs : g.LiveV source) : ∃ x, g.getEdgeOf source sink = some x ∧
      (x = 0 ∧ (∀ y, g.edge y ≠ some (source, sink)) ∨ x ≠ 0 ∧ g.edge x = some (source, sink)) := by
  obtain ⟨outs, ins, fv, fe, hrep⟩ := h
  have hmem := hrep.out.mem source hs
  have hwalk : ∀ (l : List Nat) (a fuel : Nat), Linked g.outNext a l → l.length < fuel →
      (∀ x ∈ l, (g.edge x).map Prod.fst = some source) →
      ∃ x, g.edgeTo sink fuel a = some x ∧ (x = 0 ∧ (∀ y ∈ l, g.edge y ≠ some (source, sink)) ∨
        x ≠ 0 ∧ g.edge x = some (source, sink)) := by
    intro l
    induction l with
    | nil =>
      intro a fuel hl hfuel _
      obtain ⟨fuel, rfl⟩ : ∃ n, fuel = n + 1 := ⟨fuel - 1, by simp at hfuel; omega⟩
      unfold edgeTo
      rw [if_neg (not_not.mpr (linked_nil.mp hl))]
      exact ⟨0, rfl, .inl ⟨rfl, fun y hy => (by cases hy)⟩⟩
    | cons b l ih =>
      intro a fuel hl hfuel hown
      obtain ⟨rfl, ha, hl⟩ := hl
      obtain ⟨fuel, rfl⟩ : ∃ n, fuel = n + 1 := ⟨fuel - 1, by simp at hfuel; omega⟩
      obtain ⟨p, hp, hfst⟩ := map_eq_some_iff.mp (hown a mem_cons_self)
      have hsink := (edge_isSome hp).2.2
      unfold edgeTo
      rw [if_pos ha]
      by_cases heq : (g.e a).getSink = sink
      · rw [if_pos heq]
        refine ⟨a, rfl, .inr ⟨ha, ?_⟩⟩
        rw [hp, ← hfst, ← heq, hsink]
      · rw [if_neg heq]
        obtain ⟨x, hx, hres⟩ := ih _ fuel hl (by simp at hfuel; omega)
          fun y hy => hown y (mem_cons_of_mem _ hy)
        refine ⟨x, hx, hres.imp (fun ⟨hx0, hall⟩ => ⟨hx0, fun y hy => ?_⟩) id⟩
        rcases mem_cons.mp hy with rfl | hy
        · intro hy
          rw [hy] at hp
          obtain rfl := some.inj hp
          exact heq hsink
        · exact hall y hy
  have hlen : (outs source).length < walkFuel := by
    have hsub : outs source ⊆ range' 1 g.eLast := by
      intro x hx
      obtain ⟨p, hp, -⟩ := map_eq_some_iff.mp ((hmem x).mp hx)
      have := (edgeIsInGraph_iff.mp (edge_isSome hp).1).1
      rw [mem_range'_1]
      omega
    have hle := (hrep.out.linked source hs).nodup.length_le_of_subset hsub
    have heLast := hrep.eLast
    rw [length_range'] at hle
    unfold walkFuel
    omega
  obtain ⟨x, hx, hres⟩ := hwalk _ _ walkFuel (hrep.out.linked source hs) hlen
    fun x hx => (hmem x).mp hx
  refine ⟨x, hx, hres.imp (fun ⟨hx0, hall⟩ => ⟨hx0, fun y hy => ?_⟩) id⟩
  exact hall y ((hmem y).mpr (by rw [hy]; rfl)) hy

theorem Ok.addUniqueEdge (h : Ok capacity g) (hcap : capacity ≤ 0xfffe) (hroom : g.ecnt ≠ capacity)
    {source sink : Nat} (hs : g.LiveV source) (ht : g.LiveV sink) :
    ∃ x g', g.addUniqueEdge capacity source sink = some (x, g') ∧ Ok capacity g' ∧
      (∀ w, g'.LiveV w ↔ g.LiveV w) ∧ g'.vcnt = g.vcnt ∧ g'.ecnt ≤ g.ecnt + 1 ∧
      ((∃ e, g.edge e = some (source, sink)) ∧ g' = g ∨
        (∀ e, g.edge e ≠ some (source, sink)) ∧ ∃ new, g.edge new = none ∧
          ∀ y, g'.edge y = if y = new then some (source, sink) else g.edge y) := by
  obtain ⟨x, hx, hres⟩ := h.getEdgeOf hcap sink hs
  unfold DirectedGraph16.addUniqueEdge
  rw [hx, map_some]
  rcases hres with ⟨hzero, hnone⟩ | ⟨hne, hsome⟩
  · rw [if_neg (not_not.mpr hzero)]
    obtain ⟨outs, ins, fv, fe, hrep⟩ := h
    obtain ⟨new, g', fe', hg', -, hnew, hrep', hedge, hlive, hvcnt, hecnt⟩ :=
      hrep.addEdge hcap hroom hs ht
    rw [hg']
    exact ⟨new, g', rfl, ⟨_, _, _, _, hrep'⟩, hlive, hvcnt, Nat.le_of_eq hecnt,
      .inr ⟨hnone, new, hnew, hedge⟩⟩
  · rw [if_pos hne]
    exact ⟨x, g, rfl, h, fun _ => Iff.rfl, rfl, le_succ _, .inl ⟨⟨x, hsome⟩, rfl⟩⟩

theorem addVertex_last (hroom : g.vcnt ≠ capacity) (hfree : g.vfree = 0)
    (hlt : g.vLast + 1 < 2 ^ 16) :
    (g.addVertex capacity).1 = g.vLast + 1 ∧ (g.addVertex capacity).2.vfree = 0 ∧
      (g.addVertex capacity).2.vLast = g.vLast + 1 := by
  unfold DirectedGraph16.addVertex newVertexSlot
  rw [if_neg hroom, if_pos hfree]
  exact ⟨mod_eq_of_lt hlt, hfree, rfl⟩

theorem Rep.live_iff (h : Rep capacity g outs ins fv fe) (hfree : g.vfree = 0) (v : Nat) :
    g.LiveV v ↔ 0 < v ∧ v ≤ g.vLast := by
  have hlinked := h.freeV
  rw [hfree] at hlinked
  have hmem := h.memV v
  rw [hlinked.unique (show Linked g.freeNextV 0 [] from rfl)] at hmem
  constructor
  · exact fun hv => (vertexIsInGraph_iff.mp hv).1
  · intro hv
    by_contra hnot
    cases hmem.mpr ⟨hv, hnot⟩

/-- The slots in use, from the last one down. -/
def slots (isFree : Nat → Bool) : Nat → List Nat
  | 0 => []
  | i + 1 => if isFree (i + 1) then slots isFree i else (i + 1) :: slots isFree i

theorem mem_slots {isFree : Nat → Bool} :
    x ∈ slots isFree n ↔ (0 < x ∧ x ≤ n) ∧ isFree x = false := by
  induction n with
  | zero =>
    simp only [slots, not_mem_nil, false_iff]
    omega
  | succ n ih =>
    unfold slots
    by_cases hx : x = n + 1
    · subst hx
      split
      · rename_i hfree
        rw [ih, hfree]
        simp
      · rename_i hfree
        simp [hfree]
    · have hle : x ≤ n + 1 ↔ x ≤ n := by omega
      split
      · rw [ih, hle]
      · rw [mem_cons, ih, hle]
        simp [hx]

theorem linked_slots (isFree : Nat → Bool) (n : Nat) :
    Linked (fun i => skipFree isFree (i - 1)) (skipFree isFree n) (slots isFree n) := by
  induction n with
  | zero => rfl
  | succ n ih =>
    rw [skipFree, slots]
    split
    · exact ih
    · exact ⟨rfl, succ_ne_zero n, ih⟩

theorem length_slots {isFree : Nat → Bool} {cnt : Nat} {free : List Nat} (hnd : free.Nodup)
    (hfree : ∀ x, x ∈ free ↔ (0 < x ∧ x ≤ n) ∧ isFree x = true) (hcnt : cnt + free.length = n) :
    cnt = (slots isFree n).length := by
  have hperm : (slots isFree n ++ free).Perm (range' 1 n) := by
    refine (perm_ext_iff_of_nodup ?_ nodup_range').mpr fun x => ?_
    · refine nodup_append'.mpr ⟨(linked_slots isFree n).nodup, hnd, fun x hx hx' => ?_⟩
      have h1 := (mem_slots.mp hx).2
      rw [((hfree x).mp hx').2] at h1
      cases h1
    · rw [mem_append, mem_slots, hfree, mem_range'_1]
      cases isFree x <;> simp <;> omega
  have hlen := hperm.length_eq
  rw [length_append, length_range'] at hlen
  omega

/-- The lists of a graph: `vs` and `es` are enumerated, `fv` and `fe` the free lists. -/
structure Lists (g : DirectedGraph16) (outs ins : Nat → List Nat) (fv fe vs es : List Nat) :
    Prop where
  vertices : Linked g.getNextVertex g.getVertex vs
  edges : Linked g.getNextEdge g.getEdge es
  nodupV : vs.Nodup
  nodupE : es.Nodup
  memV : ∀ v, v ∈ vs ↔ g.vertexIsInGraph v = true
  memE : ∀ e, e ∈ es ↔ g.edgeIsInGraph e = true
  vcnt : g.vcnt = vs.length
  ecnt : g.ecnt = es.length
  ends : ∀ e ∈ es, (g.e e).getSource ∈ vs ∧ (g.e e).getSink ∈ vs
  out : ∀ v ∈ vs, Linked g.outNext (g.outHead v) (outs v) ∧ (outs v).Nodup ∧ outs v ⊆ es
  inn : ∀ v ∈ vs, Linked g.inNext (g.inHead v) (ins v) ∧ (ins v).Nodup ∧ ins v ⊆ es
  outOnce : ∀ e ∈ es, ∀ v ∈ vs, (outs v).count e = if (g.e e).getSource = v then 1 else 0
  inOnce : ∀ e ∈ es, ∀ v ∈ vs, (ins v).count e = if (g.e e).getSink = v then 1 else 0
  outDisjoint : ∀ v ∈ vs, ∀ w ∈ vs, v ≠ w → (outs v).Disjoint (outs w)
  inDisjoint : ∀ v ∈ vs, ∀ w ∈ vs, v ≠ w → (ins v).Disjoint (ins w)
  freeV : Linked g.freeNextV g.vfree fv ∧ fv.Nodup ∧ vs.Disjoint fv
  freeE : Linked g.freeNextE g.efree fe ∧ fe.Nodup ∧ es.Disjoint fe
  slotsV : ∀ v, (0 < v ∧ v ≤ g.vLast) ↔ v ∈ vs ∨ v ∈ fv
  slotsE : ∀ e, (0 < e ∧ e ≤ g.eLast) ↔ e ∈ es ∨ e ∈ fe

section

variable {head next : Nat → Nat} {live : Nat → Prop} {owner : Nat → Option Nat}
  {lists : Nat → List Nat}

theorem family_count {e s : Nat} (h : Family live head next owner lists) (hv : live v)
    (he : owner e = some s) : (lists v).count e = if s = v then 1 else 0 := by
  split
  · rename_i hsv
    exact count_eq_one_of_mem (h.linked v hv).nodup ((h.mem v hv e).mpr (hsv ▸ he))
  · rename_i hsv
    refine count_eq_zero.mpr fun hmem => hsv ?_
    exact some.inj (he.symm.trans ((h.mem v hv e).mp hmem))

theorem family_disjoint (h : Family live head next owner lists) (hv : live v)
    (hw : live w) (hne : v ≠ w) : (lists v).Disjoint (lists w) := fun x hx hx' =>
  hne (some.inj (((h.mem v hv x).mp hx).symm.trans ((h.mem w hw x).mp hx')))

end

theorem Rep.lists (h : Rep capacity g outs ins fv fe) :
    Lists g outs ins fv fe (slots (fun v => (g.v v).isFree) g.vLast)
      (slots (fun e => (g.e e).isFree) g.eLast) := by
  -- the walk over the slots meets the live ones
  have hmemV : ∀ v, v ∈ slots (fun v => (g.v v).isFree) g.vLast ↔ g.LiveV v := by
    intro v
    rw [mem_slots, vertexIsInGraph_iff]
    simp [Vertex16.isFree]
  have hmemE : ∀ e, e ∈ slots (fun e => (g.e e).isFree) g.eLast ↔ g.edgeIsInGraph e = true := by
    intro e
    rw [mem_slots, edgeIsInGraph_iff]
    simp [Edge16.isFree]
  have hfreeV : ∀ v, v ∈ fv ↔ (0 < v ∧ v ≤ g.vLast) ∧ (g.v v).isFree = true := by
    intro v
    rw [h.memV, vertexIsInGraph_iff]
    simp only [Vertex16.isFree, beq_iff_eq]
    tauto
  have hfreeE : ∀ e, e ∈ fe ↔ (0 < e ∧ e ≤ g.eLast) ∧ (g.e e).isFree = true := by
    intro e
    rw [h.memE, edge_eq_none, edgeIsInGraph_iff]
    simp only [Edge16.isFree, beq_iff_eq]
    tauto
  have hvcnt := length_slots h.freeV.nodup hfreeV h.vcnt
  have hecnt := length_slots h.freeE.nodup hfreeE h.ecnt
  have hedge : ∀ e, g.edgeIsInGraph e = true → g.edge e = some ((g.e e).getSource, (g.e e).getSink) :=
    fun e he => if_pos he
  have hsub : ∀ (sel : Nat × Nat → Nat) (v e : Nat), (g.edge e).map sel = some v →
      e ∈ slots (fun e => (g.e e).isFree) g.eLast := by
    intro sel v e he
    obtain ⟨p, hp, -⟩ := map_eq_some_iff.mp he
    exact (hmemE e).mpr (edge_isSome hp).1
  refine ⟨?_, ?_, (linked_slots _ _).nodup, (linked_slots _ _).nodup, hmemV, hmemE, hvcnt, hecnt,
    fun e he => ?_, fun v hv => ?_, fun v hv => ?_, fun e he v hv => ?_, fun e he v hv => ?_,
    fun v hv w hw hne => ?_, fun v hv w hw hne => ?_, ⟨h.freeV, h.freeV.nodup, fun v hv hv' => ?_⟩,
    ⟨h.freeE, h.freeE.nodup, fun e he he' => ?_⟩, fun v => ?_, fun e => ?_⟩
  · unfold getVertex
    split
    · rename_i hzero
      rw [hzero] at hvcnt
      rw [length_eq_zero_iff.mp hvcnt.symm]
      rfl
    · exact linked_slots _ _
  · unfold getEdge
    split
    · rename_i hzero
      rw [hzero] at hecnt
      rw [length_eq_zero_iff.mp hecnt.symm]
      rfl
    · exact linked_slots _ _
  · rw [hmemV, hmemV]
    exact h.ends e _ (hedge e ((hmemE e).mp he))
  · rw [hmemV] at hv
    have hlinked := h.out.linked v hv
    exact ⟨hlinked, hlinked.nodup, fun e he => hsub _ v e ((h.out.mem v hv e).mp he)⟩
  · rw [hmemV] at hv
    have hlinked := h.inn.linked v hv
    exact ⟨hlinked, hlinked.nodup, fun e he => hsub _ v e ((h.inn.mem v hv e).mp he)⟩
  · -- each list has the edges of its vertex, and no edge is in two
    exact family_count h.out ((hmemV v).mp hv) (by rw [hedge e ((hmemE e).mp he)]; rfl)
  · exact family_count h.inn ((hmemV v).mp hv) (by rw [hedge e ((hmemE e).mp he)]; rfl)
  · exact family_disjoint h.out ((hmemV v).mp hv) ((hmemV w).mp hw) hne
  · exact family_disjoint h.inn ((hmemV v).mp hv) ((hmemV w).mp hw) hne
  · exact h.not_live_of_mem hv' ((hmemV v).mp hv)
  · have hnone := ((h.memE e).mp he').2
    rw [edge_eq_none] at hnone
    exact hnone ((hmemE e).mp he)
  · rw [mem_slots, hfreeV]
    cases (g.v v).isFree <;> simp
  · rw [mem_slots, hfreeE]
    cases (g.e e).isFree <;> simp

/-! ### Runs -/

/-- Every allowed operation returns and keeps the graph well formed. -/
theorem Ok.step (h : Ok capacity g) (hcap : capacity ≤ 0xfffe) {op : Op} (hop : op.Allowed g) :
    ∃ g', Graph.step capacity g op = some g' ∧ Ok capacity g' := by
  obtain ⟨outs, ins, fv, fe, hrep⟩ := id h
  have hadd : ∀ source sink, g.LiveV source → g.LiveV sink →
      Ok capacity (g.addEdge capacity source sink).2 := by
    intro source sink hs ht
    by_cases hroom : g.ecnt = capacity
    · unfold DirectedGraph16.addEdge
      rw [if_pos hroom]
      exact h
    · obtain ⟨new, g', fe', hg', -, -, hrep', -⟩ := hrep.addEdge hcap hroom hs ht
      rw [hg']
      exact ⟨_, _, _, _, hrep'⟩
  cases op with
  | addVertex =>
    refine ⟨_, rfl, ?_⟩
    by_cases hroom : g.vcnt = capacity
    · unfold DirectedGraph16.addVertex
      rw [if_pos hroom]
      exact h
    · obtain ⟨new, g', fv', hg', -, -, hrep', -⟩ := hrep.addVertex hcap hroom
      rw [hg']
      exact ⟨_, _, _, _, hrep'⟩
  | addEdge source sink => exact ⟨_, rfl, hadd source sink hop.1 hop.2⟩
  | addUniqueEdge source sink =>
    obtain ⟨x, hx, -⟩ := h.getEdgeOf hcap sink hop.1
    unfold Graph.step DirectedGraph16.addUniqueEdge
    simp only [hx, map_some]
    refine ⟨_, rfl, ?_⟩
    split
    · exact h
    · exact hadd source sink hop.1 hop.2
  | deleteEdge e =>
    obtain ⟨g', hg', hrep', -⟩ := hrep.deleteEdge hcap (if_pos hop)
    exact ⟨g', hg', _, _, _, _, hrep'⟩
  | deleteVertex v =>
    obtain ⟨g', hg', hok', -⟩ := h.deleteVertex hcap hop
    exact ⟨g', hg', hok'⟩

end DirectedGraph16

section

variable {capacity : Nat} (hcap : capacity ≤ 0xfffe) {g : DirectedGraph16} (h : Run capacity g)
include hcap h

theorem Run.ok : g.Ok capacity := by
  induction h with
  | init v e => exact ⟨_, _, _, _, DirectedGraph16.Rep.init v e⟩
  | step _ hop hstep ih =>
    obtain ⟨g', hg', hok⟩ := ih.step hcap hop
    rw [hstep] at hg'
    obtain rfl := some.inj hg'
    exact hok

/-- The lists, the marks and the counts of every graph agree, every operation ends, and one that is
refused changes nothing. -/
theorem run_lists : (∃ outs ins fv fe vs es, g.Lists outs ins fv fe vs es) ∧
    (∀ op, Op.Allowed g op → ∃ g', step capacity g op = some g') ∧
    (g.vcnt = capacity → g.addVertex capacity = (0, g)) ∧
    (g.ecnt = capacity → ∀ source sink, g.addEdge capacity source sink = (0, g)) ∧
    (g.ecnt = capacity → ∀ source sink, g.vertexIsInGraph source →
      ∃ e, g.addUniqueEdge capacity source sink = some (e, g)) := by
  have hok := h.ok hcap
  obtain ⟨outs, ins, fv, fe, hrep⟩ := id hok
  refine ⟨⟨outs, ins, fv, fe, _, _, hrep.lists⟩, fun op hop => ?_, fun hfull => if_pos hfull,
    fun hfull _ _ => if_pos hfull, fun hfull source sink hs => ?_⟩
  · obtain ⟨g', hg', -⟩ := hok.step hcap hop
    exact ⟨g', hg'⟩
  · obtain ⟨x, hx, -⟩ := hok.getEdgeOf hcap sink hs
    unfold DirectedGraph16.addUniqueEdge
    rw [hx, map_some]
    split
    · exact ⟨x, rfl⟩
    · exact ⟨0, congrArg some (if_pos hfull)⟩

end

theorem run_lists_loop :
    ∃ g, Run 1 g ∧ g.vcnt = 1 ∧ g.ecnt = 1 ∧ (∃ outs ins fv fe vs es, g.Lists outs ins fv fe vs es) ∧
      (∃ g', step 1 g (.deleteVertex 1) = some g') ∧ g.addEdge 1 1 1 = (0, g) := by
  have h0 : Run 1 _ := .init (fun _ => ⟨0, 0⟩) fun _ => ⟨0, 0, 0, 0⟩
  have h := h0.step (show Op.Allowed _ .addVertex from trivial) rfl
  have h' := h.step (show Op.Allowed _ (.addEdge 1 1) from ⟨rfl, rfl⟩) rfl
  have hall := run_lists (by decide) h'
  exact ⟨_, h', rfl, rfl, hall.1, hall.2.1 (.deleteVertex 1) rfl, hall.2.2.2.1 rfl 1 1⟩

end Graph
