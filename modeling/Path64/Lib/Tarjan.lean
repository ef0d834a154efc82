import Mathlib.Data.Finset.Card
import Path64.Lib.Paths

/-! # Tarjan's components

Every vertex gets a number when the search comes to it, and goes on a stack
until its component is complete. A link is the least number of a vertex of
the stack that was found from it; a vertex whose link is its own number ends
a component: what is above it on the stack. -/

namespace Tarjan

open List Finset Function Paths

/-- The state of the search; `stack` starts with its top, `comps` with the first component. -/
structure State (V : Type) where
  visited : V → Bool
  dfn : V → Nat
  link : V → Nat
  inStack : V → Bool
  stack : List V
  dfCount : Nat
  sccId : V → Nat
  comps : List (List V)

section Search

variable {V : Type} [DecidableEq V]

/-- A vertex gets its number and goes on the stack. -/
def enter (v : V) (s : State V) : State V :=
  { s with
    visited := update s.visited v true
    dfn := update s.dfn v s.dfCount
    link := update s.link v s.dfCount
    dfCount := s.dfCount + 1
    stack := v :: s.stack
    inStack := update s.inStack v true }

/-- A smaller link. -/
def relax (v : V) (bound : Nat) (s : State V) : State V :=
  if bound < s.link v then { s with link := update s.link v bound } else s

/-- The successors of a vertex, one after the other. -/
def scan (call : V → State V → Option (State V)) (v : V) : List V → State V → Option (State V)
  | [], s => some s
  | j :: js, s =>
    if !s.visited j then
      match call j s with
      | none => none
      | some s' => scan call v js (relax v (s'.link j) s')
    else if s.dfn j < s.dfn v && s.inStack j then scan call v js (relax v (s.dfn j) s)
    else scan call v js s

/-- The stack down to a vertex, and the rest. -/
def popTo (v : V) : List V → Option (List V × List V)
  | [] => none
  | j :: rest =>
    if j = v then some ([j], rest) else (popTo v rest).map fun p => (j :: p.1, p.2)

/-- A component is taken off the stack. -/
def complete (c rest : List V) (s : State V) : State V :=
  { s with
    stack := rest
    inStack := fun w => if w ∈ c then false else s.inStack w
    sccId := fun w => if w ∈ c then s.comps.length else s.sccId w
    comps := s.comps ++ [c] }

/-- A component ends at a vertex that found nothing before it. -/
def finish (v : V) (s : State V) : Option (State V) :=
  if s.link v = s.dfn v then (popTo v s.stack).map fun p => complete p.1 p.2 s else some s

/-- The search from a vertex; `fuel` bounds the depth. -/
def visit (adj : V → List V) : Nat → V → State V → Option (State V)
  | 0, _, _ => none
  | fuel + 1, v, s => (scan (visit adj fuel) v (adj v) (enter v s)).bind (finish v)

/-- The search from each vertex that has not been visited. -/
def visitAll (adj : V → List V) (fuel : Nat) : List V → State V → Option (State V)
  | [], s => some s
  | v :: vs, s =>
    if !s.visited v then
      match visit adj fuel v s with
      | none => none
      | some s' => visitAll adj fuel vs s'
    else visitAll adj fuel vs s

/-! ## What holds during the search -/

variable (adj : V → List V)

def Adj (v w : V) : Prop := w ∈ adj v

abbrev Reach (v w : V) : Prop := Reaches (Adj adj) v w

/-- A vertex of a component that is complete. -/
def Done (s : State V) (w : V) : Prop := s.visited w = true ∧ w ∉ s.stack

/-- The state while the calls for the vertices in `grey` are open. -/
structure Inv (grey : List V) (s : State V) : Prop where
  inStack : ∀ w, s.inStack w = true ↔ w ∈ s.stack
  visited : ∀ w ∈ s.stack, s.visited w = true
  dfn_lt : ∀ w, s.visited w = true → s.dfn w < s.dfCount
  sorted : s.stack.Pairwise fun a b => s.dfn b < s.dfn a
  greys : ∀ w ∈ grey, w ∈ s.stack
  closed : ∀ w, s.visited w = true → w ∉ grey → ∀ x ∈ adj w, s.visited x = true
  done : ∀ w, Done s w → ∀ x ∈ adj w, Done s x
  forward : ∀ x ∈ s.stack, ∀ y ∈ s.stack, s.dfn x ≤ s.dfn y → Reach adj x y
  back : ∀ y ∈ s.stack, ∃ x ∈ grey, s.dfn x ≤ s.dfn y ∧ Reach adj y x
  comps : ∀ w, w ∈ s.comps.flatten ↔ Done s w
  nodup : s.comps.flatten.Nodup
  sccId : ∀ i c, s.comps[i]? = some c → c ≠ [] ∧ ∀ w ∈ c, s.sccId w = i
  same : ∀ w x, Done s w → Done s x →
    (s.sccId w = s.sccId x ↔ Reach adj w x ∧ Reach adj x w)
  order : ∀ w, Done s w → ∀ x ∈ adj w, s.sccId x ≤ s.sccId w

/-- What a call leaves as it was. -/
structure Frame (s t : State V) : Prop where
  visited : ∀ w, s.visited w = true → t.visited w = true
  dfn : ∀ w, s.visited w = true → t.dfn w = s.dfn w
  link : ∀ w, s.visited w = true → t.link w = s.link w

/-- What a call for `v` does. -/
structure Post (grey : List V) (v : V) (s t : State V) : Prop where
  inv : Inv adj grey t
  frame : Frame s t
  visited : t.visited v = true
  found : ∀ w, t.visited w = true → s.visited w = true ∨ Reach adj v w
  stack : ∃ new, t.stack = new ++ s.stack ∧ ∀ w ∈ new, s.visited w = false
  dfn : t.dfn v = s.dfCount
  link : t.link v = t.dfn v ∨ ∃ y ∈ t.stack, t.link v = t.dfn y ∧ Reach adj v y
  bound : ∀ x ∈ t.stack, s.visited x = false → ∀ y ∈ s.stack, y ∈ adj x → t.link v ≤ t.dfn y

/-- The state between two successors of `v`, after those in `passed`. -/
structure Core (grey : List V) (v : V) (passed : List V) (s t : State V) : Prop where
  inv : Inv adj (v :: grey) t
  frame : Frame s t
  found : ∀ w, t.visited w = true → s.visited w = true ∨ Reach adj v w
  reach : ∀ g ∈ grey, Reach adj g v
  new : s.visited v = false
  stack : ∃ new, t.stack = new ++ v :: s.stack ∧ ∀ w ∈ new, s.visited w = false
  dfn : t.dfn v = s.dfCount
  link_le : t.link v ≤ t.dfn v
  link : ∃ y ∈ t.stack, t.link v = t.dfn y ∧ Reach adj v y
  seen : ∀ j ∈ passed, t.visited j = true

/-- The same, when the link is up to date. -/
structure Mid (grey : List V) (v : V) (passed : List V) (s t : State V) : Prop
    extends Core adj grey v passed s t where
  bound : ∀ x ∈ t.stack, s.visited x = false → ∀ y ∈ s.stack, y ∈ adj x →
    (x = v → y ∈ passed) → t.link v ≤ t.dfn y

variable {adj} {grey : List V} {v : V} {s t : State V}

omit [DecidableEq V] in
theorem Frame.trans {s1 s2 s3 : State V} (h : Frame s1 s2) (h' : Frame s2 s3) : Frame s1 s3 :=
  ⟨fun w hw => h'.visited w (h.visited w hw),
    fun w hw => (h'.dfn w (h.visited w hw)).trans (h.dfn w hw),
    fun w hw => (h'.link w (h.visited w hw)).trans (h.link w hw)⟩

/-! ## Numbering a vertex -/

theorem done_enter (hnew : s.visited v = false) (w : V) : Done (enter v s) w ↔ Done s w := by
  unfold Done enter
  by_cases hw : w = v
  · subst hw
    simp [hnew]
  · simp [hw]

section

variable (h : Inv adj grey s) (hnew : s.visited v = false) (hreach : ∀ g ∈ grey, Reach adj g v)
include h hnew hreach

/-- Entering a vertex: it gets the next number, its own as its link, and is put on the stack. -/
theorem Inv.enter : Inv adj (v :: grey) (enter v s) := by
  have hne : ∀ w, s.visited w = true → w ≠ v := by
    rintro w hw rfl
    rw [hnew] at hw
    cases hw
  have hvisited : ∀ w, (Tarjan.enter v s).visited w = true ↔ w = v ∨ s.visited w = true := by
    intro w
    by_cases hw : w = v
    · subst hw
      simp [Tarjan.enter]
    · simp [Tarjan.enter, hw]
  have hdfn : ∀ w, s.visited w = true → (Tarjan.enter v s).dfn w = s.dfn w :=
    fun w hw => update_of_ne (hne w hw) _ _
  have hdfnv : (Tarjan.enter v s).dfn v = s.dfCount := update_self _ _ _
  have hdone := done_enter hnew
  refine ⟨fun w => ?_, fun w hw => ?_, fun w hw => ?_, ?_, fun w hw => ?_, fun w hw hgrey x hx => ?_,
    fun w hw x hx => ?_, fun x hx y hy hle => ?_, fun y hy => ?_, fun w => ?_, h.nodup, h.sccId,
    fun w x hw hx => ?_, fun w hw x hx => ?_⟩
  · by_cases hw : w = v
    · subst hw
      simp [Tarjan.enter]
    · simp [Tarjan.enter, hw, h.inStack]
  · rw [hvisited]
    exact (mem_cons.mp hw).imp id fun hw => h.visited w hw
  · rcases (hvisited w).mp hw with rfl | hw
    · rw [hdfnv]
      exact Nat.lt_succ_self _
    · rw [hdfn w hw]
      exact (h.dfn_lt w hw).trans (Nat.lt_succ_self _)
  · refine pairwise_cons.mpr ⟨fun b hb => ?_, h.sorted.imp_of_mem fun {a b} ha hb hlt => ?_⟩
    · rw [hdfnv, hdfn b (h.visited b hb)]
      exact h.dfn_lt b (h.visited b hb)
    · rwa [hdfn a (h.visited a ha), hdfn b (h.visited b hb)]
  · rcases mem_cons.mp hw with rfl | hw
    · exact mem_cons_self
    · exact List.mem_cons_of_mem _ (h.greys w hw)
  · rw [List.mem_cons, not_or] at hgrey
    have hold := ((hvisited w).mp hw).resolve_left hgrey.1
    exact (hvisited x).mpr (.inr (h.closed w hold hgrey.2 x hx))
  · exact (hdone x).mpr (h.done w ((hdone w).mp hw) x hx)
  · -- a vertex below it on the stack reaches it through a grey one
    rcases mem_cons.mp hx with hxv | hx
    · rcases mem_cons.mp hy with hyv | hy
      · rw [hxv, hyv]
        exact Reaches.refl _
      · rw [hxv, hdfnv, hdfn y (h.visited y hy)] at hle
        have := h.dfn_lt y (h.visited y hy)
        omega
    · rcases mem_cons.mp hy with hyv | hy
      · obtain ⟨g, hg, -, hxg⟩ := h.back x hx
        rw [hyv]
        exact hxg.trans (hreach g hg)
      · rw [hdfn x (h.visited x hx), hdfn y (h.visited y hy)] at hle
        exact h.forward x hx y hy hle
  · rcases mem_cons.mp hy with rfl | hy
    · exact ⟨y, mem_cons_self, Nat.le_refl _, Reaches.refl _⟩
    · obtain ⟨g, hg, hle, hyg⟩ := h.back y hy
      refine ⟨g, mem_cons_of_mem _ hg, ?_, hyg⟩
      rwa [hdfn g (h.visited g (h.greys g hg)), hdfn y (h.visited y hy)]
  · rw [hdone]
    exact h.comps w
  · exact h.same w x ((hdone w).mp hw) ((hdone x).mp hx)
  · exact h.order w ((hdone w).mp hw) x hx

theorem Inv.mid : Mid adj grey v [] s (Tarjan.enter v s) := by
  have hne : ∀ w, s.visited w = true → w ≠ v := by
    rintro w hw rfl
    rw [hnew] at hw
    cases hw
  have hdfnv : (Tarjan.enter v s).dfn v = s.dfCount := update_self _ _ _
  have hlinkv : (Tarjan.enter v s).link v = s.dfCount := update_self _ _ _
  refine ⟨⟨h.enter hnew hreach, ⟨fun w hw => ?_, fun w hw => update_of_ne (hne w hw) _ _,
    fun w hw => update_of_ne (hne w hw) _ _⟩, fun w hw => ?_, hreach, hnew,
    ⟨[], rfl, fun w hw => (by cases hw)⟩,
    hdfnv, by rw [hlinkv, hdfnv], ⟨v, mem_cons_self, by rw [hlinkv, hdfnv], Reaches.refl v⟩,
    fun j hj => (by cases hj)⟩, fun x hx hfresh y _ _ hpassed => ?_⟩
  · exact (update_of_ne (hne w hw) _ _).trans hw
  · by_cases hwv : w = v
    · rw [hwv]
      exact .inr (Reaches.refl v)
    · exact .inl ((update_of_ne hwv _ _).symm.trans hw)
  · rcases mem_cons.mp hx with rfl | hx
    · cases hpassed rfl
    · rw [h.visited x hx] at hfresh
      cases hfresh

end

/-! ## The successors -/

theorem Inv.relax (h : Inv adj grey s) (bound : Nat) : Inv adj grey (relax v bound s) := by
  unfold Tarjan.relax
  split
  · exact ⟨h.inStack, h.visited, h.dfn_lt, h.sorted, h.greys, h.closed, h.done, h.forward, h.back,
      h.comps, h.nodup, h.sccId, h.same, h.order⟩
  · exact h

theorem relax_link (bound : Nat) : (relax v bound s).link v = min bound (s.link v) := by
  unfold Tarjan.relax
  split
  · simp only [update_self]
    omega
  · omega

theorem relax_fields (bound : Nat) : (relax v bound s).visited = s.visited ∧
    (relax v bound s).dfn = s.dfn ∧ (relax v bound s).stack = s.stack ∧
    ∀ w, w ≠ v → (relax v bound s).link w = s.link w := by
  unfold Tarjan.relax
  split
  · exact ⟨rfl, rfl, rfl, fun w hw => update_of_ne hw _ _⟩
  · exact ⟨rfl, rfl, rfl, fun w _ => rfl⟩

/-- A successor `j` is passed: `bound` is what it says of the link. -/
theorem Core.relax {passed : List V} {j : V} (h : Core adj grey v passed s t)
    (hj : t.visited j = true) {bound : Nat}
    (hlink : bound < t.link v → ∃ y ∈ t.stack, bound = t.dfn y ∧ Reach adj v y)
    (hbound : ∀ x ∈ t.stack, s.visited x = false → ∀ y ∈ s.stack, y ∈ adj x →
      (x = v → y ∈ passed ++ [j]) → min bound (t.link v) ≤ t.dfn y) :
    Mid adj grey v (passed ++ [j]) s (Tarjan.relax v bound t) := by
  obtain ⟨hvisited, hdfn, hstack, hlinks⟩ := relax_fields (v := v) (s := t) bound
  have hlinkv := relax_link (v := v) (s := t) bound
  have hne : ∀ w, s.visited w = true → w ≠ v := by
    rintro w hw rfl
    rw [h.new] at hw
    cases hw
  refine ⟨⟨h.inv.relax bound, ⟨fun w hw => ?_, fun w hw => ?_, fun w hw => ?_⟩,
    fun w hw => h.found w (hvisited ▸ hw), h.reach, h.new, ?_, ?_, ?_, ?_, fun i hi => ?_⟩,
    fun x hx hfresh y hy hadj hpassed => ?_⟩
  · rw [hvisited]
    exact h.frame.visited w hw
  · rw [hdfn]
    exact h.frame.dfn w hw
  · rw [hlinks w (hne w hw)]
    exact h.frame.link w hw
  · rw [hstack]
    exact h.stack
  · rw [hdfn]
    exact h.dfn
  · rw [hlinkv, hdfn]
    have := h.link_le
    omega
  · rw [hlinkv, hstack, hdfn]
    by_cases hlt : bound < t.link v
    · rw [Nat.min_eq_left hlt.le]
      exact hlink hlt
    · rw [Nat.min_eq_right (Nat.le_of_not_lt hlt)]
      exact h.link
  · rw [hvisited]
    rcases mem_append.mp hi with hi | hi
    · exact h.seen i hi
    · rwa [List.mem_singleton.mp hi]
  · rw [hlinkv, hdfn]
    rw [hstack] at hx
    exact hbound x hx hfresh y hy hadj hpassed

variable {passed : List V} {j w : V}

theorem Mid.skip (h : Mid adj grey v passed s t)
    (hj : t.visited j = true) (hbound : j ∈ s.stack → t.link v ≤ t.dfn j) :
    Mid adj grey v (passed ++ [j]) s t := by
  refine ⟨{ h.toCore with seen := fun i hi => ?_ }, fun x hx hfresh y hy hadj hpassed => ?_⟩
  · rcases mem_append.mp hi with hi | hi
    · exact h.seen i hi
    · rwa [List.mem_singleton.mp hi]
  · by_cases hxv : x = v
    · rcases mem_append.mp (hpassed hxv) with hy' | hy'
      · exact h.bound x hx hfresh y hy hadj fun _ => hy'
      · rw [List.mem_singleton.mp hy'] at hy ⊢
        exact hbound hy
    · exact h.bound x hx hfresh y hy hadj fun heq => absurd heq hxv

omit [DecidableEq V] in
theorem Core.mem_stack (h : Core adj grey v passed s t) {y : V} (hy : y ∈ s.stack) :
    y ∈ t.stack := by
  obtain ⟨new, hstack, -⟩ := h.stack
  rw [hstack]
  exact mem_append_right _ (mem_cons_of_mem _ hy)

/-- A successor that was numbered later, or has left the stack, says nothing. -/
theorem Mid.passBack (h : Mid adj grey v passed s t)
    (hs : Inv adj grey s) (hj : t.visited j = true)
    (hnot : ¬ (t.dfn j < t.dfn v ∧ t.inStack j = true)) : Mid adj grey v (passed ++ [j]) s t:= by
  refine h.skip hj fun hmem => absurd ⟨?_, (h.inv.inStack j).mpr (h.mem_stack hmem)⟩ hnot
  have hvisited := hs.visited j hmem
  rw [h.frame.dfn j hvisited, h.dfn]
  exact hs.dfn_lt j hvisited

theorem Mid.passStack (h : Mid adj grey v passed s t) (hadj : j ∈ adj v)
    (hj : t.visited j = true) (hstack : t.inStack j = true) :
    Mid adj grey v (passed ++ [j]) s (Tarjan.relax v (t.dfn j) t) := by
  refine h.toCore.relax hj (fun _ => ⟨j, (h.inv.inStack j).mp hstack, rfl,
    (Reaches.refl v).snoc hadj⟩) fun x hx hfresh y hy hxy hpassed => ?_
  by_cases hyj : y = j
  · rw [hyj]
    exact Nat.min_le_left _ _
  · refine (Nat.min_le_right _ _).trans (h.bound x hx hfresh y hy hxy fun hxv => ?_)
    exact (List.mem_append.mp (hpassed hxv)).resolve_right fun hmem => hyj (List.mem_singleton.mp hmem)

/-- A successor that was called: its component is popped, or its link lowers that of the caller. -/
theorem Mid.passCall {t' : State V} (h : Mid adj grey v passed s t)
    (hadj : j ∈ adj v) (hnew : t.visited j = false) (hpost : Post adj (v :: grey) j t t') :
    Mid adj grey v (passed ++ [j]) s (Tarjan.relax v (t'.link j) t') := by
  obtain ⟨new, hstack, hfresh⟩ := h.stack
  obtain ⟨new', hstack', hfresh'⟩ := hpost.stack
  have hv : t.visited v = true := h.inv.visited v (h.inv.greys v mem_cons_self)
  have hold : ∀ w, t.visited w = false → s.visited w = false := by
    intro w hw
    by_contra hne
    rw [h.frame.visited w (by simpa using hne)] at hw
    cases hw
  have hmem : ∀ y, y ∈ t.stack → y ∈ t'.stack := by
    intro y hy
    rw [hstack']
    exact mem_append_right _ hy
  have hdfn : ∀ y ∈ t.stack, t'.dfn y = t.dfn y := fun y hy => hpost.frame.dfn y (h.inv.visited y hy)
  have hcore : Core adj grey v passed s t' := by
    refine ⟨hpost.inv, h.frame.trans hpost.frame, fun w hw => ?_, h.reach, h.new,
      ⟨new' ++ new, ?_, fun w hw => ?_⟩, ?_, ?_, ?_, fun i hi => hpost.frame.visited i (h.seen i hi)⟩
    · exact (hpost.found w hw).elim (h.found w) fun hjw => .inr (Reaches.head hadj hjw)
    · rw [hstack', hstack, append_assoc]
    · exact (mem_append.mp hw).elim (fun hw => hold w (hfresh' w hw)) fun hw => hfresh w hw
    · rw [hpost.frame.dfn v hv, h.dfn]
    · rw [hpost.frame.link v hv, hpost.frame.dfn v hv]
      exact h.link_le
    · obtain ⟨y, hy, heq, hreach⟩ := h.link
      refine ⟨y, hmem y hy, ?_, hreach⟩
      rw [hpost.frame.link v hv, heq, hdfn y hy]
  refine hcore.relax hpost.visited (fun hlt => ?_) fun x hx hxs y hy hxy hpassed => ?_
  · rcases hpost.link with heq | ⟨y, hy, heq, hreach⟩
    · -- the successor is a component of its own: its link is its number
      have h1 := h.inv.dfn_lt v hv
      have h2 := hcore.link_le
      have h3 := hpost.frame.dfn v hv
      rw [heq, hpost.dfn] at hlt
      omega
    · exact ⟨y, hy, heq, (Reaches.head hadj hreach)⟩
  · have hyt := h.mem_stack hy
    rw [hdfn y hyt]
    cases hxt : t.visited x with
    | true =>
      refine (Nat.min_le_right _ _).trans ?_
      rw [hpost.frame.link v hv]
      have hxstack : x ∈ t.stack := by
        rw [hstack'] at hx
        refine (mem_append.mp hx).resolve_left fun hin => ?_
        rw [hfresh' x hin] at hxt
        cases hxt
      refine h.bound x hxstack hxs y hy hxy fun hxv => ?_
      refine (List.mem_append.mp (hpassed hxv)).resolve_right fun hmem' => ?_
      rw [List.mem_singleton.mp hmem'] at hyt
      rw [h.inv.visited j hyt] at hnew
      cases hnew
    | false =>
      refine (Nat.min_le_left _ _).trans ?_
      rw [← hdfn y hyt]
      exact hpost.bound x hx hxt y hyt hxy

/-! ## A component is complete -/

theorem popTo_append {above rest : List V} (hv : v ∉ above) :
    popTo v (above ++ v :: rest) = some (above ++ [v], rest) := by
  induction above with
  | nil => simp [popTo]
  | cons a above ih =>
    rw [List.mem_cons, not_or] at hv
    rw [List.cons_append, popTo, if_neg (Ne.symm hv.1), ih hv.2, Option.map_some, List.cons_append]

omit [DecidableEq V] in
theorem Inv.done_reach (h : Inv adj grey s) {x : V} (hw : Done s w) (hx : Reach adj w x) :
    Done s x := by
  obtain ⟨p, hp⟩ := hx
  induction hp with
  | single => exact hw
  | snoc _ hadj ih => exact h.done _ ih _ hadj

omit [DecidableEq V] in
theorem Inv.sccId_lt (h : Inv adj grey s) (hw : Done s w) :
    s.sccId w < s.comps.length ∧ ∃ c, s.comps[s.sccId w]? = some c ∧ w ∈ c := by
  obtain ⟨c, hc, hwc⟩ := mem_flatten.mp ((h.comps w).mpr hw)
  obtain ⟨i, hi⟩ := getElem?_of_mem hc
  have hid := (h.sccId i c hi).2 w hwc
  rw [hid]
  exact ⟨(List.getElem?_eq_some_iff.mp hi).1, c, hi, hwc⟩

omit [DecidableEq V] in
theorem Core.stack_split (h : Core adj grey v passed s t) :
    ∃ new, t.stack = new ++ v :: s.stack ∧ (∀ w ∈ new, s.visited w = false) ∧ v ∉ new ∧
      (∀ x ∈ new, t.dfn v < t.dfn x) ∧ ∀ y ∈ s.stack, t.dfn y < t.dfn v := by
  obtain ⟨new, hstack, hfresh⟩ := h.stack
  have hsorted := h.inv.sorted
  rw [hstack, pairwise_append] at hsorted
  obtain ⟨-, hbelow, hbetween⟩ := hsorted
  refine ⟨new, hstack, hfresh, fun hmem => ?_, fun x hx => hbetween x hx v mem_cons_self,
    (pairwise_cons.mp hbelow).1⟩
  exact absurd (hbetween v hmem v mem_cons_self) (lt_irrefl _)

omit [DecidableEq V] in
theorem Core.closed {passed : List V} (h : Core adj grey v passed s t)
    (hall : ∀ j ∈ adj v, j ∈ passed) {w : V} (hw : t.visited w = true) (hgrey : w ∉ grey) :
    ∀ x ∈ adj w, t.visited x = true := by
  by_cases hwv : w = v
  · intro x hx
    exact h.seen x (hall x (hwv ▸ hx))
  · exact h.inv.closed w hw fun hmem => (mem_cons.mp hmem).elim hwv hgrey

omit [DecidableEq V] in
/-- `v` found something before it: it stays on the stack. -/
theorem Mid.stay (h : Mid adj grey v passed s t)
    (hall : ∀ j ∈ adj v, j ∈ passed) (hlink : t.link v ≠ t.dfn v) : Post adj grey v s t := by
  obtain ⟨new, hstack, hfresh, -, hnew, hold⟩ := h.toCore.stack_split
  have hv : v ∈ t.stack := h.inv.greys v mem_cons_self
  obtain ⟨y, hy, hyeq, hreach⟩ := h.link
  have hylt : t.dfn y < t.dfn v := by
    have := h.link_le
    omega
  refine ⟨⟨h.inv.inStack, h.inv.visited, h.inv.dfn_lt, h.inv.sorted,
    fun w hw => h.inv.greys w (mem_cons_of_mem _ hw), fun w hw hgrey => h.closed hall hw hgrey,
    h.inv.done, h.inv.forward, fun z hz => ?_, h.inv.comps, h.inv.nodup, h.inv.sccId, h.inv.same,
    h.inv.order⟩, h.frame, h.inv.visited v hv, h.found, ⟨new ++ [v], ?_, fun w hw => ?_⟩, h.dfn,
    .inr ⟨y, hy, hyeq, hreach⟩, fun x hx hxs z hz hadj => ?_⟩
  · obtain ⟨g, hg, hle, hzg⟩ := h.inv.back z hz
    rcases mem_cons.mp hg with rfl | hg
    · -- from `v` on to what it found, and from there to an open vertex
      obtain ⟨g', hg', hle', hyg⟩ := h.inv.back y hy
      rcases mem_cons.mp hg' with rfl | hg'
      · omega
      · exact ⟨g', hg', by omega, (hzg.trans hreach).trans hyg⟩
    · exact ⟨g, hg, hle, hzg⟩
  · rw [hstack, append_assoc, singleton_append]
  · rcases mem_append.mp hw with hw | hw
    · exact hfresh w hw
    · rw [List.mem_singleton.mp hw]
      exact h.new
  · exact h.bound x hx hxs z hz hadj fun hxv => hall z (hxv ▸ hadj)

/-- What has been found from `v` and is still on the stack is its component. -/
theorem Mid.component (h : Mid adj grey v passed s t) (hs : Inv adj grey s)
    (hall : ∀ j ∈ adj v, j ∈ passed) (hlink : t.link v = t.dfn v) :
    ∃ c, t.stack = c ++ s.stack ∧ popTo v t.stack = some (c, s.stack) ∧ c.Nodup ∧ v ∈ c ∧
      (∀ x ∈ c, s.visited x = false ∧ Reach adj v x ∧ Reach adj x v) ∧
      ∀ x ∈ c, ∀ y ∈ adj x, y ∈ c ∨ Done t y := by
  obtain ⟨new, hstack, hfresh, hvnew, hnew, hold⟩ := h.toCore.stack_split
  have hv : v ∈ t.stack := h.inv.greys v mem_cons_self
  have hsplit : t.stack = (new ++ [v]) ++ s.stack := by
    rw [hstack, append_assoc, singleton_append]
  have hmem : ∀ x ∈ new ++ [v], x ∈ t.stack ∧ t.dfn v ≤ t.dfn x ∧ s.visited x = false := by
    intro x hx
    refine ⟨hsplit ▸ mem_append_left _ hx, ?_⟩
    rcases mem_append.mp hx with hx | hx
    · exact ⟨(hnew x hx).le, hfresh x hx⟩
    · rw [List.mem_singleton.mp hx]
      exact ⟨Nat.le_refl _, h.new⟩
  have hnd : t.stack.Nodup := h.inv.sorted.imp fun hlt heq => by
    rw [heq] at hlt
    exact lt_irrefl _ hlt
  refine ⟨new ++ [v], hsplit, hstack ▸ popTo_append hvnew, ?_, by simp, fun x hx => ?_,
    fun x hx y hadj => ?_⟩
  · rw [hsplit] at hnd
    exact (nodup_append.mp hnd).1
  · obtain ⟨hxstack, hle, hxs⟩ := hmem x hx
    refine ⟨hxs, h.inv.forward v hv x hxstack hle, ?_⟩
    obtain ⟨g, hg, -, hxg⟩ := h.inv.back x hxstack
    rcases mem_cons.mp hg with rfl | hg'
    · exact hxg
    · refine hxg.trans (h.inv.forward g (h.inv.greys g hg) v hv ?_)
      exact (hold g (hs.greys g hg')).le
  · obtain ⟨hxstack, -, hxs⟩ := hmem x hx
    have hxgrey : x ∉ grey := fun hin => by
      rw [hs.visited x (hs.greys x hin)] at hxs
      cases hxs
    have hyvisited := h.closed hall (h.inv.visited x hxstack) hxgrey y hadj
    by_cases hy : y ∈ t.stack
    · rw [hsplit] at hy
      refine .inl ((mem_append.mp hy).resolve_right fun hys => ?_)
      have h1 := h.bound x hxstack hxs y hys hadj fun hxv => hall y (hxv ▸ hadj)
      have h2 := hold y hys
      omega
    · exact .inr ⟨hyvisited, hy⟩

/-- `v` found nothing before it: its component is complete. -/
theorem Mid.pop (h : Mid adj grey v passed s t) (hs : Inv adj grey s)
    (hall : ∀ j ∈ adj v, j ∈ passed) (hlink : t.link v = t.dfn v) :
    ∃ t', finish v t = some t' ∧ Post adj grey v s t' := by
  obtain ⟨c, hstack, hpop, hnd, hvc, hcomp, hout⟩ := h.component hs hall hlink
  obtain ⟨t', hfin⟩ : ∃ t', t' = complete c s.stack t := ⟨_, rfl⟩
  have hfinish : finish v t = some t' := by
    unfold finish
    rw [if_pos hlink, hpop, Option.map_some, hfin]
  unfold complete at hfin
  have hvisited : t'.visited = t.visited := by rw [hfin]
  have hdfn : t'.dfn = t.dfn := by rw [hfin]
  have hstack' : t'.stack = s.stack := by rw [hfin]
  have hid : ∀ w, t'.sccId w = if w ∈ c then t.comps.length else t.sccId w := fun w => by rw [hfin]
  have hcomps : t'.comps = t.comps ++ [c] := by rw [hfin]
  have hmem : ∀ w, w ∈ t.stack ↔ w ∈ c ∨ w ∈ s.stack := fun w => by rw [hstack, mem_append]
  -- the stack was without repetition, so the component and the rest are apart
  have hnotc : ∀ w ∈ s.stack, w ∉ c := by
    intro w hw hwc
    have := (hcomp w hwc).1
    rw [hs.visited w hw] at this
    cases this
  -- done: popped before, or popped now
  have hdone : ∀ w, Done t' w ↔ Done t w ∨ w ∈ c := by
    intro w
    unfold Done
    rw [hvisited, hstack', hmem]
    constructor
    · rintro ⟨hw, hws⟩
      by_cases hwc : w ∈ c
      · exact .inr hwc
      · exact .inl ⟨hw, fun hor => hor.elim hwc hws⟩
    · rintro (⟨hw, hnot⟩ | hwc)
      · exact ⟨hw, fun hws => hnot (.inr hws)⟩
      · exact ⟨h.inv.visited w ((hmem w).mpr (.inl hwc)), fun hws => hnotc w hws hwc⟩
  have hdonec : ∀ w, Done t w → w ∉ c := fun w hw hwc => hw.2 ((hmem w).mpr (.inl hwc))
  have hidlt : ∀ w, Done t w → t'.sccId w = t.sccId w ∧ t.sccId w < t.comps.length := fun w hw =>
    ⟨by rw [hid, if_neg (hdonec w hw)], (h.inv.sccId_lt hw).1⟩
  have hidc : ∀ w ∈ c, t'.sccId w = t.comps.length := fun w hw => by rw [hid, if_pos hw]
  have hinv : Inv adj grey t' := by
    refine ⟨fun w => ?_, fun w hw => ?_, fun w hw => ?_, ?_, fun w hw => ?_,
      fun w hw hgrey x hx => ?_, fun w hw x hx => ?_, fun x hx y hy hle => ?_, fun y hy => ?_,
      fun w => ?_, ?_, fun i d hd => ?_, fun w x hw hx => ?_, fun w hw x hx => ?_⟩
    · -- the component has left the stack
      rw [hstack', show t'.inStack w = if w ∈ c then false else t.inStack w by rw [hfin]]
      split
      · rename_i hwc
        exact iff_of_false Bool.false_ne_true fun hws => hnotc w hws hwc
      · rename_i hwc
        rw [h.inv.inStack, hmem]
        exact or_iff_right hwc
    · rw [hvisited]
      exact h.inv.visited w (h.mem_stack (hstack' ▸ hw))
    · rw [hdfn, show t'.dfCount = t.dfCount by rw [hfin]]
      exact h.inv.dfn_lt w (hvisited ▸ hw)
    · have hsorted := h.inv.sorted
      rw [hstack, pairwise_append] at hsorted
      rw [hstack', hdfn]
      exact hsorted.2.1
    · rw [hstack']
      exact hs.greys w hw
    · rw [hvisited] at hw ⊢
      exact h.closed hall hw hgrey x hx
    · -- a done vertex, old or new, has done successors only
      rw [hdone]
      rcases (hdone w).mp hw with hw | hw
      · exact .inl (h.inv.done w hw x hx)
      · exact (hout w hw x hx).symm
    · rw [hdfn] at hle
      rw [hstack'] at hx hy
      exact h.inv.forward x (h.mem_stack hx) y (h.mem_stack hy) hle
    · rw [hstack'] at hy
      obtain ⟨-, -, -, -, -, hold⟩ := h.toCore.stack_split
      obtain ⟨g, hg, hle, hyg⟩ := h.inv.back y (h.mem_stack hy)
      rw [hdfn]
      rcases mem_cons.mp hg with rfl | hg
      · have := hold y hy
        omega
      · exact ⟨g, hg, hle, hyg⟩
    · rw [hcomps, hdone, flatten_append, mem_append, h.inv.comps]
      simp
    · rw [hcomps, flatten_append, nodup_append']
      refine ⟨h.inv.nodup, by simpa using hnd, fun w hw hwc => ?_⟩
      exact hdonec w ((h.inv.comps w).mp hw) (by simpa using hwc)
    · rw [hcomps] at hd
      rcases Nat.lt_trichotomy i t.comps.length with hi | rfl | hi
      · rw [getElem?_append_left hi] at hd
        obtain ⟨hne, hids⟩ := h.inv.sccId i d hd
        refine ⟨hne, fun w hw => ?_⟩
        have hwdone : Done t w :=
          (h.inv.comps w).mp (mem_flatten.mpr ⟨d, mem_of_getElem? hd, hw⟩)
        rw [(hidlt w hwdone).1, hids w hw]
      · rw [getElem?_append_right (Nat.le_refl _), Nat.sub_self] at hd
        obtain rfl : c = d := Option.some.inj hd
        exact ⟨ne_nil_of_mem hvc, hidc⟩
      · rw [getElem?_eq_none (by simp; omega)] at hd
        cases hd
    · -- equal numbers inside one component, different ones across
      rcases (hdone w).mp hw with hw | hw
      · rcases (hdone x).mp hx with hx | hx
        · rw [(hidlt w hw).1, (hidlt x hx).1]
          exact h.inv.same w x hw hx
        · rw [(hidlt w hw).1, hidc x hx]
          have := (hidlt w hw).2
          exact iff_of_false (by omega) fun hand => hdonec x (h.inv.done_reach hw hand.1) hx
      · rcases (hdone x).mp hx with hx | hx
        · rw [(hidlt x hx).1, hidc w hw]
          have := (hidlt x hx).2
          exact iff_of_false (by omega) fun hand => hdonec w (h.inv.done_reach hx hand.2) hw
        · rw [hidc w hw, hidc x hx]
          obtain ⟨-, hvw, hwv⟩ := hcomp w hw
          obtain ⟨-, hvx, hxv⟩ := hcomp x hx
          exact iff_of_true rfl ⟨hwv.trans hvx, hxv.trans hvw⟩
    · -- an arc out of the new component leads to an older one
      rcases (hdone w).mp hw with hw | hw
      · rw [(hidlt w hw).1, (hidlt x (h.inv.done w hw x hx)).1]
        exact h.inv.order w hw x hx
      · rw [hidc w hw]
        rcases hout w hw x hx with hxc | hxd
        · rw [hidc x hxc]
        · rw [(hidlt x hxd).1]
          exact (hidlt x hxd).2.le
  refine ⟨t', hfinish, hinv, ⟨fun w hw => ?_, fun w hw => ?_, fun w hw => ?_⟩, ?_,
    fun w hw => h.found w (hvisited ▸ hw), ⟨[], hstack', fun w hw => by cases hw⟩, ?_, .inl ?_,
    fun x hx hxs => ?_⟩
  · rw [hvisited]
    exact h.frame.visited w hw
  · rw [hdfn]
    exact h.frame.dfn w hw
  · rw [show t'.link = t.link by rw [hfin]]
    exact h.frame.link w hw
  · rw [hvisited]
    exact h.inv.visited v (h.inv.greys v mem_cons_self)
  · rw [hdfn]
    exact h.dfn
  · rw [show t'.link = t.link by rw [hfin], hdfn]
    exact hlink
  · rw [hs.visited x (hstack' ▸ hx)] at hxs
    cases hxs

theorem Mid.finish {passed : List V} (h : Mid adj grey v passed s t) (hs : Inv adj grey s)
    (hall : ∀ j ∈ adj v, j ∈ passed) : ∃ t', Tarjan.finish v t = some t' ∧ Post adj grey v s t':= by
  by_cases hlink : t.link v = t.dfn v
  · exact h.pop hs hall hlink
  · unfold Tarjan.finish
    rw [if_neg hlink]
    exact ⟨t, rfl, h.stay hall hlink⟩

/-! ## The search -/

/-- What is left to be visited. -/
def unseen (U : Finset V) (s : State V) : Finset V := U.filter fun v => s.visited v = false

omit [DecidableEq V] in
theorem unseen_mono {U : Finset V} (h : Frame s t) : unseen U t ⊆ unseen U s := by
  intro x hx
  obtain ⟨hxU, hxt⟩ := mem_filter.mp hx
  refine mem_filter.mpr ⟨hxU, ?_⟩
  by_contra hne
  rw [h.visited x (by simpa using hne)] at hxt
  cases hxt

/-- The loop over the successors, by induction on those left; the calls are assumed right. -/
theorem scan_spec {call : V → State V → Option (State V)} {U : Finset V} {n : Nat}
    (hs : Inv adj grey s) (hcall : ∀ j ∈ U, ∀ t, Inv adj (v :: grey) t → t.visited j = false →
      (∀ g ∈ v :: grey, Reach adj g j) → (unseen U t).card ≤ n →
        ∃ t', call j t = some t' ∧ Post adj (v :: grey) j t t') :
    ∀ (js passed : List V) (t : State V), (∀ j ∈ js, j ∈ adj v ∧ j ∈ U) →
      Mid adj grey v passed s t → (unseen U t).card ≤ n →
        ∃ t', scan call v js t = some t' ∧ Mid adj grey v (passed ++ js) s t' := by
  intro js
  induction js with
  | nil =>
    intro passed t _ h _
    exact ⟨t, rfl, by rwa [append_nil]⟩
  | cons j js ih =>
    intro passed t hjs h hn
    have hrest := fun i hi => hjs i (mem_cons_of_mem j hi)
    obtain ⟨hadj, hjU⟩ := hjs j mem_cons_self
    have hassoc : passed ++ j :: js = passed ++ [j] ++ js := by rw [append_assoc]; rfl
    rw [hassoc]
    have hcard : ∀ b, (unseen U (relax v b t)).card = (unseen U t).card := by
      intro b
      unfold unseen
      rw [(relax_fields b).1]
    unfold scan
    cases hj : t.visited j with
    | false =>
      have hreach : ∀ g ∈ v :: grey, Reach adj g j := by
        intro g hg
        rcases mem_cons.mp hg with rfl | hg
        · exact (Reaches.refl g).snoc hadj
        · exact (h.reach g hg).snoc hadj
      obtain ⟨t', ht', hpost⟩ := hcall j hjU t h.inv hj hreach hn
      simp only [Bool.not_false, if_true, ht']
      refine ih _ _ hrest (h.passCall hadj hj hpost) ?_
      have hle := card_le_card (unseen_mono (U := U) hpost.frame)
      unfold unseen at hle hn ⊢
      rw [(relax_fields _).1]
      omega
    | true =>
      simp only [Bool.not_true, Bool.false_eq_true, if_false, Bool.and_eq_true, decide_eq_true_eq]
      split
      · rename_i hlt
        exact ih _ _ hrest (h.passStack hadj hj hlt.2) (by rw [hcard]; exact hn)
      · rename_i hnot
        exact ih _ _ hrest (h.passBack hs hj hnot) hn

section

variable {U : Finset V} (hU : ∀ w ∈ U, ∀ x ∈ adj w, x ∈ U) {fuel : Nat}
include hU

theorem visit_spec :
    ∀ {grey : List V} {v : V} {s : State V}, v ∈ U → Inv adj grey s → s.visited v = false →
      (∀ g ∈ grey, Reach adj g v) → (unseen U s).card ≤ fuel →
        ∃ t, visit adj fuel v s = some t ∧ Post adj grey v s t := by
  induction fuel with
  | zero =>
    intro grey v s hv _ hnew _ hn
    have hmem : v ∈ unseen U s := mem_filter.mpr ⟨hv, hnew⟩
    rw [card_eq_zero.mp (Nat.le_zero.mp hn)] at hmem
    cases hmem
  | succ fuel ih =>
    intro grey v s hv hs hnew hreach hn
    have hmid := hs.mid hnew hreach
    have hless : (unseen U (enter v s)).card < (unseen U s).card := by
      refine card_lt_card ((ssubset_iff_of_subset (unseen_mono hmid.frame)).mpr
        ⟨v, mem_filter.mpr ⟨hv, hnew⟩, fun hmem => ?_⟩)
      have hvisited := hmid.inv.visited v (hmid.inv.greys v mem_cons_self)
      rw [(mem_filter.mp hmem).2] at hvisited
      cases hvisited
    obtain ⟨t, ht, hmid'⟩ := scan_spec hs
      (fun j hj t ht hjnew hgreys hn' => ih hj ht hjnew hgreys hn') (adj v) [] (enter v s)
      (fun j hj => ⟨hj, hU v hv j hj⟩) hmid (by omega)
    rw [nil_append] at hmid'
    obtain ⟨t', ht', hpost⟩ := hmid'.finish hs fun j hj => hj
    refine ⟨t', ?_, hpost⟩
    unfold visit
    rw [ht, Option.bind_some, ht']

/-- The search from every root returns, and what it has seen is closed. -/
theorem visitAll_spec :
    ∀ (roots : List V) (s : State V), (∀ r ∈ roots, r ∈ U) → Inv adj [] s → U.card ≤ fuel →
      ∃ t, visitAll adj fuel roots s = some t ∧ Inv adj [] t ∧
        (∀ w, s.visited w = true → t.visited w = true) ∧ (∀ r ∈ roots, t.visited r = true) ∧
        ∀ w, t.visited w = true → s.visited w = true ∨ ∃ r ∈ roots, Reach adj r w := by
  intro roots
  induction roots with
  | nil => exact fun s _ h _ => ⟨s, rfl, h, fun _ hw => hw, fun r hr => (by cases hr), fun _ hw => .inl hw⟩
  | cons r roots ih =>
    intro s hroots h hn
    have hrest := fun x hx => hroots x (mem_cons_of_mem r hx)
    unfold visitAll
    cases hr : s.visited r with
    | false =>
      obtain ⟨t, ht, hpost⟩ := visit_spec hU (hroots r mem_cons_self) h hr
        (fun g hg => by cases hg) ((card_filter_le _ _).trans hn)
      obtain ⟨t', ht', hinv, hmono, hall, hfound⟩ := ih t hrest hpost.inv hn
      simp only [Bool.not_false, if_true, ht]
      refine ⟨t', ht', hinv, fun w hw => hmono w (hpost.frame.visited w hw), fun x hx => ?_,
        fun w hw => ?_⟩
      · rcases mem_cons.mp hx with rfl | hx
        · exact hmono x hpost.visited
        · exact hall x hx
      · rcases hfound w hw with hw | ⟨x, hx, hxw⟩
        · exact (hpost.found w hw).imp id fun hrw => ⟨r, mem_cons_self, hrw⟩
        · exact .inr ⟨x, mem_cons_of_mem _ hx, hxw⟩
    | true =>
      simp only [Bool.not_true, Bool.false_eq_true, if_false]
      obtain ⟨t', ht', hinv, hmono, hall, hfound⟩ := ih s hrest h hn
      refine ⟨t', ht', hinv, hmono, fun x hx => ?_, fun w hw => ?_⟩
      · rcases mem_cons.mp hx with rfl | hx
        · exact hmono x hr
        · exact hall x hx
      · exact (hfound w hw).imp id fun ⟨x, hx, hxw⟩ => ⟨x, mem_cons_of_mem _ hx, hxw⟩

end

omit [DecidableEq V] in
theorem inv_start {s : State V} (hvisited : ∀ w, s.visited w = false)
    (hinStack : ∀ w, s.inStack w = false) (hstack : s.stack = []) (hcomps : s.comps = []) :
    Inv adj [] s := by
  have hdone : ∀ w, ¬ Done s w := by
    rintro w ⟨hw, -⟩
    rw [hvisited] at hw
    cases hw
  have hnone : ∀ w, s.visited w ≠ true := fun w => by rw [hvisited]; exact Bool.false_ne_true
  refine ⟨fun w => ?_, fun w hw => ?_, fun w hw => absurd hw (hnone w), ?_, fun w hw => (by cases hw),
    fun w hw => absurd hw (hnone w), fun w hw => absurd hw (hdone w), fun x hx => ?_, fun y hy => ?_,
    fun w => ?_, ?_, fun i c hc => ?_, fun w x hw => absurd hw (hdone w),
    fun w hw => absurd hw (hdone w)⟩
  · rw [hinStack, hstack]
    simp
  · rw [hstack] at hw
    cases hw
  · rw [hstack]
    exact List.Pairwise.nil
  · rw [hstack] at hx
    cases hx
  · rw [hstack] at hy
    cases hy
  · rw [hcomps]
    exact iff_of_false not_mem_nil (hdone w)
  · rw [hcomps]
    exact nodup_nil
  · rw [hcomps] at hc
    cases hc

omit [DecidableEq V] in
theorem Inv.stack_nil (h : Inv adj [] s) : s.stack = [] := by
  refine eq_nil_iff_forall_not_mem.mpr fun x hx => ?_
  obtain ⟨g, hg, -⟩ := h.back x hx
  cases hg

end Search

end Tarjan
