import Path64.Lno.Scc

/-! # Strongly connected components of a loop body

The dependence arcs between the ops of a loop body fall into components,
each a vector of its members. The algorithm is that of the dependence
graphs, over another stack and with other marks. -/

namespace Cg

open List Function Paths Tarjan

/-! ## Model -/

/-- What the search reads of an `ARC`. -/
structure DepArc (Op : Type) where
  succ : Op
  isMem : Bool
  isDefinite : Bool

structure SccOp where
  dfsNumber : Nat
  lowLink : Nat
  stacked : Bool

/-- `CG_LOOP_SCC`: what `Make_Component` sets. -/
structure CgLoopScc (Op : Type) where
  id : Nat
  memberCount : Nat
  members : List Op

/-- The variables of the search; `stack` starts with the last op. -/
structure SccSearch (Op : Type) where
  sccOpMap : Op → Option SccOp
  stack : List Op
  dfsCount : Nat
  sccVec : List (CgLoopScc Op)
  opScc : Op → Nat
  opSccIndex : Op → Nat
  maxMemberCount : Nat

section Model

variable {Op : Type} [DecidableEq Op]

namespace SccSearch

def opVisited (st : SccSearch Op) (op : Op) : Bool := (st.sccOpMap op).isSome
def opDfsNumber (st : SccSearch Op) (op : Op) : Nat := ((st.sccOpMap op).map SccOp.dfsNumber).getD 0
def opLowLink (st : SccSearch Op) (op : Op) : Nat := ((st.sccOpMap op).map SccOp.lowLink).getD 0
def opStacked (st : SccSearch Op) (op : Op) : Bool := ((st.sccOpMap op).map SccOp.stacked).getD false

def setOpLowLink (op : Op) (v : Nat) (st : SccSearch Op) : SccSearch Op :=
  { st with
    sccOpMap := update st.sccOpMap op
      ((st.sccOpMap op).map fun e => { e with lowLink := v }) }

def resetOpStacked (op : Op) (st : SccSearch Op) : SccSearch Op :=
  { st with
    sccOpMap := update st.sccOpMap op
      ((st.sccOpMap op).map fun e => { e with stacked := false }) }

/-- The loop of `Make_Component` that counts the elements of a component. -/
def countElements (op : Op) : List Op → Option Nat
  | [] => none
  | sop :: rest => if sop = op then some 1 else (countElements op rest).map (· + 1)

/-- The loop of `Make_Component` over the members, from the `i`-th on. -/
def setMembers (id : Nat) : List Op → Nat → SccSearch Op → SccSearch Op
  | [], _, st => st
  | sop :: rest, i, st =>
    let st := st.resetOpStacked sop
    setMembers id rest (i + 1)
      { st with
        opScc := update st.opScc sop id
        opSccIndex := update st.opSccIndex sop i }

def makeComponent (op : Op) (st : SccSearch Op) : Option (SccSearch Op) :=
  (countElements op st.stack).map fun n =>
    let id := st.sccVec.length
    let members := (st.stack.take n).reverse
    let st := setMembers id members 0 st
    { st with
      sccVec := st.sccVec ++ [⟨id, n, members⟩]
      maxMemberCount := if st.maxMemberCount < n then n else st.maxMemberCount
      stack := st.stack.drop n }

/-- The loop of `Visit` over the arcs of an op. -/
def visitSuccs (ignore : Bool) (call : Op → SccSearch Op → Option (SccSearch Op)) (op : Op) :
    List (DepArc Op) → SccSearch Op → Option (SccSearch Op)
  | [], st => some st
  | arc :: arcs, st =>
    let succ := arc.succ
    if !ignore || !arc.isMem || arc.isDefinite then
      if !st.opVisited succ then
        (call succ st).bind fun st =>
          visitSuccs ignore call op arcs
            (st.setOpLowLink op (min (st.opLowLink op) (st.opLowLink succ)))
      else if st.opDfsNumber succ < st.opDfsNumber op && st.opStacked succ then
        visitSuccs ignore call op arcs
          (st.setOpLowLink op (min (st.opLowLink op) (st.opDfsNumber succ)))
      else visitSuccs ignore call op arcs st
    else visitSuccs ignore call op arcs st

def visit (succs : Op → List (DepArc Op)) (ignore : Bool) :
    Nat → Op → SccSearch Op → Option (SccSearch Op)
  | 0, _, _ => none
  | fuel + 1, op, st =>
    let st :=
      { st with
        sccOpMap := update st.sccOpMap op (some ⟨st.dfsCount, st.dfsCount, true⟩)
        dfsCount := st.dfsCount + 1
        stack := op :: st.stack }
    (visitSuccs ignore (visit succs ignore fuel) op (succs op) st).bind fun st =>
      if st.opLowLink op = st.opDfsNumber op then st.makeComponent op else some st

/-- The loop over the ops of the body. -/
def visitOps (succs : Op → List (DepArc Op)) (ignore : Bool) (fuel : Nat) :
    List Op → SccSearch Op → Option (SccSearch Op)
  | [], st => some st
  | op :: ops, st =>
    if !st.opVisited op then (visit succs ignore fuel op st).bind (visitOps succs ignore fuel ops)
    else visitOps succs ignore fuel ops st

end SccSearch

/-- `opScc` and `opSccIndex` are what was set before. -/
def makeStronglyConnectedComponents (succs : Op → List (DepArc Op)) (ignore : Bool) (ops : List Op)
    (opScc opSccIndex : Op → Nat) : Option (SccSearch Op) :=
  SccSearch.visitOps succs ignore ops.length ops
    { sccOpMap := fun _ => none, stack := [], dfsCount := 0, sccVec := [], opScc := opScc,
      opSccIndex := opSccIndex, maxMemberCount := 0 }

/-- The arcs that are not ignored. -/
def Follows (succs : Op → List (DepArc Op)) (ignore : Bool) (op op' : Op) : Prop :=
  ∃ arc ∈ succs op, arc.succ = op' ∧ (ignore = true → arc.isMem = true → arc.isDefinite = true)

end Model

/-! ## The search -/

section Search

variable {Op : Type} [DecidableEq Op] {succs : Op → List (DepArc Op)} {ignore : Bool}
  {s s' : State Op} {st st' : SccSearch Op}

/-- The arcs that `Visit` looks at. -/
def heeded (ignore : Bool) (arc : DepArc Op) : Bool := !ignore || !arc.isMem || arc.isDefinite

def heededSuccs (succs : Op → List (DepArc Op)) (ignore : Bool) (op : Op) : List Op :=
  ((succs op).filter (heeded ignore)).map DepArc.succ

/-- The state of the search, and that of the source. -/
structure LoopSim (s : State Op) (st : SccSearch Op) : Prop where
  visited : ∀ op, (st.sccOpMap op).isSome = s.visited op
  fields : ∀ op e, st.sccOpMap op = some e →
    e.dfsNumber = s.dfn op ∧ e.lowLink = s.link op ∧ e.stacked = s.inStack op
  stack : st.stack = s.stack
  dfsCount : st.dfsCount = s.dfCount
  members : st.sccVec.map CgLoopScc.members = s.comps.map reverse
  ids : ∀ (i : Nat) (c : CgLoopScc Op), st.sccVec[i]? = some c → c.id = i ∧ c.memberCount = c.members.length
  sccId : ∀ op ∈ s.comps.flatten, st.opScc op = s.sccId op

omit [DecidableEq Op] in
theorem LoopSim.exists_entry (h : LoopSim s st) {op : Op} (hop : s.visited op = true) :
    ∃ e, st.sccOpMap op = some e ∧ e.dfsNumber = s.dfn op ∧ e.lowLink = s.link op ∧
      e.stacked = s.inStack op := by
  rw [← h.visited, Option.isSome_iff_exists] at hop
  obtain ⟨e, he⟩ := hop
  exact ⟨e, he, h.fields op e he⟩

omit [DecidableEq Op] in
theorem LoopSim.accessors (h : LoopSim s st) {op : Op} (hop : s.visited op = true) :
    st.opDfsNumber op = s.dfn op ∧ st.opLowLink op = s.link op ∧ st.opStacked op = s.inStack op := by
  obtain ⟨e, he, h1, h2, h3⟩ := h.exists_entry hop
  unfold SccSearch.opDfsNumber SccSearch.opLowLink SccSearch.opStacked
  rw [he]
  exact ⟨h1, h2, h3⟩

theorem LoopSim.enter (h : LoopSim s st) (op : Op) : LoopSim (Tarjan.enter op s)
      { st with
        sccOpMap := update st.sccOpMap op (some ⟨st.dfsCount, st.dfsCount, true⟩)
        dfsCount := st.dfsCount + 1
        stack := op :: st.stack } := by
  refine ⟨fun w => ?_, fun w e he => ?_, ?_, ?_, h.members, h.ids, h.sccId⟩
  · by_cases hw : w = op
    · subst hw
      simp [Tarjan.enter]
    · simp [Tarjan.enter, hw, h.visited]
  · by_cases hw : w = op
    · subst hw
      simp only [update_self] at he
      obtain rfl := Option.some.inj he
      simp [Tarjan.enter, h.dfsCount]
    · simp only [update_of_ne hw] at he
      simpa [Tarjan.enter, hw] using h.fields w e he
  · simp [Tarjan.enter, h.stack]
  · simp [Tarjan.enter, h.dfsCount]

theorem LoopSim.relax (h : LoopSim s st) {op : Op} (hop : s.visited op = true) (bound : Nat) :
    LoopSim (Tarjan.relax op bound s) (st.setOpLowLink op (min (st.opLowLink op) bound)) := by
  obtain ⟨hvisited, hdfn, hstack, hlinks⟩ := relax_fields (v := op) (s := s) bound
  have hlink := relax_link (v := op) (s := s) bound
  have hrest : (Tarjan.relax op bound s).inStack = s.inStack ∧
      (Tarjan.relax op bound s).dfCount = s.dfCount ∧ (Tarjan.relax op bound s).comps = s.comps ∧
      (Tarjan.relax op bound s).sccId = s.sccId := by
    unfold Tarjan.relax
    split <;> exact ⟨rfl, rfl, rfl, rfl⟩
  obtain ⟨hinStack, hdfCount, hcomps, hsccId⟩ := hrest
  refine ⟨fun w => ?_, fun w e he => ?_, h.stack.trans hstack.symm, h.dfsCount.trans hdfCount.symm,
    by rw [hcomps]; exact h.members, h.ids, by rw [hcomps, hsccId]; exact h.sccId⟩
  · rw [hvisited, ← h.visited]
    unfold SccSearch.setOpLowLink
    by_cases hw : w = op
    · subst hw
      simp
    · simp [hw]
  · unfold SccSearch.setOpLowLink at he
    by_cases hw : w = op
    · subst hw
      simp only [update_self] at he
      obtain ⟨e', he', rfl⟩ := Option.map_eq_some_iff.mp he
      obtain ⟨h1, h2, h3⟩ := h.fields w e' he'
      rw [hdfn, hlink, hinStack, (h.accessors hop).2.1]
      exact ⟨h1, Nat.min_comm _ _, h3⟩
    · simp only [update_of_ne hw] at he
      rw [hdfn, hlinks w hw, hinStack]
      exact h.fields w e he

theorem countElements_eq {op : Op} {c rest : List Op} :
    ∀ {stack : List Op}, popTo op stack = some (c, rest) →
      SccSearch.countElements op stack = some c.length ∧ stack.take c.length = c ∧
        stack.drop c.length = rest := by
  intro stack
  induction stack generalizing c rest with
  | nil =>
    intro h
    cases h
  | cons j stack ih =>
    intro h
    unfold popTo at h
    unfold SccSearch.countElements
    split at h
    · rename_i hj
      obtain ⟨rfl, rfl⟩ := Prod.mk.inj (Option.some.inj h)
      rw [if_pos hj]
      exact ⟨rfl, rfl, rfl⟩
    · rename_i hj
      obtain ⟨p, hp, heq⟩ := Option.map_eq_some_iff.mp h
      obtain ⟨rfl, rfl⟩ := Prod.mk.inj heq
      rw [if_neg hj]
      obtain ⟨hcount, htake, hdrop⟩ := ih hp
      rw [hcount]
      exact ⟨rfl, by rw [length_cons, take_succ_cons, htake], hdrop⟩

theorem setMembers_spec (id : Nat) (l : List Op) (i : Nat) (st : SccSearch Op) :
    (∀ op, (st.setMembers id l i).sccOpMap op =
      if op ∈ l then (st.sccOpMap op).map fun e => { e with stacked := false } else st.sccOpMap op) ∧
    (∀ op, (st.setMembers id l i).opScc op = if op ∈ l then id else st.opScc op) ∧
    (st.setMembers id l i).sccVec = st.sccVec ∧ (st.setMembers id l i).stack = st.stack ∧
    (st.setMembers id l i).dfsCount = st.dfsCount := by
  induction l generalizing i st with
  | nil => simp [SccSearch.setMembers]
  | cons a l ih =>
    unfold SccSearch.setMembers
    obtain ⟨h1, h2, h3, h4, h5⟩ := ih (i + 1)
      { st.resetOpStacked a with
        opScc := update (st.resetOpStacked a).opScc a id
        opSccIndex := update (st.resetOpStacked a).opSccIndex a i }
    refine ⟨fun op => (h1 op).trans ?_, fun op => (h2 op).trans ?_, h3, h4, h5⟩
    · unfold SccSearch.resetOpStacked
      by_cases hop : op = a
      · subst hop
        simp only [update_self, mem_cons_self, if_true]
        split
        · rw [Option.map_map]
          rfl
        · rfl
      · simp only [update_of_ne hop, mem_cons, hop, false_or]
    · by_cases hop : op = a
      · subst hop
        simp
      · simp [hop, SccSearch.resetOpStacked]

/-- Leaving a vertex: where its link is its own number, the search of the source pops the component
that the abstract one does. -/
theorem LoopSim.finish (h : LoopSim s st) {op : Op} (hop : s.visited op = true)
    (hs : Tarjan.finish op s = some s') :
    ∃ st', (if st.opLowLink op = st.opDfsNumber op then st.makeComponent op else some st) = some st' ∧
      LoopSim s' st' ∧ ∀ w, s.visited w = true → s'.visited w = true := by
  obtain ⟨hdfn, hlink, -⟩ := h.accessors hop
  unfold Tarjan.finish at hs
  rw [hdfn, hlink]
  split at hs
  · rename_i hroot
    rw [if_pos hroot]
    obtain ⟨⟨c, rest⟩, hpop, rfl⟩ := Option.map_eq_some_iff.mp hs
    obtain ⟨hcount, htake, hdrop⟩ := countElements_eq hpop
    obtain ⟨h1, h2, h3, h4, h5⟩ := setMembers_spec st.sccVec.length c.reverse 0 st
    unfold SccSearch.makeComponent
    rw [h.stack, hcount, Option.map_some]
    simp only [htake]
    refine ⟨_, rfl, ⟨fun w => ?_, fun w e he => ?_, ?_, ?_, ?_, fun i d hd => ?_, fun w hw => ?_⟩,
      fun w hw => hw⟩
    · simp only [h1, complete]
      split
      · rw [Option.isSome_map, h.visited]
      · exact h.visited w
    · simp only [h1] at he
      simp only [complete]
      split at he
      · rename_i hw
        obtain ⟨e', he', rfl⟩ := Option.map_eq_some_iff.mp he
        obtain ⟨hd, hl, -⟩ := h.fields w e' he'
        rw [if_pos (mem_reverse.mp hw)]
        exact ⟨hd, hl, rfl⟩
      · rename_i hw
        rw [if_neg fun hin => hw (mem_reverse.mpr hin)]
        exact h.fields w e he
    · simp only [complete, h4, h.stack, hdrop]
    · simp only [complete, h5]
      exact h.dfsCount
    · simp only [complete, h3, map_append, h.members, map_cons, map_nil]
    · simp only [h3] at hd
      rcases Nat.lt_trichotomy i st.sccVec.length with hi | rfl | hi
      · rw [getElem?_append_left hi] at hd
        exact h.ids i d hd
      · rw [getElem?_append_right (Nat.le_refl _), Nat.sub_self] at hd
        obtain rfl := Option.some.inj hd
        exact ⟨rfl, (length_reverse).symm⟩
      · rw [getElem?_eq_none (by simp; omega)] at hd
        cases hd
    · have hlen : st.sccVec.length = s.comps.length := by
        have := congrArg length h.members
        simpa using this
      have hid := h2 w
      rw [hlen] at hid
      simp only [mem_reverse] at hid
      rw [show (complete c rest s).sccId w = if w ∈ c then s.comps.length else s.sccId w from rfl]
      rw [hlen]
      refine hid.trans ?_
      split
      · rfl
      · rename_i hwc
        refine h.sccId w ?_
        simpa [complete, hwc] using hw
  · rename_i hroot
    rw [if_neg hroot]
    obtain rfl := Option.some.inj hs
    exact ⟨st, rfl, h, fun w hw => hw⟩

/-- The loop over the arcs follows the abstract scan; ignored arcs are filtered out there. -/
theorem visitSuccs_sim {call : Op → State Op → Option (State Op)}
    {call' : Op → SccSearch Op → Option (SccSearch Op)} {op : Op}
    (hcall : ∀ j s s' st, call j s = some s' → LoopSim s st →
      ∃ st', call' j st = some st' ∧ LoopSim s' st' ∧ s'.visited j = true ∧
        ∀ w, s.visited w = true → s'.visited w = true) :
    ∀ (arcs : List (DepArc Op)) (s s' : State Op) (st : SccSearch Op), s.visited op = true →
      scan call op ((arcs.filter (heeded ignore)).map DepArc.succ) s = some s' → LoopSim s st →
        ∃ st', st.visitSuccs ignore call' op arcs = some st' ∧ LoopSim s' st' ∧
          ∀ w, s.visited w = true → s'.visited w = true := by
  intro arcs
  induction arcs with
  | nil =>
    intro s s' st _ hs h
    obtain rfl := Option.some.inj hs
    exact ⟨st, rfl, h, fun _ hw => hw⟩
  | cons arc arcs ih =>
    intro s s' st hop hs h
    unfold SccSearch.visitSuccs
    simp only
    cases hheed : heeded ignore arc with
    | false =>
      have hskip : ¬ (!ignore || !arc.isMem || arc.isDefinite) = true := by
        rw [show (!ignore || !arc.isMem || arc.isDefinite) = false from hheed]
        exact Bool.false_ne_true
      rw [filter_cons, hheed, if_neg Bool.false_ne_true] at hs
      rw [if_neg hskip]
      exact ih s s' st hop hs h
    | true =>
      have htake : (!ignore || !arc.isMem || arc.isDefinite) = true := hheed
      rw [filter_cons, hheed, if_pos rfl, map_cons] at hs
      unfold scan at hs
      rw [if_pos htake, show st.opVisited arc.succ = s.visited arc.succ from h.visited arc.succ]
      split at hs
      · rename_i hnew
        rw [if_pos hnew]
        split at hs
        · cases hs
        · rename_i s1 hs1
          obtain ⟨st1, hst1, h1, hj, hmono⟩ := hcall _ _ _ _ hs1 h
          have hop1 := hmono op hop
          rw [hst1, Option.bind_some]
          have hsim := h1.relax hop1 (s1.link arc.succ)
          rw [← (h1.accessors hj).2.1] at hsim
          rw [← (h1.accessors hj).2.1] at hs
          have hvisited := (relax_fields (v := op) (s := s1) (st1.opLowLink arc.succ)).1
          obtain ⟨st', hst', h', hmono'⟩ := ih _ s' _ (hvisited ▸ hop1) hs hsim
          exact ⟨st', hst', h', fun w hw => hmono' w (hvisited ▸ hmono w hw)⟩
      · rename_i hold
        have hj : s.visited arc.succ = true := by simpa using hold
        obtain ⟨hdfnj, -, hstackj⟩ := h.accessors hj
        rw [if_neg hold, hdfnj, hstackj, (h.accessors hop).1]
        split at hs
        · rename_i hback
          rw [if_pos hback]
          have hvisited := (relax_fields (v := op) (s := s) (s.dfn arc.succ)).1
          obtain ⟨st', hst', h', hmono'⟩ := ih _ s' _ (hvisited ▸ hop) hs (h.relax hop _)
          exact ⟨st', hst', h', fun w hw => hmono' w (hvisited ▸ hw)⟩
        · rename_i hback
          rw [if_neg hback]
          exact ih s s' st hop hs h

theorem visit_sim {fuel : Nat} :
    ∀ op s s' st, Tarjan.visit (heededSuccs succs ignore) fuel op s = some s' → LoopSim s st →
      ∃ st', SccSearch.visit succs ignore fuel op st = some st' ∧ LoopSim s' st' ∧
        s'.visited op = true ∧ ∀ w, s.visited w = true → s'.visited w = true := by
  induction fuel with
  | zero =>
    intro op s s' st hs
    cases hs
  | succ fuel ih =>
    intro op s s' st hs h
    unfold Tarjan.visit at hs
    obtain ⟨s1, hs1, hfin⟩ := Option.bind_eq_some_iff.mp hs
    have hop : (Tarjan.enter op s).visited op = true := update_self _ _ _
    obtain ⟨st1, hst1, h1, hmono1⟩ := visitSuccs_sim ih (succs op) _ s1 _ hop hs1 (h.enter op)
    have hop1 := hmono1 op hop
    obtain ⟨st', hst', h', hmono'⟩ := h1.finish hop1 hfin
    refine ⟨st', ?_, h', hmono' op hop1, fun w hw => hmono' w (hmono1 w ?_)⟩
    · unfold SccSearch.visit
      simp only
      rw [hst1, Option.bind_some]
      exact hst'
    · by_cases hwop : w = op
      · rw [hwop]
        exact hop
      · exact (update_of_ne hwop _ _).trans hw

theorem visitOps_sim {fuel : Nat} : ∀ (ops : List Op) (s s' : State Op) (st : SccSearch Op),
      visitAll (heededSuccs succs ignore) fuel ops s = some s' → LoopSim s st →
        ∃ st', SccSearch.visitOps succs ignore fuel ops st = some st' ∧ LoopSim s' st' := by
  intro ops
  induction ops with
  | nil =>
    intro s s' st hs h
    obtain rfl := Option.some.inj hs
    exact ⟨st, rfl, h⟩
  | cons op ops ih =>
    intro s s' st hs h
    unfold visitAll at hs
    unfold SccSearch.visitOps
    rw [show st.opVisited op = s.visited op from h.visited op]
    split at hs
    · rename_i hnew
      rw [if_pos hnew]
      split at hs
      · cases hs
      · rename_i s1 hs1
        obtain ⟨st1, hst1, h1, -⟩ := visit_sim op s s1 st hs1 h
        rw [hst1, Option.bind_some]
        exact ih s1 s' st1 hs h1
    · rename_i hold
      rw [if_neg hold]
      exact ih s s' st hs h

omit [DecidableEq Op] in
theorem mem_heededSuccs (op op' : Op) : op' ∈ heededSuccs succs ignore op ↔ Follows succs ignore op op' := by
  unfold heededSuccs Follows heeded
  rw [mem_map]
  constructor
  · rintro ⟨arc, harc, rfl⟩
    obtain ⟨hmem, hheed⟩ := mem_filter.mp harc
    refine ⟨arc, hmem, rfl, fun hi hm => ?_⟩
    rw [hi, hm] at hheed
    exact hheed
  · rintro ⟨arc, hmem, rfl, hheed⟩
    refine ⟨arc, mem_filter.mpr ⟨hmem, ?_⟩, rfl⟩
    cases hi : ignore with
    | false => rfl
    | true =>
      cases hm : arc.isMem with
      | false => rfl
      | true => rw [hheed hi hm]; rfl

/-- The components found are numbered by their index, disjoint, and cover the OPs. -/
theorem makeStronglyConnectedComponents_spec {ops : List Op}
    (hclosed : ∀ op ∈ ops, ∀ arc ∈ succs op, arc.succ ∈ ops) (opScc opSccIndex : Op → Nat) :
    ∃ st, makeStronglyConnectedComponents succs ignore ops opScc opSccIndex = some st ∧
      (∀ (i : Nat) (c : CgLoopScc Op), st.sccVec[i]? = some c → c.id = i ∧ c.memberCount = c.members.length ∧
        ∀ op ∈ c.members, op ∈ ops) ∧ (st.sccVec.flatMap CgLoopScc.members).Nodup ∧
      (∀ op ∈ ops, ∃ c, st.sccVec[st.opScc op]? = some c ∧ op ∈ c.members) ∧
      ∀ op ∈ ops, ∀ op' ∈ ops, st.opScc op = st.opScc op' ↔
        Reaches (Follows succs ignore) op op' ∧ Reaches (Follows succs ignore) op' op := by
  have hU : ∀ op ∈ ops.toFinset, ∀ op' ∈ heededSuccs succs ignore op, op' ∈ ops.toFinset := by
    intro op hop op' hop'
    obtain ⟨arc, harc, rfl, -⟩ := (mem_heededSuccs op op').mp hop'
    rw [mem_toFinset] at hop ⊢
    exact hclosed op hop arc harc
  -- the abstract search covers the OPs
  obtain ⟨s', hs', hinv, -, hall, hfound⟩ := visitAll_spec hU ops
    ⟨fun _ => false, fun _ => 0, fun _ => 0, fun _ => false, [], 0, opScc, []⟩
    (fun r hr => mem_toFinset.mpr hr) (inv_start (fun _ => rfl) (fun _ => rfl) rfl rfl)
    ops.toFinset_card_le
  obtain ⟨st, hst, hsim⟩ := visitOps_sim ops _ s' ⟨fun _ => none, [], 0, [], opScc, opSccIndex, 0⟩ hs'
    ⟨fun _ => rfl, fun _ e he => (by cases he), rfl, rfl, rfl, fun i c hc => (by cases hc),
      fun _ hop => by cases hop⟩
  have hdone : ∀ op, Done s' op ↔ op ∈ ops := by
    intro op
    unfold Done
    rw [hinv.stack_nil]
    constructor
    · rintro ⟨hop, -⟩
      rcases hfound op hop with hop | ⟨r, hr, p, hp⟩
      · cases hop
      · clear hop
        induction hp with
        | single => exact hr
        | snoc _ hadj ih =>
          obtain ⟨arc, harc, rfl, -⟩ := (mem_heededSuccs _ _).mp hadj
          exact hclosed _ ih arc harc
    · exact fun hop => ⟨hall op hop, not_mem_nil⟩
  have hid : ∀ op ∈ ops, st.opScc op = s'.sccId op := fun op hop =>
    hsim.sccId op ((hinv.comps op).mpr ((hdone op).mpr hop))
  -- the members are stored in the reverse order
  have hperm : (st.sccVec.flatMap CgLoopScc.members).Perm s'.comps.flatten := by
    rw [flatMap_def, hsim.members, ← flatMap_def]
    have hrev := List.Perm.flatMap_left s'.comps fun c _ => c.reverse_perm
    rwa [flatMap_id'] at hrev
  have hget : ∀ (i : Nat) (c : CgLoopScc Op), st.sccVec[i]? = some c →
      s'.comps[i]? = some c.members.reverse := by
    intro i c hc
    have hmap := congrArg (fun l => l[i]?) hsim.members
    simp only [getElem?_map, hc, Option.map_some] at hmap
    obtain ⟨d, hd, hdc⟩ := Option.map_eq_some_iff.mp hmap.symm
    rw [hd, ← hdc, reverse_reverse]
  refine ⟨st, hst, fun i c hc => ⟨(hsim.ids i c hc).1, (hsim.ids i c hc).2, fun op hop => ?_⟩,
    hperm.nodup_iff.mpr hinv.nodup, fun op hop => ?_, fun op hop op' hop' => ?_⟩
  · refine (hdone op).mp ((hinv.comps op).mp (mem_flatten.mpr ⟨_, ?_, mem_reverse.mpr hop⟩))
    exact mem_of_getElem? (hget i c hc)
  · obtain ⟨-, c, hc, hopc⟩ := hinv.sccId_lt ((hdone op).mpr hop)
    have hmap := congrArg (fun l => l[s'.sccId op]?) hsim.members
    simp only [getElem?_map, hc, Option.map_some] at hmap
    obtain ⟨d, hd, hdc⟩ := Option.map_eq_some_iff.mp hmap
    refine ⟨d, by rw [hid op hop, hd], ?_⟩
    rw [hdc]
    exact mem_reverse.mpr hopc
  · have hreach : Adj (heededSuccs succs ignore) = Follows succs ignore := by
      funext a b
      exact propext (mem_heededSuccs a b)
    rw [hid op hop, hid op' hop', hinv.same op op' ((hdone op).mpr hop) ((hdone op').mpr hop')]
    unfold Tarjan.Reach
    rw [hreach]

end Search

/-! ## Both searches -/

/-- Both searches find the strongly connected components, and the condensation of a graph is
acyclic. -/
theorem components_exact {capacity : Nat} (hcap : capacity ≤ 0xfffe) :
    (∀ g, Lno.SccRun capacity g → Lno.Contiguous g.graph → ∀ link dfn v e sccId,
      ∃ g' c, g.findScc link dfn = some g' ∧ g'.graph = g.graph ∧
        Lno.Components g.graph g'.sccId g'.sccCnt ∧
        Lno.SccDirectedGraph16.acyclicCondensation capacity link dfn (.init v e sccId) g = some c ∧
        Lno.Condensation g.graph c.graph g'.sccId g'.sccCnt) ∧
    ∀ (Op : Type) [DecidableEq Op] (succs : Op → List (DepArc Op)) (ignore : Bool) (ops : List Op),
      (∀ op ∈ ops, ∀ arc ∈ succs op, arc.succ ∈ ops) → ∀ opScc opSccIndex : Op → Nat,
        ∃ st, makeStronglyConnectedComponents succs ignore ops opScc opSccIndex = some st ∧
          (∀ (i : Nat) (c : CgLoopScc Op), st.sccVec[i]? = some c →
            c.id = i ∧ c.memberCount = c.members.length ∧ ∀ op ∈ c.members, op ∈ ops) ∧
          (st.sccVec.flatMap CgLoopScc.members).Nodup ∧
          (∀ op ∈ ops, ∃ c, st.sccVec[st.opScc op]? = some c ∧ op ∈ c.members) ∧
          ∀ op ∈ ops, ∀ op' ∈ ops, st.opScc op = st.opScc op' ↔
            Reaches (Follows succs ignore) op op' ∧ Reaches (Follows succs ignore) op' op := by
  refine ⟨fun g hrun hvs link dfn v e sccId => ?_, fun Op _ succs ignore ops hclosed opScc opSccIndex =>
    makeStronglyConnectedComponents_spec hclosed opScc opSccIndex⟩
  have hok := hrun.ok hcap
  obtain ⟨g', hg', -, hgraph, hcomp⟩ := hok.findScc hcap hvs link dfn
  obtain ⟨g'', c, hg'', hc, hcond⟩ := hok.acyclicCondensation hcap hvs link dfn v e sccId
  rw [hg'] at hg''
  obtain rfl := Option.some.inj hg''
  exact ⟨g', c, hg', hgraph, hcomp, hc, hcond⟩

/-- Vertices 1 and 2 on a cycle that 3 hangs on, and two ops of which one depends on the other. -/
theorem components_exact_two : (∃ g g', Lno.SccRun 4 g ∧ g.graph.vcnt = 3 ∧ g.graph.ecnt = 3 ∧
      g.findScc (fun _ => 0) (fun _ => 0) = some g' ∧ Lno.Components g.graph g'.sccId g'.sccCnt) ∧
    ∃ st, makeStronglyConnectedComponents (fun op => if op then [⟨false, false, false⟩] else [])
        true [true, false] (fun _ => 0) (fun _ => 0) = some st ∧
      (st.sccVec.flatMap CgLoopScc.members).Nodup := by
  have h0 : Lno.SccRun 4 _ := .init (fun _ => ⟨0, 0⟩) (fun _ => ⟨0, 0, 0, 0⟩) fun _ => 0
  have h1 := h0.step (show Lno.SccOp.Allowed _ (.graph .addVertex) from trivial) rfl
  have h2 := h1.step (show Lno.SccOp.Allowed _ (.graph .addVertex) from trivial) rfl
  have h3 := h2.step (show Lno.SccOp.Allowed _ (.graph .addVertex) from trivial) rfl
  have h4 := h3.step (show Lno.SccOp.Allowed _ (.graph (.addEdge 1 2)) from ⟨rfl, rfl⟩) rfl
  have h5 := h4.step (show Lno.SccOp.Allowed _ (.graph (.addEdge 2 1)) from ⟨rfl, rfl⟩) rfl
  have h6 := h5.step (show Lno.SccOp.Allowed _ (.graph (.addEdge 2 3)) from ⟨rfl, rfl⟩) rfl
  have hgraph : ∃ g, Lno.SccRun 4 g ∧ g.graph.vcnt = 3 ∧ g.graph.ecnt = 3 ∧ Lno.Contiguous g.graph := by
    refine ⟨_, h6, rfl, rfl, fun v => ?_⟩
    rcases Nat.lt_or_ge v 4 with hv | hv
    · revert v
      decide
    · refine iff_of_false (fun hlive => ?_) fun hle => Nat.not_le_of_lt hv hle.2
      unfold Graph.DirectedGraph16.vertexIsInGraph at hlive
      rw [Bool.and_eq_true, Bool.and_eq_true, decide_eq_true_eq] at hlive
      exact Nat.not_le_of_lt hv hlive.1.1
  obtain ⟨g, hrun, hvcnt, hecnt, hvs⟩ := hgraph
  obtain ⟨g', c, hg', -, hcomp, -⟩ := (components_exact (by decide)).1 g hrun hvs (fun _ => 0)
    (fun _ => 0) (fun _ => ⟨0, 0⟩) (fun _ => ⟨0, 0, 0, 0⟩) fun _ => 0
  refine ⟨⟨g, g', hrun, hvcnt, hecnt, hg', hcomp⟩, ?_⟩
  obtain ⟨st, hst, -, hnodup, -⟩ := (components_exact (show 1 ≤ 0xfffe by decide)).2 Bool
    (fun op => if op then [⟨false, false, false⟩] else []) true [true, false] (by decide) (fun _ => 0)
    fun _ => 0
  exact ⟨st, hst, hnodup⟩

end Cg
