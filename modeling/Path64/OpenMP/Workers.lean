import Path64.Lib.Counting
import Path64.Lib.Interleaving

/-! # Acquiring and releasing worker threads

A thread that forks counts the workers that it gets by a fetch-and-add of
`waiting_threads`; what it took too much it adds back, and then it has
more threads created, up to `PMP_MAX_THREADS`. The workers come from a
stack of ids, under a lock. Every access to a shared counter is one step,
and so are a push and a pop. -/

namespace OpenMP.Workers

open List Function Interleaving Counting

/-! ## Model -/

/-- Where a forking thread stands. -/
inductive Pc where
  | idle
  /-- In `__pmp_thread_acquire`, before the fetch-and-add of `waiting_threads`. -/
  | taking (count : Int)
  /-- Before it adds `required` back. -/
  | restoring (count required : Int)
  /-- In `__pmp_manager_create_more_threads`, before the fetch-and-add. -/
  | creating (count required made : Int)
  /-- In `__pmp_thread_create`, before it adds 1 to `waiting_threads`. -/
  | announcing (count required made : Int)
  /-- Before it takes back what it added to `allocated_threads`. -/
  | undoing (count made : Int)
  /-- `__pmp_thread_acquire` has returned `count`. -/
  | acquired (count : Int)
  /-- In `__pmp_thread_assign`, with the lock. -/
  | assigning (count : Int)
  | working (count : Int)
  /-- In `__pmp_thread_release`, with the lock. -/
  | releasing (count : Int)
  /-- Before it adds the workers to `waiting_threads`. -/
  | returning (count : Int)

/-- The team of an enclosing region: its size, and its workers' ids. -/
structure Region where
  count : Int
  ids : List Nat

/-- A forking thread: its argument, its position, the ids of its team, and the teams around. -/
structure Party where
  nthreads : Int
  pc : Pc
  ids : List Nat
  outer : List Region

/-- `PMP_MAX_THREADS`, which is `PMP_MAX_IDS` too. -/
structure Limit where
  maxThreads : Nat
  pos : 0 < maxThreads
  small : maxThreads < 2 ^ 30

/-- `created` counts the workers made, `returns` has the calls of `__pmp_thread_acquire`. -/
structure State (L : Limit) where
  waiting : Int
  allocated : Int
  created : Nat
  stack : List Nat
  lock : Option (Fin L.maxThreads)
  party : Fin L.maxThreads → Party
  returns : List (Int × Int)
  failed : Bool

/-- An `int32_t` after a fetch-and-add. -/
def int32 (x : Int) : Int := x.bmod (2 ^ 32)

/-- After the `while` test of `__pmp_thread_acquire`. -/
def loopTest (nthreads count : Int) : Pc :=
  if count < nthreads then .taking count else .acquired count

/-- After `__pmp_manager_create_more_threads` returned `made`. -/
def afterCreate (nthreads count made : Int) : Pc :=
  if made = 0 then .acquired count else loopTest nthreads count

/-- After the test of its `for` loop. -/
def createTest (nthreads count required made : Int) : Pc :=
  if made < required then .creating count required made else afterCreate nthreads count made

variable {L : Limit}

namespace State

def setParty (s : State L) (p : Fin L.maxThreads) (q : Party) : State L :=
  { s with party := update s.party p q }

/-- Move on to `pc`; a return of `__pmp_thread_acquire` is noted. -/
def goto (s : State L) (p : Fin L.maxThreads) (pc : Pc) : State L :=
  let s' := s.setParty p { s.party p with pc := pc }
  match pc with
  | .acquired count => { s' with returns := ((s.party p).nthreads, count) :: s.returns }
  | _ => s'

end State

/-- The next step of thread `p`; none after a failure or at a taken lock. -/
def stepParty (p : Fin L.maxThreads) (call : Option Int) (s : State L) : Option (State L) :=
  let P := s.party p
  if s.failed then none
  else match P.pc with
  | .idle =>
    match call with
    | some nthreads =>
      some ((s.setParty p { P with nthreads := nthreads }).goto p (loopTest nthreads 1))
    | none => none
  | .taking count =>
    let required := P.nthreads - count
    let waiting := s.waiting
    let s' := { s with waiting := int32 (waiting - required) }
    some (s'.goto p
      (if waiting ≥ required then .acquired (count + required)
        else .restoring (count + waiting) (required - waiting)))
  | .restoring count required =>
    some ({ s with waiting := int32 (s.waiting + required) }.goto p
      (createTest P.nthreads count required 0))
  | .creating count required made =>
    let globalId := s.allocated
    let s' := { s with allocated := int32 (s.allocated + 1) }
    if globalId = 0 then some { s' with failed := true }
    else if globalId ≥ L.maxThreads then some (s'.goto p (.undoing count made))
    else some ({ s' with created := s.created + 1 }.goto p (.announcing count required made))
  | .announcing count required made =>
    some ({ s with waiting := int32 (s.waiting + 1) }.goto p
      (createTest P.nthreads count required (made + 1)))
  | .undoing count made =>
    some ({ s with allocated := int32 (s.allocated - 1) }.goto p
      (afterCreate P.nthreads count made))
  | .acquired count =>
    -- `assert(nthreads > 0)` in `__pmp_team_alloc`
    if count ≤ 0 then some { s with failed := true }
    else if s.lock = none then some ({ s with lock := some p }.goto p (.assigning count))
    else none
  | .assigning count =>
    if (P.ids.length : Int) < count - 1 then
      match s.stack with
      | [] => some { s with failed := true }
      | id :: stack => some ({ s with stack := stack }.setParty p { P with ids := id :: P.ids })
    else some ({ s with lock := none }.goto p (.working count))
  | .working count =>
    match call with
    | some nthreads =>
      -- a nested region
      some ((s.setParty p
        { P with nthreads := nthreads, ids := [], outer := ⟨count, P.ids⟩ :: P.outer }).goto p
          (loopTest nthreads 1))
    | none =>
      if s.lock = none then some ({ s with lock := some p }.goto p (.releasing count)) else none
  | .releasing count =>
    match P.ids with
    | [] => some ({ s with lock := none }.goto p (.returning count))
    | id :: ids =>
      if s.stack.length < L.maxThreads then
        some ({ s with stack := id :: s.stack }.setParty p { P with ids := ids })
      else some { s with failed := true }
  | .returning count =>
    let s' := { s with waiting := int32 (s.waiting + (count - 1)) }
    match P.outer with
    | [] => some (s'.goto p .idle)
    | r :: outer =>
      some ((s'.setParty p { P with ids := r.ids, outer := outer }).goto p (.working r.count))

/-- What a call of `__pmp_thread_acquire` may be given. -/
abbrev LegalCall (call : Option Int) : Prop := ∀ nthreads ∈ call, 1 ≤ nthreads ∧ nthreads < 2 ^ 31

/-- One step of any thread. -/
def TeamStep (s s' : State L) : Prop :=
  ∃ p call, LegalCall call ∧ stepParty p call s = some s'

/-- After `__pmp_manager_init`: the main thread has the id 0, and some workers are created. -/
structure Initial (s : State L) : Prop where
  created : s.created < L.maxThreads
  waiting : s.waiting = s.created
  allocated : s.allocated = s.created + 1
  stack : s.stack = (range (L.maxThreads - 1)).map (· + 1)
  lock : s.lock = none
  party : ∀ p, s.party p = { nthreads := 0, pc := .idle, ids := [], outer := [] }
  returns : s.returns = []
  failed : s.failed = false

/-! ## Calm steps -/

/-- No fetch-and-add in `__pmp_thread_acquire` reads a value below 0. -/
def Calm (p : Fin L.maxThreads) (s : State L) : Bool :=
  match (s.party p).pc with
  | .taking _ => 0 ≤ s.waiting
  | _ => true

/-- One step of a thread that is calm. -/
def CalmStep (s s' : State L) : Prop :=
  ∃ p call, LegalCall call ∧ Calm p s = true ∧ stepParty p call s = some s'

/-- The workers that a thread was granted by `__pmp_thread_acquire` and has not released. -/
def Pc.granted : Pc → Nat
  | acquired count | assigning count | working count | releasing count | returning count =>
    (count - 1).toNat
  | _ => 0

/-- The workers that it has counted so far. -/
def Pc.counted : Pc → Int
  | idle => 0
  | taking count | restoring count _ | creating count _ _ | announcing count _ _
  | undoing count _ => count - 1
  | acquired count | assigning count | working count | releasing count | returning count =>
    count - 1

/-- What it will add back to `waiting_threads`. -/
def Pc.surplus : Pc → Int
  | restoring _ required => required
  | _ => 0

/-- The thread that it has created, and not yet added. -/
def Pc.fresh : Pc → Int
  | announcing .. => 1
  | _ => 0

/-- What it will take back from `allocated_threads`. -/
def Pc.beyond : Pc → Int
  | undoing .. => 1
  | _ => 0

/-- The lock is this thread's. -/
def Pc.locks : Pc → Bool
  | assigning _ | releasing _ => true
  | _ => false

/-- The counts of one call are in range. -/
def Pc.InRange (nthreads : Int) : Pc → Prop
  | idle => True
  | taking count => 1 ≤ count ∧ count < nthreads
  | restoring count required => 1 ≤ count ∧ 0 < required ∧ count + required = nthreads
  | creating count required made | announcing count required made =>
    1 ≤ count ∧ count < nthreads ∧ 0 ≤ made ∧ made < required
  | undoing count _ => 1 ≤ count ∧ count < nthreads
  | acquired count | assigning count | working count | releasing count | returning count =>
    1 ≤ count

/-- As many ids as there are workers, while a team works. -/
def Pc.OwnIds (ids : List Nat) : Pc → Prop
  | assigning count | releasing count => (ids.length : Int) ≤ count - 1
  | working count => (ids.length : Int) = count - 1
  | _ => ids = []

namespace Party

/-- The workers of the regions around. -/
def around (P : Party) : Int := (P.outer.map fun r => r.count - 1).sum

/-- The workers that a thread was granted and has not released. -/
def granted (P : Party) : Nat := P.pc.granted + (P.outer.map fun r => (r.count - 1).toNat).sum

/-- The workers that it has taken off `waiting_threads`. -/
def owed (P : Party) : Int := P.pc.counted + P.pc.surplus + P.pc.fresh + P.around

/-- The ids in its teams. -/
def held (P : Party) : List Nat := P.ids ++ P.outer.flatMap (·.ids)

structure InRange (P : Party) : Prop where
  nthreads : P.nthreads < 2 ^ 31
  pc : P.pc.InRange P.nthreads
  outer : ∀ r ∈ P.outer, 1 ≤ r.count

structure HasIds (P : Party) : Prop where
  ids : P.pc.OwnIds P.ids
  outer : ∀ r ∈ P.outer, (r.ids.length : Int) = r.count - 1

end Party

/-- The counters. -/
structure Counts (s : State L) : Prop where
  /-- every worker waits, or is counted by one thread, or is on its way -/
  balance : s.waiting + ∑ p, (s.party p).owed = s.created
  enough : 0 ≤ s.waiting + ∑ p, (s.party p).pc.surplus
  allocated : s.allocated = s.created + 1 + ∑ p, (s.party p).pc.beyond
  created : s.created < L.maxThreads
  low : -2 ^ 31 ≤ s.waiting
  range : ∀ p, (s.party p).InRange
  returns : ∀ r ∈ s.returns, 1 ≤ r.2 ∧ r.2 ≤ r.1

/-- The ids. -/
structure Ids (s : State L) : Prop where
  stack : s.stack.Nodup
  held : ∀ p, (s.party p).held.Nodup
  apart : ∀ p, ∀ id ∈ (s.party p).held, id ∉ s.stack
  disjoint : ∀ p q, p ≠ q → ∀ id ∈ (s.party p).held, id ∉ (s.party q).held
  total : (s.stack.length : Int) + ∑ p, ((s.party p).held.length : Int) = L.maxThreads - 1
  has : ∀ p, (s.party p).HasIds
  lock : ∀ p, (s.party p).pc.locks = true → s.lock = some p

structure Inv (s : State L) : Prop extends Counts s, Ids s where
  unfailed : s.failed = false

/-! ## One change -/

section

variable (s : State L) (p) (pc : Pc)
include s p pc

@[simp] theorem goto_waiting : (s.goto p pc).waiting = s.waiting := by
  cases pc <;> rfl

@[simp] theorem goto_allocated : (s.goto p pc).allocated = s.allocated:= by
  cases pc <;> rfl

@[simp] theorem goto_created : (s.goto p pc).created = s.created := by
  cases pc <;> rfl

@[simp] theorem goto_stack : (s.goto p pc).stack = s.stack := by
  cases pc <;> rfl

@[simp] theorem goto_lock : (s.goto p pc).lock = s.lock := by
  cases pc <;> rfl

@[simp] theorem goto_failed : (s.goto p pc).failed = s.failed := by
  cases pc <;> rfl

@[simp] theorem goto_party :
    (s.goto p pc).party = update s.party p { s.party p with pc := pc } := by
  cases pc <;> rfl

end

theorem mem_goto_returns {s : State L} {p} {pc : Pc} {r : Int × Int}
    (h : r ∈ (s.goto p pc).returns) :
    r ∈ s.returns ∨ ∃ count, pc = .acquired count ∧ r = ((s.party p).nthreads, count) := by
  cases pc with
  | acquired count =>
    rcases mem_cons.mp h with h | h
    · exact .inr ⟨count, rfl, h⟩
    · exact .inl h
  | _ => exact .inl h

variable {nthreads made required : Int} {P : Party} {outer : List Region} {id : Nat}
  {c : Fin L.maxThreads × Option Int}

theorem Pc.InRange.nonneg {pc : Pc} (h : pc.InRange nthreads) :
    0 ≤ pc.counted ∧ 0 ≤ pc.surplus ∧ 0 ≤ pc.fresh ∧ (pc.granted : Int) ≤ pc.counted := by
  cases pc <;> simp only [InRange, counted, surplus, fresh, granted] at * <;> omega

theorem Pc.beyond_nonneg (pc : Pc) : 0 ≤ pc.beyond ∧ pc.beyond ≤ 1 := by
  cases pc <;> simp [beyond]

theorem Party.InRange.around_nonneg (h : P.InRange) : 0 ≤ P.around := by
  refine sum_nonneg fun x hx => ?_
  obtain ⟨r, hr, rfl⟩ := mem_map.mp hx
  have := h.outer r hr
  omega

theorem length_flatMap_ids
    (h : ∀ r ∈ outer, (r.ids.length : Int) = r.count - 1) :
    ((outer.flatMap (·.ids)).length : Int) = (outer.map fun r => r.count - 1).sum := by
  induction outer with
  | nil => rfl
  | cons r outer ih =>
    rw [flatMap_cons, length_append, map_cons, sum_cons,
      ← ih fun r hr => h r (mem_cons_of_mem _ hr), ← h r mem_cons_self]
    push_cast
    rfl

theorem Party.HasIds.length_held (h : P.HasIds) :
    (P.held.length : Int) = P.ids.length + P.around := by
  unfold Party.held Party.around
  rw [length_append, ← length_flatMap_ids h.outer]
  push_cast
  rfl

theorem Party.HasIds.ids_le (h : P.HasIds) (hrange : P.InRange) :
    (P.ids.length : Int) ≤ P.pc.counted := by
  have hids := h.ids
  have hpos := hrange.pc.nonneg.1
  cases hpc : P.pc <;> simp only [hpc, Pc.OwnIds] at hids hpos ⊢ <;>
    first | (rw [hids]; exact hpos) | exact hids | exact hids.le

section Change

variable {s s' : State L} {p : Fin L.maxThreads} {P' : Party}

theorem Counts.owed_nonneg (h : Counts s) (p) : 0 ≤ (s.party p).owed := by
  have hpc := (h.range p).pc.nonneg
  have haround := (h.range p).around_nonneg
  unfold Party.owed
  omega

/-- What a thread gives back does not lift the counter above the number of workers. -/
theorem Counts.waiting_add_le (h : Counts s) (p) : s.waiting + (s.party p).owed ≤ s.created:= by
  have hbal := h.balance
  have hle := le_sum (f := Party.owed) h.owed_nonneg p
  omega

theorem Counts.allocated_le (h : Counts s) :
    s.created + 1 ≤ s.allocated ∧ s.allocated ≤ s.created + 1 + L.maxThreads := by
  have hlow : (0 : Int) ≤ ∑ p, (s.party p).pc.beyond :=
    Finset.sum_nonneg fun q _ => (Pc.beyond_nonneg _).1
  have hhigh : ∑ p, (s.party p).pc.beyond ≤ ∑ _p : Fin L.maxThreads, (1 : Int) :=
    Finset.sum_le_sum fun q _ => (Pc.beyond_nonneg _).2
  have halloc := h.allocated
  simp only [Finset.sum_const, Finset.card_univ, Fintype.card_fin, nsmul_eq_mul, mul_one] at hhigh
  omega

theorem Counts.change (h : Counts s) (hparty : s'.party = update s.party p P')
    (hbal : s'.waiting - s'.created + P'.owed = s.waiting - s.created + (s.party p).owed)
    (henough : ∀ R, 0 ≤ R → 0 ≤ s.waiting + R + (s.party p).pc.surplus →
      0 ≤ s'.waiting + R + P'.pc.surplus) (halloc : s'.allocated - s'.created - P'.pc.beyond
      = s.allocated - s.created - (s.party p).pc.beyond)
    (hcreated : s'.created < L.maxThreads) (hlow : -2 ^ 31 ≤ s'.waiting) (hrange : P'.InRange)
    (hreturns : ∀ r ∈ s'.returns, r ∈ s.returns ∨ 1 ≤ r.2 ∧ r.2 ≤ r.1) : Counts s' := by
  refine ⟨?_, ?_, ?_, hcreated, hlow, ?_, fun r hr => ?_⟩
  · have hold := h.balance
    have hsum := sum_update Party.owed s.party p P'
    rw [hparty]
    omega
  · have hold := h.enough
    have hsum := sum_update (fun P : Party => P.pc.surplus) s.party p P'
    have hothers := le_sum (f := fun P : Party => P.pc.surplus) (fun q => (h.range q).pc.nonneg.2.1) p
    rw [hparty, hsum]
    have := henough (∑ q, (s.party q).pc.surplus - (s.party p).pc.surplus) (by omega) (by omega)
    omega
  · have hold := h.allocated
    have hsum := sum_update (fun P : Party => P.pc.beyond) s.party p P'
    rw [hparty, hsum]
    omega
  · rw [hparty]
    exact forall_update (C := fun _ (P : Party) => P.InRange) hrange fun q _ => h.range q
  · rcases hreturns r hr with hold | hnew
    · exact h.returns r hold
    · exact hnew

theorem Ids.keep (h : Ids s) (hparty : s'.party = update s.party p P')
    (hheld : P'.held = (s.party p).held) (hstack : s'.stack = s.stack) (hhas : P'.HasIds)
    (hlock : P'.pc.locks = true → s'.lock = some p)
    (hothers : ∀ q, q ≠ p → (s.party q).pc.locks = true → s'.lock = some q) : Ids s' := by
  have hsame : ∀ q, (s'.party q).held = (s.party q).held := by
    rw [hparty]
    exact forall_update (C := fun q (P : Party) => P.held = (s.party q).held) hheld fun _ _ => rfl
  refine ⟨?_, ?_, ?_, ?_, ?_, ?_, ?_⟩
  · rw [hstack]
    exact h.stack
  · intro q
    rw [hsame]
    exact h.held q
  · intro q id hid
    rw [hstack]
    exact h.apart q id (hsame q ▸ hid)
  · intro q r hqr id hid
    rw [hsame]
    exact h.disjoint q r hqr id (hsame q ▸ hid)
  · rw [hstack]
    simp only [hsame]
    exact h.total
  · rw [hparty]
    exact forall_update (C := fun _ (P : Party) => P.HasIds) hhas fun q _ => h.has q
  · rw [hparty]
    exact forall_update (C := fun q (P : Party) => P.pc.locks = true → s'.lock = some q) hlock hothers

/-- A worker taken from the stack is held by one party only. -/
theorem Ids.pop (h : Ids s) (hparty : s'.party = update s.party p P')
    (hheld : P'.held = id :: (s.party p).held) (hstack : s.stack = id :: s'.stack)
    (hhas : P'.HasIds) (hpc : P'.pc = (s.party p).pc) (hlock : s'.lock = s.lock) : Ids s' := by
  have hnodup := h.stack
  rw [hstack, nodup_cons] at hnodup
  have hnew : ∀ q, id ∉ (s.party q).held := by
    intro q hid
    refine h.apart q id hid ?_
    rw [hstack]
    exact mem_cons_self
  have hsub : ∀ i ∈ s'.stack, i ∈ s.stack := by
    intro i hi
    rw [hstack]
    exact mem_cons_of_mem _ hi
  refine ⟨hnodup.2, ?_, ?_, ?_, ?_, ?_, ?_⟩
  · rw [hparty]
    refine forall_update (C := fun _ (P : Party) => P.held.Nodup) ?_ fun q _ => h.held q
    rw [hheld]
    exact nodup_cons.mpr ⟨hnew p, h.held p⟩
  · rw [hparty]
    refine forall_update (C := fun _ (P : Party) => ∀ i ∈ P.held, i ∉ s'.stack) ?_
      fun q _ i hi hmem => h.apart q i hi (hsub i hmem)
    intro i hi hmem
    rw [hheld, mem_cons] at hi
    rcases hi with rfl | hi
    · exact hnodup.1 hmem
    · exact h.apart p i hi (hsub i hmem)
  · rw [hparty]
    refine forall_update (C := fun q (P : Party) => ∀ r, q ≠ r → ∀ i ∈ P.held,
      i ∉ (update s.party p P' r).held) ?_ ?_
    · intro r hr i hi
      rw [update_of_ne hr.symm]
      rw [hheld, mem_cons] at hi
      rcases hi with rfl | hi
      · exact hnew r
      · exact h.disjoint p r hr i hi
    · intro q _ r hqr i hi
      by_cases hr : r = p
      · subst hr
        rw [update_self, hheld, mem_cons]
        rintro (rfl | hmem)
        · exact hnew q hi
        · exact h.disjoint q r hqr i hi hmem
      · rw [update_of_ne hr]
        exact h.disjoint q r hqr i hi
  · have hold := h.total
    have hsum := sum_update (fun P : Party => (P.held.length : Int)) s.party p P'
    rw [hparty, hsum, hheld]
    rw [hstack] at hold
    push_cast [length_cons] at hold ⊢
    omega
  · rw [hparty]
    exact forall_update (C := fun _ (P : Party) => P.HasIds) hhas fun q _ => h.has q
  · rw [hparty]
    refine forall_update (C := fun q (P : Party) => P.pc.locks = true → s'.lock = some q) ?_ ?_
    · rw [hpc, hlock]
      exact h.lock p
    · intro q _
      rw [hlock]
      exact h.lock q

/-- A worker put back was held by the party that puts it back. -/
theorem Ids.push (h : Ids s) (hparty : s'.party = update s.party p P')
    (hheld : (s.party p).held = id :: P'.held) (hstack : s'.stack = id :: s.stack)
    (hhas : P'.HasIds) (hpc : P'.pc = (s.party p).pc) (hlock : s'.lock = s.lock) : Ids s' := by
  have hnodup := h.held p
  rw [hheld, nodup_cons] at hnodup
  have hmine : id ∈ (s.party p).held := by
    rw [hheld]
    exact mem_cons_self
  have hsub : ∀ i ∈ P'.held, i ∈ (s.party p).held := by
    intro i hi
    rw [hheld]
    exact mem_cons_of_mem _ hi
  refine ⟨?_, ?_, ?_, ?_, ?_, ?_, ?_⟩
  · rw [hstack]
    exact nodup_cons.mpr ⟨h.apart p id hmine, h.stack⟩
  · rw [hparty]
    exact forall_update (C := fun _ (P : Party) => P.held.Nodup) hnodup.2 fun q _ => h.held q
  · rw [hparty, hstack]
    refine forall_update (C := fun _ (P : Party) => ∀ i ∈ P.held, i ∉ id :: s.stack) ?_ ?_
    · intro i hi hmem
      rcases mem_cons.mp hmem with rfl | hmem
      · exact hnodup.1 hi
      · exact h.apart p i (hsub i hi) hmem
    · intro q hq i hi hmem
      rcases mem_cons.mp hmem with rfl | hmem
      · exact h.disjoint q p hq i hi hmine
      · exact h.apart q i hi hmem
  · rw [hparty]
    refine forall_update (C := fun q (P : Party) => ∀ r, q ≠ r → ∀ i ∈ P.held,
      i ∉ (update s.party p P' r).held) ?_ ?_
    · intro r hr i hi
      rw [update_of_ne hr.symm]
      exact h.disjoint p r hr i (hsub i hi)
    · intro q _ r hqr i hi
      by_cases hr : r = p
      · subst hr
        rw [update_self]
        exact fun hmem => h.disjoint q r hqr i hi (hsub i hmem)
      · rw [update_of_ne hr]
        exact h.disjoint q r hqr i hi
  · have hold := h.total
    have hsum := sum_update (fun P : Party => (P.held.length : Int)) s.party p P'
    rw [hparty, hsum, hheld, hstack]
    push_cast [length_cons]
    omega
  · rw [hparty]
    exact forall_update (C := fun _ (P : Party) => P.HasIds) hhas fun q _ => h.has q
  · rw [hparty]
    refine forall_update (C := fun q (P : Party) => P.pc.locks = true → s'.lock = some q) ?_ ?_
    · rw [hpc, hlock]
      exact h.lock p
    · intro q _
      rw [hlock]
      exact h.lock q

end Change

/-! ## Positions after a test -/

/-- In `__pmp_thread_acquire`, with nothing to add back. -/
structure Pc.Plain (nthreads count : Int) (pc : Pc) : Prop where
  owed : pc.counted + pc.surplus + pc.fresh = count - 1
  surplus : pc.surplus = 0
  beyond : pc.beyond = 0
  locks : pc.locks = false
  range : pc.InRange nthreads
  ids : pc.OwnIds []
  returns : ∀ c, pc = .acquired c → 1 ≤ c ∧ c ≤ nthreads

theorem plain_acquired {count : Int} (h1 : 1 ≤ count) (h2 : count ≤ nthreads) :
    Pc.Plain nthreads count (.acquired count) := by
  refine ⟨?_, rfl, rfl, rfl, h1, rfl, ?_⟩
  · simp [Pc.counted, Pc.surplus, Pc.fresh]
  · rintro c hc
    cases hc
    exact ⟨h1, h2⟩

theorem plain_loopTest {count : Int} (h1 : 1 ≤ count) (h2 : count ≤ nthreads) :
    Pc.Plain nthreads count (loopTest nthreads count) := by
  unfold loopTest
  split
  · rename_i hlt
    refine ⟨?_, rfl, rfl, rfl, ⟨h1, hlt⟩, rfl, fun c hc => by cases hc⟩
    simp [Pc.counted, Pc.surplus, Pc.fresh]
  · exact plain_acquired h1 h2

theorem plain_afterCreate {count : Int} (h1 : 1 ≤ count) (h2 : count ≤ nthreads) :
    Pc.Plain nthreads count (afterCreate nthreads count made) := by
  unfold afterCreate
  split
  · exact plain_acquired h1 h2
  · exact plain_loopTest h1 h2

theorem plain_createTest {count : Int} (h1 : 1 ≤ count) (h2 : count < nthreads) (h3 : 0 ≤ made) :
    Pc.Plain nthreads count (createTest nthreads count required made) := by
  unfold createTest
  split
  · rename_i hlt
    refine ⟨?_, rfl, rfl, rfl, ⟨h1, h2, h3, hlt⟩, rfl, fun c hc => by cases hc⟩
    simp [Pc.counted, Pc.surplus, Pc.fresh]
  · exact plain_afterCreate h1 (by omega)

theorem Inv.plain {s t : State L} {p : Fin L.maxThreads} {pc : Pc} {count : Int} (h : Inv s)
    (P1 : Party) (hplain : pc.Plain P1.nthreads count)
    (hparty : (t.goto p pc).party = update s.party p { P1 with pc := pc })
    (hn : P1.nthreads < 2 ^ 31) (hids : P1.ids = []) (hheld : P1.held = (s.party p).held)
    (houter : ∀ r ∈ P1.outer, 1 ≤ r.count ∧ (r.ids.length : Int) = r.count - 1)
    (hbal : t.waiting + (count - 1) + P1.around = s.waiting + (s.party p).owed)
    (henough : ∀ R, 0 ≤ R → 0 ≤ s.waiting + R + (s.party p).pc.surplus → 0 ≤ t.waiting + R)
    (hlow : -2 ^ 31 ≤ t.waiting)
    (halloc : t.allocated + (s.party p).pc.beyond = s.allocated) (hcreated : t.created = s.created)
    (hstack : t.stack = s.stack) (hlock : t.lock = s.lock) (hfailed : t.failed = s.failed)
    (hreturns : t.returns = s.returns) (hnth : (t.party p).nthreads = P1.nthreads) :
    Inv (t.goto p pc) := by
  have howed : ({ P1 with pc := pc } : Party).owed = count - 1 + P1.around := by
    have := hplain.owed
    show pc.counted + pc.surplus + pc.fresh + P1.around = _
    omega
  refine ⟨h.toCounts.change hparty ?_ ?_ ?_ ?_ ?_ ?_ ?_, h.toIds.keep hparty hheld ?_ ?_ ?_ ?_, ?_⟩
  · rw [howed, goto_waiting, goto_created, hcreated]
    omega
  · intro R hR hold
    have := henough R hR hold
    rw [goto_waiting, hplain.surplus]
    omega
  · rw [goto_allocated, goto_created, hcreated, hplain.beyond]
    omega
  · rw [goto_created, hcreated]
    exact h.created
  · rwa [goto_waiting]
  · exact ⟨hn, hplain.range, fun r hr => (houter r hr).1⟩
  · intro r hr
    rcases mem_goto_returns hr with hr | ⟨c, hc, rfl⟩
    · exact .inl (hreturns ▸ hr)
    · rw [hnth]
      exact .inr (hplain.returns c hc)
  · rw [goto_stack, hstack]
  · exact ⟨hids.symm ▸ hplain.ids, fun r hr => (houter r hr).2⟩
  · intro hl
    rw [hplain.locks] at hl
    cases hl
  · intro q _ hq
    rw [goto_lock, hlock]
    exact h.lock q hq
  · rw [goto_failed, hfailed]
    exact h.unfailed

/-! ## Steps -/

theorem int32_eq {x : Int} (h1 : -2 ^ 31 ≤ x) (h2 : x < 2 ^ 31) : int32 x = x := by
  unfold int32
  rw [Int.bmod_eq_of_le] <;> omega

section Steps

variable {s : State L} {p : Fin L.maxThreads}

section

variable (h : Inv s)
include h

theorem inv_idle (h1 : 1 ≤ nthreads) (h2 : nthreads < 2 ^ 31) (hpc : (s.party p).pc = .idle) :
    Inv ((s.setParty p { s.party p with nthreads := nthreads }).goto p (loopTest nthreads 1)) := by
  have hids : (s.party p).ids = [] := by
    have := (h.has p).ids
    rwa [hpc] at this
  refine h.plain { s.party p with nthreads := nthreads } (plain_loopTest (le_refl 1) h1) ?_ h2 hids
    rfl (fun r hr => ⟨(h.range p).outer r hr, (h.has p).outer r hr⟩) ?_ ?_ h.low ?_ rfl rfl rfl rfl
    rfl ?_
  · simp [State.setParty]
  · simp [State.setParty, Party.owed, Party.around, hpc, Pc.counted, Pc.surplus, Pc.fresh]
  · intro R _ hR
    simpa [State.setParty, hpc, Pc.surplus] using hR
  · simp [State.setParty, hpc, Pc.beyond]
  · simp [State.setParty]

theorem inv_nested {count : Int} (h1 : 1 ≤ nthreads) (h2 : nthreads < 2 ^ 31)
    (hpc : (s.party p).pc = .working count) : Inv ((s.setParty p { s.party p with
      nthreads := nthreads, ids := [], outer := ⟨count, (s.party p).ids⟩ :: (s.party p).outer }).goto
        p (loopTest nthreads 1)) := by
  have hids : ((s.party p).ids.length : Int) = count - 1 := by
    have := (h.has p).ids
    rwa [hpc] at this
  have hcount : 1 ≤ count := by
    have := (h.range p).pc
    rwa [hpc] at this
  refine h.plain { s.party p with
      nthreads := nthreads, ids := [], outer := ⟨count, (s.party p).ids⟩ :: (s.party p).outer }
    (plain_loopTest (le_refl 1) h1) ?_ h2 rfl ?_ ?_ ?_ ?_ h.low ?_ rfl rfl rfl rfl rfl ?_
  · simp [State.setParty]
  · simp [Party.held]
  · intro r hr
    rcases mem_cons.mp hr with rfl | hr
    · exact ⟨hcount, hids⟩
    · exact ⟨(h.range p).outer r hr, (h.has p).outer r hr⟩
  · simp [State.setParty, Party.owed, Party.around, hpc, Pc.counted, Pc.surplus, Pc.fresh]
  · intro R _ hR
    simpa [State.setParty, hpc, Pc.surplus] using hR
  · simp [State.setParty, hpc, Pc.beyond]
  · simp [State.setParty]

theorem inv_take {count : Int} (hpc : (s.party p).pc = .taking count)
    (henough : s.waiting ≥ (s.party p).nthreads - count) :
    Inv ({ s with waiting := int32 (s.waiting - ((s.party p).nthreads - count)) }.goto p
      (.acquired (count + ((s.party p).nthreads - count)))) := by
  obtain ⟨h1, h2⟩ : 1 ≤ count ∧ count < (s.party p).nthreads := by
    have := (h.range p).pc
    rwa [hpc] at this
  have hids : (s.party p).ids = [] := by
    have := (h.has p).ids
    rwa [hpc] at this
  have hle := h.waiting_add_le p
  have howed := h.owed_nonneg p
  have hcreated := h.created
  have hsmall := L.small
  rw [int32_eq (by omega) (by omega)]
  refine h.plain (s.party p)
    (plain_acquired (show 1 ≤ count + ((s.party p).nthreads - count) by omega) (by omega)) ?_
    (h.range p).nthreads hids rfl
    (fun r hr => ⟨(h.range p).outer r hr, (h.has p).outer r hr⟩) ?_ ?_ ?_ ?_ rfl rfl rfl rfl rfl rfl
  · simp
  · simp only [Party.owed, hpc, Pc.counted, Pc.surplus, Pc.fresh]
    omega
  · intro R hR _
    simp only
    omega
  · simp only
    omega
  · simp [hpc, Pc.beyond]

theorem inv_takeSome {count : Int} (hpc : (s.party p).pc = .taking count)
    (hcalm : 0 ≤ s.waiting) (hfew : ¬ s.waiting ≥ (s.party p).nthreads - count) :
    Inv ({ s with waiting := int32 (s.waiting - ((s.party p).nthreads - count)) }.goto p
      (.restoring (count + s.waiting) ((s.party p).nthreads - count - s.waiting))) := by
  obtain ⟨h1, h2⟩ : 1 ≤ count ∧ count < (s.party p).nthreads := by
    have := (h.range p).pc
    rwa [hpc] at this
  have hids : (s.party p).ids = [] := by
    have := (h.has p).ids
    rwa [hpc] at this
  have hn := (h.range p).nthreads
  have howed : ({ s.party p with
      pc := .restoring (count + s.waiting) ((s.party p).nthreads - count - s.waiting) } : Party).owed
      = (s.party p).owed + ((s.party p).nthreads - count) := by
    simp only [Party.owed, Party.around, hpc, Pc.counted, Pc.surplus, Pc.fresh]
    omega
  rw [int32_eq (by omega) (by omega)]
  refine ⟨h.toCounts.change (goto_party _ _ _) ?_ ?_ ?_ h.created ?_ ?_ ?_,
    h.toIds.keep (goto_party _ _ _) rfl rfl ⟨hids, (h.has p).outer⟩ ?_ (fun q _ hq => h.lock q hq),
    h.unfailed⟩
  · simp only [goto_waiting, goto_created, howed]
    omega
  · intro R hR _
    simp only [goto_waiting, Pc.surplus]
    omega
  · simp [hpc, Pc.beyond]
  · simp only [goto_waiting]
    omega
  · refine ⟨hn, ⟨by omega, by omega, ?_⟩, (h.range p).outer⟩
    simp only
    omega
  · exact fun r hr => .inl hr
  · intro hl
    cases hl

theorem inv_restore {count : Int} (hpc : (s.party p).pc = .restoring count required) :
    Inv ({ s with waiting := int32 (s.waiting + required) }.goto p
      (createTest (s.party p).nthreads count required 0)) := by
  obtain ⟨h1, h2, h3⟩ : 1 ≤ count ∧ 0 < required ∧ count + required = (s.party p).nthreads := by
    have := (h.range p).pc
    rwa [hpc] at this
  have hids : (s.party p).ids = [] := by
    have := (h.has p).ids
    rwa [hpc] at this
  have hle := h.waiting_add_le p
  have haround := (h.range p).around_nonneg
  have hlow := h.low
  have hcreated := h.created
  have hsmall := L.small
  simp only [Party.owed, hpc, Pc.counted, Pc.surplus, Pc.fresh] at hle
  rw [int32_eq (by omega) (by omega)]
  refine h.plain (s.party p) (plain_createTest h1 (by omega) (le_refl 0)) (goto_party _ _ _)
    (h.range p).nthreads hids rfl
    (fun r hr => ⟨(h.range p).outer r hr, (h.has p).outer r hr⟩) ?_ ?_ ?_ ?_ rfl rfl rfl rfl rfl rfl
  · simp only [Party.owed, hpc, Pc.counted, Pc.surplus, Pc.fresh]
    omega
  · intro R hR hold
    simp only [hpc, Pc.surplus] at hold ⊢
    omega
  · simp only
    omega
  · simp [hpc, Pc.beyond]

theorem inv_create {count : Int}
    (hpc : (s.party p).pc = .creating count required made) (hmax : ¬ s.allocated ≥ L.maxThreads) :
    Inv ({ s with allocated := int32 (s.allocated + 1), created := s.created + 1 }.goto p
      (.announcing count required made)) := by
  have hrange := (h.range p).pc
  have hids := (h.has p).ids
  simp only [hpc, Pc.OwnIds, Pc.InRange] at hids hrange
  have halloc := h.allocated_le
  have hcreated := h.created
  have hsmall := L.small
  rw [int32_eq (by omega) (by omega)]
  refine ⟨h.toCounts.change (goto_party _ _ _) ?_ ?_ ?_ ?_ h.low
      ⟨(h.range p).nthreads, hrange, (h.range p).outer⟩ (fun r hr => .inl hr),
    h.toIds.keep (goto_party _ _ _) rfl rfl ⟨hids, (h.has p).outer⟩ ?_ (fun q _ hq => h.lock q hq),
    h.unfailed⟩
  · simp only [goto_waiting, goto_created, Party.owed, Party.around, hpc, Pc.counted, Pc.surplus,
      Pc.fresh]
    push_cast
    omega
  · intro R _ hold
    simpa [hpc, Pc.surplus] using hold
  · simp only [goto_allocated, goto_created, hpc, Pc.beyond]
    push_cast
    omega
  · simp only [goto_created]
    omega
  · intro hl
    cases hl

theorem inv_createNone {count : Int} (hpc : (s.party p).pc = .creating count required made) :
    Inv ({ s with allocated := int32 (s.allocated + 1) }.goto p (.undoing count made)) := by
  have hrange := (h.range p).pc
  have hids := (h.has p).ids
  simp only [hpc, Pc.OwnIds, Pc.InRange] at hids hrange
  have halloc := h.allocated_le
  have hcreated := h.created
  have hsmall := L.small
  rw [int32_eq (by omega) (by omega)]
  refine ⟨h.toCounts.change (goto_party _ _ _) ?_ ?_ ?_ h.created h.low
      ⟨(h.range p).nthreads, ⟨hrange.1, hrange.2.1⟩, (h.range p).outer⟩ (fun r hr => .inl hr),
    h.toIds.keep (goto_party _ _ _) rfl rfl ⟨hids, (h.has p).outer⟩ ?_ (fun q _ hq => h.lock q hq),
    h.unfailed⟩
  · simp [Party.owed, Party.around, hpc, Pc.counted, Pc.surplus, Pc.fresh]
  · intro R _ hold
    simpa [hpc, Pc.surplus] using hold
  · simp only [goto_allocated, goto_created, hpc, Pc.beyond]
    omega
  · intro hl
    cases hl

theorem inv_announce {count : Int} (hpc : (s.party p).pc = .announcing count required made) :
    Inv ({ s with waiting := int32 (s.waiting + 1) }.goto p
      (createTest (s.party p).nthreads count required (made + 1))) := by
  have hrange := (h.range p).pc
  have hids := (h.has p).ids
  simp only [hpc, Pc.OwnIds, Pc.InRange] at hids hrange
  have hle := h.waiting_add_le p
  have haround := (h.range p).around_nonneg
  have hlow := h.low
  have hcreated := h.created
  have hsmall := L.small
  simp only [Party.owed, hpc, Pc.counted, Pc.surplus, Pc.fresh] at hle
  rw [int32_eq (by omega) (by omega)]
  refine h.plain (s.party p) (plain_createTest hrange.1 hrange.2.1 (by omega)) (goto_party _ _ _)
    (h.range p).nthreads hids rfl
    (fun r hr => ⟨(h.range p).outer r hr, (h.has p).outer r hr⟩) ?_ ?_ ?_ ?_ rfl rfl rfl rfl rfl rfl
  · simp only [Party.owed, hpc, Pc.counted, Pc.surplus, Pc.fresh]
    omega
  · intro R hR hold
    simp only [hpc, Pc.surplus] at hold ⊢
    omega
  · simp only
    omega
  · simp [hpc, Pc.beyond]

theorem inv_undo {count : Int} (hpc : (s.party p).pc = .undoing count made) :
    Inv ({ s with allocated := int32 (s.allocated - 1) }.goto p
      (afterCreate (s.party p).nthreads count made)) := by
  have hrange := (h.range p).pc
  have hids := (h.has p).ids
  simp only [hpc, Pc.OwnIds, Pc.InRange] at hids hrange
  have halloc := h.allocated_le
  have hcreated := h.created
  have hsmall := L.small
  rw [int32_eq (by omega) (by omega)]
  refine h.plain (s.party p) (plain_afterCreate hrange.1 (by omega)) (goto_party _ _ _)
    (h.range p).nthreads hids rfl
    (fun r hr => ⟨(h.range p).outer r hr, (h.has p).outer r hr⟩) ?_ ?_ h.low ?_ rfl rfl rfl rfl rfl
    rfl
  · simp only [Party.owed, hpc, Pc.counted, Pc.surplus, Pc.fresh]
    omega
  · intro R _ hold
    simpa [hpc, Pc.surplus] using hold
  · simp [hpc, Pc.beyond]

theorem Inv.no_locks (hfree : s.lock = none) (q : Fin L.maxThreads) :
    (s.party q).pc.locks ≠ true := by
  intro hq
  rw [h.lock q hq] at hfree
  cases hfree

theorem Inv.only_locks (hp : (s.party p).pc.locks = true) (q : Fin L.maxThreads)
    (hne : q ≠ p) : (s.party q).pc.locks ≠ true := by
  intro hq
  have := (h.lock p hp).symm.trans (h.lock q hq)
  exact hne (Option.some.inj this).symm

theorem inv_pass {pc : Pc} {lock : Option (Fin L.maxThreads)}
    (hcounted : pc.counted = (s.party p).pc.counted)
    (hsurplus : pc.surplus = 0 ∧ (s.party p).pc.surplus = 0)
    (hfresh : pc.fresh = 0 ∧ (s.party p).pc.fresh = 0)
    (hbeyond : pc.beyond = 0 ∧ (s.party p).pc.beyond = 0)
    (hrange : pc.InRange (s.party p).nthreads) (hown : pc.OwnIds (s.party p).ids)
    (hacquired : ∀ count, pc ≠ .acquired count) (hlock : pc.locks = true → lock = some p)
    (hothers : ∀ q, q ≠ p → (s.party q).pc.locks ≠ true) :
    Inv ({ s with lock := lock }.goto p pc) := by
  refine ⟨h.toCounts.change (goto_party _ _ _) ?_ ?_ ?_ ?_ ?_
      ⟨(h.range p).nthreads, hrange, (h.range p).outer⟩ ?_,
    h.toIds.keep (goto_party _ _ _) rfl ?_ ⟨hown, (h.has p).outer⟩ ?_
      (fun q hq hl => absurd hl (hothers q hq)), ?_⟩
  · simp only [goto_waiting, goto_created, Party.owed, Party.around, hcounted, hsurplus.1,
      hsurplus.2, hfresh.1, hfresh.2]
  · intro R _ hold
    simpa [hsurplus.1, hsurplus.2] using hold
  · simp [hbeyond.1, hbeyond.2]
  · simpa using h.created
  · simpa using h.low
  · intro r hr
    rcases mem_goto_returns hr with hr | ⟨c, hc, _⟩
    · exact .inl hr
    · exact absurd hc (hacquired c)
  · simp
  · simpa using hlock
  · simpa using h.unfailed

/-- The workers that a party is promised are on the stack when it comes to take them. -/
theorem Inv.stack_ne_nil {count : Int} (hpc : (s.party p).pc = .assigning count)
    (hfew : ((s.party p).ids.length : Int) < count - 1) : s.stack ≠ [] := by
  intro hnil
  have hle : ∀ q, ((s.party q).held.length : Int) ≤ (s.party q).pc.counted + (s.party q).around := by
    intro q
    have := (h.has q).ids_le (h.range q)
    rw [(h.has q).length_held]
    omega
  have hlt : ((s.party p).held.length : Int) < (s.party p).pc.counted + (s.party p).around := by
    rw [(h.has p).length_held, hpc]
    simp only [Pc.counted]
    omega
  -- one thread has fewer ids than workers, and no thread has more
  have hsum : ∑ q, ((s.party q).held.length : Int)
      < ∑ q, ((s.party q).pc.counted + (s.party q).around) :=
    Finset.sum_lt_sum (fun q _ => hle q) ⟨p, Finset.mem_univ p, hlt⟩
  have howed : ∑ q, ((s.party q).pc.counted + (s.party q).around + (s.party q).pc.surplus)
      ≤ ∑ q, (s.party q).owed := by
    refine Finset.sum_le_sum fun q _ => ?_
    have := (h.range q).pc.nonneg
    unfold Party.owed
    omega
  rw [Finset.sum_add_distrib] at howed
  have htotal := h.total
  have hbalance := h.balance
  have henough := h.enough
  have hcreated := h.created
  rw [hnil] at htotal
  simp only [length_nil] at htotal
  omega

theorem inv_pop {count : Int} (hpc : (s.party p).pc = .assigning count)
    (hfew : ((s.party p).ids.length : Int) < count - 1) {stack : List Nat}
    (hstack : s.stack = id :: stack) : Inv ({ s with stack := stack }.setParty p
      { s.party p with ids := id :: (s.party p).ids }) := by
  refine ⟨h.toCounts.change rfl ?_ ?_ ?_ h.created h.low
      ⟨(h.range p).nthreads, (h.range p).pc, (h.range p).outer⟩ (fun r hr => .inl hr),
    h.toIds.pop rfl rfl hstack ⟨?_, (h.has p).outer⟩ rfl rfl, h.unfailed⟩
  · simp [State.setParty, Party.owed, Party.around]
  · intro R _ hold
    exact hold
  · simp [State.setParty]
  · simp only [hpc, Pc.OwnIds, length_cons]
    push_cast
    omega

theorem inv_push {count : Int} (hpc : (s.party p).pc = .releasing count)
    {ids : List Nat} (hids : (s.party p).ids = id :: ids) :
    Inv ({ s with stack := id :: s.stack }.setParty p { s.party p with ids := ids }) := by
  have hown := (h.has p).ids
  simp only [hpc, Pc.OwnIds, hids, length_cons] at hown
  refine ⟨h.toCounts.change rfl ?_ ?_ ?_ h.created h.low
      ⟨(h.range p).nthreads, (h.range p).pc, (h.range p).outer⟩ (fun r hr => .inl hr),
    h.toIds.push rfl ?_ rfl ⟨?_, (h.has p).outer⟩ rfl rfl, h.unfailed⟩
  · simp [State.setParty, Party.owed, Party.around]
  · intro R _ hold
    exact hold
  · simp [State.setParty]
  · simp [Party.held, hids]
  · simp only [hpc, Pc.OwnIds]
    omega

theorem Inv.stack_room : s.stack.length < L.maxThreads := by
  have htotal := h.total
  have hsum : (0 : Int) ≤ ∑ q, ((s.party q).held.length : Int) :=
    Finset.sum_nonneg fun q _ => Int.natCast_nonneg _
  omega

theorem Inv.returned {count : Int} (hpc : (s.party p).pc = .returning count) :
    int32 (s.waiting + (count - 1)) = s.waiting + (count - 1) ∧ 1 ≤ count ∧
      (s.party p).ids = [] := by
  have hrange := (h.range p).pc
  have hids := (h.has p).ids
  simp only [hpc, Pc.OwnIds, Pc.InRange] at hids hrange
  have hle := h.waiting_add_le p
  have haround := (h.range p).around_nonneg
  have hlow := h.low
  have hcreated := h.created
  have hsmall := L.small
  simp only [Party.owed, hpc, Pc.counted, Pc.surplus, Pc.fresh] at hle
  exact ⟨int32_eq (by omega) (by omega), hrange, hids⟩

theorem inv_return {count : Int} (hpc : (s.party p).pc = .returning count) :
    Inv ({ s with waiting := int32 (s.waiting + (count - 1)) }.goto p .idle) := by
  obtain ⟨hint, hcount, hids⟩ := h.returned hpc
  have hlow := h.low
  rw [hint]
  refine ⟨h.toCounts.change (goto_party _ _ _) ?_ ?_ ?_ h.created ?_
      ⟨(h.range p).nthreads, trivial, (h.range p).outer⟩ (fun r hr => .inl hr),
    h.toIds.keep (goto_party _ _ _) rfl rfl ⟨hids, (h.has p).outer⟩ ?_ (fun q _ hq => h.lock q hq),
    h.unfailed⟩
  · simp only [goto_waiting, goto_created, Party.owed, Party.around, hpc, Pc.counted, Pc.surplus,
      Pc.fresh]
    omega
  · intro R _ hold
    simp only [goto_waiting, hpc, Pc.surplus] at hold ⊢
    omega
  · simp [hpc, Pc.beyond]
  · simp only [goto_waiting]
    omega
  · intro hl
    cases hl

theorem inv_returnOuter {count : Int} (hpc : (s.party p).pc = .returning count)
    {r : Region} (houter : (s.party p).outer = r :: outer) :
    Inv (({ s with waiting := int32 (s.waiting + (count - 1)) }.setParty p
      { s.party p with ids := r.ids, outer := outer }).goto p (.working r.count)) := by
  obtain ⟨hint, hcount, hids⟩ := h.returned hpc
  have hlow := h.low
  have hr := (h.range p).outer r (houter ▸ mem_cons_self)
  have hrids := (h.has p).outer r (houter ▸ mem_cons_self)
  have hrest : ∀ r' ∈ outer, r' ∈ (s.party p).outer := by
    intro r' hr'
    rw [houter]
    exact mem_cons_of_mem _ hr'
  have hparty : (({ s with waiting := s.waiting + (count - 1) }.setParty p
      { s.party p with ids := r.ids, outer := outer }).goto p (.working r.count)).party =
        update s.party p
          { s.party p with pc := .working r.count, ids := r.ids, outer := outer } := by
    simp [State.setParty]
  rw [hint]
  refine ⟨h.toCounts.change hparty ?_ ?_ ?_ h.created ?_
      ⟨(h.range p).nthreads, hr, fun r' hr' => (h.range p).outer r' (hrest r' hr')⟩
      (fun r hr => .inl hr),
    h.toIds.keep hparty ?_ rfl ⟨hrids, fun r' hr' => (h.has p).outer r' (hrest r' hr')⟩ ?_
      (fun q _ hq => h.lock q hq), h.unfailed⟩
  · simp only [goto_waiting, goto_created, State.setParty, Party.owed, Party.around, hpc, houter,
      Pc.counted, Pc.surplus, Pc.fresh, map_cons, sum_cons]
    omega
  · intro R _ hold
    simp only [goto_waiting, State.setParty, hpc, Pc.surplus] at hold ⊢
    omega
  · simp [State.setParty, hpc, Pc.beyond]
  · simp only [goto_waiting, State.setParty]
    omega
  · simp [Party.held, hids, houter]
  · intro hl
    cases hl

end

end Steps

theorem inv_initial {s : State L} (h : Initial s) : Inv s := by
  have hzero : ∀ f : Party → Int, f ⟨0, .idle, [], []⟩ = 0 → ∑ p, f (s.party p) = 0 := by
    intro f hf
    exact Finset.sum_eq_zero fun p _ => by rw [h.party, hf]
  refine ⟨⟨?_, ?_, ?_, h.created, ?_, ?_, ?_⟩, ⟨?_, ?_, ?_, ?_, ?_, ?_, ?_⟩, h.failed⟩
  · rw [hzero Party.owed rfl, h.waiting]
    omega
  · rw [hzero (fun P => P.pc.surplus) rfl, h.waiting]
    omega
  · rw [hzero (fun P => P.pc.beyond) rfl, h.allocated]
    omega
  · have := h.waiting
    omega
  · intro p
    rw [h.party]
    exact ⟨by decide, trivial, fun r hr => by cases hr⟩
  · simp [h.returns]
  · rw [h.stack]
    exact nodup_range.map fun a b hab => by simpa using hab
  · intro p
    simp [h.party, Party.held]
  · intro p
    simp [h.party, Party.held]
  · intro p q _
    simp [h.party, Party.held]
  · have hpos := L.pos
    rw [hzero (fun P => (P.held.length : Int)) rfl, h.stack, length_map, length_range]
    omega
  · intro p
    rw [h.party]
    exact ⟨rfl, fun r hr => by cases hr⟩
  · intro p
    simp [h.party, Pc.locks]

/-- One calm step keeps the invariant: workers waiting, promised and held add up. -/
theorem inv_step {s s' : State L} (h : Inv s) (hstep : CalmStep s s') : Inv s' := by
  obtain ⟨p, call, hcall, hcalm, hst⟩ := hstep
  have hrange := (h.range p).pc
  have hids := (h.has p).ids
  have hfailed := h.unfailed
  unfold stepParty at hst
  dsimp only at hst
  rw [if_neg (by simp [hfailed])] at hst
  -- one case for each position
  split at hst
  · rename_i hpc
    cases call with
    | none => cases hst
    | some nthreads =>
      obtain ⟨h1, h2⟩ := hcall nthreads rfl
      cases hst
      exact inv_idle h h1 h2 hpc
  · -- the count of those waiting is lowered by what is required
    rename_i count hpc
    cases hst
    split
    · rename_i henough
      exact inv_take h hpc henough
    · rename_i hfew
      simp only [Calm, hpc, decide_eq_true_eq] at hcalm
      exact inv_takeSome h hpc hcalm hfew
  · rename_i count required hpc
    cases hst
    exact inv_restore h hpc
  · rename_i count required made hpc
    have halloc := h.allocated_le
    rw [if_neg (by omega)] at hst
    split at hst
    · cases hst
      exact inv_createNone h hpc
    · rename_i hmax
      cases hst
      exact inv_create h hpc hmax
  · rename_i count required made hpc
    cases hst
    exact inv_announce h hpc
  · rename_i count made hpc
    cases hst
    exact inv_undo h hpc
  · rename_i count hpc
    simp only [hpc, Pc.OwnIds, Pc.InRange] at hids hrange
    rw [if_neg (by omega)] at hst
    split at hst
    · rename_i hfree
      cases hst
      refine inv_pass h ?_ ?_ ?_ ?_ hrange ?_ ?_ (fun _ => rfl) fun q _ => h.no_locks hfree q
      · simp [hpc, Pc.counted]
      · simp [hpc, Pc.surplus]
      · simp [hpc, Pc.fresh]
      · simp [hpc, Pc.beyond]
      · simp only [hids, Pc.OwnIds, length_nil]
        omega
      · intro c hc
        cases hc
    · cases hst
  · -- one id after the other is taken from the stack
    rename_i count hpc
    simp only [hpc, Pc.OwnIds, Pc.InRange] at hids hrange
    split at hst
    · rename_i hfew
      split at hst
      · rename_i hnil
        exact absurd hnil (h.stack_ne_nil hpc hfew)
      · rename_i id stack hstack
        cases hst
        exact inv_pop h hpc hfew hstack
    · cases hst
      refine inv_pass h ?_ ?_ ?_ ?_ hrange ?_ ?_ ?_ (h.only_locks (by simp [hpc, Pc.locks]))
      · simp [hpc, Pc.counted]
      · simp [hpc, Pc.surplus]
      · simp [hpc, Pc.fresh]
      · simp [hpc, Pc.beyond]
      · simp only [Pc.OwnIds]
        omega
      · intro c hc
        cases hc
      · intro hl
        cases hl
  · -- at work: a nested fork, or the end of this one
    rename_i count hpc
    simp only [hpc, Pc.OwnIds, Pc.InRange] at hids hrange
    cases call with
    | some nthreads =>
      obtain ⟨h1, h2⟩ := hcall nthreads rfl
      cases hst
      exact inv_nested h h1 h2 hpc
    | none =>
      simp only at hst
      split at hst
      · rename_i hfree
        cases hst
        refine inv_pass h ?_ ?_ ?_ ?_ hrange ?_ ?_ (fun _ => rfl) fun q _ => h.no_locks hfree q
        · simp [hpc, Pc.counted]
        · simp [hpc, Pc.surplus]
        · simp [hpc, Pc.fresh]
        · simp [hpc, Pc.beyond]
        · simp only [Pc.OwnIds]
          omega
        · intro c hc
          cases hc
      · cases hst
  · rename_i count hpc
    simp only [hpc, Pc.OwnIds, Pc.InRange] at hids hrange
    split at hst
    · rename_i hnil
      cases hst
      refine inv_pass h ?_ ?_ ?_ ?_ hrange ?_ ?_ ?_ (h.only_locks (by simp [hpc, Pc.locks]))
      · simp [hpc, Pc.counted]
      · simp [hpc, Pc.surplus]
      · simp [hpc, Pc.fresh]
      · simp [hpc, Pc.beyond]
      · exact hnil
      · intro c hc
        cases hc
      · intro hl
        cases hl
    · rename_i id ids hcons
      rw [if_pos h.stack_room] at hst
      cases hst
      exact inv_push h hpc hcons
  · rename_i count hpc
    split at hst
    · cases hst
      exact inv_return h hpc
    · rename_i r outer houter
      cases hst
      exact inv_returnOuter h hpc houter

/-! ## Teams of a legal size -/

/-- While no fetch-and-add reads a value below 0, every acquisition returns between 1 and what was
asked for. -/
theorem acquire_legal {n : Nat} {s₀ s : State L} (h₀ : Initial s₀) (hrun : Run CalmStep n s₀ s) :
    ∀ r ∈ s.returns, 1 ≤ r.2 ∧ r.2 ≤ r.1 :=
  (hrun.inv (fun _ _ ht hst => inv_step ht hst) (inv_initial h₀)).returns

def pmpMaxThreads : Limit := ⟨256, by decide, by decide⟩

instance : NeZero pmpMaxThreads.maxThreads := ⟨by decide⟩

/-- After `__pmp_manager_init`, with all threads created. -/
def start (L : Limit) : State L where
  waiting := (L.maxThreads - 1 : Nat)
  allocated := (L.maxThreads - 1 : Nat) + 1
  created := L.maxThreads - 1
  stack := (range (L.maxThreads - 1)).map (· + 1)
  lock := none
  party := fun _ => ⟨0, .idle, [], []⟩
  returns := []
  failed := false

theorem initial_start (L : Limit) : Initial (start L) := by
  have := L.pos
  refine ⟨?_, rfl, rfl, rfl, rfl, fun _ => rfl, rfl, rfl⟩
  show L.maxThreads - 1 < L.maxThreads
  omega

/-- A step of a thread, with the argument of its call. -/
def stepCall (c : Fin L.maxThreads × Option Int) (s : State L) : Option (State L) :=
  if LegalCall c.2 then stepParty c.1 c.2 s else none

def stepCallCalm (c : Fin L.maxThreads × Option Int) (s : State L) : Option (State L) :=
  if Calm c.1 s then stepCall c s else none

theorem teamStep_of_stepCall {s s' : State L} (h : stepCall c s = some s') : TeamStep s s' := by
  unfold stepCall at h
  split at h
  · rename_i hlegal
    exact ⟨c.1, c.2, hlegal, h⟩
  · cases h

theorem calmStep_of_stepCallCalm {s s' : State L}
    (h : stepCallCalm c s = some s') : CalmStep s s' := by
  unfold stepCallCalm stepCall at h
  split at h
  · rename_i hcalm
    split at h
    · rename_i hlegal
      exact ⟨c.1, c.2, hlegal, hcalm, h⟩
    · cases h
  · cases h

/-- The main thread forks with four workers, the first of these takes all others, and the third
comes before the second adds back. -/
def overlap : List (Fin pmpMaxThreads.maxThreads × Option Int) :=
  [(0, some 5), (0, none), (0, none), (0, none), (0, none), (0, none), (0, none), (0, none),
    (1, some 252), (1, none), (2, some 10), (2, none), (3, some 2), (3, none), (3, none),
    (3, none), (3, none)]

/-- Then the second adds it back, and the fourth takes it. -/
def overlap' : List (Fin pmpMaxThreads.maxThreads × Option Int) :=
  overlap ++ [(2, none), (4, some 5), (4, none)]

/-- The third comes when the second is through. -/
def noOverlap : List (Fin pmpMaxThreads.maxThreads × Option Int) :=
  [(0, some 5), (0, none), (0, none), (0, none), (0, none), (0, none), (0, none), (0, none),
    (1, some 252), (1, none), (2, some 10), (2, none), (2, none), (2, none), (2, none),
    (3, some 2), (3, none), (3, none), (3, none), (3, none)]

/-- The third worker asks for a team of 2, and is given one of -8. -/
theorem acquire_returns_minus_8 : ∃ s₀ s : State pmpMaxThreads, Initial s₀ ∧
    (∃ n, Run TeamStep n s₀ s) ∧ ((2, -8) : Int × Int) ∈ s.returns := by
  let o := overlap.foldlM (fun s c => stepCall c s) (start pmpMaxThreads)
  have hend : o.all (fun s => decide (((2, -8) : Int × Int) ∈ s.returns)) = true ∧
      o.isSome = true := by decide
  obtain ⟨s, hs⟩ := Option.isSome_iff_exists.mp hend.2
  have hrun := Run.of_foldlM (fun c s s' (h : stepCall c s = some s') => teamStep_of_stepCall h) _
    (.refl _) hs
  rw [hs] at hend
  exact ⟨start pmpMaxThreads, s, initial_start _, ⟨_, hrun⟩, of_decide_eq_true hend.1⟩

theorem acquire_legal_overlap : ∃ s₀ s : State pmpMaxThreads, Initial s₀ ∧
    (∃ n, Run CalmStep n s₀ s) ∧ ((2, 1) : Int × Int) ∈ s.returns ∧
      ∀ r ∈ s.returns, 1 ≤ r.2 ∧ r.2 ≤ r.1 := by
  let o := noOverlap.foldlM (fun s c => stepCallCalm c s) (start pmpMaxThreads)
  have hend : o.all (fun s => decide (((2, 1) : Int × Int) ∈ s.returns)) = true ∧
      o.isSome = true := by decide
  obtain ⟨s, hs⟩ := Option.isSome_iff_exists.mp hend.2
  have hrun := Run.of_foldlM
    (fun c s s' (h : stepCallCalm c s = some s') => calmStep_of_stepCallCalm h) _ (.refl _) hs
  rw [hs] at hend
  exact ⟨start pmpMaxThreads, s, initial_start _, ⟨_, hrun⟩, of_decide_eq_true hend.1,
    acquire_legal (initial_start _) hrun⟩

/-! ## Workers that are there -/

theorem sum_toNat (h : ∀ r ∈ outer, 1 ≤ r.count) :
    (((outer.map fun r => (r.count - 1).toNat).sum : Nat) : Int)
      = (outer.map fun r => r.count - 1).sum := by
  induction outer with
  | nil => rfl
  | cons r outer ih =>
    have hr := h r mem_cons_self
    rw [map_cons, sum_cons, map_cons, sum_cons,
      ← ih fun r hr => h r (mem_cons_of_mem _ hr)]
    push_cast
    omega

theorem granted_le (h : P.InRange) : (P.granted : Int) ≤ P.pc.counted + P.around := by
  have hsum := sum_toNat h.outer
  have hpc := h.pc.nonneg
  unfold Party.granted Party.around
  push_cast [hsum]
  omega

theorem Inv.granted_le {s : State L} (h : Inv s) : ∑ p, (s.party p).granted ≤ s.created := by
  have hle : ∑ p, (((s.party p).granted : Int) + (s.party p).pc.surplus)
      ≤ ∑ p, (s.party p).owed := by
    refine Finset.sum_le_sum fun p _ => ?_
    have hgranted := Workers.granted_le (h.range p)
    have hpc := (h.range p).pc.nonneg
    unfold Party.owed
    omega
  rw [Finset.sum_add_distrib] at hle
  have hbalance := h.balance
  have henough := h.enough
  have hcast : ((∑ p, (s.party p).granted : Nat) : Int) = ∑ p, ((s.party p).granted : Int) := by
    push_cast
    rfl
  omega

/-- While no fetch-and-add reads a value below 0, the ids are apart, no assertion fails, a pop finds
an id, and no worker is granted twice. -/
theorem workers_apart {n : Nat} {s₀ s : State L} (h₀ : Initial s₀) (hrun : Run CalmStep n s₀ s) :
    s.stack.Nodup ∧ (∀ p, (s.party p).held.Nodup ∧ ∀ id ∈ (s.party p).held, id ∉ s.stack) ∧
      (∀ p q, p ≠ q → ∀ id ∈ (s.party p).held, id ∉ (s.party q).held) ∧
      s.failed = false ∧ ∑ p, (s.party p).granted ≤ s.created := by
  have h := hrun.inv (fun _ _ ht hst => inv_step ht hst) (inv_initial h₀)
  exact ⟨h.stack, fun p => ⟨h.held p, h.apart p⟩, h.disjoint, h.unfailed, h.granted_le⟩

/-- Together the workers were granted 259 workers of 255. -/
theorem granted_259_of_255 : ∃ s₀ s : State pmpMaxThreads, Initial s₀ ∧
    (∃ n, Run TeamStep n s₀ s) ∧ ∑ p, (s.party p).granted = 259 ∧ s.created = 255 := by
  let o := overlap'.foldlM (fun s c => stepCall c s) (start pmpMaxThreads)
  have hend : o.all (fun s => decide (∑ p, (s.party p).granted = 259 ∧ s.created = 255)) = true ∧
      o.isSome = true := by decide +kernel
  obtain ⟨s, hs⟩ := Option.isSome_iff_exists.mp hend.2
  have hrun := Run.of_foldlM (fun c s s' (h : stepCall c s = some s') => teamStep_of_stepCall h) _
    (.refl _) hs
  rw [hs] at hend
  simp only [Option.all_some, decide_eq_true_eq] at hend
  exact ⟨start pmpMaxThreads, s, initial_start _, ⟨_, hrun⟩, hend.1⟩

theorem workers_apart_noOverlap : ∃ s₀ s : State pmpMaxThreads, Initial s₀ ∧
    (∃ n, Run CalmStep n s₀ s) ∧ ∑ p, (s.party p).granted ≤ s.created ∧
      (s.party 0).ids = [4, 3, 2, 1] := by
  let o := noOverlap.foldlM (fun s c => stepCallCalm c s) (start pmpMaxThreads)
  have hend : o.all (fun s => decide ((s.party 0).ids = [4, 3, 2, 1])) = true ∧
      o.isSome = true := by decide
  obtain ⟨s, hs⟩ := Option.isSome_iff_exists.mp hend.2
  have hrun := Run.of_foldlM
    (fun c s s' (h : stepCallCalm c s = some s') => calmStep_of_stepCallCalm h) _ (.refl _) hs
  rw [hs] at hend
  exact ⟨start pmpMaxThreads, s, initial_start _, ⟨_, hrun⟩,
    (workers_apart (initial_start _) hrun).2.2.2.2, of_decide_eq_true hend.1⟩

end OpenMP.Workers
