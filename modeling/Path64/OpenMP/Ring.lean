import Mathlib.Data.Fintype.Fin
import Path64.Lib.Interleaving

/-! # The ring of loop descriptors

A thread that comes to its `k`-th loop tries to move the team's counter
from `k` to `k + 1`; the one that succeeds waits for the descriptor to be
unused and fills it in, the others wait until it bears the id `k`. The
last thread to leave the loop marks it as unused. Every read and write
of shared memory is one step; in between a thread updates the fields
that the schedules change. -/

namespace OpenMP.Ring

open Finset Function Interleaving

/-! ## Model -/

/-- The arguments of `__pmp_loop_alloc`. -/
structure LoopArgs where
  sched : Int
  lower : Int
  upper : Int
  inc : Int
  chunk : Int
  minChunk : Int

/-- `pmp_loop_t`. -/
structure Desc where
  loopId : Int
  loopingThreads : Int
  nowServing : Int
  sched : Int
  lower : Int
  upper : Int
  inc : Int
  chunk : Int
  current : Int
  minChunk : Int

/-- `PMP_LOOP_UNUSED`. -/
def loopUnused : Int := -1

/-- Where a thread stands in `__pmp_loop_alloc` and `__pmp_loop_free`. -/
inductive Pc where
  /-- `thread->loop` is null. -/
  | idle
  /-- The first thread to hit the loop, before its first assertion. -/
  | first
  /-- `while (loop->loop_id != PMP_LOOP_UNUSED)`. -/
  | spin
  /-- Before the assignment of field number `field`. -/
  | fill (field : Nat)
  /-- Before the compare-and-swap of `loop_id`. -/
  | publish
  /-- `while (loop->loop_id != loop_id)`. -/
  | wait
  /-- In the loop: `thread->loop` is the descriptor. -/
  | holding
  /-- In `__pmp_loop_free`, before the fetch-and-add. -/
  | freeing
  /-- The last one to free the loop, before `loop_id` is reset. -/
  | releasing
  deriving DecidableEq

/-- A thread: its position and `thread->loop_count`. -/
structure Thread where
  pc : Pc
  loopCount : Nat

/-- A team: `1 << log2Loops` descriptors, and the loops of every thread, fewer than `2 ^ 31`. -/
structure Team where
  teamSize : Nat
  log2Loops : Nat
  loops : Nat
  args : Nat → LoopArgs
  few : loops < 2 ^ 31

/-- `initialised` lists the loops filled in, with the thread, and `worked` those in which a thread
has changed what the schedules change. -/
structure State (T : Team) where
  loopCount : Nat
  ring : Nat → Desc
  thread : Fin T.teamSize → Thread
  initialised : List (Nat × Fin T.teamSize)
  worked : List Nat
  failed : Bool

/-- `thread_count & PMP_MASK_LOOP_ID`. -/
def loopIdOf (threadCount : Nat) : Int := ((threadCount &&& 0x7fffffff : Nat) : Int)

/-- `thread_count & PMP_MASK_LOOP_INDEX`. -/
def Team.loopIndex (T : Team) (threadCount : Nat) : Nat := threadCount &&& (2 ^ T.log2Loops - 1)

/-- The assignments of the first thread, in their order. -/
def writeField (T : Team) (a : LoopArgs) (d : Desc) : Nat → Desc
  | 0 => { d with loopingThreads := T.teamSize }
  | 1 => { d with nowServing := a.lower }
  | 2 => { d with sched := a.sched }
  | 3 => { d with lower := a.lower }
  | 4 => { d with upper := a.upper }
  | 5 => { d with inc := a.inc }
  | 6 => { d with chunk := a.chunk }
  | 7 => { d with current := a.lower }
  | _ => { d with minChunk := a.minChunk }

/-- The number of the last assignment. -/
def lastField : Nat := 8

variable {T : Team}

namespace State

/-- The loop that a thread is at: its count is one ahead. -/
def loopOf (s : State T) (t : Fin T.teamSize) : Nat := (s.thread t).loopCount - 1

/-- `thread->loop`, or the descriptor that it will be. -/
def desc (s : State T) (t : Fin T.teamSize) : Desc := s.ring (T.loopIndex (s.loopOf t))

def setPc (s : State T) (t : Fin T.teamSize) (pc : Pc) : State T :=
  { s with thread := update s.thread t { s.thread t with pc := pc } }

def setDesc (s : State T) (t : Fin T.teamSize) (d : Desc) : State T :=
  { s with ring := update s.ring (T.loopIndex (s.loopOf t)) d }

/-- `assert`. -/
def check (s : State T) (b : Bool) : State T := { s with failed := s.failed || !b }

end State

/-- The next step of thread `t`; `none` when it has run all. -/
def stepThread (t : Fin T.teamSize) (s : State T) : Option (State T) :=
  let threadCount := (s.thread t).loopCount
  let loop := s.desc t
  let loopId := loopIdOf (s.loopOf t)
  match (s.thread t).pc with
  | .idle =>
    if threadCount < T.loops then
      -- the compare-and-swap of `team->loop_count`
      let pc := if s.loopCount = threadCount then .first else .wait
      some { s with
        loopCount := if s.loopCount = threadCount then threadCount + 1 else s.loopCount
        thread := update s.thread t { pc := pc, loopCount := threadCount + 1 } }
    else none
  | .first => some ((s.check (loop.loopId ≠ loopId)).setPc t .spin)
  | .spin => some (if loop.loopId ≠ loopUnused then s else s.setPc t (.fill 0))
  | .fill field =>
    some ((s.setDesc t (writeField T (T.args (s.loopOf t)) loop field)).setPc t
      (if field = lastField then .publish else .fill (field + 1)))
  | .publish =>
    let s' := if loop.loopId = loopUnused then s.setDesc t { loop with loopId := loopId } else s
    let s' := s'.check (loop.loopId = loopUnused)
    some ({ s' with initialised := (s.loopOf t, t) :: s.initialised }.setPc t .holding)
  | .wait => some (if loop.loopId ≠ loopId then s else s.setPc t .holding)
  | .holding => some ((s.check (loop.loopId = loopId)).setPc t .freeing)
  | .freeing =>
    let count := loop.loopingThreads
    let s' := s.setDesc t { loop with loopingThreads := count - 1 }
    some ((s'.check (1 ≤ count)).setPc t (if count = 1 then .releasing else .idle))
  | .releasing => some ((s.setDesc t { loop with loopId := loopUnused }).setPc t .idle)

/-- What the schedules do to the descriptor of their loop. -/
def work (t : Fin T.teamSize) (nowServing chunk current : Int) (s : State T) : State T :=
  { s.setDesc t { s.desc t with nowServing := nowServing, chunk := chunk, current := current } with
    worked := s.loopOf t :: s.worked }

/-- One step of any thread. -/
def TeamStep (s s' : State T) : Prop :=
  ∃ t, stepThread t s = some s' ∨
    ((s.thread t).pc = .holding ∧ ∃ n c k, s' = work t n c k s)

/-- A new team: no loop yet, every descriptor unused. -/
structure Initial (s : State T) : Prop where
  loopCount : s.loopCount = 0
  ring : ∀ i, (s.ring i).loopId = loopUnused
  thread : ∀ t, s.thread t = { pc := .idle, loopCount := 0 }
  initialised : s.initialised = []
  worked : s.worked = []
  failed : s.failed = false

/-! ## The invariant -/

/-- The loops that a thread has left completely, freed, and left `__pmp_loop_alloc` for. -/
def Thread.gone (th : Thread) : Nat :=
  match th.pc with
  | .idle => th.loopCount
  | _ => th.loopCount - 1

def Thread.freed (th : Thread) : Nat :=
  match th.pc with
  | .idle | .releasing => th.loopCount
  | _ => th.loopCount - 1

def Thread.entered (th : Thread) : Nat :=
  match th.pc with
  | .idle | .holding | .freeing | .releasing => th.loopCount
  | _ => th.loopCount - 1

/-- In the branch of the first thread to hit a loop. -/
def Pc.isFirst : Pc → Bool
  | first | spin | fill _ | publish => true
  | _ => false

/-- The fields that are filled in, from the first assignment to the compare-and-swap. -/
def Pc.filled : Pc → Option Nat
  | fill field => some field
  | publish => some (lastField + 1)
  | _ => none

/-- The first `n` assignments. -/
def fillUpTo (T : Team) (a : LoopArgs) (d : Desc) : Nat → Desc
  | 0 => d
  | n + 1 => writeField T a (fillUpTo T a d n) n

/-- The fields are those of the loop: the ones that the schedules change as long as no thread has
`worked` in the loop. -/
structure Desc.Describes (d : Desc) (a : LoopArgs) (worked : Prop) : Prop where
  sched : d.sched = a.sched
  lower : d.lower = a.lower
  upper : d.upper = a.upper
  inc : d.inc = a.inc
  minChunk : d.minChunk = a.minChunk
  nowServing : ¬worked → d.nowServing = a.lower
  chunk : ¬worked → d.chunk = a.chunk
  current : ¬worked → d.current = a.lower

/-- The descriptor of loop `k` was filled in. -/
def State.Inited (s : State T) (k : Nat) : Prop := k ∈ s.initialised.map Prod.fst

/-- The threads that have not freed loop `k`. -/
def State.users (s : State T) (k : Nat) : Finset (Fin T.teamSize) :=
  Finset.univ.filter fun t => (s.thread t).freed ≤ k

/-- Loop `k` has its descriptor. -/
structure State.InSlot (s : State T) (k : Nat) : Prop where
  loopId : (s.ring (T.loopIndex k)).loopId = loopIdOf k
  describes : (s.ring (T.loopIndex k)).Describes (T.args k) (k ∈ s.worked)
  users : (s.ring (T.loopIndex k)).loopingThreads = ((s.users k).card : Int)

structure Inv (s : State T) : Prop where
  failed : s.failed = false
  total : s.loopCount ≤ T.loops
  count : ∀ t, (s.thread t).loopCount ≤ s.loopCount
  busy : ∀ t, (s.thread t).pc ≠ .idle → 1 ≤ (s.thread t).loopCount
  bound : ∀ k, s.Inited k → k < s.loopCount
  nodup : (s.initialised.map Prod.fst).Nodup
  /-- a loop that was hit is initialised, or some thread is at it -/
  starter : ∀ k < s.loopCount, s.Inited k ∨
    ∃ t, (s.thread t).pc.isFirst = true ∧ s.loopOf t = k
  fresh : ∀ t, (s.thread t).pc.isFirst = true → ¬s.Inited (s.loopOf t)
  unique : ∀ t t', (s.thread t).pc.isFirst = true → (s.thread t').pc.isFirst = true →
    s.loopOf t = s.loopOf t' → t = t'
  entered : ∀ t, ∀ k < (s.thread t).entered, s.Inited k
  /-- an initialised loop has its descriptor until every thread is gone -/
  slot : ∀ k, s.Inited k → s.InSlot k ∨ ∀ t, k < (s.thread t).gone
  ids : ∀ i, (s.ring i).loopId = loopUnused ∨
    ∃ k, s.Inited k ∧ T.loopIndex k = i ∧ (s.ring i).loopId = loopIdOf k
  releasing : ∀ t, (s.thread t).pc = .releasing → ∀ t', s.loopOf t < (s.thread t').freed
  oneReleasing : ∀ t t', (s.thread t).pc = .releasing → (s.thread t').pc = .releasing →
    s.loopOf t = s.loopOf t' → t = t'
  filling : ∀ t n, (s.thread t).pc.filled = some n →
    ((s.thread t).pc = .publish ∨ n ≤ lastField) ∧
    ∃ d, d.loopId = loopUnused ∧ s.desc t = fillUpTo T (T.args (s.loopOf t)) d n

theorem initial_inv {s : State T} (h : Initial s) : Inv s := by
  have hnone : ∀ k, ¬s.Inited k := by
    intro k
    simp [State.Inited, h.initialised]
  refine ⟨h.failed, ?_, ?_, ?_, fun k hk => absurd hk (hnone k), ?_, ?_, fun t _ => hnone _, ?_, ?_,
    fun k hk => absurd hk (hnone k), fun i => .inl (h.ring i), ?_, ?_, ?_⟩
  · rw [h.loopCount]
    exact Nat.zero_le _
  · intro t
    rw [h.thread]
    exact Nat.zero_le _
  · intro t ht
    rw [h.thread] at ht
    exact absurd rfl ht
  · rw [h.initialised]
    exact List.nodup_nil
  · intro k hk
    rw [h.loopCount] at hk
    exact absurd hk (Nat.not_lt_zero k)
  · intro t t' ht
    rw [h.thread] at ht
    cases ht
  · intro t k hk
    rw [h.thread] at hk
    exact absurd hk (Nat.not_lt_zero k)
  · intro t ht
    rw [h.thread] at ht
    cases ht
  · intro t t' ht
    rw [h.thread] at ht
    cases ht
  · intro t n ht
    rw [h.thread] at ht
    cases ht

/-! ## Descriptors have one user at a time -/

variable {k k' n : Nat} {d : Desc}

theorem loopIdOf_eq (h : k < 2 ^ 31) : loopIdOf k = k := by
  have hmask : k &&& (2 ^ 31 - 1) = k := Nat.and_two_pow_sub_one_of_lt_two_pow h
  unfold loopIdOf
  exact congrArg _ hmask

theorem loopIdOf_ne_unused (k : Nat) : loopIdOf k ≠ loopUnused := by
  unfold loopIdOf loopUnused
  omega

section Exclusive

variable {s : State T} {t t' : Fin T.teamSize}

theorem Inv.inited_lt (h : Inv s) (hk : s.Inited k) : k < 2 ^ 31 :=
  (h.bound k hk).trans_le (h.total.trans T.few.le)

theorem Inv.loopOf_lt (h : Inv s) (hpc : (s.thread t).pc ≠ .idle) : s.loopOf t < 2 ^ 31 := by
  have hcount := h.count t
  have hbusy := h.busy t hpc
  have htotal := h.total
  have hfew := T.few
  unfold State.loopOf
  omega

theorem id_inj (hk : k < 2 ^ 31) (hk' : k' < 2 ^ 31) (h : loopIdOf k = loopIdOf k') : k = k' := by
  rw [loopIdOf_eq hk, loopIdOf_eq hk'] at h
  exact Int.ofNat_inj.mp h

theorem Inv.onlyFirst (h : Inv s) (ht : (s.thread t).pc.isFirst = true)
    (ht' : (s.thread t').pc.isFirst = true) : t = t' := by
  -- the one at the later loop has entered the earlier loop, so that loop is initialised
  have entered : ∀ {t : Fin T.teamSize}, (s.thread t).pc.isFirst = true →
      (s.thread t).entered = s.loopOf t := by
    intro t ht
    unfold Thread.entered State.loopOf
    revert ht
    cases (s.thread t).pc <;> simp [Pc.isFirst]
  rcases lt_trichotomy (s.loopOf t) (s.loopOf t') with hlt | heq | hlt
  · exact absurd (h.entered t' _ (by rw [entered ht']; exact hlt)) (h.fresh t ht)
  · exact h.unique t t' ht ht' heq
  · exact absurd (h.entered t _ (by rw [entered ht]; exact hlt)) (h.fresh t' ht')

/-- A thread that has left `__pmp_loop_alloc` and not yet left `__pmp_loop_free`. -/
def Pc.inLoop : Pc → Bool
  | holding | freeing | releasing => true
  | _ => false

theorem inLoop_entered (ht : (s.thread t).pc.inLoop = true) :
    (s.thread t).entered = (s.thread t).loopCount ∧ (s.thread t).gone = s.loopOf t := by
  unfold Thread.entered Thread.gone State.loopOf
  revert ht
  cases (s.thread t).pc <;> simp [Pc.inLoop]

theorem Inv.inSlot (h : Inv s) (ht : (s.thread t).pc.inLoop = true) : s.InSlot (s.loopOf t) := by
  have hbusy := h.busy t (by intro hidle; rw [hidle] at ht; cases ht)
  obtain ⟨hent, hgone⟩ := inLoop_entered ht
  have hinit : s.Inited (s.loopOf t) := by
    refine h.entered t _ ?_
    rw [hent]
    unfold State.loopOf
    omega
  rcases h.slot _ hinit with hslot | hall
  · exact hslot
  · have := hall t
    omega

theorem fillUpTo_loopId (a : LoopArgs) (d : Desc) (n : Nat) :
    (fillUpTo T a d n).loopId = d.loopId := by
  induction n with
  | zero => rfl
  | succ n ih =>
    rw [fillUpTo, ← ih]
    unfold writeField
    split <;> rfl

theorem Inv.filling_unused (h : Inv s) (ht : (s.thread t).pc.filled = some n) :
    (s.desc t).loopId = loopUnused := by
  obtain ⟨-, d, hd, hdesc⟩ := h.filling t n ht
  rw [hdesc, fillUpTo_loopId, hd]

theorem State.InSlot.index_ne (hk : s.InSlot k)
    (hunused : (s.desc t).loopId = loopUnused) : T.loopIndex k ≠ T.loopIndex (s.loopOf t) := by
  intro heq
  have hid := hk.loopId
  rw [heq] at hid
  exact loopIdOf_ne_unused k (hid.symm.trans hunused)

theorem State.InSlot.index_inj (hk : s.InSlot k) (hk' : s.InSlot k')
    (hlt : k < 2 ^ 31) (hlt' : k' < 2 ^ 31) (heq : T.loopIndex k = T.loopIndex k') : k = k' := by
  have hid := hk.loopId
  rw [heq, hk'.loopId] at hid
  exact (id_inj hlt' hlt hid).symm

end Exclusive

/-! ## One step -/

section Step

variable {s s' : State T} {t : Fin T.teamSize}

theorem Inv.move (h : Inv s) (pc : Pc) (hbusy : (s.thread t).pc ≠ .idle)
    (hthread : s'.thread = update s.thread t { s.thread t with pc := pc })
    (hcount : s'.loopCount = s.loopCount) (hinit : s'.initialised = s.initialised)
    (hfailed : s'.failed = false) (hfirst : pc.isFirst = (s.thread t).pc.isFirst)
    (hfreed : (s.thread t).freed ≤ (s'.thread t).freed)
    (hentered : ∀ k < (s'.thread t).entered, s.Inited k)
    (hslot : ∀ k, s.Inited k → s.InSlot k → s'.InSlot k ∨ ∀ t', k < (s'.thread t').gone)
    (hgone : (s.thread t).gone ≤ (s'.thread t).gone) (hids : ∀ i, (s'.ring i).loopId = loopUnused ∨
      ∃ k, s.Inited k ∧ T.loopIndex k = i ∧ (s'.ring i).loopId = loopIdOf k)
    (hreleasing : pc = .releasing → (∀ t', s.loopOf t < (s'.thread t').freed) ∧
      ∀ t', (s.thread t').pc = .releasing → s.loopOf t' ≠ s.loopOf t)
    (hfilling : ∀ t' n, (s'.thread t').pc.filled = some n →
      ((s'.thread t').pc = .publish ∨ n ≤ lastField) ∧
      ∃ d, d.loopId = loopUnused ∧ s'.desc t' = fillUpTo T (T.args (s'.loopOf t')) d n) :
    Inv s' := by
  -- only `t` has moved, and its count is as before
  have self : s'.thread t = { s.thread t with pc := pc } := by
    rw [hthread, update_self]
  have other : ∀ {t'}, t' ≠ t → s'.thread t' = s.thread t' := fun hne => by
    rw [hthread, update_of_ne hne]
  have counts : ∀ t', (s'.thread t').loopCount = (s.thread t').loopCount := by
    intro t'
    by_cases ht : t' = t
    · rw [ht, self]
    · rw [other ht]
  have loops : ∀ t', s'.loopOf t' = s.loopOf t' := fun t' => by
    unfold State.loopOf
    rw [counts]
  have firsts : ∀ t', (s'.thread t').pc.isFirst = (s.thread t').pc.isFirst := by
    intro t'
    by_cases ht : t' = t
    · rw [ht, self, hfirst]
    · rw [other ht]
  have inited : ∀ k, s'.Inited k ↔ s.Inited k := fun k => by
    unfold State.Inited
    rw [hinit]
  have freed : ∀ t', (s.thread t').freed ≤ (s'.thread t').freed := by
    intro t'
    by_cases ht : t' = t
    · rw [ht]
      exact hfreed
    · rw [other ht]
  refine ⟨hfailed, ?_, ?_, ?_, ?_, ?_, ?_, ?_, ?_, ?_, ?_, ?_, ?_, ?_, hfilling⟩
  · rw [hcount]
    exact h.total
  · intro t'
    rw [counts, hcount]
    exact h.count t'
  · intro t' hpc
    rw [counts]
    by_cases ht : t' = t
    · rw [ht]
      exact h.busy t hbusy
    · rw [other ht] at hpc
      exact h.busy t' hpc
  · intro k hk
    rw [hcount]
    exact h.bound k ((inited k).mp hk)
  · rw [hinit]
    exact h.nodup
  · -- a loop that was hit: nobody has become or ceased to be the first
    intro k hk
    rw [hcount] at hk
    rcases h.starter k hk with hi | ⟨t', ht', hloop⟩
    · exact .inl ((inited k).mpr hi)
    · exact .inr ⟨t', by rw [firsts]; exact ht', by rw [loops]; exact hloop⟩
  · intro t' ht' hi
    rw [firsts] at ht'
    rw [loops, inited] at hi
    exact h.fresh t' ht' hi
  · intro t1 t2 h1 h2 heq
    rw [firsts] at h1 h2
    rw [loops, loops] at heq
    exact h.unique t1 t2 h1 h2 heq
  · intro t' k hk
    rw [inited]
    by_cases ht : t' = t
    · rw [ht] at hk
      exact hentered k hk
    · rw [other ht] at hk
      exact h.entered t' k hk
  · intro k hk
    rw [inited] at hk
    rcases h.slot k hk with hin | hall
    · exact hslot k hk hin
    · refine .inr fun t' => ?_
      by_cases ht : t' = t
      · rw [ht]
        exact (hall t).trans_le hgone
      · rw [other ht]
        exact hall t'
  · intro i
    rcases hids i with hu | ⟨k, hk, hi⟩
    · exact .inl hu
    · exact .inr ⟨k, (inited k).mpr hk, hi⟩
  · -- a thread that releases a slot is the last one there
    intro t' ht' t''
    rw [loops]
    by_cases ht : t' = t
    · rw [ht, self] at ht'
      rw [ht]
      exact (hreleasing ht').1 t''
    · rw [other ht] at ht'
      exact (h.releasing t' ht' t'').trans_le (freed t'')
  · -- two that release: `t` is one of them, or neither is
    intro t1 t2 h1 h2 heq
    rw [loops, loops] at heq
    by_cases ht1 : t1 = t
    · by_cases ht2 : t2 = t
      · rw [ht1, ht2]
      · rw [ht1, self] at h1
        rw [other ht2] at h2
        exact absurd (by rw [← heq, ht1]) ((hreleasing h1).2 t2 h2)
    · by_cases ht2 : t2 = t
      · rw [ht2, self] at h2
        rw [other ht1] at h1
        exact absurd (by rw [heq, ht2]) ((hreleasing h2).2 t1 h1)
      · rw [other ht1] at h1
        rw [other ht2] at h2
        exact h.oneReleasing t1 t2 h1 h2 heq

theorem users_congr (h : ∀ t', (s'.thread t').freed = (s.thread t').freed) (k : Nat) :
    s'.users k = s.users k := by
  unfold State.users
  refine filter_congr fun t' _ => ?_
  rw [h]

theorem State.InSlot.congr (hk : s.InSlot k)
    (hring : s'.ring (T.loopIndex k) = s.ring (T.loopIndex k))
    (hworked : k ∈ s'.worked ↔ k ∈ s.worked) (husers : s'.users k = s.users k) : s'.InSlot k := by
  refine ⟨?_, ?_, ?_⟩
  · rw [hring]
    exact hk.loopId
  · rw [hring, hworked]
    exact hk.describes
  · rw [hring, husers]
    exact hk.users

theorem Inv.quiet (h : Inv s) (pc : Pc) (hbusy : (s.thread t).pc ≠ .idle)
    (hthread : s'.thread = update s.thread t { s.thread t with pc := pc })
    (hring : s'.ring = s.ring) (hworked : s'.worked = s.worked)
    (hcount : s'.loopCount = s.loopCount)
    (hinit : s'.initialised = s.initialised) (hfailed : s'.failed = false)
    (hfirst : pc.isFirst = (s.thread t).pc.isFirst) (hpc : pc ≠ .releasing)
    (hfreed : (s'.thread t).freed = (s.thread t).freed)
    (hgone : (s'.thread t).gone = (s.thread t).gone)
    (hentered : ∀ k < (s'.thread t).entered, s.Inited k)
    (hfilling : ∀ n, pc.filled = some n → n = 0 ∧ (s.desc t).loopId = loopUnused) : Inv s' := by
  have self : s'.thread t = { s.thread t with pc := pc } := by
    rw [hthread, update_self]
  have other : ∀ {t'}, t' ≠ t → s'.thread t' = s.thread t' := fun hne => by
    rw [hthread, update_of_ne hne]
  have freed : ∀ t', (s'.thread t').freed = (s.thread t').freed := by
    intro t'
    by_cases ht : t' = t
    · rw [ht]
      exact hfreed
    · rw [other ht]
  refine h.move pc hbusy hthread hcount hinit hfailed hfirst hfreed.ge hentered ?_ hgone.ge ?_ ?_ ?_
  · intro k _ hin
    exact .inl (hin.congr (by rw [hring]) (by rw [hworked]) (users_congr freed k))
  · rw [hring]
    exact h.ids
  · exact fun hrel => absurd hrel hpc
  · intro t' n hn
    by_cases ht : t' = t
    · rw [ht, self] at hn
      obtain ⟨rfl, hunused⟩ := hfilling n hn
      refine ⟨.inr (Nat.zero_le _), s.desc t, hunused, ?_⟩
      unfold State.desc State.loopOf
      rw [hring, ht, self]
      rfl
    · have hloop : s'.loopOf t' = s.loopOf t' := by
        unfold State.loopOf
        rw [other ht]
      rw [other ht] at hn
      obtain ⟨hle, d, hd, hdesc⟩ := h.filling t' n hn
      refine ⟨by rw [other ht]; exact hle, d, hd, ?_⟩
      rw [hloop, ← hdesc]
      unfold State.desc
      rw [hring, hloop]

theorem Inv.first_step (h : Inv s) (hpc : (s.thread t).pc = .first) :
    Inv ((s.check ((s.desc t).loopId ≠ loopIdOf (s.loopOf t))).setPc t .spin) := by
  have hfirst : (s.thread t).pc.isFirst = true := by rw [hpc]; rfl
  have hne : (s.desc t).loopId ≠ loopIdOf (s.loopOf t) := by
    intro heq
    rcases h.ids (T.loopIndex (s.loopOf t)) with hu | ⟨k, hk, -, hid⟩
    · exact loopIdOf_ne_unused _ (heq.symm.trans hu)
    · have hlt := h.loopOf_lt (t := t) (by rw [hpc]; decide)
      have hkt := id_inj (h.inited_lt hk) hlt (hid.symm.trans heq)
      rw [hkt] at hk
      exact h.fresh t hfirst hk
  refine h.quiet (t := t) .spin (by rw [hpc]; decide) rfl rfl rfl rfl rfl ?_ ?_ (by decide)
    ?_ ?_ ?_ ?_
  · show (s.failed || !decide _) = false
    rw [h.failed, decide_eq_true hne]
    rfl
  · rw [hpc]
    rfl
  · simp only [State.setPc, update_self, Thread.freed, hpc, State.check]
  · simp only [State.setPc, update_self, Thread.gone, hpc, State.check]
  · intro k hk
    simp only [State.setPc, update_self, Thread.entered, State.check] at hk
    exact h.entered t k (by simp only [Thread.entered, hpc]; exact hk)
  · intro n hn
    cases hn

theorem Inv.spin_step (h : Inv s) (hpc : (s.thread t).pc = .spin)
    (hunused : (s.desc t).loopId = loopUnused) : Inv (s.setPc t (.fill 0)) := by
  refine h.quiet (t := t) (.fill 0) (by rw [hpc]; decide) rfl rfl rfl rfl rfl h.failed ?_
    (by decide)
    ?_ ?_ ?_ ?_
  · rw [hpc]
    rfl
  · simp only [State.setPc, update_self, Thread.freed, hpc]
  · simp only [State.setPc, update_self, Thread.gone, hpc]
  · intro k hk
    simp only [State.setPc, update_self, Thread.entered] at hk
    exact h.entered t k (by simp only [Thread.entered, hpc]; exact hk)
  · intro n hn
    cases hn
    exact ⟨rfl, hunused⟩

theorem Inv.wait_step (h : Inv s) (hpc : (s.thread t).pc = .wait)
    (hid : (s.desc t).loopId = loopIdOf (s.loopOf t)) : Inv (s.setPc t .holding) := by
  have hinit : s.Inited (s.loopOf t) := by
    rcases h.ids (T.loopIndex (s.loopOf t)) with hu | ⟨k, hk, -, hk'⟩
    · exact absurd (hid.symm.trans hu) (loopIdOf_ne_unused _)
    · have hlt := h.loopOf_lt (t := t) (by rw [hpc]; decide)
      rw [← id_inj (h.inited_lt hk) hlt (hk'.symm.trans hid)]
      exact hk
  refine h.quiet (t := t) .holding (by rw [hpc]; decide) rfl rfl rfl rfl rfl h.failed ?_
    (by decide)
    ?_ ?_ ?_ ?_
  · rw [hpc]
    rfl
  · simp only [State.setPc, update_self, Thread.freed, hpc]
  · simp only [State.setPc, update_self, Thread.gone, hpc]
  · intro k hk
    simp only [State.setPc, update_self, Thread.entered] at hk
    by_cases hlast : k = s.loopOf t
    · rw [hlast]
      exact hinit
    · refine h.entered t k ?_
      simp only [Thread.entered, hpc]
      unfold State.loopOf at hlast
      omega
  · intro n hn
    cases hn

theorem Inv.holding_step (h : Inv s) (hpc : (s.thread t).pc = .holding) :
    Inv ((s.check ((s.desc t).loopId = loopIdOf (s.loopOf t))).setPc t .freeing) := by
  have hin := h.inSlot (t := t) (by rw [hpc]; rfl)
  refine h.quiet (t := t) .freeing (by rw [hpc]; decide) rfl rfl rfl rfl rfl ?_ ?_ (by decide)
    ?_ ?_ ?_ ?_
  · show (s.failed || !decide _) = false
    rw [h.failed, decide_eq_true (show (s.desc t).loopId = _ from hin.loopId)]
    rfl
  · rw [hpc]
    rfl
  · simp only [State.setPc, update_self, Thread.freed, hpc, State.check]
  · simp only [State.setPc, update_self, Thread.gone, hpc, State.check]
  · intro k hk
    simp only [State.setPc, update_self, Thread.entered, State.check] at hk
    exact h.entered t k (by simp only [Thread.entered, hpc]; exact hk)
  · intro n hn
    cases hn

theorem Inv.filling_other (h : Inv s) {t' : Fin T.teamSize}
    (hin : s.InSlot (s.loopOf t)) (hn : (s.thread t').pc.filled = some n)
    (hring : s'.ring = update s.ring (T.loopIndex (s.loopOf t)) d)
    (hthread : s'.thread t' = s.thread t') : ((s'.thread t').pc = .publish ∨ n ≤ lastField) ∧
      ∃ d, d.loopId = loopUnused ∧ s'.desc t' = fillUpTo T (T.args (s'.loopOf t')) d n := by
  have hne := hin.index_ne (h.filling_unused hn)
  have hloop : s'.loopOf t' = s.loopOf t' := by
    unfold State.loopOf
    rw [hthread]
  obtain ⟨hle, e, he, hdesc⟩ := h.filling t' n hn
  refine ⟨by rw [hthread]; exact hle, e, he, ?_⟩
  rw [hloop, ← hdesc]
  unfold State.desc
  rw [hring, hloop, update_of_ne hne.symm]

theorem Inv.ids_update (h : Inv s) (hinit : s.Inited (s.loopOf t))
    (hd : d.loopId = loopIdOf (s.loopOf t) ∨ d.loopId = loopUnused) (i : Nat) :
    (update s.ring (T.loopIndex (s.loopOf t)) d i).loopId = loopUnused ∨
      ∃ k, s.Inited k ∧ T.loopIndex k = i ∧
        (update s.ring (T.loopIndex (s.loopOf t)) d i).loopId = loopIdOf k := by
  by_cases hi : i = T.loopIndex (s.loopOf t)
  · rw [hi, update_self]
    rcases hd with hd | hd
    · exact .inr ⟨s.loopOf t, hinit, rfl, hd⟩
    · exact .inl hd
  · rw [update_of_ne hi]
    exact h.ids i

theorem Inv.loop_inited (h : Inv s) (ht : (s.thread t).pc.inLoop = true) :
    s.Inited (s.loopOf t) := by
  have hbusy := h.busy t (by intro hidle; rw [hidle] at ht; cases ht)
  refine h.entered t _ ?_
  rw [(inLoop_entered ht).1]
  unfold State.loopOf
  omega

theorem users_free (s' : State T) {th : Thread} (hthread : s'.thread = update s.thread t th)
    (hold : (s.thread t).freed = k) (hnew : th.freed = k + 1) (k' : Nat) :
    s'.users k' = if k' = k then (s.users k).erase t else s.users k' := by
  have other : ∀ {t'}, t' ≠ t → s'.thread t' = s.thread t' := fun hne => by
    rw [hthread, update_of_ne hne]
  have self : (s'.thread t).freed = k + 1 := by
    rw [hthread, update_self]
    exact hnew
  ext t'
  split_ifs with hk
  · simp only [State.users, mem_filter, mem_univ, true_and, mem_erase]
    by_cases ht : t' = t
    · rw [ht, self, hk]
      exact iff_of_false (by omega) (fun hh => hh.1 rfl)
    · rw [other ht, hk]
      exact ⟨fun hh => ⟨ht, hh⟩, fun hh => hh.2⟩
  · simp only [State.users, mem_filter, mem_univ, true_and]
    by_cases ht : t' = t
    · rw [ht, self, hold]
      omega
    · rw [other ht]

/-- A thread leaves a loop; the last one to leave goes on to release the slot. -/
theorem Inv.freeing_step (h : Inv s) (hpc : (s.thread t).pc = .freeing) :
    Inv (((s.setDesc t { s.desc t with
      loopingThreads := (s.desc t).loopingThreads - 1 }).check
        (1 ≤ (s.desc t).loopingThreads)).setPc t
      (if (s.desc t).loopingThreads = 1 then .releasing else .idle)) := by
  have hloop : (s.thread t).pc.inLoop = true := by rw [hpc]; rfl
  have hin := h.inSlot hloop
  have hinit := h.loop_inited hloop
  have hlt := h.inited_lt hinit
  have hbusy := h.busy t (by rw [hpc]; decide)
  have hcount : (s.thread t).loopCount = s.loopOf t + 1 := by
    unfold State.loopOf
    omega
  have hfreed : (s.thread t).freed = s.loopOf t := by
    simp only [Thread.freed, hpc]
    rfl
  have hmem : t ∈ s.users (s.loopOf t) := by
    simp only [State.users, mem_filter, mem_univ, true_and]
    exact hfreed.le
  have husers : (s.desc t).loopingThreads = ((s.users (s.loopOf t)).card : Int) := hin.users
  have hpos : 1 ≤ (s.users (s.loopOf t)).card := card_pos.mpr ⟨t, hmem⟩
  generalize hpc' : (if (s.desc t).loopingThreads = 1 then Pc.releasing else Pc.idle) = pc
  -- the last one to leave goes on to release the slot
  have hcases : pc = .releasing ∨ pc = .idle := by
    rw [← hpc']
    split_ifs
    · exact .inl rfl
    · exact .inr rfl
  have hfreed' : ({ s.thread t with pc := pc } : Thread).freed = s.loopOf t + 1 := by
    rcases hcases with rfl | rfl
    · exact hcount
    · exact hcount
  have hfree := fun k' => users_free (((s.setDesc t { s.desc t with
    loopingThreads := (s.desc t).loopingThreads - 1 }).check
      (1 ≤ (s.desc t).loopingThreads)).setPc t pc) (t := t) (s := s) rfl hfreed hfreed' k'
  refine h.move (t := t) pc (by rw [hpc]; decide) rfl rfl rfl ?_ ?_ ?_ ?_ ?_ ?_ ?_ ?_ ?_
  · show (s.failed || !decide _) = false
    rw [h.failed, decide_eq_true (by rw [husers]; omega)]
    rfl
  · rw [hpc]
    rcases hcases with rfl | rfl <;> rfl
  · simp only [State.setPc, update_self]
    show (s.thread t).freed ≤ ({ s.thread t with pc := pc } : Thread).freed
    omega
  · intro k hk
    refine h.entered t k ?_
    rw [(inLoop_entered hloop).1]
    simp only [State.setPc, update_self] at hk
    rcases hcases with rfl | rfl
    · exact hk
    · exact hk
  · intro k hk hkin
    refine .inl ?_
    by_cases hkt : k = s.loopOf t
    · subst hkt
      refine ⟨?_, ?_, ?_⟩
      · simp only [State.setPc, State.check, State.setDesc, update_self]
        exact hin.loopId
      · simp only [State.setPc, State.check, State.setDesc, update_self]
        obtain ⟨h1, h2, h3, h4, h5, h6, h7, h8⟩ := hin.describes
        exact ⟨h1, h2, h3, h4, h5, h6, h7, h8⟩
      · rw [hfree, if_pos rfl, card_erase_of_mem hmem]
        simp only [State.setPc, State.check, State.setDesc, update_self]
        rw [husers]
        omega
    · refine hkin.congr ?_ Iff.rfl (by rw [hfree, if_neg hkt])
      simp only [State.setPc, State.check, State.setDesc]
      rw [update_of_ne fun heq => hkt (hkin.index_inj hin (h.inited_lt hk) hlt heq)]
  · simp only [State.setPc, update_self]
    rw [(inLoop_entered hloop).2]
    rcases hcases with rfl | rfl
    · exact le_refl _
    · show s.loopOf t ≤ (s.thread t).loopCount
      omega
  · exact h.ids_update hinit (.inl hin.loopId)
  · -- the count was 1: this was the only user left
    intro hrel
    have hone : (s.users (s.loopOf t)).card = 1 := by
      rw [hrel] at hpc'
      split_ifs at hpc' with hc
      rw [husers] at hc
      omega
    refine ⟨fun t' => ?_, fun t' ht' heq => ?_⟩
    · by_cases ht : t' = t
      · rw [ht]
        simp only [State.setPc, update_self]
        exact hfreed'.ge
      · simp only [State.setPc, State.check, State.setDesc, update_of_ne ht]
        by_contra hle
        obtain ⟨t0, ht0⟩ := card_eq_one.mp hone
        have hmem' : t' ∈ s.users (s.loopOf t) := by
          simp only [State.users, mem_filter, mem_univ, true_and]
          omega
        rw [ht0, mem_singleton] at hmem hmem'
        exact ht (hmem'.trans hmem.symm)
    · have := h.releasing t' ht' t
      omega
  · intro t' n hn
    by_cases ht : t' = t
    · rw [ht] at hn
      simp only [State.setPc, update_self] at hn
      rcases hcases with rfl | rfl <;> cases hn
    · have hother : (((s.setDesc t { s.desc t with
          loopingThreads := (s.desc t).loopingThreads - 1 }).check
            (1 ≤ (s.desc t).loopingThreads)).setPc t pc).thread t' = s.thread t' := by
        simp only [State.setPc, State.check, State.setDesc, update_of_ne ht]
      rw [hother] at hn
      exact h.filling_other hin hn rfl hother

theorem Inv.releasing_step (h : Inv s) (hpc : (s.thread t).pc = .releasing) :
    Inv ((s.setDesc t { s.desc t with loopId := loopUnused }).setPc t .idle) := by
  have hloop : (s.thread t).pc.inLoop = true := by rw [hpc]; rfl
  have hin := h.inSlot hloop
  have hinit := h.loop_inited hloop
  have hlt := h.inited_lt hinit
  have hbusy := h.busy t (by rw [hpc]; decide)
  have hall := h.releasing t hpc
  have freed : ∀ t', (((s.setDesc t { s.desc t with loopId := loopUnused }).setPc t .idle).thread
      t').freed = (s.thread t').freed := by
    intro t'
    by_cases ht : t' = t
    · simp only [State.setPc, State.setDesc, ht, update_self, Thread.freed, hpc]
    · simp only [State.setPc, State.setDesc, update_of_ne ht]
  refine h.move (t := t) .idle (by rw [hpc]; decide) rfl rfl rfl h.failed ?_ (freed t).ge ?_ ?_ ?_
    ?_ ?_ ?_
  · rw [hpc]
    rfl
  · intro k hk
    simp only [State.setPc, update_self, Thread.entered, State.setDesc] at hk
    refine h.entered t k ?_
    rw [(inLoop_entered hloop).1]
    exact hk
  · intro k hk hkin
    by_cases hkt : k = s.loopOf t
    · subst hkt
      refine .inr fun t' => ?_
      by_cases ht : t' = t
      · simp only [State.setPc, State.setDesc, ht, update_self, Thread.gone]
        unfold State.loopOf
        omega
      · simp only [State.setPc, State.setDesc, update_of_ne ht]
        -- every other thread has freed the loop and is not the one that releases it
        have hfree := hall t'
        by_cases hrel : (s.thread t').pc = .releasing
        · have hne : s.loopOf t' ≠ s.loopOf t := fun heq => ht (h.oneReleasing t' t hrel hpc heq)
          simp only [Thread.freed, hrel] at hfree
          simp only [Thread.gone, hrel]
          unfold State.loopOf at hne hfree ⊢
          omega
        · revert hfree hrel
          unfold Thread.freed Thread.gone
          cases (s.thread t').pc <;> simp
    · refine .inl (hkin.congr ?_ Iff.rfl (users_congr freed k))
      simp only [State.setPc, State.setDesc]
      rw [update_of_ne fun heq => hkt (hkin.index_inj hin (h.inited_lt hk) hlt heq)]
  · simp only [State.setPc, update_self, Thread.gone, State.setDesc, hpc]
    omega
  · exact h.ids_update hinit (.inr rfl)
  · intro hrel
    cases hrel
  · intro t' n hn
    by_cases ht : t' = t
    · rw [ht] at hn
      simp only [State.setPc, update_self] at hn
      cases hn
    · have hother : ((s.setDesc t { s.desc t with loopId := loopUnused }).setPc t .idle).thread t' =
          s.thread t' := by
        simp only [State.setPc, State.setDesc, update_of_ne ht]
      rw [hother] at hn
      exact h.filling_other hin hn rfl hother

theorem Inv.work_step (h : Inv s) (hpc : (s.thread t).pc = .holding) (n c k : Int) :
    Inv (work t n c k s) := by
  have hloop : (s.thread t).pc.inLoop = true := by rw [hpc]; rfl
  have hin := h.inSlot hloop
  have hinit := h.loop_inited hloop
  have hlt := h.inited_lt hinit
  have hthread : (work t n c k s).thread =
      update s.thread t { s.thread t with pc := .holding } := by
    rw [← hpc]
    exact (update_eq_self t s.thread).symm
  refine h.move (t := t) .holding (by rw [hpc]; decide) hthread rfl rfl h.failed (by rw [hpc])
    (le_refl _) (fun k hk => h.entered t k hk) ?_ (le_refl _) ?_ ?_ ?_
  · intro k' hk' hkin
    refine .inl ?_
    by_cases hkt : k' = s.loopOf t
    · subst hkt
      refine ⟨?_, ?_, ?_⟩
      · simp only [work, State.setDesc, update_self]
        exact hin.loopId
      · simp only [work, State.setDesc, update_self]
        have hworked : s.loopOf t ∈ s.loopOf t :: s.worked := List.mem_cons_self
        exact ⟨hin.describes.1, hin.describes.2, hin.describes.3, hin.describes.4,
          hin.describes.5, fun hnot => absurd hworked hnot, fun hnot => absurd hworked hnot,
          fun hnot => absurd hworked hnot⟩
      · simp only [work, State.setDesc, update_self]
        exact hin.users
    · refine hkin.congr ?_ (List.mem_cons.trans (or_iff_right hkt)) rfl
      simp only [work, State.setDesc]
      rw [update_of_ne fun heq => hkt (hkin.index_inj hin (h.inited_lt hk') hlt heq)]
  · exact h.ids_update hinit (.inl hin.loopId)
  · intro hrel
    cases hrel
  · intro t' m hm
    exact h.filling_other hin hm rfl rfl

theorem writeField_loopId (a : LoopArgs) (d : Desc) (n : Nat) :
    (writeField T a d n).loopId = d.loopId := by
  unfold writeField
  split <;> rfl

theorem isFirst_of_filled {pc : Pc} (h : pc.filled = some n) : pc.isFirst = true := by
  cases pc <;> first | rfl | cases h

/-- One store of the thread that initialises a slot; nobody else reads it before it is published. -/
theorem Inv.fill_step (h : Inv s) {field : Nat} (hpc : (s.thread t).pc = .fill field) :
    Inv ((s.setDesc t (writeField T (T.args (s.loopOf t)) (s.desc t) field)).setPc t
      (if field = lastField then .publish else .fill (field + 1))) := by
  have hfilled : (s.thread t).pc.filled = some field := by rw [hpc]; rfl
  have hfirst := isFirst_of_filled hfilled
  have hunused := h.filling_unused hfilled
  obtain ⟨hle, d, hd, hdesc⟩ := h.filling t field hfilled
  have hle' : field ≤ lastField := by
    rcases hle with hpub | hle
    · rw [hpc] at hpub
      cases hpub
    · exact hle
  generalize hpc' : (if field = lastField then Pc.publish else Pc.fill (field + 1)) = pc
  have hcases : (pc = .publish ∧ field = lastField) ∨ (pc = .fill (field + 1) ∧ field < lastField) := by
    rw [← hpc']
    split_ifs with hf
    · exact .inl ⟨rfl, hf⟩
    · exact .inr ⟨rfl, by omega⟩
  have hfilled' : pc.filled = some (field + 1) := by
    rcases hcases with ⟨rfl, hf⟩ | ⟨rfl, -⟩
    · rw [hf]
      rfl
    · rfl
  refine h.move (t := t) pc (by rw [hpc]; exact Pc.noConfusion) rfl rfl rfl h.failed ?_ ?_ ?_ ?_ ?_
    ?_ ?_ ?_
  · rw [hfirst, isFirst_of_filled hfilled']
  · simp only [State.setPc, State.setDesc, update_self]
    rcases hcases with ⟨rfl, -⟩ | ⟨rfl, -⟩ <;> simp only [Thread.freed, hpc, le_refl]
  · intro k hk
    simp only [State.setPc, update_self, State.setDesc] at hk
    refine h.entered t k ?_
    rcases hcases with ⟨rfl, -⟩ | ⟨rfl, -⟩ <;> simpa only [Thread.entered, hpc] using hk
  · intro k _ hkin
    refine .inl (hkin.congr ?_ Iff.rfl (users_congr (fun t' => ?_) k))
    · simp only [State.setPc, State.setDesc]
      rw [update_of_ne (hkin.index_ne hunused)]
    · by_cases ht : t' = t
      · simp only [State.setPc, State.setDesc, ht, update_self]
        rcases hcases with ⟨rfl, -⟩ | ⟨rfl, -⟩ <;> simp only [Thread.freed, hpc]
      · simp only [State.setPc, State.setDesc, update_of_ne ht]
  · simp only [State.setPc, State.setDesc, update_self]
    rcases hcases with ⟨rfl, -⟩ | ⟨rfl, -⟩ <;> simp only [Thread.gone, hpc, le_refl]
  · intro i
    simp only [State.setPc, State.setDesc]
    by_cases hi : i = T.loopIndex (s.loopOf t)
    · rw [hi, update_self]
      exact .inl (by rw [writeField_loopId, hunused])
    · rw [update_of_ne hi]
      exact h.ids i
  · intro hrel
    rw [hrel] at hfilled'
    cases hfilled'
  · intro t' n hn
    have ht : t' = t := by
      by_contra ht
      simp only [State.setPc, State.setDesc, update_of_ne ht] at hn
      exact ht (h.onlyFirst (isFirst_of_filled hn) hfirst)
    subst ht
    simp only [State.setPc, State.setDesc, update_self] at hn ⊢
    rw [hfilled'] at hn
    cases hn
    refine ⟨?_, d, hd, ?_⟩
    · rcases hcases with ⟨rfl, -⟩ | ⟨rfl, hf⟩
      · exact .inl rfl
      · exact .inr hf
    · simp only [State.desc, State.loopOf, update_self] at hdesc ⊢
      rw [fillUpTo, hdesc]

theorem freed_le_entered (th : Thread) : th.freed ≤ th.entered := by
  unfold Thread.freed Thread.entered
  cases th.pc <;> simp

theorem fillUpTo_all (a : LoopArgs) (d : Desc) : fillUpTo T a d (lastField + 1) =
      { loopId := d.loopId, loopingThreads := T.teamSize, nowServing := a.lower, sched := a.sched
        lower := a.lower, upper := a.upper, inc := a.inc, chunk := a.chunk, current := a.lower
        minChunk := a.minChunk } := rfl

/-- The state after the compare-and-swap of `loop_id` has succeeded. -/
def State.published (s : State T) (t : Fin T.teamSize) : State T :=
  { s.setDesc t { s.desc t with loopId := loopIdOf (s.loopOf t) } with
    thread := update s.thread t { s.thread t with pc := .holding }
    initialised := (s.loopOf t, t) :: s.initialised }

theorem published_inited (k : Nat) : (s.published t).Inited k ↔ k = s.loopOf t ∨ s.Inited k:= by
  simp [State.Inited, State.published]

theorem published_freed (hpc : (s.thread t).pc = .publish) (t' : Fin T.teamSize) :
    ((s.published t).thread t').freed = (s.thread t').freed := by
  by_cases ht : t' = t
  · simp only [State.published, ht, update_self, Thread.freed, hpc]
  · simp only [State.published, update_of_ne ht]

theorem Inv.published_inSlot (h : Inv s) (hpc : (s.thread t).pc = .publish) :
    (s.published t).InSlot (s.loopOf t) := by
  have hfresh := h.fresh t (by rw [hpc]; rfl)
  obtain ⟨-, d, -, hdesc⟩ := h.filling t (lastField + 1) (by rw [hpc]; rfl)
  rw [fillUpTo_all] at hdesc
  refine ⟨?_, ?_, ?_⟩
  · simp only [State.published, State.setDesc, update_self]
  · simp only [State.published, State.setDesc, update_self, hdesc]
    exact ⟨rfl, rfl, rfl, rfl, rfl, fun _ => rfl, fun _ => rfl, fun _ => rfl⟩
  · have hall : (s.published t).users (s.loopOf t) = Finset.univ := by
      refine filter_true_of_mem fun t' _ => ?_
      rw [published_freed hpc]
      by_contra hlt
      exact hfresh (h.entered t' _ (by have := freed_le_entered (s.thread t'); omega))
    rw [hall, card_univ, Fintype.card_fin]
    simp only [State.published, State.setDesc, update_self, hdesc]

/-- The store that publishes the slot: from here on every thread finds it filled in. -/
theorem Inv.publish_step (h : Inv s) (hpc : (s.thread t).pc = .publish) : Inv (s.published t):= by
  have hfilled : (s.thread t).pc.filled = some (lastField + 1) := by rw [hpc]; rfl
  have hfirst := isFirst_of_filled hfilled
  have hfresh := h.fresh t hfirst
  have hunused := h.filling_unused hfilled
  have hbusy := h.busy t (by rw [hpc]; decide)
  have hcount : (s.thread t).loopCount = s.loopOf t + 1 := by
    unfold State.loopOf
    omega
  have self : (s.published t).thread t = { s.thread t with pc := .holding } :=
    update_self ..
  have other : ∀ {t'}, t' ≠ t → (s.published t).thread t' = s.thread t' := fun hne =>
    update_of_ne hne ..
  have counts : ∀ t', ((s.published t).thread t').loopCount = (s.thread t').loopCount := by
    intro t'
    by_cases ht : t' = t
    · rw [ht, self]
    · rw [other ht]
  have loops : ∀ t', (s.published t).loopOf t' = s.loopOf t' := fun t' => by
    unfold State.loopOf
    rw [counts]
  -- the only first thread has become a holder
  have nofirst : ∀ t', ((s.published t).thread t').pc.isFirst ≠ true := by
    intro t' ht'
    by_cases ht : t' = t
    · rw [ht, self] at ht'
      cases ht'
    · rw [other ht] at ht'
      exact ht (h.onlyFirst ht' hfirst)
  refine ⟨h.failed, h.total, ?_, ?_, ?_, ?_, ?_, fun t' ht' => absurd ht' (nofirst t'),
    fun t' t'' ht' => absurd ht' (nofirst t'), ?_, ?_, ?_, ?_, ?_,
    fun t' n hn => absurd (isFirst_of_filled hn) (nofirst t')⟩
  · intro t'
    rw [counts]
    exact h.count t'
  · intro t' ht'
    rw [counts]
    by_cases ht : t' = t
    · rw [ht]
      exact hbusy
    · rw [other ht] at ht'
      exact h.busy t' ht'
  · -- the loop published is below the team's count
    intro k hk
    rcases (published_inited k).mp hk with rfl | hk
    · have := h.count t
      show s.loopOf t < s.loopCount
      omega
    · exact h.bound k hk
  · show ((s.loopOf t, t) :: s.initialised |>.map Prod.fst).Nodup
    rw [List.map_cons, List.nodup_cons]
    exact ⟨hfresh, h.nodup⟩
  · -- nobody else was at this loop as its first thread
    intro k hk
    rw [published_inited]
    rcases h.starter k hk with hi | ⟨t', ht', hloop⟩
    · exact .inl (.inr hi)
    · have ht := h.onlyFirst ht' hfirst
      rw [ht] at hloop
      exact .inl (.inl hloop.symm)
  · intro t' k hk
    rw [published_inited]
    by_cases ht : t' = t
    · rw [ht, self] at hk
      have hk' : k < (s.thread t).loopCount := hk
      by_cases hlast : k = s.loopOf t
      · exact .inl hlast
      · refine .inr (h.entered t k ?_)
        simp only [Thread.entered, hpc]
        unfold State.loopOf at hlast
        omega
    · rw [other ht] at hk
      exact .inr (h.entered t' k hk)
  · -- the slot has just been filled in, or it is another one
    intro k hk
    rcases (published_inited k).mp hk with rfl | hk
    · exact .inl (h.published_inSlot hpc)
    · rcases h.slot k hk with hin | hall
      · refine .inl (hin.congr ?_ Iff.rfl (users_congr (published_freed hpc) k))
        simp only [State.published, State.setDesc]
        rw [update_of_ne (hin.index_ne hunused)]
      · refine .inr fun t' => ?_
        by_cases ht : t' = t
        · have hk' := hall t
          simp only [Thread.gone, hpc] at hk'
          rw [ht, self]
          exact hk'
        · rw [other ht]
          exact hall t'
  · -- each id in the ring is that of an initialised loop
    intro i
    by_cases hi : i = T.loopIndex (s.loopOf t)
    · refine .inr ⟨s.loopOf t, (published_inited _).mpr (.inl rfl), hi.symm, ?_⟩
      rw [hi]
      simp only [State.published, State.setDesc, update_self]
    · have hring : (s.published t).ring i = s.ring i := by
        simp only [State.published, State.setDesc, update_of_ne hi]
      rw [hring]
      rcases h.ids i with hu | ⟨k, hk, hki⟩
      · exact .inl hu
      · exact .inr ⟨k, (published_inited k).mpr (.inr hk), hki⟩
  · intro t' ht' t''
    have ht : t' ≠ t := by
      rintro rfl
      rw [self] at ht'
      cases ht'
    rw [other ht] at ht'
    rw [loops, published_freed hpc]
    exact h.releasing t' ht' t''
  · intro t1 t2 h1 h2 heq
    have hne : ∀ {t'}, ((s.published t).thread t').pc = .releasing → t' ≠ t := by
      rintro t' ht' rfl
      rw [self] at ht'
      cases ht'
    rw [other (hne h1)] at h1
    rw [other (hne h2)] at h2
    rw [loops, loops] at heq
    exact h.oneReleasing t1 t2 h1 h2 heq

/-- The state after a thread has come to its next loop. -/
def State.arrived (s : State T) (t : Fin T.teamSize) : State T :=
  let threadCount := (s.thread t).loopCount
  { s with
    loopCount := if s.loopCount = threadCount then threadCount + 1 else s.loopCount
    thread := update s.thread t
      { pc := if s.loopCount = threadCount then .first else .wait, loopCount := threadCount + 1 } }

/-- A thread arrives at its next loop: the first one there is to fill in the slot, the others wait
for it. -/
theorem Inv.arrived_step (h : Inv s) (hpc : (s.thread t).pc = .idle)
    (hlt : (s.thread t).loopCount < T.loops) : Inv (s.arrived t) := by
  have self : (s.arrived t).thread t =
      { pc := if s.loopCount = (s.thread t).loopCount then .first else .wait
        loopCount := (s.thread t).loopCount + 1 } := update_self ..
  have other : ∀ {t'}, t' ≠ t → (s.arrived t).thread t' = s.thread t' := fun hne =>
    update_of_ne hne ..
  have hloop : (s.arrived t).loopOf t = (s.thread t).loopCount := by
    unfold State.loopOf
    rw [self]
    rfl
  have loops : ∀ {t'}, t' ≠ t → (s.arrived t).loopOf t' = s.loopOf t' := fun hne => by
    unfold State.loopOf
    rw [other hne]
  have hcount := h.count t
  have htotal : (s.arrived t).loopCount =
      if s.loopCount = (s.thread t).loopCount then (s.thread t).loopCount + 1 else s.loopCount := rfl
  have hpc' : ((s.arrived t).thread t).pc = .first ∧ s.loopCount = (s.thread t).loopCount ∨
      ((s.arrived t).thread t).pc = .wait ∧ s.loopCount ≠ (s.thread t).loopCount := by
    rw [self]
    by_cases heq : s.loopCount = (s.thread t).loopCount
    · exact .inl ⟨if_pos heq, heq⟩
    · exact .inr ⟨if_neg heq, heq⟩
  -- coming to a loop is no progress in leaving loops
  have same : ∀ t', ((s.arrived t).thread t').gone = (s.thread t').gone ∧
      ((s.arrived t).thread t').freed = (s.thread t').freed ∧
      ((s.arrived t).thread t').entered = (s.thread t').entered := by
    intro t'
    by_cases ht : t' = t
    · subst ht
      have hc : ((s.arrived t').thread t').loopCount = (s.thread t').loopCount + 1 := by rw [self]
      rcases hpc' with ⟨hp, -⟩ | ⟨hp, -⟩ <;>
        simp [Thread.gone, Thread.freed, Thread.entered, hp, hc, hpc]
    · rw [other ht]
      exact ⟨rfl, rfl, rfl⟩
  have notFirst : (s.thread t).pc.isFirst ≠ true := by
    rw [hpc]
    decide
  have mono : s.loopCount ≤ (s.arrived t).loopCount := by
    rw [htotal]
    split_ifs <;> omega
  refine ⟨h.failed, ?_, ?_, ?_, fun k hk => (h.bound k hk).trans_le mono, h.nodup, ?_, ?_, ?_, ?_, ?_,
    h.ids, ?_, ?_, ?_⟩
  · have := h.total
    rw [htotal]
    split_ifs <;> omega
  · intro t'
    by_cases ht : t' = t
    · rw [ht, self, htotal]
      show (s.thread t).loopCount + 1 ≤ _
      split_ifs <;> omega
    · rw [other ht]
      exact (h.count t').trans mono
  · intro t' ht'
    by_cases ht : t' = t
    · rw [ht, self]
      exact Nat.le_add_left 1 _
    · rw [other ht] at ht' ⊢
      exact h.busy t' ht'
  · intro k hk
    by_cases hold : k < s.loopCount
    · rcases h.starter k hold with hi | ⟨t', ht', hl⟩
      · exact .inl hi
      · have ht : t' ≠ t := by
          rintro rfl
          exact notFirst ht'
        exact .inr ⟨t', by rw [other ht]; exact ht', by rw [loops ht]; exact hl⟩
    · -- the loop that this thread is the first to hit
      rcases hpc' with ⟨hp, heq⟩ | ⟨-, hne⟩
      · refine .inr ⟨t, by rw [hp]; rfl, ?_⟩
        rw [htotal, if_pos heq] at hk
        rw [hloop]
        omega
      · rw [htotal, if_neg hne] at hk
        exact absurd hk hold
  · -- `t` is first only at a loop that nobody has hit before
    intro t' ht' hi
    by_cases ht : t' = t
    · rw [ht, hloop] at hi
      have hb := h.bound _ hi
      rcases hpc' with ⟨-, heq⟩ | ⟨hp, -⟩
      · omega
      · rw [ht, hp] at ht'
        cases ht'
    · rw [other ht] at ht'
      rw [loops ht] at hi
      exact h.fresh t' ht' hi
  · -- no other thread is at the loop that the team's counter stood at
    have alone : ∀ {t'}, t' ≠ t → (s.thread t').pc.isFirst = true →
        ((s.arrived t).thread t).pc.isFirst = true → s.loopOf t' ≠ (s.thread t).loopCount := by
      intro t' ht hf ht' heq
      have hc := h.count t'
      have hb := h.busy t' (by intro hidle; rw [hidle] at hf; cases hf)
      unfold State.loopOf at heq
      rcases hpc' with ⟨-, hs⟩ | ⟨hp, -⟩
      · omega
      · rw [hp] at ht'
        cases ht'
    intro t1 t2 h1 h2 heq
    by_cases ht1 : t1 = t
    · by_cases ht2 : t2 = t
      · rw [ht1, ht2]
      · rw [ht1] at h1 heq
        rw [other ht2] at h2
        rw [hloop, loops ht2] at heq
        exact absurd heq.symm (alone ht2 h2 h1)
    · by_cases ht2 : t2 = t
      · rw [ht2] at h2 heq
        rw [other ht1] at h1
        rw [hloop, loops ht1] at heq
        exact absurd heq (alone ht1 h1 h2)
      · rw [other ht1] at h1
        rw [other ht2] at h2
        rw [loops ht1, loops ht2] at heq
        exact h.unique t1 t2 h1 h2 heq
  · intro t' k hk
    rw [(same t').2.2] at hk
    exact h.entered t' k hk
  · intro k hk
    rcases h.slot k hk with hin | hall
    · exact .inl (hin.congr rfl Iff.rfl (users_congr (fun t' => (same t').2.1) k))
    · exact .inr fun t' => by
        rw [(same t').1]
        exact hall t'
  · -- a thread that releases a slot is not the one that arrived
    intro t' ht' t''
    have ht : t' ≠ t := by
      rintro rfl
      rcases hpc' with ⟨hp, -⟩ | ⟨hp, -⟩ <;> rw [hp] at ht' <;> cases ht'
    rw [other ht] at ht'
    rw [loops ht, (same t'').2.1]
    exact h.releasing t' ht' t''
  · intro t1 t2 h1 h2 heq
    have hne : ∀ {t'}, ((s.arrived t).thread t').pc = .releasing → t' ≠ t := by
      rintro t' ht' rfl
      rcases hpc' with ⟨hp, -⟩ | ⟨hp, -⟩ <;> rw [hp] at ht' <;> cases ht'
    rw [loops (hne h1), loops (hne h2)] at heq
    rw [other (hne h1)] at h1
    rw [other (hne h2)] at h2
    exact h.oneReleasing t1 t2 h1 h2 heq
  · intro t' n hn
    have ht : t' ≠ t := by
      rintro rfl
      rcases hpc' with ⟨hp, -⟩ | ⟨hp, -⟩ <;> rw [hp] at hn <;> cases hn
    rw [other ht] at hn ⊢
    obtain ⟨hle, d, hd, hdesc⟩ := h.filling t' n hn
    refine ⟨hle, d, hd, ?_⟩
    unfold State.desc at hdesc ⊢
    rw [loops ht]
    exact hdesc

/-- One step of any thread keeps the invariant; one case for each place in the code. -/
theorem Inv.stepThread (h : Inv s) (hstep : Ring.stepThread t s = some s') : Inv s' := by
  unfold Ring.stepThread at hstep
  cases hpc : (s.thread t).pc with
  | idle =>
    simp only [hpc] at hstep
    by_cases hlt : (s.thread t).loopCount < T.loops
    · rw [if_pos hlt] at hstep
      rw [← Option.some.inj hstep]
      exact h.arrived_step hpc hlt
    · rw [if_neg hlt] at hstep
      cases hstep
  | first =>
    simp only [hpc] at hstep
    cases hstep
    exact h.first_step hpc
  | spin =>
    simp only [hpc] at hstep
    split_ifs at hstep with hunused
    · cases hstep
      exact h
    · cases hstep
      exact h.spin_step hpc (not_not.mp hunused)
  | fill field =>
    simp only [hpc] at hstep
    cases hstep
    exact h.fill_step hpc
  | publish =>
    have hunused : (s.desc t).loopId = loopUnused := h.filling_unused (t := t) (by rw [hpc]; rfl)
    simp only [hpc, hunused, if_true] at hstep
    have hs' : s' = s.published t := by
      rw [← Option.some.inj hstep]
      simp [State.published, State.check, State.setPc, State.setDesc]
    rw [hs']
    exact h.publish_step hpc
  | wait =>
    simp only [hpc] at hstep
    split_ifs at hstep with hid
    · cases hstep
      exact h
    · cases hstep
      exact h.wait_step hpc (not_not.mp hid)
  | holding =>
    simp only [hpc] at hstep
    cases hstep
    exact h.holding_step hpc
  | freeing =>
    simp only [hpc] at hstep
    cases hstep
    exact h.freeing_step hpc
  | releasing =>
    simp only [hpc] at hstep
    cases hstep
    exact h.releasing_step hpc

theorem Inv.teamStep (h : Inv s) (hstep : TeamStep s s') : Inv s' := by
  obtain ⟨t, hstep | ⟨hpc, n, c, k, rfl⟩⟩ := hstep
  · exact h.stepThread hstep
  · exact h.work_step hpc n c k

end Step

/-! ## Every interleaving -/

/-- The ring never mixes loops: in every interleaving no assertion fails, no two threads initialise
a descriptor for the same loop, every thread that has left `__pmp_loop_alloc` for its `k`-th loop
found it initialised, and as long as it has not freed the loop it holds the descriptor of that loop:
with every field as `__pmp_loop_alloc` stored it, until a thread in the loop changes `current`,
`chunk` or `now_serving`. -/
theorem ring_never_mixes (T : Team) {s₀ s : State T} (h₀ : Initial s₀) {n : Nat}
    (hrun : Run TeamStep n s₀ s) : s.failed = false ∧
    (∀ k t t', (k, t) ∈ s.initialised → (k, t') ∈ s.initialised → t = t') ∧
    (s.initialised.map Prod.fst).Nodup ∧
    (∀ t, ∀ k < (s.thread t).entered, ∃ t', (k, t') ∈ s.initialised) ∧
    ∀ t, (s.thread t).pc = .holding ∨ (s.thread t).pc = .freeing →
      (s.desc t).loopId = loopIdOf (s.loopOf t) ∧
        (s.desc t).Describes (T.args (s.loopOf t)) (s.loopOf t ∈ s.worked) ∧
        1 ≤ (s.desc t).loopingThreads := by
  have h : Inv s := hrun.inv (fun _ _ hs hst => hs.teamStep hst) (initial_inv h₀)
  refine ⟨h.failed, ?_, h.nodup, ?_, ?_⟩
  · intro k t t' ht ht'
    exact congrArg Prod.snd (List.inj_on_of_nodup_map h.nodup ht ht' rfl)
  · intro t k hk
    obtain ⟨⟨k', t'⟩, hmem, rfl⟩ := List.mem_map.mp (h.entered t k hk)
    exact ⟨t', hmem⟩
  · intro t hpc
    have hloop : (s.thread t).pc.inLoop = true := by
      rcases hpc with hpc | hpc <;> rw [hpc] <;> rfl
    have hin := h.inSlot hloop
    refine ⟨hin.loopId, hin.describes, ?_⟩
    have hmem : t ∈ s.users (s.loopOf t) := by
      simp only [State.users, mem_filter, mem_univ, true_and]
      rcases hpc with hpc | hpc <;> simp [Thread.freed, hpc, State.loopOf]
    have hpos := card_pos.mpr ⟨t, hmem⟩
    have husers : (s.desc t).loopingThreads = ((s.users (s.loopOf t)).card : Int) := hin.users
    rw [husers]
    omega

/-- Two threads, a ring of 16 descriptors and three loops. -/
def twoThreads : Team where
  teamSize := 2
  log2Loops := 4
  loops := 3
  args := fun k => ⟨35, k, 10, 1, 2, 1⟩
  few := by decide

/-- The first and the second of the two. -/
def master : Fin twoThreads.teamSize := ⟨0, by decide⟩
def second : Fin twoThreads.teamSize := ⟨1, by decide⟩

/-- A new team of two. -/
def newTeam : State twoThreads where
  loopCount := 0
  ring := fun _ => ⟨loopUnused, 0, 0, 0, 0, 0, 0, 0, 0, 0⟩
  thread := fun _ => { pc := .idle, loopCount := 0 }
  initialised := []
  worked := []
  failed := false

theorem newTeam_initial : Initial newTeam := ⟨rfl, fun _ => rfl, fun _ => rfl, rfl, rfl, rfl⟩

theorem ring_never_mixes_two :
    ∃ s : State twoThreads, Run TeamStep 15 newTeam s ∧ (s.thread second).pc = .holding ∧
      (s.desc second).Describes ⟨35, 0, 10, 1, 2, 1⟩ False ∧ s.failed = false := by
  let o := ([master, master, master, master, second] ++ List.replicate 9 master ++ [second]).foldlM
    (fun s t => stepThread t s) newTeam
  have hdone : o.isSome = true ∧ o.all (fun s => decide ((s.thread second).pc = .holding ∧
      s.loopOf second = 0 ∧ s.worked = [])) = true := by decide +kernel
  obtain ⟨s, hs⟩ := Option.isSome_iff_exists.mp hdone.1
  have hrun := Run.of_foldlM (fun t s s' h => (⟨t, .inl h⟩ : TeamStep s s')) _ (.refl _) hs
  rw [hs] at hdone
  obtain ⟨hpc, hloop, hworked⟩ := of_decide_eq_true hdone.2
  have hring := ring_never_mixes twoThreads newTeam_initial hrun
  refine ⟨s, hrun, hpc, ?_, hring.1⟩
  have hdesc := (hring.2.2.2.2 second (.inl hpc)).2.1
  have hnone : (s.loopOf second ∈ s.worked) = False := by
    rw [hworked]
    exact eq_false List.not_mem_nil
  rw [hnone, hloop] at hdesc
  exact hdesc

end OpenMP.Ring
