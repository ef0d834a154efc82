import Path64.Lib.Counting
import Path64.Lib.Interleaving
import Path64.OpenMP.Handshake

/-! # Fork and join

A master forks again and again. Each time it takes some workers off the
id stack, assigns them to its team and wakes them; everybody executes the
team's work function and joins, and the master, when all have joined,
releases the workers. A worker may be released, assigned again and woken
before it has come to its wait.

The work function is one step. -/

namespace OpenMP.ForkJoin

open List Function Interleaving Handshake Counting

/-! ## Model -/

/-- Where a worker stands in `__pmp_thread_run`. -/
inductive WorkerPc where
  | waiting (w : Wait)
  /-- Before it reads `thread->team`. -/
  | start
  /-- Before `__pmp_thread_work`. -/
  | working
  /-- Before the fetch-and-add of `__pmp_thread_worker_join`, after the work of a fork. -/
  | join (fork : Nat)
  /-- In `__pmp_thread_wake` of the master. -/
  | waking (fork : Nat) (k : Wake)
  /-- Before `__pmp_thread_idle`. -/
  | idle

/-- A worker; the forks that it was assigned to, ran and joined are listed latest first. -/
structure Worker where
  pc : WorkerPc
  localId : Int
  team : Bool
  assigned : List Nat
  ran : List Nat
  joined : List Nat

/-- Where the master stands in `__pmp_thread_fork`. -/
inductive MasterPc (n : Nat) where
  | serial
  /-- In `__pmp_thread_assign`, before the test of the first loop. -/
  | assigning
  /-- Before the test of the second loop, with the members still to wake. -/
  | wakeLoop (rest : List (Fin n))
  /-- In `__pmp_thread_wake` of a member. -/
  | waking (w : Fin n) (rest : List (Fin n)) (k : Wake)
  /-- Before its own `__pmp_thread_work`. -/
  | working
  /-- In `__pmp_thread_master_join`, before test `i` of the spin loop. -/
  | spin (i : Int)
  /-- Before it sets `working_threads` to 0. -/
  | store
  /-- Before the fetch-and-add. -/
  | join
  | waiting (w : Wait)
  /-- In `__pmp_thread_release`, with the members still to release. -/
  | releasing (rest : List (Fin n))
  /-- Before `__pmp_team_free`. -/
  | free
  deriving DecidableEq

/-- The threads that there are, and how long they spin. -/
structure Threads where
  workers : Nat
  threadSpin : Int
  workerSpin : Fin workers → Int

/-- `work` is the fork whose work function the team has. -/
structure State (T : Threads) where
  teamSize : Nat
  members : List (Fin T.workers)
  work : Nat
  workingThreads : Int
  stack : List (Fin T.workers)
  master : MasterPc T.workers
  masterCell : Cell
  worker : Fin T.workers → Worker
  cell : Fin T.workers → Cell
  forks : Nat
  failed : Bool

variable {T : Threads}

namespace State

def setWorker (s : State T) (w : Fin T.workers) (W : Worker) : State T :=
  { s with worker := update s.worker w W }

def setCell (s : State T) (w : Fin T.workers) (c : Cell) : State T :=
  { s with cell := update s.cell w c }

end State

/-- After the test of the spin loop in `__pmp_thread_master_join`. -/
def joinTest {n : Nat} (threadSpin i : Int) : MasterPc n :=
  if i < threadSpin then .spin i else .join

/-- The next step of the master; `nthreads` is what `__pmp_thread_acquire` returns. -/
def stepMaster (nthreads : Nat) (s : State T) : Option (State T) :=
  if s.failed then none
  else match s.master with
  | .serial =>
    if s.teamSize ≠ 0 ∨ nthreads = 0 then some { s with failed := true }
    else
      some { s with
        teamSize := nthreads, members := [], work := s.forks, workingThreads := nthreads,
        forks := s.forks + 1, master := .assigning }
  | .assigning =>
    if s.members.length < s.teamSize - 1 then
      match s.stack with
      | [] => some { s with failed := true }
      | w :: stack =>
        let W := s.worker w
        if W.localId ≠ -1 ∨ W.team then some { s with failed := true }
        else
          some ({ s with stack := stack, members := s.members ++ [w] }.setWorker w { W with
            localId := (s.members.length : Int) + 1, team := true,
            assigned := s.work :: W.assigned })
    else some { s with master := .wakeLoop s.members }
  | .wakeLoop [] => some { s with master := .working }
  | .wakeLoop (w :: rest) => some { s with master := .waking w rest .swap }
  | .waking w rest k =>
    match k.step (s.cell w) with
    | (.next k', c) => some { s.setCell w c with master := .waking w rest k' }
    | (.failed, _) => some { s with failed := true }
    | (.done, c) => some { s.setCell w c with master := .wakeLoop rest }
  | .working => some { s with master := joinTest T.threadSpin 0 }
  | .spin i =>
    if s.workingThreads = 1 then some { s with master := .store }
    else some { s with master := joinTest T.threadSpin (i + 1) }
  | .store => some { s with workingThreads := 0, master := .releasing s.members.reverse }
  | .join =>
    let count := s.workingThreads
    let s' := { s with workingThreads := s.workingThreads - 1 }
    if count < 1 then some { s' with failed := true }
    else if count > 1 then some { s' with master := .waiting .test }
    else some { s' with master := .releasing s.members.reverse }
  | .waiting w =>
    match w.step T.threadSpin s.masterCell with
    | none => none
    | some (some w', c) => some { s with masterCell := c, master := .waiting w' }
    | some (none, c) => some { s with masterCell := c, master := .releasing s.members.reverse }
  | .releasing [] => some { s with master := .free }
  | .releasing (w :: rest) =>
    if s.stack.length < T.workers then
      some ({ s with stack := w :: s.stack, master := .releasing rest }.setWorker w
        { s.worker w with localId := -1, team := false })
    else some { s with failed := true }
  | .free =>
    if s.workingThreads ≠ 0 then some { s with failed := true }
    else some { s with teamSize := 0, master := .serial }

/-- The next step of worker `w`. -/
def stepWorker (w : Fin T.workers) (s : State T) : Option (State T) :=
  let W := s.worker w
  if s.failed then none
  else match W.pc with
  | .waiting v =>
    match v.step (T.workerSpin w) (s.cell w) with
    | none => none
    | some (some v', c) => some ((s.setCell w c).setWorker w { W with pc := .waiting v' })
    | some (none, c) => some ((s.setCell w c).setWorker w { W with pc := .start })
  | .start =>
    if W.team then some (s.setWorker w { W with pc := .working }) else some { s with failed := true }
  | .working =>
    if W.team then some (s.setWorker w { W with pc := .join s.work, ran := s.work :: W.ran })
    else some { s with failed := true }
  | .join fork =>
    let count := s.workingThreads
    let s' := { s with workingThreads := s.workingThreads - 1 }
    if count < 1 then some { s' with failed := true }
    else if count = 1 then some (s'.setWorker w { W with pc := .waking fork .swap })
    else some (s'.setWorker w { W with pc := .idle, joined := fork :: W.joined })
  | .waking fork k =>
    match k.step s.masterCell with
    | (.next k', c) =>
      some ({ s with masterCell := c }.setWorker w { W with pc := .waking fork k' })
    | (.failed, _) => some { s with failed := true }
    | (.done, c) =>
      some ({ s with masterCell := c }.setWorker w
        { W with pc := .idle, joined := fork :: W.joined })
  | .idle => some (s.setWorker w { W with pc := .waiting .test })

/-- `__pmp_thread_acquire` returns at least 1, and no more than there are. -/
def ThreadStep (s s' : State T) : Prop :=
  (∃ nthreads, 1 ≤ nthreads ∧ nthreads ≤ T.workers + 1 ∧ stepMaster nthreads s = some s') ∨
    ∃ w, stepWorker w s = some s'

/-- Before the first fork; the workers are about to wait. -/
structure Initial (s : State T) : Prop where
  teamSize : s.teamSize = 0
  members : s.members = []
  stack : s.stack.Nodup ∧ ∀ w, w ∈ s.stack
  master : s.master = .serial
  masterCell : s.masterCell = ⟨.idle, false⟩
  worker : ∀ w, s.worker w = ⟨.waiting .test, -1, false, [], [], []⟩
  cell : ∀ w, s.cell w = ⟨.idle, false⟩
  workingThreads : s.workingThreads = 0
  forks : s.forks = 0
  failed : s.failed = false

/-! ## The invariant -/

/-- How far a worker has come with a fork. -/
inductive Stage where
  /-- On the id stack. -/
  | free
  /-- In the team, and not woken. -/
  | assigned
  /-- Woken. -/
  | called
  /-- Through with the work. -/
  | ran
  /-- It was the last one to join, and is waking the master. -/
  | last
  | joined

namespace Stage

/-- It has not been counted down. -/
def counts : Stage → Int
  | assigned | called | ran => 1
  | _ => 0

/-- It is through with its join. -/
def Settled : Stage → Prop
  | free | joined => True
  | _ => False

/-- The forks that it was assigned to, when it joined `forks` before. -/
def assignedTo (fork : Nat) (forks : List Nat) : Stage → List Nat
  | free | joined => forks
  | _ => fork :: forks

/-- The forks whose work it executed. -/
def ranTo (fork : Nat) (forks : List Nat) : Stage → List Nat
  | ran | last => fork :: forks
  | _ => forks

end Stage

/-- Where a worker can be at each stage, and how far its wait has come. -/
inductive Place (fork : Nat) : Stage → Phase → WorkerPc → Prop
  | idle {st} (h : st.Settled) : Place fork st .off .idle
  | wait {st} (v) (h : st.Settled) : Place fork st .owed (.waiting v)
  | assignedIdle : Place fork .assigned .off .idle
  | assignedWait {ph : Phase} (v) (h : ph.Pending) : Place fork .assigned ph (.waiting v)
  | early : Place fork .called .early .idle
  | woken (v) : Place fork .called .woken (.waiting v)
  | start : Place fork .called .off .start
  | working : Place fork .called .off .working
  | ran : Place fork .ran .off (.join fork)
  | last (k) : Place fork .last .off (.waking fork k)

/-- One worker. -/
structure WorkerOk (fork : Nat) (W : Worker) (ph : Phase) (st : Stage) : Prop where
  place : Place fork st ph W.pc
  team : st = .free ↔ W.team = false
  localId : W.localId = -1 ↔ st = .free
  assigned : W.assigned = st.assignedTo fork W.joined
  ran : W.ran = st.ranTo fork W.joined

/-- The position in `__pmp_thread_wait`. -/
def WorkerPc.wait : WorkerPc → Option Wait
  | waiting w => some w
  | _ => none

namespace MasterPc

variable {n : Nat}

/-- The position in `__pmp_thread_wait`. -/
def wait : MasterPc n → Option Wait
  | waiting w => some w
  | _ => none

/-- The members that it has still to wake. -/
def toWake (members : List (Fin n)) : MasterPc n → List (Fin n)
  | assigning => members
  | wakeLoop rest => rest
  | waking w rest _ => w :: rest
  | _ => []

/-- The members that it has still to release. -/
def toRelease (members : List (Fin n)) : MasterPc n → List (Fin n)
  | serial | free => []
  | releasing rest => rest
  | _ => members

/-- The master itself has not been counted down. -/
def counts : MasterPc n → Int
  | assigning | wakeLoop _ | waking .. | working | spin _ | store | join => 1
  | _ => 0

/-- The workers that it has still to assign. -/
def toAssign (teamSize : Nat) (members : List (Fin n)) : MasterPc n → Int
  | assigning => teamSize - 1 - members.length
  | _ => 0

/-- All workers have joined. -/
def Done : MasterPc n → Prop
  | serial | store | releasing _ | free => True
  | _ => False

end MasterPc

/-- `stage` and `phase` say how far the workers are, `mphase` the master. -/
structure InvAt (s : State T) (stage : Fin T.workers → Stage) (phase : Fin T.workers → Phase)
    (mphase : Phase) : Prop where
  worker : ∀ w, WorkerOk s.work (s.worker w) (phase w) (stage w)
  cell : ∀ w, Ok (phase w) (s.worker w).pc.wait (s.cell w)
  mcell : Ok mphase s.master.wait s.masterCell
  mearly : mphase ≠ .early
  stack : s.stack.Nodup ∧ ∀ w, w ∈ s.stack ↔ stage w = .free
  toRelease : (s.master.toRelease s.members).Nodup ∧
    ∀ w, w ∈ s.master.toRelease s.members ↔ stage w ≠ .free
  toWake : (s.master.toWake s.members).Nodup ∧
    ∀ w, w ∈ s.master.toWake s.members ↔ stage w = .assigned
  waking : ∀ w rest k, s.master = .waking w rest k → (phase w).At k
  begun : ∀ w, stage w = .assigned → (phase w).Waking →
    ∃ rest k, s.master = .waking w rest k ∧ k ≠ .swap
  last : ∀ w, stage w = .last → (∃ v, s.master = .waiting v) ∧
    ∀ u, u ≠ w → (stage u).Settled
  mwaking : ∀ w fork k, (s.worker w).pc = .waking fork k → mphase.At k
  mbegun : mphase.Waking → ∃ w fork k, (s.worker w).pc = .waking fork k
  done : s.master.Done ∨ mphase = .woken → ∀ w, (stage w).Settled
  count : s.workingThreads = s.master.counts + s.master.toAssign s.teamSize s.members +
    ∑ w, (stage w).counts
  size : (s.master = .serial → s.teamSize = 0) ∧
    (s.master = .assigning → s.members.length ≤ s.teamSize - 1 ∧ 1 ≤ s.teamSize ∧
      s.teamSize ≤ T.workers + 1 ∧ s.work < s.forks)
  fresh : ∀ w, (s.worker w).assigned.Pairwise (· > ·) ∧
    (∀ k ∈ (s.worker w).assigned, k < s.forks) ∧
    (s.master = .assigning → stage w = .free → ∀ k ∈ (s.worker w).assigned, k < s.work)

def Inv (s : State T) : Prop := s.failed = false ∧ ∃ stage phase mphase, InvAt s stage phase mphase

/-! ## Steps of a worker -/

variable {W : Worker} {c : Cell} {v : Wait} {f nthreads : Nat} {k k' : Wake} {mph : Phase}
  {rest : List (Fin T.workers)}

section Steps

variable {s s' : State T} {stage : Fin T.workers → Stage} {phase : Fin T.workers → Phase}
  {mphase : Phase} {w : Fin T.workers}

theorem InvAt.worker_move (h : InvAt s stage phase mphase) {st : Stage}
    {ph : Phase} (hok : WorkerOk s.work W ph st) (hcell : Ok ph W.pc.wait c)
    (hassigned : W.assigned = (s.worker w).assigned)
    (hcounts : st.counts = (stage w).counts) (hsettled : (stage w).Settled → st.Settled)
    (hfree : st = .free ↔ stage w = .free) (hstage : st = .assigned ↔ stage w = .assigned)
    (hlast : st ≠ .last ∧ stage w ≠ .last)
    (hwaking : st = .assigned → ph = phase w ∨ ¬ ph.Waking ∧ ¬ (phase w).Waking ∧
      ∀ k, (phase w).At k → ph.At k) :
    InvAt ((s.setCell w c).setWorker w W) (update stage w st) (update phase w ph) mphase:= by
  have hnot : ∀ u fork k, (update s.worker w W u).pc = .waking fork k → u ≠ w := by
    rintro u fork k hu rfl
    rw [update_self] at hu
    have := hok.place
    rw [hu] at this
    cases this
    exact hlast.1 rfl
  refine ⟨?_, ?_, h.mcell, h.mearly, ⟨h.stack.1, ?_⟩, ⟨h.toRelease.1, ?_⟩, ⟨h.toWake.1, ?_⟩, ?_, ?_,
    ?_, ?_, ?_, ?_, ?_, h.size, ?_⟩
  · intro u
    have := h.worker u
    simp only [State.setWorker, State.setCell, update_apply]
    grind
  · intro u
    have := h.cell u
    simp only [State.setWorker, State.setCell, update_apply]
    grind
  · intro u
    have := h.stack.2 u
    simp only [State.setWorker, State.setCell, update_apply]
    grind
  · intro u
    have := h.toRelease.2 u
    simp only [State.setWorker, State.setCell, update_apply]
    grind
  · intro u
    have := h.toWake.2 u
    simp only [State.setWorker, State.setCell, update_apply]
    grind
  · intro u rest k hm
    have := h.waking u rest k hm
    have := (h.toWake.2 u).mp (by rw [show s.master = _ from hm]; exact mem_cons_self)
    simp only [update_apply]
    grind
  · intro u
    have := h.begun u
    simp only [State.setWorker, State.setCell, update_apply]
    grind
  · intro u hu
    have := h.last u
    have := h.last w
    simp only [State.setWorker, State.setCell, update_apply] at hu ⊢
    grind
  · intro u fork k hu
    have hne := hnot u fork k hu
    exact h.mwaking u fork k (by simpa [State.setWorker, State.setCell, hne] using hu)
  · intro hm
    obtain ⟨u, fork, k, hu⟩ := h.mbegun hm
    have hne : u ≠ w := by
      rintro rfl
      have := (h.worker u).place
      rw [hu] at this
      have := hlast.2
      generalize stage u = st at *
      generalize phase u = ph at *
      cases ‹Place _ _ _ _›
      exact this rfl
    exact ⟨u, fork, k, by simpa [State.setWorker, State.setCell, hne] using hu⟩
  · intro hd u
    have := h.done hd u
    simp only [update_apply]
    grind
  · rw [sum_update Stage.counts, hcounts]
    have := h.count
    simp only [State.setWorker, State.setCell]
    omega
  · intro u
    have := h.fresh u
    simp only [State.setWorker, State.setCell, update_apply]
    grind

section

variable {fork : Nat} {st : Stage} {ph : Phase}

theorem Place.of_waiting (h : Place fork st ph (.waiting v)) :
    st ≠ .last ∧ (∀ v', Place fork st ph (.waiting v')) ∧ (ph = .woken → st = .called) := by
  cases h with
  | wait v hst =>
    refine ⟨?_, fun v' => .wait v' hst, fun hph => by cases hph⟩
    rintro rfl
    cases hst
  | assignedWait v hph =>
    refine ⟨by simp, fun v' => .assignedWait v' hph, ?_⟩
    rintro rfl
    cases hph
  | woken v => exact ⟨by simp, .woken, fun _ => rfl⟩

theorem Place.of_start (h : Place fork st ph .start) : st = .called ∧ ph = .off:= by
  cases h
  exact ⟨rfl, rfl⟩

theorem Place.of_working (h : Place fork st ph .working) : st = .called ∧ ph = .off:= by
  cases h
  exact ⟨rfl, rfl⟩

end

theorem Place.of_join {fork : Nat} {st : Stage} {ph : Phase} (h : Place fork st ph (.join f)) :
    f = fork ∧ st = .ran ∧ ph = .off := by
  cases h
  exact ⟨rfl, rfl, rfl⟩

theorem Place.of_waking {fork : Nat} {st : Stage} {ph : Phase}
    (h : Place fork st ph (.waking f k)) : f = fork ∧ st = .last ∧ ph = .off := by
  cases h
  exact ⟨rfl, rfl, rfl⟩

theorem Place.of_idle {fork : Nat} {st : Stage} {ph : Phase} (h : Place fork st ph .idle) :
    st ≠ .last ∧ Place fork st ph.wait (.waiting .test) ∧
      (st = .assigned → ¬ ph.wait.Waking ∧ ¬ ph.Waking ∧ ∀ k, ph.At k → ph.wait.At k) := by
  cases h with
  | idle hst =>
    refine ⟨?_, .wait _ hst, ?_⟩
    · rintro rfl
      cases hst
    · rintro rfl
      cases hst
  | assignedIdle =>
    refine ⟨by simp, .assignedWait _ trivial, fun _ => ⟨id, id, fun k hk => ?_⟩⟩
    cases k <;> trivial
  | early => exact ⟨by simp, .woken _, fun hst => by cases hst⟩

section

variable (h : InvAt s stage phase mphase)
include h

theorem InvAt.wait_next {v' : Wait}
    (hpc : (s.worker w).pc = .waiting v) (hok : Ok (phase w) (some v') c) :
    InvAt ((s.setCell w c).setWorker w { s.worker w with pc := .waiting v' })
      (update stage w (stage w)) (update phase w (phase w)) mphase := by
  have hw := h.worker w
  obtain ⟨hlast, hplace, -⟩ := Place.of_waiting (hpc ▸ hw.place)
  exact h.worker_move ⟨hplace v', hw.team, hw.localId, hw.assigned, hw.ran⟩ hok rfl rfl id Iff.rfl
    Iff.rfl ⟨hlast, hlast⟩ fun _ => .inl rfl

theorem InvAt.wait_return
    (hpc : (s.worker w).pc = .waiting v) (hph : phase w = .woken) (hok : Ok .off none c) :
    InvAt ((s.setCell w c).setWorker w { s.worker w with pc := .start })
      (update stage w (stage w)) (update phase w .off) mphase := by
  have hw := h.worker w
  obtain ⟨hlast, -, hcalled⟩ := Place.of_waiting (hpc ▸ hw.place)
  have hstage := hcalled hph
  refine h.worker_move ⟨?_, hw.team, hw.localId, hw.assigned, hw.ran⟩ hok rfl rfl id Iff.rfl
    Iff.rfl ⟨hlast, hlast⟩ fun hst => ?_
  · rw [hstage]
    exact .start
  · rw [hstage] at hst
    cases hst

theorem InvAt.worker_start (hpc : (s.worker w).pc = .start) : (s.worker w).team = true ∧
      InvAt (s.setWorker w { s.worker w with pc := .working }) (update stage w .called)
        (update phase w .off) mphase := by
  have hw := h.worker w
  obtain ⟨hstage, hph⟩ := Place.of_start (hpc ▸ hw.place)
  have hcell := h.cell w
  rw [hpc, hph] at hcell
  have hok := hw
  rw [hstage] at hok
  have hinv := h.worker_move (W := { s.worker w with pc := .working }) (c := s.cell w)
    ⟨.working, hok.team, hok.localId, hok.assigned, hok.ran⟩ hcell rfl (by rw [hstage])
    (by simp [hstage, Stage.Settled]) (by simp [hstage]) (by simp [hstage]) (by simp [hstage])
    (by simp)
  refine ⟨?_, ?_⟩
  · have := hw.team
    rw [hstage] at this
    simpa using this
  · simpa [State.setCell] using hinv

theorem InvAt.worker_work (hpc : (s.worker w).pc = .working) : (s.worker w).team = true ∧
      InvAt (s.setWorker w { s.worker w with
        pc := .join s.work, ran := s.work :: (s.worker w).ran }) (update stage w .ran)
        (update phase w .off) mphase := by
  have hw := h.worker w
  obtain ⟨hstage, hph⟩ := Place.of_working (hpc ▸ hw.place)
  have hcell := h.cell w
  rw [hpc, hph] at hcell
  have hok := hw
  rw [hstage] at hok
  have hinv := h.worker_move (W := { s.worker w with
      pc := .join s.work, ran := s.work :: (s.worker w).ran }) (c := s.cell w)
    (show WorkerOk s.work _ .off .ran from ⟨.ran, by simpa using hok.team,
      by simpa using hok.localId, hok.assigned, congrArg (s.work :: ·) hok.ran⟩) hcell rfl (by rw [hstage]; rfl)
    (by simp [hstage, Stage.Settled]) (by simp [hstage]) (by simp [hstage]) (by simp [hstage])
    (by simp)
  refine ⟨?_, ?_⟩
  · have := hw.team
    rw [hstage] at this
    simpa using this
  · simpa [State.setCell] using hinv

theorem InvAt.worker_idle (hpc : (s.worker w).pc = .idle) :
    InvAt (s.setWorker w { s.worker w with pc := .waiting .test })
      (update stage w (stage w)) (update phase w (phase w).wait) mphase := by
  have hw := h.worker w
  obtain ⟨hlast, hplace, hwaking⟩ := Place.of_idle (hpc ▸ hw.place)
  have hcell := h.cell w
  rw [hpc] at hcell
  have hinv := h.worker_move (W := { s.worker w with pc := .waiting .test }) (c := s.cell w)
    ⟨hplace, hw.team, hw.localId, hw.assigned, hw.ran⟩ hcell.begin rfl rfl id Iff.rfl Iff.rfl
    ⟨hlast, hlast⟩ fun hst => .inr (hwaking hst)
  simpa [State.setCell] using hinv

theorem InvAt.others_settled (hstage : stage w = .ran)
    (hone : s.workingThreads = 1) : (∃ v, s.master = .waiting v) ∧
      (∀ u, u ≠ w → (stage u).Settled) ∧ mphase = .owed := by
  have hnonneg : ∀ u, 0 ≤ (stage u).counts := by
    intro u
    cases stage u <;> simp [Stage.counts]
  have hmaster : 0 ≤ s.master.counts := by
    cases s.master <;> simp [MasterPc.counts]
  have hassign : 0 ≤ s.master.toAssign s.teamSize s.members := by
    have := h.size.2
    cases hm : s.master <;> simp only [MasterPc.toAssign, le_refl]
    have := this hm
    omega
  have hcount := h.count
  have hsum := Finset.add_sum_erase Finset.univ (fun u => (stage u).counts) (Finset.mem_univ w)
  simp only [hstage, Stage.counts] at hsum
  have hrest : 0 ≤ ∑ u ∈ Finset.univ.erase w, (stage u).counts :=
    Finset.sum_nonneg fun u _ => hnonneg u
  have hzero : ∑ u ∈ Finset.univ.erase w, (stage u).counts = 0 := by
    simp only [Stage.counts] at *
    omega
  have hothers : ∀ u, u ≠ w → (stage u).Settled := by
    intro u hu
    have := (Finset.sum_eq_zero_iff_of_nonneg fun u _ => hnonneg u).mp hzero u
      (Finset.mem_erase.mpr ⟨hu, Finset.mem_univ u⟩)
    have := h.last u
    have hne : stage w ≠ .joined ∧ stage w ≠ .free := by simp [hstage]
    cases hst : stage u with
    | free | joined => trivial
    | last =>
      have hw := (this hst).2 w hu.symm
      rw [hstage] at hw
      cases hw
    | _ => simp [hst, Stage.counts] at *
  have hnotdone : ¬ (s.master.Done ∨ mphase = .woken) := by
    intro hd
    have := h.done hd w
    rw [hstage] at this
    cases this
  -- so the master waits, and nobody is waking it
  have hwaiting : ∃ v, s.master = .waiting v := by
    cases hm : s.master with
    | waiting v => exact ⟨v, rfl⟩
    | serial | store | releasing | free => exact absurd (.inl (by rw [hm]; trivial)) hnotdone
    | _ =>
      rw [hm] at hcount hassign
      simp only [MasterPc.counts, Stage.counts] at *
      omega
  refine ⟨hwaiting, hothers, ?_⟩
  obtain ⟨v, hv⟩ := hwaiting
  have hmcell := h.mcell
  have hmbegun := h.mbegun
  have hnobody : ¬ mphase.Waking := by
    intro hm
    obtain ⟨u, fork, k, hu⟩ := h.mbegun hm
    obtain ⟨-, hlast, -⟩ := Place.of_waking (hu ▸ (h.worker u).place)
    have hw := (h.last u hlast).2 w
    rw [hstage] at hw
    refine hw ?_
    rintro rfl
    rw [hlast] at hstage
    cases hstage
  rw [hv] at hmcell
  generalize s.masterCell = c at hmcell
  cases hmcell with
  | owed | suspended => rfl
  | clearing | signalling => exact absurd trivial hnobody
  | woken | found | signalled => exact absurd (.inr rfl) hnotdone

theorem InvAt.count_pos (hstage : stage w = .ran) : 1 ≤ s.workingThreads:= by
  have hnonneg : ∀ u, 0 ≤ (stage u).counts := by
    intro u
    cases stage u <;> simp [Stage.counts]
  have hmaster : 0 ≤ s.master.counts := by
    cases s.master <;> simp [MasterPc.counts]
  have hassign : 0 ≤ s.master.toAssign s.teamSize s.members := by
    have := h.size.2
    cases hm : s.master <;> simp only [MasterPc.toAssign, le_refl]
    have := this hm
    omega
  have hcount := h.count
  have hle := le_sum (f := Stage.counts) hnonneg w
  rw [hstage] at hle
  simp only [Stage.counts] at *
  omega

/-- The last worker through the join finds the count at 1 and goes to wake the master. -/
theorem InvAt.join_last {fork : Nat}
    (hpc : (s.worker w).pc = .join fork) (hone : s.workingThreads = 1) :
    InvAt ({ s with workingThreads := s.workingThreads - 1 }.setWorker w
      { s.worker w with pc := .waking fork .swap }) (update stage w .last) phase mphase := by
  have hw := h.worker w
  obtain ⟨rfl, hstage, hph⟩ := Place.of_join (hpc ▸ hw.place)
  -- all the others have joined, and the master waits
  obtain ⟨hwaiting, hothers, hmph⟩ := h.others_settled hstage hone
  have hok := hw
  rw [hstage, hph] at hok
  refine ⟨?_, ?_, h.mcell, h.mearly, ⟨h.stack.1, ?_⟩, ⟨h.toRelease.1, ?_⟩, ⟨h.toWake.1, ?_⟩, ?_, ?_,
    ?_, ?_, ?_, ?_, ?_, h.size, ?_⟩
  · intro u
    have := h.worker u
    have hnew : WorkerOk s.work { s.worker w with pc := .waking s.work .swap } .off .last :=
      ⟨.last _, by simpa using hok.team, by simpa using hok.localId, hok.assigned, hok.ran⟩
    simp only [State.setWorker, update_apply]
    grind
  · intro u
    have := h.cell u
    simp only [State.setWorker, update_apply]
    grind [WorkerPc.wait]
  · intro u
    have := h.stack.2 u
    simp only [State.setWorker, update_apply]
    grind
  · intro u
    have := h.toRelease.2 u
    simp only [State.setWorker, update_apply]
    grind
  · intro u
    have := h.toWake.2 u
    simp only [State.setWorker, update_apply]
    grind
  · exact h.waking
  · intro u
    have := h.begun u
    simp only [State.setWorker, update_apply]
    grind
  · intro u hu
    have := h.last u
    simp only [State.setWorker, update_apply] at hu ⊢
    refine ⟨hwaiting, fun v hv => ?_⟩
    have huw : u = w := by
      by_contra hne
      rw [if_neg hne] at hu
      have := hothers u hne
      rw [hu] at this
      cases this
    rw [if_neg (huw ▸ hv)]
    exact hothers v (huw ▸ hv)
  · intro u fork k hu
    rw [hmph]
    have huw : u = w := by
      by_contra hne
      simp only [State.setWorker, update_of_ne hne] at hu
      obtain ⟨-, hlast, -⟩ := Place.of_waking (hu ▸ (h.worker u).place)
      have := hothers u hne
      rw [hlast] at this
      cases this
    subst huw
    simp only [State.setWorker, update_self, WorkerPc.waking.injEq] at hu
    rw [← hu.2]
    trivial
  · intro hm
    rw [hmph] at hm
    cases hm
  · intro hd
    have := h.done hd w
    rw [hstage] at this
    cases this
  · rw [sum_update Stage.counts, hstage]
    have := h.count
    show s.workingThreads - 1 = s.master.counts + s.master.toAssign s.teamSize s.members +
      (∑ u, (stage u).counts - 1 + 0)
    omega
  · intro u
    have := h.fresh u
    simp only [State.setWorker, update_apply]
    grind

/-- A worker that is not the last to come lowers the count. -/
theorem InvAt.join_more {fork : Nat} (hpc : (s.worker w).pc = .join fork) :
    InvAt ({ s with workingThreads := s.workingThreads - 1 }.setWorker w
      { s.worker w with pc := .idle, joined := fork :: (s.worker w).joined })
      (update stage w .joined) phase mphase := by
  have hw := h.worker w
  obtain ⟨rfl, hstage, hph⟩ := Place.of_join (hpc ▸ hw.place)
  have hok := hw
  rw [hstage, hph] at hok
  refine ⟨?_, ?_, h.mcell, h.mearly, ⟨h.stack.1, ?_⟩, ⟨h.toRelease.1, ?_⟩, ⟨h.toWake.1, ?_⟩, ?_, ?_,
    ?_, ?_, ?_, ?_, ?_, h.size, ?_⟩
  · intro u
    have := h.worker u
    have hnew : WorkerOk s.work { s.worker w with
        pc := .idle, joined := s.work :: (s.worker w).joined } .off .joined :=
      ⟨.idle trivial, by simpa using hok.team, by simpa using hok.localId, hok.assigned, hok.ran⟩
    simp only [State.setWorker, update_apply]
    grind
  · intro u
    have := h.cell u
    simp only [State.setWorker, update_apply]
    grind [WorkerPc.wait]
  · intro u
    have := h.stack.2 u
    simp only [State.setWorker, update_apply]
    grind
  · intro u
    have := h.toRelease.2 u
    simp only [State.setWorker, update_apply]
    grind
  · intro u
    have := h.toWake.2 u
    simp only [State.setWorker, update_apply]
    grind
  · exact h.waking
  · intro u
    have := h.begun u
    simp only [State.setWorker, update_apply]
    grind
  · intro u hu
    have := h.last u
    simp only [State.setWorker, update_apply] at hu ⊢
    grind [Stage.Settled]
  · intro u fork k hu
    have hne : u ≠ w := by
      rintro rfl
      simp [State.setWorker] at hu
    exact h.mwaking u fork k (by simpa [State.setWorker, hne] using hu)
  · intro hm
    obtain ⟨u, fork, k, hu⟩ := h.mbegun hm
    have hne : u ≠ w := by
      rintro rfl
      rw [hpc] at hu
      cases hu
    exact ⟨u, fork, k, by simpa [State.setWorker, hne] using hu⟩
  · intro hd
    have := h.done hd w
    rw [hstage] at this
    cases this
  · rw [sum_update Stage.counts, hstage]
    have := h.count
    show s.workingThreads - 1 = s.master.counts + s.master.toAssign s.teamSize s.members +
      (∑ u, (stage u).counts - 1 + 0)
    omega
  · intro u
    have := h.fresh u
    simp only [State.setWorker, update_apply]
    grind

theorem InvAt.mwake_next {fork : Nat}
    (hpc : (s.worker w).pc = .waking fork k) (hwaking : mph.Waking)
    (hat : mph.At k') (hok : Ok mph s.master.wait c) :
    InvAt ({ s with masterCell := c }.setWorker w { s.worker w with pc := .waking fork k' })
      stage phase mph := by
  have hw := h.worker w
  obtain ⟨rfl, hstage, hph⟩ := Place.of_waking (hpc ▸ hw.place)
  refine ⟨?_, ?_, hok, ?_, h.stack, h.toRelease, h.toWake, h.waking, h.begun, h.last, ?_, ?_, ?_,
    h.count, h.size, ?_⟩
  · intro u
    have := h.worker u
    have hnew : WorkerOk s.work { s.worker w with pc := .waking s.work k' } (phase w) (stage w) := by
      refine ⟨?_, hw.team, hw.localId, hw.assigned, hw.ran⟩
      rw [hstage, hph]
      exact .last k'
    simp only [State.setWorker, update_apply]
    grind
  · intro u
    have := h.cell u
    simp only [State.setWorker, update_apply]
    grind [WorkerPc.wait]
  · rintro rfl
    cases hwaking
  · intro u fork l hu
    have huw : u = w := by
      by_contra hne
      simp only [State.setWorker, update_of_ne hne] at hu
      obtain ⟨-, hlast, -⟩ := Place.of_waking (hu ▸ (h.worker u).place)
      have := (h.last w hstage).2 u hne
      rw [hlast] at this
      cases this
    subst huw
    simp only [State.setWorker, update_self, WorkerPc.waking.injEq] at hu
    exact hu.2 ▸ hat
  · exact fun _ => ⟨w, s.work, k', by simp [State.setWorker]⟩
  · intro hd
    refine h.done (hd.imp id ?_)
    rintro rfl
    cases hwaking
  · intro u
    have := h.fresh u
    simp only [State.setWorker, update_apply]
    grind

theorem InvAt.mwake_done {fork : Nat}
    (hpc : (s.worker w).pc = .waking fork k) (hok : Ok .woken s.master.wait c) :
    InvAt ({ s with masterCell := c }.setWorker w
      { s.worker w with pc := .idle, joined := fork :: (s.worker w).joined })
      (update stage w .joined) phase .woken := by
  have hw := h.worker w
  obtain ⟨rfl, hstage, hph⟩ := Place.of_waking (hpc ▸ hw.place)
  obtain ⟨⟨v, hv⟩, hothers⟩ := h.last w hstage
  have hw' := hw
  rw [hstage, hph] at hw'
  refine ⟨?_, ?_, hok, by simp, ⟨h.stack.1, ?_⟩, ⟨h.toRelease.1, ?_⟩, ⟨h.toWake.1, ?_⟩, h.waking, ?_,
    ?_, ?_, ?_, ?_, ?_, h.size, ?_⟩
  · intro u
    have := h.worker u
    have hnew : WorkerOk s.work { s.worker w with
        pc := .idle, joined := s.work :: (s.worker w).joined } .off .joined :=
      ⟨.idle trivial, by simpa using hw'.team, by simpa using hw'.localId, hw'.assigned, hw'.ran⟩
    simp only [State.setWorker, update_apply]
    grind
  · intro u
    have := h.cell u
    simp only [State.setWorker, update_apply]
    grind [WorkerPc.wait]
  · intro u
    have := h.stack.2 u
    simp only [State.setWorker, update_apply]
    grind
  · intro u
    have := h.toRelease.2 u
    simp only [State.setWorker, update_apply]
    grind
  · intro u
    have := h.toWake.2 u
    simp only [State.setWorker, update_apply]
    grind
  · intro u
    have := h.begun u
    simp only [State.setWorker, update_apply]
    grind
  · intro u hu
    have := hothers u
    simp only [update_apply] at hu
    grind [Stage.Settled]
  · intro u fork l hu
    by_cases hne : u = w
    · subst hne
      simp [State.setWorker] at hu
    · simp only [State.setWorker, update_of_ne hne] at hu
      obtain ⟨-, hlast, -⟩ := Place.of_waking (hu ▸ (h.worker u).place)
      have := hothers u hne
      rw [hlast] at this
      cases this
  · intro hm
    cases hm
  · intro _ u
    have := hothers u
    simp only [update_apply]
    split
    · trivial
    · rename_i hne
      exact this hne
  · rw [sum_update Stage.counts, hstage]
    have := h.count
    show s.workingThreads = s.master.counts + s.master.toAssign s.teamSize s.members +
      (∑ u, (stage u).counts - 0 + 0)
    omega
  · intro u
    have := h.fresh u
    simp only [State.setWorker, update_apply]
    grind

end

/-- One step of a worker keeps the invariant. -/
theorem inv_stepWorker (h : Inv s) (hstep : stepWorker w s = some s') : Inv s' := by
  obtain ⟨hfailed, stage, phase, mphase, h⟩ := h
  unfold stepWorker at hstep
  dsimp only at hstep
  rw [if_neg (by simp [hfailed])] at hstep
  -- one case for each position
  split at hstep
  · rename_i v hpc
    have hok := h.cell w
    rw [hpc] at hok
    split at hstep
    · cases hstep
    · rename_i v' c hv
      cases hstep
      exact ⟨hfailed, _, _, _, h.wait_next hpc (hok.wait_step hv)⟩
    · rename_i c hv
      cases hstep
      obtain ⟨hph, hoff⟩ := hok.wait_step hv
      exact ⟨hfailed, _, _, _, h.wait_return hpc hph hoff⟩
  · rename_i hpc
    obtain ⟨hteam, hinv⟩ := h.worker_start hpc
    rw [if_pos hteam] at hstep
    cases hstep
    exact ⟨hfailed, _, _, _, hinv⟩
  · rename_i hpc
    obtain ⟨hteam, hinv⟩ := h.worker_work hpc
    rw [if_pos hteam] at hstep
    cases hstep
    exact ⟨hfailed, _, _, _, hinv⟩
  · rename_i fork hpc
    have hpos := h.count_pos (Place.of_join (hpc ▸ (h.worker w).place)).2.1
    rw [if_neg (by omega)] at hstep
    split at hstep
    · rename_i hone
      cases hstep
      exact ⟨hfailed, _, _, _, h.join_last hpc hone⟩
    · cases hstep
      exact ⟨hfailed, _, _, _, h.join_more hpc⟩
  · rename_i fork k hpc
    have hat := h.mwaking w fork k hpc
    have hlast := (Place.of_waking (hpc ▸ (h.worker w).place)).2.1
    obtain ⟨v, hv⟩ := (h.last w hlast).1
    have hmcell := h.mcell
    split at hstep
    · rename_i k' c hk
      cases hstep
      obtain ⟨-, mph, hwaking, hat', hok⟩ := hmcell.wake_step hat hk
      exact ⟨hfailed, _, _, _, h.mwake_next hpc hwaking hat' hok⟩
    · rename_i c hk
      exact (hmcell.wake_step hat hk).elim
    · rename_i c hk
      cases hstep
      have hok := hmcell.wake_step hat hk
      have hwoken : mphase.wake = .woken := by
        rw [hv] at hmcell
        generalize s.masterCell = mc at hmcell
        cases hmcell <;> rfl
      dsimp only at hok
      rw [hwoken] at hok
      exact ⟨hfailed, _, _, _, h.mwake_done hpc hok⟩
  · rename_i hpc
    cases hstep
    exact ⟨hfailed, _, _, _, h.worker_idle hpc⟩

/-! ## Steps of the master -/

theorem InvAt.master_move (h : InvAt s stage phase mphase) {pc : MasterPc T.workers}
    (hwait : pc.wait = s.master.wait) (hnot : s.master.wait = none)
    (hcounts : pc.counts + pc.toAssign s.teamSize s.members
      = s.master.counts + s.master.toAssign s.teamSize s.members)
    (hrelease : pc.toRelease s.members = s.master.toRelease s.members)
    (hwake : pc.toWake s.members = s.master.toWake s.members)
    (hwaking : ∀ w rest k, pc = .waking w rest k → (phase w).At k)
    (hbegun : ∀ w rest k, s.master ≠ .waking w rest k)
    (hdone : pc.Done → ∀ w, (stage w).Settled)
    (hserial : pc ≠ .serial ∧ pc ≠ .assigning) : InvAt { s with master := pc } stage phase mphase := by
  have hmcell := h.mcell
  rw [← hwait] at hmcell
  refine ⟨h.worker, h.cell, hmcell, h.mearly, h.stack, ?_, ?_, hwaking, ?_, ?_, h.mwaking, h.mbegun,
    ?_, ?_, ⟨fun hpc => absurd hpc hserial.1, fun hpc => absurd hpc hserial.2⟩, ?_⟩
  · rw [hrelease]
    exact h.toRelease
  · rw [hwake]
    exact h.toWake
  · intro w hw hph
    obtain ⟨rest, k, hm, -⟩ := h.begun w hw hph
    exact absurd hm (hbegun w rest k)
  · intro w hw
    obtain ⟨v, hv⟩ := (h.last w hw).1
    rw [hv] at hnot
    cases hnot
  · rintro (hd | hm)
    · exact hdone hd
    · exact h.done (.inr hm)
  · rw [h.count, ← hcounts]
  · intro w
    exact ⟨(h.fresh w).1, (h.fresh w).2.1, fun hpc => absurd hpc hserial.2⟩

theorem counts_nonneg (st : Stage) : 0 ≤ st.counts := by
  cases st <;> simp [Stage.counts]

theorem Stage.Settled.counts_eq {st : Stage} (h : st.Settled) : st.counts = 0 := by
  cases st <;> first | rfl | cases h

theorem sum_settled (hall : ∀ u, (stage u).Settled) : ∑ u, (stage u).counts = 0 :=
  Finset.sum_eq_zero fun u _ => (hall u).counts_eq

section

variable (h : InvAt s stage phase mphase)
include h

theorem InvAt.fork (hpc : s.master = .serial)
    (h1 : 1 ≤ nthreads) (h2 : nthreads ≤ T.workers + 1) : InvAt { s with
      teamSize := nthreads, members := [], work := s.forks, workingThreads := nthreads,
      forks := s.forks + 1, master := .assigning } stage phase mphase := by
  have hfree : ∀ w, stage w = .free := by
    intro w
    by_contra hw
    have := (h.toRelease.2 w).mpr hw
    rw [hpc] at this
    cases this
  have hmcell := h.mcell
  rw [hpc] at hmcell
  refine ⟨?_, h.cell, hmcell, h.mearly, h.stack, ⟨nodup_nil, ?_⟩, ⟨nodup_nil, ?_⟩, ?_, ?_,
    ?_, h.mwaking, h.mbegun, ?_, ?_, ⟨?_, ?_⟩, ?_⟩
  · intro w
    have hw := h.worker w
    rw [hfree w] at hw ⊢
    refine ⟨?_, hw.team, hw.localId, hw.assigned, hw.ran⟩
    have hplace := hw.place
    generalize (s.worker w).pc = pc at hplace ⊢
    generalize phase w = ph at hplace ⊢
    cases hplace with
    | idle => exact .idle trivial
    | wait => exact .wait _ trivial
  · intro w
    simp [MasterPc.toRelease, hfree w]
  · intro w
    simp [MasterPc.toWake, hfree w]
  · intro w rest k hm
    cases hm
  · intro w hw
    rw [hfree w] at hw
    cases hw
  · intro w hw
    rw [hfree w] at hw
    cases hw
  · intro _ w
    rw [hfree w]
    trivial
  · rw [sum_settled fun w => by rw [hfree w]; trivial]
    simp [MasterPc.counts, MasterPc.toAssign]
  · intro hm
    cases hm
  · intro _
    exact ⟨Nat.zero_le _, h1, h2, Nat.lt_succ_self _⟩
  · intro w
    obtain ⟨hsorted, hlt, -⟩ := h.fresh w
    exact ⟨hsorted, fun k hk => Nat.lt_succ_of_lt (hlt k hk), fun _ _ => hlt⟩

theorem InvAt.stack_ne_nil (hpc : s.master = .assigning)
    (hmore : s.members.length < s.teamSize - 1) : s.stack ≠ [] := by
  intro hnil
  have hall : ∀ w, w ∈ s.members := by
    intro w
    have hw := (h.toRelease.2 w).mpr
    rw [hpc] at hw
    refine hw fun hfree => ?_
    have := (h.stack.2 w).mpr hfree
    rw [hnil] at this
    cases this
  have hlen : T.workers ≤ s.members.length := by
    have hcard := toFinset_card_le s.members
    have huniv : s.members.toFinset = Finset.univ := by
      ext w
      simp [hall w]
    rwa [huniv, Finset.card_univ, Fintype.card_fin] at hcard
  have := h.size.2 hpc
  omega

/-- The worker taken from the stack was reset before: it has no team and no local id. -/
theorem InvAt.assign (hpc : s.master = .assigning)
    (hmore : s.members.length < s.teamSize - 1) {stack : List (Fin T.workers)}
    (hstack : s.stack = w :: stack) : ((s.worker w).localId = -1 ∧ (s.worker w).team = false) ∧
      InvAt ({ s with stack := stack, members := s.members ++ [w] }.setWorker w { s.worker w with
        localId := (s.members.length : Int) + 1, team := true,
        assigned := s.work :: (s.worker w).assigned }) (update stage w .assigned) phase
        mphase := by
  have hw := h.worker w
  have hfree : stage w = .free := (h.stack.2 w).mp (by rw [hstack]; exact mem_cons_self)
  have hw' := hw
  rw [hfree] at hw'
  refine ⟨⟨hw.localId.mpr hfree, hw.team.mp hfree⟩, ?_⟩
  have hnodup := h.stack.1
  rw [hstack, nodup_cons] at hnodup
  have hrelease := h.toRelease
  have hwake := h.toWake
  have hmcell := h.mcell
  simp only [hpc, MasterPc.toRelease, MasterPc.toWake] at hrelease hwake hmcell
  have hnew : w ∉ s.members := fun hmem => (hrelease.2 w).mp hmem hfree
  have hmembers : (s.members ++ [w]).Nodup := by
    rw [nodup_append]
    grind
  refine ⟨?_, ?_, by simpa [State.setWorker, hpc] using hmcell, h.mearly, ⟨hnodup.2, ?_⟩, ⟨?_, ?_⟩,
    ⟨?_, ?_⟩, ?_, ?_, ?_, ?_, ?_, ?_, ?_, ⟨?_, ?_⟩, ?_⟩
  · intro u
    have := h.worker u
    have hnew : WorkerOk s.work { s.worker w with
        localId := (s.members.length : Int) + 1, team := true,
        assigned := s.work :: (s.worker w).assigned } (phase w) .assigned := by
      refine ⟨?_, by simp, ?_, congrArg (s.work :: ·) hw'.assigned, hw'.ran⟩
      · have hplace := hw'.place
        show Place s.work .assigned (phase w) (s.worker w).pc
        generalize (s.worker w).pc = pc at hplace ⊢
        generalize phase w = ph at hplace ⊢
        cases hplace with
        | idle => exact .assignedIdle
        | wait => exact .assignedWait _ trivial
      · simp
        omega
    simp only [State.setWorker, update_apply]
    grind
  · intro u
    have := h.cell u
    simp only [State.setWorker, update_apply]
    grind
  · intro u
    have := h.stack.2 u
    rw [hstack] at this
    simp only [State.setWorker, update_apply]
    grind
  · simpa [State.setWorker, hpc, MasterPc.toRelease] using hmembers
  · intro u
    have := hrelease.2 u
    simp only [State.setWorker, hpc, MasterPc.toRelease, update_apply]
    grind
  · simpa [State.setWorker, hpc, MasterPc.toWake] using hmembers
  · -- and those to be woken
    intro u
    have := hwake.2 u
    simp only [State.setWorker, hpc, MasterPc.toWake, update_apply]
    grind
  · intro u rest k hm
    simp [State.setWorker, hpc] at hm
  · intro u hu hph
    simp only [update_apply] at hu
    have hplace := hw'.place
    have := h.begun u
    split at hu
    · rename_i huw
      subst huw
      generalize (s.worker u).pc = pc at hplace
      generalize phase u = ph at hplace hph
      cases hplace <;> cases hph
    · simpa [State.setWorker] using this hu hph
  · intro u hu
    have := h.last u
    simp only [update_apply] at hu
    split at hu
    · cases hu
    · obtain ⟨v, hv⟩ := (this hu).1
      rw [hpc] at hv
      cases hv
  · intro u fork k hu
    have := h.mwaking u fork k
    simp only [State.setWorker, update_apply] at hu
    grind
  · -- a worker that wakes the master is not free, so it is another one
    intro hm
    obtain ⟨u, fork, k, hu⟩ := h.mbegun hm
    have hlast := (Place.of_waking (hu ▸ (h.worker u).place)).2.1
    have hne : u ≠ w := by
      rintro rfl
      rw [hfree] at hlast
      cases hlast
    exact ⟨u, fork, k, by simpa [State.setWorker, hne] using hu⟩
  · intro hd
    exfalso
    rcases hd with hd | hd
    · simp [State.setWorker, hpc, MasterPc.Done] at hd
    · generalize s.masterCell = c at hmcell
      rw [hd] at hmcell
      cases hmcell
  · rw [sum_update Stage.counts, hfree]
    have := h.count
    rw [hpc] at this
    simp only [State.setWorker, hpc, MasterPc.counts, MasterPc.toAssign, length_append,
      length_singleton] at this ⊢
    show s.workingThreads = 1 + (s.teamSize - 1 - ((s.members.length + 1 : Nat) : Int)) +
      (∑ u, (stage u).counts - 0 + 1)
    push_cast
    omega
  · intro hm
    simp [State.setWorker, hpc] at hm
  · intro _
    have := h.size.2 hpc
    refine ⟨?_, this.2⟩
    simp only [State.setWorker, length_append, length_singleton]
    omega
  · intro u
    have hu := h.fresh u
    have hsize := h.size.2 hpc
    simp only [State.setWorker, hpc, update_apply]
    split
    · rename_i huw
      subst huw
      have hlt := hu.2.2 hpc hfree
      refine ⟨pairwise_cons.mpr ⟨hlt, hu.1⟩, ?_, by simp⟩
      grind
    · exact ⟨hu.1, hu.2.1, fun _ hst => hu.2.2 hpc hst⟩

theorem InvAt.wake_at (hpc : s.master = .wakeLoop (w :: rest)) : (phase w).At .swap := by
  have hstage : stage w = .assigned := (h.toWake.2 w).mp (by rw [hpc]; exact mem_cons_self)
  have hnot : ¬ (phase w).Waking := by
    intro hph
    obtain ⟨r, k, hm, -⟩ := h.begun w hstage hph
    rw [hpc] at hm
    cases hm
  have hplace := (h.worker w).place
  rw [hstage] at hplace
  generalize (s.worker w).pc = pc at hplace
  generalize phase w = ph at hplace hnot ⊢
  cases hplace with
  | idle hst => cases hst
  | wait v hst => cases hst
  | assignedIdle => trivial
  | assignedWait v hph =>
    cases ph with
    | off | early | woken => cases hph
    | owed => trivial
    | clearing | signalling => exact absurd trivial hnot

theorem InvAt.wake_next {ph : Phase} (hpc : s.master = .waking w rest k)
    (hpending : (phase w).Pending) (hwaking : ph.Waking) (hat : ph.At k')
    (hok : Ok ph (s.worker w).pc.wait c) :
    InvAt { s.setCell w c with master := .waking w rest k' } stage (update phase w ph)
      mphase := by
  have hwake := h.toWake
  have hrelease := h.toRelease
  have hcount := h.count
  have hmcell := h.mcell
  rw [hpc] at hwake hrelease hcount hmcell
  have hstage : stage w = .assigned := (hwake.2 w).mp mem_cons_self
  have hk' : k' ≠ .swap := by
    rintro rfl
    cases ph <;> simp [Phase.Waking, Phase.At] at hwaking hat
  refine ⟨?_, ?_, hmcell, h.mearly, h.stack, hrelease, hwake, ?_, ?_, ?_, h.mwaking, h.mbegun, ?_,
    hcount, ⟨fun hm => (by cases hm), fun hm => (by cases hm)⟩, ?_⟩
  · intro u
    have hu := h.worker u
    by_cases huw : u = w
    · subst huw
      rw [update_self]
      refine ⟨?_, hu.team, hu.localId, hu.assigned, hu.ran⟩
      have hplace := hu.place
      rw [hstage] at hplace ⊢
      show Place s.work .assigned ph (s.worker u).pc
      generalize (s.worker u).pc = pc at hplace ⊢
      generalize phase u = ph0 at hplace hpending
      cases hplace with
      | idle => cases hpending
      | wait v hst => cases hst
      | assignedIdle => cases hpending
      | assignedWait v =>
        refine .assignedWait v ?_
        cases ph <;> trivial
    · rw [update_of_ne huw]
      exact hu
  · intro u
    have := h.cell u
    simp only [State.setCell, update_apply]
    grind
  · intro u r l hm
    cases hm
    rwa [update_self]
  · intro u hu hph
    simp only [update_apply] at hph
    have := h.begun u hu
    split at hph
    · rename_i huw
      exact ⟨rest, k', by rw [huw], hk'⟩
    · rename_i huw
      obtain ⟨r, l, hm, -⟩ := this hph
      rw [hpc] at hm
      cases hm
      exact absurd rfl huw
  · intro u hu
    obtain ⟨v, hv⟩ := (h.last u hu).1
    rw [hpc] at hv
    cases hv
  · rintro (hd | hm)
    · cases hd
    · exact h.done (.inr hm)
  · intro u
    exact ⟨(h.fresh u).1, (h.fresh u).2.1, fun hm => by cases hm⟩

theorem InvAt.wake_done (hpc : s.master = .waking w rest k)
    (hok : Ok (phase w).wake (s.worker w).pc.wait c) :
    InvAt { s.setCell w c with master := .wakeLoop rest } (update stage w .called)
      (update phase w (phase w).wake) mphase := by
  have hwake := h.toWake
  have hrelease := h.toRelease
  have hcount := h.count
  have hmcell := h.mcell
  have hat := h.waking w rest k hpc
  rw [hpc] at hwake hrelease hcount hmcell
  simp only [MasterPc.toWake, nodup_cons, MasterPc.toRelease] at hwake hrelease
  have hstage : stage w = .assigned := (hwake.2 w).mp mem_cons_self
  refine ⟨?_, ?_, hmcell, h.mearly, ⟨h.stack.1, ?_⟩, ⟨hrelease.1, ?_⟩, ⟨hwake.1.2, ?_⟩, ?_, ?_, ?_,
    h.mwaking, h.mbegun, ?_, ?_, ⟨fun hm => (by cases hm), fun hm => (by cases hm)⟩, ?_⟩
  · intro u
    have hu := h.worker u
    by_cases huw : u = w
    · subst huw
      rw [update_self, update_self]
      rw [hstage] at hu
      refine ⟨?_, by simpa [State.setCell] using hu.team, by simpa [State.setCell] using hu.localId,
        hu.assigned, hu.ran⟩
      have hplace := hu.place
      show Place s.work .called (phase u).wake (s.worker u).pc
      generalize (s.worker u).pc = pc at hplace ⊢
      generalize phase u = ph at hplace hat ⊢
      cases hplace with
      | idle hst => cases hst
      | wait v hst => cases hst
      -- it had not gone to sleep yet: the wake came early
      | assignedIdle => exact .early
      | assignedWait v hph =>
        -- it was asleep: the wake it was owed has come
        cases ph with
        | off | early | woken => cases hph
        | _ => exact .woken v
    · rw [update_of_ne huw, update_of_ne huw]
      exact hu
  · intro u
    have := h.cell u
    simp only [State.setCell, update_apply]
    grind
  · intro u
    have := h.stack.2 u
    simp only [State.setCell, update_apply]
    grind
  · intro u
    have := hrelease.2 u
    simp only [MasterPc.toRelease, State.setCell, update_apply]
    grind
  · intro u
    have := hwake.2 u
    have := hwake.1.1
    simp only [MasterPc.toWake, update_apply]
    grind
  · intro u r l hm
    cases hm
  · intro u hu hph
    simp only [update_apply] at hu hph
    split at hu
    · cases hu
    · rename_i huw
      rw [if_neg huw] at hph
      obtain ⟨r, l, hm, -⟩ := h.begun u hu hph
      rw [hpc] at hm
      cases hm
      exact absurd rfl huw
  · intro u hu
    simp only [update_apply] at hu
    split at hu
    · cases hu
    · obtain ⟨v, hv⟩ := (h.last u hu).1
      rw [hpc] at hv
      cases hv
  · rintro (hd | hm)
    · cases hd
    · have := h.done (.inr hm) w
      rw [hstage] at this
      cases this
  · rw [sum_update Stage.counts, hstage]
    show s.workingThreads = 1 + 0 + (∑ u, (stage u).counts - 1 + 1)
    simp only [MasterPc.counts, MasterPc.toAssign] at hcount
    omega
  · intro u
    exact ⟨(h.fresh u).1, (h.fresh u).2.1, fun hm => by cases hm⟩

theorem InvAt.settled (hcounts : s.master.counts = 1)
    (hassign : s.master.toAssign s.teamSize s.members = 0) (hone : s.workingThreads = 1)
    (u : Fin T.workers) : (stage u).Settled := by
  have hcount := h.count
  have hzero : ∑ u, (stage u).counts = 0 := by omega
  have hu := (Finset.sum_eq_zero_iff_of_nonneg fun u _ => counts_nonneg (stage u)).mp hzero u
    (Finset.mem_univ u)
  have hlast := h.last u
  cases hst : stage u with
  | free | joined => trivial
  | last =>
    obtain ⟨v, hv⟩ := (hlast hst).1
    rw [hv] at hcounts
    cases hcounts
  | _ => simp [hst, Stage.counts] at hu

theorem InvAt.release
    (hall : ∀ u, (stage u).Settled) (hrelease : s.master.toRelease s.members = s.members)
    (hok : Ok .off none c) : InvAt { s with
      workingThreads := 0, masterCell := c, master := .releasing s.members.reverse }
      stage phase .off := by
  have hmembers := h.toRelease
  rw [hrelease] at hmembers
  have hnone : ∀ u st, stage u = st → st.Settled := by
    rintro u st rfl
    exact hall u
  refine ⟨h.worker, h.cell, hok, by simp, h.stack, ⟨?_, ?_⟩, ⟨nodup_nil, ?_⟩, ?_, ?_, ?_, ?_, ?_,
    fun _ => hall, ?_, ⟨fun hm => (by cases hm), fun hm => (by cases hm)⟩, ?_⟩
  · exact nodup_reverse.mpr hmembers.1
  · intro u
    simpa [MasterPc.toRelease] using hmembers.2 u
  · intro u
    constructor
    · intro hu
      cases hu
    · intro hu
      exact (hnone u _ hu).elim
  · intro u r k hm
    cases hm
  · intro u hu
    exact (hnone u _ hu).elim
  · intro u hu
    exact (hnone u _ hu).elim
  · intro u fork k hu
    exact (hnone u _ (Place.of_waking (hu ▸ (h.worker u).place)).2.1).elim
  · intro hm
    cases hm
  · rw [sum_settled hall]
    rfl
  · intro u
    exact ⟨(h.fresh u).1, (h.fresh u).2.1, fun hm => by cases hm⟩

theorem InvAt.mphase_off (hpc : s.master.wait = none) : mphase = .off:= by
  have hok := h.mcell
  rw [hpc] at hok
  exact hok.off_or_early.resolve_right h.mearly

theorem InvAt.master_wait {working : Int} (hok : Ok mph (some v) c)
    (hpc : s.master = .join ∧ mph = .owed ∧ working = s.workingThreads - 1 ∨
      (∃ v', s.master = .waiting v') ∧ mph = mphase ∧ working = s.workingThreads) :
    InvAt { s with workingThreads := working, masterCell := c, master := .waiting v } stage phase
      mph := by
  have hrelease := h.toRelease
  have hwake := h.toWake
  have hcount := h.count
  have hkeep : s.master.toRelease s.members = s.members ∧ s.master.toWake s.members = [] ∧
      s.master.counts = s.workingThreads - working ∧ s.master.toAssign s.teamSize s.members = 0 ∧
      (∀ w rest k, s.master ≠ .waking w rest k) := by
    rcases hpc with ⟨hm, -, rfl⟩ | ⟨⟨v', hm⟩, -, rfl⟩
    · simp [hm, MasterPc.toRelease, MasterPc.toWake, MasterPc.counts, MasterPc.toAssign]
    · simp [hm, MasterPc.toRelease, MasterPc.toWake, MasterPc.counts, MasterPc.toAssign]
  obtain ⟨hrel, hwk, hcnt, hasg, hno⟩ := hkeep
  rw [hrel] at hrelease
  rw [hwk] at hwake
  -- the master's own wait has not come further
  have hmph : mph = mphase ∨ s.master = .join ∧ mphase = .off ∧ mph = .owed := by
    rcases hpc with ⟨hm, hph, -⟩ | ⟨-, hph, -⟩
    · exact .inr ⟨hm, h.mphase_off (by rw [hm]; rfl), hph⟩
    · exact .inl hph
  refine ⟨h.worker, h.cell, hok, ?_, h.stack, hrelease, hwake, ?_, ?_, ?_, ?_, ?_, ?_, ?_,
    ⟨fun hm => (by cases hm), fun hm => (by cases hm)⟩, ?_⟩
  · rcases hmph with rfl | ⟨-, -, rfl⟩
    · exact h.mearly
    · simp
  · intro w rest k hm
    cases hm
  · intro w hw hph
    obtain ⟨rest, k, hm, -⟩ := h.begun w hw hph
    exact absurd hm (hno w rest k)
  · intro w hw
    exact ⟨⟨v, rfl⟩, (h.last w hw).2⟩
  · intro w fork k hw
    rcases hmph with rfl | ⟨hm, -, -⟩
    · exact h.mwaking w fork k hw
    · obtain ⟨v', hv⟩ := (h.last w (Place.of_waking (hw ▸ (h.worker w).place)).2.1).1
      rw [hm] at hv
      cases hv
  · intro hm
    rcases hmph with rfl | ⟨-, -, rfl⟩
    · exact h.mbegun hm
    · cases hm
  · rintro (hd | hm)
    · cases hd
    · rcases hmph with rfl | ⟨-, -, rfl⟩
      · exact h.done (.inr hm)
      · cases hm
  · show working = 0 + 0 + ∑ u, (stage u).counts
    omega
  · intro w
    exact ⟨(h.fresh w).1, (h.fresh w).2.1, fun hm => by cases hm⟩

/-- The master puts a worker back on the stack, which has room for it. -/
theorem InvAt.release_one (hpc : s.master = .releasing (w :: rest)) : s.stack.length < T.workers ∧
      InvAt ({ s with stack := w :: s.stack, master := .releasing rest }.setWorker w
        { s.worker w with localId := -1, team := false }) (update stage w .free) phase
        mphase := by
  have hrelease := h.toRelease
  have hwake := h.toWake
  have hcount := h.count
  have hmcell := h.mcell
  have hall := h.done (.inl (by rw [hpc]; trivial))
  rw [hpc] at hrelease hwake hcount hmcell
  simp only [MasterPc.toRelease, nodup_cons] at hrelease
  have hmem := (hrelease.2 w).mp mem_cons_self
  have hstage : stage w = .joined := by
    have := hall w
    cases hst : stage w <;> simp [hst, Stage.Settled] at this hmem ⊢
  have hw := h.worker w
  rw [hstage] at hw
  have hnone : ∀ u st, stage u = st → st.Settled := by
    rintro u st rfl
    exact hall u
  have hnew : w ∉ s.stack := fun hin => hmem ((h.stack.2 w).mp hin)
  refine ⟨?_, ?_, ?_, hmcell, h.mearly, ⟨nodup_cons.mpr ⟨hnew, h.stack.1⟩, ?_⟩,
    ⟨hrelease.1.2, ?_⟩, ⟨nodup_nil, ?_⟩, ?_, ?_, ?_, ?_, ?_, ?_, ?_,
    ⟨fun hm => (by cases hm), fun hm => (by cases hm)⟩, ?_⟩
  · -- the stack has room: its ids are distinct
    have hle := (nodup_cons.mpr ⟨hnew, h.stack.1⟩).length_le_card
    rw [Fintype.card_fin, length_cons] at hle
    omega
  · intro u
    have := h.worker u
    -- the worker is free again
    have hfree : WorkerOk s.work { s.worker w with localId := -1, team := false } (phase w)
        .free := by
      refine ⟨?_, by simp, by simp, hw.assigned, hw.ran⟩
      have hplace := hw.place
      show Place s.work .free (phase w) (s.worker w).pc
      generalize (s.worker w).pc = pc at hplace ⊢
      generalize phase w = ph at hplace ⊢
      cases hplace with
      | idle => exact .idle trivial
      | wait v => exact .wait v trivial
    simp only [State.setWorker, update_apply]
    grind
  · intro u
    have := h.cell u
    simp only [State.setWorker, update_apply]
    grind
  · intro u
    have := h.stack.2 u
    simp only [State.setWorker, update_apply]
    grind
  · intro u
    have := hrelease.2 u
    have := hrelease.1.1
    simp only [State.setWorker, MasterPc.toRelease, update_apply]
    grind
  · intro u
    have := hall u
    simp only [State.setWorker, MasterPc.toWake, update_apply]
    grind [Stage.Settled]
  · intro u r k hm
    cases hm
  · intro u hu
    have := hall u
    simp only [update_apply] at hu
    grind [Stage.Settled]
  · intro u hu
    have := hall u
    simp only [update_apply] at hu
    grind [Stage.Settled]
  · intro u fork k hu
    have := h.mwaking u fork k
    simp only [State.setWorker, update_apply] at hu
    grind
  · intro hm
    obtain ⟨u, fork, k, hu⟩ := h.mbegun hm
    exact (hnone u _ (Place.of_waking (hu ▸ (h.worker u).place)).2.1).elim
  · intro _ u
    have := hall u
    simp only [update_apply]
    grind [Stage.Settled]
  · rw [sum_update Stage.counts, hstage]
    simp only [MasterPc.counts, MasterPc.toAssign] at hcount
    show s.workingThreads = 0 + 0 + (∑ u, (stage u).counts - 0 + 0)
    omega
  · intro u
    have := h.fresh u
    simp only [State.setWorker, update_apply]
    grind

theorem InvAt.team_free (hpc : s.master = .free) :
    s.workingThreads = 0 ∧ InvAt { s with teamSize := 0, master := .serial } stage phase mphase := by
  have hrelease := h.toRelease
  have hwake := h.toWake
  have hcount := h.count
  have hmcell := h.mcell
  have hall := h.done (.inl (by rw [hpc]; trivial))
  rw [hpc] at hrelease hwake hcount hmcell
  rw [sum_settled hall] at hcount
  refine ⟨hcount, h.worker, h.cell, hmcell, h.mearly, h.stack, hrelease, hwake, ?_, ?_, ?_,
    h.mwaking, h.mbegun, fun _ => hall, ?_, ⟨fun _ => rfl, fun hm => (by cases hm)⟩, ?_⟩
  · intro w rest k hm
    cases hm
  · intro w hw
    have := hall w
    rw [hw] at this
    cases this
  · intro w hw
    have := hall w
    rw [hw] at this
    cases this
  · rw [sum_settled hall]
    exact hcount
  · intro w
    exact ⟨(h.fresh w).1, (h.fresh w).2.1, fun hm => by cases hm⟩

theorem InvAt.join_test (hpc : s.master = .working ∨ ∃ i, s.master = .spin i) (i : Int) :
    InvAt { s with master := joinTest T.threadSpin i } stage phase mphase := by
  have hkeep : s.master.wait = none ∧ s.master.toRelease s.members = s.members ∧
      s.master.toWake s.members = [] ∧ s.master.counts = 1 ∧
      s.master.toAssign s.teamSize s.members = 0 ∧ (∀ w rest k, s.master ≠ .waking w rest k) := by
    rcases hpc with hm | ⟨i, hm⟩
    · simp [hm, MasterPc.wait, MasterPc.toRelease, MasterPc.toWake, MasterPc.counts,
        MasterPc.toAssign]
    · simp [hm, MasterPc.wait, MasterPc.toRelease, MasterPc.toWake, MasterPc.counts,
        MasterPc.toAssign]
  obtain ⟨hwait, hrel, hwk, hcnt, hasg, hno⟩ := hkeep
  unfold joinTest
  split
  · exact h.master_move hwait.symm hwait (by rw [hcnt, hasg]; rfl) (by rw [hrel]; rfl)
      (by rw [hwk]; rfl) (fun _ _ _ hm => by cases hm) hno (fun hd => hd.elim) (by simp)
  · exact h.master_move hwait.symm hwait (by rw [hcnt, hasg]; rfl) (by rw [hrel]; rfl)
      (by rw [hwk]; rfl) (fun _ _ _ hm => by cases hm) hno (fun hd => hd.elim) (by simp)

end

/-- One step of the master keeps the invariant, from the fork to the release. -/
theorem inv_stepMaster (h : Inv s) (h1 : 1 ≤ nthreads)
    (h2 : nthreads ≤ T.workers + 1) (hstep : stepMaster nthreads s = some s') : Inv s' := by
  obtain ⟨hfailed, stage, phase, mphase, h⟩ := h
  have hcount := h.count
  have hmcell := h.mcell
  unfold stepMaster at hstep
  rw [if_neg (by simp [hfailed])] at hstep
  -- one case for each position
  split at hstep
  · -- serial: the fork
    rename_i hpc
    have hsize := h.size.1 hpc
    rw [if_neg (by omega)] at hstep
    cases hstep
    exact ⟨hfailed, _, _, _, h.fork hpc h1 h2⟩
  · rename_i hpc
    split at hstep
    · rename_i hmore
      split at hstep
      · rename_i hnil
        exact absurd hnil (h.stack_ne_nil hpc hmore)
      · rename_i w stack hstack
        obtain ⟨⟨hid, hteam⟩, hinv⟩ := h.assign hpc hmore hstack
        dsimp only at hstep
        rw [if_neg (by simp [hid, hteam])] at hstep
        cases hstep
        exact ⟨hfailed, _, _, _, hinv⟩
    · rename_i hend
      cases hstep
      have hsize := h.size.2 hpc
      refine ⟨hfailed, _, _, _, h.master_move (by rw [hpc]; rfl) (by rw [hpc]; rfl) ?_
        (by rw [hpc]; rfl) (by rw [hpc]; rfl) (fun _ _ _ hm => by cases hm) (by simp [hpc])
        (fun hd => hd.elim) (by simp)⟩
      simp only [hpc, MasterPc.counts, MasterPc.toAssign]
      omega
  · rename_i hpc
    cases hstep
    exact ⟨hfailed, _, _, _, h.master_move (by rw [hpc]; rfl) (by rw [hpc]; rfl) (by rw [hpc]; rfl)
      (by rw [hpc]; rfl) (by rw [hpc]; rfl) (fun _ _ _ hm => by cases hm) (by simp [hpc])
      (fun hd => hd.elim) (by simp)⟩
  · rename_i w rest hpc
    cases hstep
    refine ⟨hfailed, _, _, _, h.master_move (by rw [hpc]; rfl) (by rw [hpc]; rfl) (by rw [hpc]; rfl)
      (by rw [hpc]; rfl) (by rw [hpc]; rfl) ?_ (by simp [hpc]) (fun hd => hd.elim) (by simp)⟩
    intro u r k hm
    cases hm
    exact h.wake_at hpc
  · rename_i w rest k hpc
    have hat := h.waking w rest k hpc
    have hok := h.cell w
    split at hstep
    · rename_i k' c hk
      cases hstep
      obtain ⟨hpending, ph, hwaking, hat', hok'⟩ := hok.wake_step hat hk
      exact ⟨hfailed, _, _, _, h.wake_next hpc hpending hwaking hat' hok'⟩
    · rename_i c hk
      exact (hok.wake_step hat hk).elim
    · rename_i c hk
      cases hstep
      exact ⟨hfailed, _, _, _, h.wake_done hpc (hok.wake_step hat hk)⟩
  · rename_i hpc
    cases hstep
    exact ⟨hfailed, _, _, _, h.join_test (.inl hpc) 0⟩
  · rename_i i hpc
    split at hstep
    · rename_i hone
      cases hstep
      have hsettled := h.settled (by rw [hpc]; rfl) (by rw [hpc]; rfl) hone
      exact ⟨hfailed, _, _, _, h.master_move (by rw [hpc]; rfl) (by rw [hpc]; rfl)
        (by rw [hpc]; rfl) (by rw [hpc]; rfl) (by rw [hpc]; rfl) (fun _ _ _ hm => by cases hm)
        (by simp [hpc]) (fun _ => hsettled) (by simp)⟩
    · cases hstep
      exact ⟨hfailed, _, _, _, h.join_test (.inr ⟨i, hpc⟩) (i + 1)⟩
  · rename_i hpc
    cases hstep
    have hoff := h.mphase_off (by rw [hpc]; rfl)
    rw [hpc, hoff] at hmcell
    exact ⟨hfailed, _, _, _, h.release (h.done (.inl (by rw [hpc]; trivial))) (by rw [hpc]; rfl)
      hmcell⟩
  · -- the join itself
    rename_i hpc
    have hoff := h.mphase_off (by rw [hpc]; rfl)
    rw [hpc] at hcount
    rw [hpc, hoff] at hmcell
    have hsum : 0 ≤ ∑ u, (stage u).counts := Finset.sum_nonneg fun u _ => counts_nonneg _
    simp only [MasterPc.counts, MasterPc.toAssign] at hcount
    dsimp only at hstep
    rw [if_neg (by omega)] at hstep
    split at hstep
    · cases hstep
      exact ⟨hfailed, _, _, _, h.master_wait hmcell.begin (.inl ⟨hpc, rfl, rfl⟩)⟩
    · rename_i hlast
      cases hstep
      have hone : s.workingThreads = 1 := by omega
      have hsettled := h.settled (by rw [hpc]; rfl) (by rw [hpc]; rfl) hone
      refine ⟨hfailed, stage, phase, .off, ?_⟩
      rw [hone]
      exact h.release hsettled (by rw [hpc]; rfl) hmcell
  · -- asleep until the last worker is through
    rename_i v hpc
    rw [hpc] at hmcell
    split at hstep
    · cases hstep
    · rename_i v' c hv
      cases hstep
      exact ⟨hfailed, _, _, _, h.master_wait (hmcell.wait_step hv) (.inr ⟨⟨v, hpc⟩, rfl, rfl⟩)⟩
    · rename_i c hv
      cases hstep
      obtain ⟨hwoken, hoff⟩ := hmcell.wait_step hv
      have hall := h.done (.inr hwoken)
      rw [hpc, sum_settled hall] at hcount
      refine ⟨hfailed, stage, phase, .off, ?_⟩
      have hinv := h.release hall (by rw [hpc]; rfl) hoff
      rwa [show (0 : Int) = s.workingThreads from hcount.symm] at hinv
  · rename_i hpc
    cases hstep
    exact ⟨hfailed, _, _, _, h.master_move (by rw [hpc]; rfl) (by rw [hpc]; rfl) (by rw [hpc]; rfl)
      (by rw [hpc]; rfl) (by rw [hpc]; rfl) (fun _ _ _ hm => by cases hm) (by simp [hpc])
      (fun _ => h.done (.inl (by rw [hpc]; trivial))) (by simp)⟩
  · rename_i w rest hpc
    obtain ⟨hroom, hinv⟩ := h.release_one hpc
    rw [if_pos hroom] at hstep
    cases hstep
    exact ⟨hfailed, _, _, _, hinv⟩
  · -- the team is empty
    rename_i hpc
    obtain ⟨hzero, hinv⟩ := h.team_free hpc
    rw [if_neg (by omega)] at hstep
    cases hstep
    exact ⟨hfailed, _, _, _, hinv⟩

end Steps

theorem inv_initial {s : State T} (h : Initial s) : Inv s := by
  refine ⟨h.failed, fun _ => .free, fun _ => .owed, .off, ?_⟩
  refine ⟨?_, ?_, ?_, by simp, ⟨h.stack.1, ?_⟩, ?_, ?_, ?_, ?_, ?_, ?_, ?_, ?_, ?_, ?_, ?_⟩
  · intro w
    rw [h.worker]
    exact ⟨.wait _ trivial, by simp, by simp, rfl, rfl⟩
  · intro w
    rw [h.worker, h.cell]
    exact .owed trivial
  · rw [h.master, h.masterCell]
    exact .off
  · simpa using h.stack.2
  · simp [h.master, MasterPc.toRelease]
  · simp [h.master, MasterPc.toWake]
  · simp [h.master]
  · simp
  · simp
  · simp [h.worker]
  · simp [Phase.Waking]
  · simp [Stage.Settled]
  · simp [h.master, h.workingThreads, MasterPc.counts, MasterPc.toAssign, Stage.counts]
  · simp [h.master, h.teamSize]
  · simp [h.worker]

theorem inv_step {s s' : State T} (h : Inv s) (hstep : ThreadStep s s') : Inv s' := by
  rcases hstep with ⟨nthreads, h1, h2, hst⟩ | ⟨w, hst⟩
  · exact inv_stepMaster h h1 h2 hst
  · exact inv_stepWorker h hst

/-! ## Fork and join are safe -/

/-- `__pmp_thread_master_join` has returned. -/
def State.Joined (s : State T) : Prop := (∃ rest, s.master = .releasing rest) ∨ s.master = .free

/-- The members of the team were assigned to the fork. -/
def Members (s : State T) : Prop := ∀ w ∈ s.members, s.work ∈ (s.worker w).assigned

theorem Members.keep {s s' : State T} (h : Members s) (hmembers : s'.members = s.members)
    (hwork : s'.work = s.work) (hassigned : ∀ w, (s'.worker w).assigned = (s.worker w).assigned) :
    Members s' := by
  intro w hw
  rw [hmembers] at hw
  rw [hwork, hassigned]
  exact h w hw

theorem setWorker_assigned {s : State T} {w : Fin T.workers}
    (hW : W.assigned = (s.worker w).assigned) (u : Fin T.workers) :
    ((s.setWorker w W).worker u).assigned = (s.worker u).assigned :=
  forall_update (C := fun u (V : Worker) => V.assigned = (s.worker u).assigned) hW
    (fun _ _ => rfl) u

theorem members_stepWorker {s s' : State T} {w : Fin T.workers} (h : Members s)
    (hstep : stepWorker w s = some s') : Members s' := by
  unfold stepWorker at hstep
  dsimp only at hstep
  repeat' split at hstep
  all_goals cases hstep
  all_goals first
    | exact h
    | exact h.keep rfl rfl (setWorker_assigned rfl)

theorem members_stepMaster {s s' : State T} (h : Members s)
    (hstep : stepMaster nthreads s = some s') : Members s' := by
  unfold stepMaster at hstep
  dsimp only at hstep
  repeat' split at hstep
  all_goals cases hstep
  all_goals first
    | exact h
    | exact h.keep rfl rfl (setWorker_assigned rfl)
    | skip
  · -- a new team
    intro w hw
    cases hw
  · -- a worker is assigned
    intro u hu
    simp only [State.setWorker, mem_append, mem_singleton, update_apply] at hu ⊢
    have := h u
    grind

theorem members_step {s s' : State T} (h : Members s) (hstep : ThreadStep s s') : Members s' := by
  rcases hstep with ⟨nthreads, -, -, hst⟩ | ⟨w, hst⟩
  · exact members_stepMaster h hst
  · exact members_stepWorker h hst

/-- When the master's join returns, every worker of the team has joined that fork; a worker executes
the work of each fork that it is assigned to, in their order and once, and has done so by then;
nobody is working when the team is freed; and no assertion fails. -/
theorem fork_join_safe {n : Nat} {s₀ s : State T} (h₀ : Initial s₀) (hrun : Run ThreadStep n s₀ s) :
    (s.Joined → (∀ w ∈ s.members, s.work ∈ (s.worker w).joined) ∧
        ∀ w, (s.worker w).joined = (s.worker w).assigned ∧
          (s.worker w).ran = (s.worker w).assigned) ∧ (∀ w, (s.worker w).assigned.Nodup ∧
        ((s.worker w).assigned = (s.worker w).ran ∨
          (s.worker w).assigned = s.work :: (s.worker w).ran)) ∧
      (s.master = .free → s.workingThreads = 0) ∧ s.failed = false := by
  have hstep : ∀ t t' : State T, Inv t ∧ Members t → ThreadStep t t' → Inv t' ∧ Members t' :=
    fun _ _ ht hst => ⟨inv_step ht.1 hst, members_step ht.2 hst⟩
  obtain ⟨⟨hfailed, stage, phase, mphase, h⟩, hmembers⟩ :=
    hrun.inv hstep ⟨inv_initial h₀, fun w hw => by simp [h₀.members] at hw⟩
  refine ⟨fun hjoined => ?_, ?_, ?_, hfailed⟩
  · have hdone : s.master.Done := by
      rcases hjoined with ⟨rest, hm⟩ | hm <;> rw [hm] <;> trivial
    have hall : ∀ w, (s.worker w).joined = (s.worker w).assigned ∧
        (s.worker w).ran = (s.worker w).assigned := by
      intro w
      have hsettled := h.done (.inl hdone) w
      have hassigned := (h.worker w).assigned
      have hran := (h.worker w).ran
      generalize stage w = st at hsettled hassigned hran
      cases st with
      | free | joined => exact ⟨hassigned.symm, hran.trans hassigned.symm⟩
      | _ => cases hsettled
    refine ⟨fun w hw => ?_, hall⟩
    rw [(hall w).1]
    exact hmembers w hw
  · intro w
    have hw := h.worker w
    have hassigned := hw.assigned
    have hran := hw.ran
    refine ⟨(h.fresh w).1.imp fun hlt => Nat.ne_of_gt hlt, ?_⟩
    rw [hassigned, hran]
    cases stage w <;> simp [Stage.assignedTo, Stage.ranTo]
  · intro hm
    exact (h.team_free hm).1

/-- Nobody has forked, and nobody spins. -/
def start (T : Threads) : State T where
  teamSize := 0
  members := []
  work := 0
  workingThreads := 0
  stack := finRange T.workers
  master := .serial
  masterCell := ⟨.idle, false⟩
  worker := fun _ => ⟨.waiting .test, -1, false, [], [], []⟩
  cell := fun _ => ⟨.idle, false⟩
  forks := 0
  failed := false

def oneWorker : Threads := ⟨1, 0, fun _ => 0⟩

/-- A step of the master, which forks with two threads, or of the worker. -/
def stepTwo (worker : Bool) (s : State oneWorker) : Option (State oneWorker) :=
  if worker then stepWorker (0 : Fin 1) s else stepMaster 2 s

theorem threadStep_of_stepTwo {worker : Bool} {s s' : State oneWorker}
    (h : stepTwo worker s = some s') : ThreadStep s s' := by
  unfold stepTwo at h
  split at h
  · exact .inr ⟨_, h⟩
  · exact .inl ⟨2, by decide, by decide, h⟩

theorem fork_join_safe_oneWorker : ∃ s : State oneWorker,
    (∃ n, Run ThreadStep n (start oneWorker) s) ∧ (s.worker (0 : Fin 1)).assigned = [1, 0] ∧
      (s.worker (0 : Fin 1)).ran = (s.worker (0 : Fin 1)).assigned := by
  let o := ([false, false, false, false, false, false, false, true, true, true, true, true, false,
      false, false, false, false, false, false, false, false, false, true, true, true, true, true,
      false, false, true, true, false, false] : List Bool).foldlM (fun s b => stepTwo b s)
    (start oneWorker)
  have hend : o.all (fun s => decide (s.master = .releasing [(0 : Fin 1)] ∧
      (s.worker (0 : Fin 1)).assigned = [1, 0])) = true ∧ o.isSome = true := by decide
  obtain ⟨s, hs⟩ := Option.isSome_iff_exists.mp hend.2
  have hrun := Run.of_foldlM
    (fun b s s' (h : stepTwo b s = some s') => threadStep_of_stepTwo h) _ (.refl _) hs
  rw [hs] at hend
  obtain ⟨hmaster, hassigned⟩ := of_decide_eq_true hend.1
  have hstart : Initial (start oneWorker) :=
    ⟨rfl, rfl, ⟨nodup_finRange _, mem_finRange⟩, rfl, rfl, fun _ => rfl, fun _ => rfl, rfl,
      rfl, rfl⟩
  exact ⟨s, ⟨_, hrun⟩, hassigned, (((fork_join_safe hstart hrun).1 (.inl ⟨_, hmaster⟩)).2 _).2⟩

end OpenMP.ForkJoin
