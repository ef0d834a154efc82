import Mathlib.Logic.Basic

/-! # Waiting and waking

A thread waits in `__pmp_thread_wait` until another one wakes it in
`__pmp_thread_wake`. The two meet in the thread's `sync`: whoever comes
first swaps `PMP_SYNC_IDLE` for its own value, and the other finds it.
The one that waits spins for a while, and then is suspended until it
gets a signal. -/

namespace OpenMP.Handshake

/-! ## Model -/

/-- `pmp_sync_status_t`. -/
inductive Sync where
  | idle | blocked | unblocked
  deriving DecidableEq

/-- `thread->sync`, and whether the signal that resumes the thread is pending. -/
structure Cell where
  sync : Sync
  signal : Bool
  deriving DecidableEq

/-- Where a thread stands in `__pmp_thread_wait`. -/
inductive Wait where
  /-- Before the first test. -/
  | test
  /-- Before test `i` of the spin loop. -/
  | spin (i : Int)
  /-- Before the compare-and-swap. -/
  | swap
  | suspended
  /-- Before it sets `PMP_SYNC_IDLE` and returns. -/
  | clear
  deriving DecidableEq

/-- Where a thread stands in `__pmp_thread_wake`. -/
inductive Wake where
  /-- Before the compare-and-swap. -/
  | swap
  /-- Before it sets `PMP_SYNC_IDLE`. -/
  | clear
  /-- Before the signal. -/
  | signal
  deriving DecidableEq

/-- After a step of `__pmp_thread_wake`: the next one, the return, or a failed assertion. -/
inductive Woken where
  | next (k : Wake)
  | done
  | failed
  deriving DecidableEq

/-- After the test of the `for` loop. -/
def spinTest (threadSpin i : Int) : Wait := if i < threadSpin then .spin i else .swap

/-- A step of `__pmp_thread_wait`; `none` when it returns. -/
def Wait.step (threadSpin : Int) (c : Cell) : Wait → Option (Option Wait × Cell)
  | test => some (some (if c.sync = .unblocked then clear else spinTest threadSpin 0), c)
  | spin i => some (some (if c.sync = .unblocked then clear else spinTest threadSpin (i + 1)), c)
  | swap =>
    if c.sync = .idle then some (some suspended, { c with sync := .blocked })
    else some (some clear, c)
  | suspended => if c.signal then some (none, { c with signal := false }) else none
  | clear => some (none, { c with sync := .idle })

/-- A step of `__pmp_thread_wake`. -/
def Wake.step (c : Cell) : Wake → Woken × Cell
  | swap =>
    match c.sync with
    | .idle => (.done, { c with sync := .unblocked })
    | .unblocked => (.failed, c)
    | .blocked => (.next clear, c)
  | clear => (.next signal, { c with sync := .idle })
  | signal => (.done, { c with signal := true })

/-! ## Phases -/

/-- How far a wait and its wake have come. -/
inductive Phase where
  /-- Nobody waits, and nobody was woken. -/
  | off
  /-- Woken before the wait. -/
  | early
  /-- The thread waits. -/
  | owed
  /-- It is suspended, and its waker is before `clear`. -/
  | clearing
  /-- It is suspended, and its waker is before `signal`. -/
  | signalling
  /-- It waits, and the wake is complete. -/
  | woken
  deriving DecidableEq

namespace Phase

/-- The thread waits and the wake is not complete. -/
def Pending : Phase → Prop
  | owed | clearing | signalling => True
  | _ => False

/-- The wake has begun and is not complete. -/
def Waking : Phase → Prop
  | clearing | signalling => True
  | _ => False

/-- When a waker may be at a position. -/
def At : Wake → Phase → Prop
  | .swap, off | .swap, owed | .clear, clearing | .signal, signalling => True
  | _, _ => False

/-- When a wait begins. -/
def wait : Phase → Phase
  | off => owed
  | early => woken
  | ph => ph

/-- When a wake is complete. -/
def wake : Phase → Phase
  | off => early
  | _ => woken

end Phase

/-- A wait that is not suspended. -/
def Wait.Awake : Wait → Prop
  | test | spin _ | swap => True
  | _ => False

/-- What the cell holds in each phase. -/
inductive Ok : Phase → Option Wait → Cell → Prop
  | off : Ok .off none ⟨.idle, false⟩
  | early : Ok .early none ⟨.unblocked, false⟩
  | owed {w : Wait} (hw : w.Awake) : Ok .owed (some w) ⟨.idle, false⟩
  | suspended : Ok .owed (some .suspended) ⟨.blocked, false⟩
  | clearing : Ok .clearing (some .suspended) ⟨.blocked, false⟩
  | signalling : Ok .signalling (some .suspended) ⟨.idle, false⟩
  | woken {w : Wait} (hw : w.Awake) : Ok .woken (some w) ⟨.unblocked, false⟩
  | found : Ok .woken (some .clear) ⟨.unblocked, false⟩
  | signalled : Ok .woken (some .suspended) ⟨.idle, true⟩

/-! ## Steps -/

section Steps

variable {ph : Phase} {w : Option Wait} {c : Cell}

theorem awake_spinTest (threadSpin i : Int) : (spinTest threadSpin i).Awake := by
  unfold spinTest
  split <;> trivial

theorem Ok.off_or_early (h : Ok ph none c) : ph = .off ∨ ph = .early := by
  cases h with
  | off => exact .inl rfl
  | early => exact .inr rfl

theorem Ok.begin (h : Ok ph none c) : Ok ph.wait (some .test) c := by
  cases h with
  | off => exact .owed trivial
  | early => exact .woken trivial

theorem Ok.wait_step {v : Wait} (h : Ok ph (some v) c) {threadSpin : Int} {v' : Option Wait}
    {c' : Cell} (hstep : v.step threadSpin c = some (v', c')) :
    match v' with
    | some _ => Ok ph v' c'
    | none => ph = .woken ∧ Ok .off none c' := by
  cases h with
  | owed hv =>
    cases v with
    | test | spin =>
      cases hstep
      exact .owed (awake_spinTest _ _)
    | swap =>
      cases hstep
      exact .suspended
    | suspended | clear => cases hv
  | suspended | clearing | signalling => cases hstep
  | woken hv =>
    cases v with
    | test | spin | swap =>
      cases hstep
      exact .found
    | suspended | clear => cases hv
  | found =>
    cases hstep
    exact ⟨rfl, .off⟩
  | signalled =>
    cases hstep
    exact ⟨rfl, .off⟩

/-- One instruction of the wake: it goes on, or the wake is complete. -/
theorem Ok.wake_step {k : Wake} (h : Ok ph w c) (hk : ph.At k) {r : Woken} {c' : Cell}
    (hstep : k.step c = (r, c')) :
    match r with
    | .next k' => ph.Pending ∧ ∃ ph', ph'.Waking ∧ ph'.At k' ∧ Ok ph' w c'
    | .done => Ok ph.wake w c'
    | .failed => False := by
  cases k with
  | swap =>
    cases h with
    | off =>
      cases hstep
      exact .early
    | owed hw =>
      cases hstep
      exact .woken hw
    | suspended =>
      cases hstep
      exact ⟨trivial, .clearing, trivial, trivial, .clearing⟩
    | _ => cases hk
  | clear =>
    cases h with
    | clearing =>
      cases hstep
      exact ⟨trivial, .signalling, trivial, trivial, .signalling⟩
    | _ => cases hk
  | signal =>
    cases h with
    | signalling =>
      cases hstep
      exact .signalled
    | _ => cases hk

end Steps

end OpenMP.Handshake
