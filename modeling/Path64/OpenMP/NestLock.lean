import Mathlib.Data.BitVec
import Path64.Lib.Interleaving

/-! # Nested locks

`sync` is the global id of the thread that owns the lock, and `nest`
counts how often the owner has acquired it. The owner counts after it
has become the owner, and counts down before it gives the lock away.
Every access to one of the two words is a step. A thread calls what it
likes, but unlocks only what it holds. -/

namespace OpenMP.NestLock

open Interleaving
open BitVec (ofNat)

/-! ## Model -/

/-- `PMP_SYNC_UNLOCKED`. -/
def unlocked : Int := -1

/-- What a thread calls. -/
inductive Call where
  | lock
  | trylock
  | unlock
  deriving DecidableEq

/-- Where a thread stands. -/
inductive Pc where
  | idle
  /-- In `__pmp_nest_lock`, before the first compare-and-swap. -/
  | swap
  /-- In the inner loop, before it reads `sync`. -/
  | poll
  /-- Before the compare-and-swap of the outer loop. -/
  | swapAgain
  /-- Before the assertion, with the value that the last swap found. -/
  | check (sync : Int)
  /-- In `__pmp_nest_trylock`, before the compare-and-swap. -/
  | trySwap
  /-- Before the assertion. -/
  | tryCheck (sync : Int)
  /-- Before `nest++` reads the count; `answer` is on in `__pmp_nest_trylock`. -/
  | load (answer : Bool)
  /-- Before `nest++` writes it. -/
  | store (answer : Bool) (nest : BitVec 32)
  /-- Before it reads the count to return it. -/
  | answer
  /-- In `__pmp_nest_unlock`, before the first half of the assertion. -/
  | nestCheck
  /-- Before the second half. -/
  | syncCheck
  /-- Before `nest--` reads the count. -/
  | loadDown
  /-- Before `nest--` writes it. -/
  | storeDown (nest : BitVec 32)
  /-- Before the test for the last release. -/
  | lastCheck
  /-- Before the compare-and-swap. -/
  | release
  deriving DecidableEq

/-- A thread: its position, its outstanding acquisitions, and its last `__pmp_nest_trylock`. -/
structure Thread where
  pc : Pc
  held : Nat
  result : Int

/-- The threads that there are, with their global ids. -/
structure Threads where
  Id : Type
  [decEq : DecidableEq Id]
  globalId : Id → Int
  distinct : Function.Injective globalId
  valid : ∀ t, globalId t ≠ unlocked

attribute [instance] Threads.decEq

/-- `pmp_nest_lock_t`, the threads, and whether an assertion has failed. -/
structure State (T : Threads) where
  sync : Int
  nest : BitVec 32
  thread : T.Id → Thread
  failed : Bool

variable {T : Threads}

namespace State

def setThread (s : State T) (t : T.Id) (th : Thread) : State T :=
  { s with thread := Function.update s.thread t th }

/-- The thread goes on to a position. -/
def goto (s : State T) (t : T.Id) (pc : Pc) : State T :=
  s.setThread t { s.thread t with pc := pc }

/-- The thread returns with so many acquisitions. -/
def leave (s : State T) (t : T.Id) (held : Nat) : State T :=
  s.setThread t { s.thread t with pc := .idle, held := held }

end State

/-- The first step of a call. A thread unlocks only what it holds. -/
def begin (s : State T) (t : T.Id) : Call → Option (State T)
  | .lock => some (s.goto t .swap)
  | .trylock => some (s.goto t .trySwap)
  | .unlock => if 0 < (s.thread t).held then some (s.goto t .nestCheck) else none

/-- After a swap of `__pmp_nest_lock`: whether it was free, else the inner loop. -/
def swapped (s : State T) (t : T.Id) (sync : Int) : State T :=
  if sync = unlocked then { s with sync := T.globalId t }.goto t (.check sync) else s.goto t .poll

/-- The next step of a thread; nothing is left to do after a failed assertion. -/
def stepThread (call : Call) (t : T.Id) (s : State T) : Option (State T) :=
  let id := T.globalId t
  let fail : State T := { s with failed := true }
  if s.failed then none
  else match (s.thread t).pc with
  | .idle => begin s t call
  | .swap => some (if s.sync = id then s.goto t (.check s.sync) else swapped s t s.sync)
  | .poll =>
    if s.sync = id then some fail
    else some (s.goto t (if s.sync = unlocked then .swapAgain else .poll))
  | .swapAgain => if s.sync = id then some fail else some (swapped s t s.sync)
  | .check sync => if s.nest = 0 ∨ sync = id then some (s.goto t (.load false)) else some fail
  | .trySwap =>
    if s.sync = unlocked then some ({ s with sync := id }.goto t (.tryCheck s.sync))
    else if s.sync = id then some (s.goto t (.tryCheck s.sync))
    else some (s.setThread t { s.thread t with pc := .idle, result := 0 })
  | .tryCheck sync => if sync = id ∨ s.nest = 0 then some (s.goto t (.load true)) else some fail
  | .load answer => some (s.goto t (.store answer (s.nest + 1)))
  | .store answer nest =>
    let s := { s with nest := nest }
    some (if answer then s.goto t .answer else s.leave t ((s.thread t).held + 1))
  | .answer =>
    some (s.setThread t ⟨.idle, (s.thread t).held + 1, s.nest.toInt⟩)
  | .nestCheck => if 0 < s.nest.toInt then some (s.goto t .syncCheck) else some fail
  | .syncCheck => if s.sync = id then some (s.goto t .loadDown) else some fail
  | .loadDown => some (s.goto t (.storeDown (s.nest - 1)))
  | .storeDown nest => some ({ s with nest := nest }.goto t .lastCheck)
  | .lastCheck =>
    some (if s.nest = 0 then s.goto t .release else s.leave t ((s.thread t).held - 1))
  | .release =>
    if s.sync = id then some ({ s with sync := unlocked }.leave t ((s.thread t).held - 1))
    else some fail

/-- After `__pmp_nest_lock_init`. -/
def Initial (s : State T) : Prop :=
  s.sync = unlocked ∧ s.nest = 0 ∧ s.failed = false ∧
    ∀ t, (s.thread t).pc = .idle ∧ (s.thread t).held = 0

/-- The largest count. -/
def int32Max : Nat := 2 ^ 31 - 1

/-- A thread at the start of a call can count one acquisition more, unless it unlocks. -/
def Thread.CanCount (th : Thread) (call : Call) : Prop :=
  th.pc = .idle → call ≠ .unlock → th.held < int32Max

instance (th : Thread) (call : Call) : Decidable (th.CanCount call) :=
  inferInstanceAs (Decidable (_ → _ → _))

/-- A step of some thread. -/
def TeamStep (s s' : State T) : Prop := ∃ t call, stepThread call t s = some s'

/-- A step of some thread that does not call for an acquisition too much. -/
def CountedStep (s s' : State T) : Prop :=
  ∃ t call, (s.thread t).CanCount call ∧ stepThread call t s = some s'

/-- The count is between its change and the return of the call. -/
def Pc.Changed : Pc → Prop
  | .answer | .lastCheck | .release => True
  | _ => False

/-- One holder, with as many acquisitions as the count says; a try of another returns 0. -/
structure Safe (s : State T) : Prop where
  exclusive : ∀ t u, 0 < (s.thread t).held → 0 < (s.thread u).held → t = u
  counted : ∀ t, 0 < (s.thread t).held → ¬ (s.thread t).pc.Changed →
    s.nest.toInt = (s.thread t).held
  refused : ∀ t u, t ≠ u → 0 < (s.thread u).held → (s.thread t).pc = .trySwap →
    ∀ call, stepThread call t s =
      some (s.setThread t { s.thread t with pc := .idle, result := 0 })
  unfailed : s.failed = false

/-! ## The invariant -/

/-- The count stands for so many acquisitions. -/
def Counts (nest : BitVec 32) (n : Nat) : Prop := nest.toInt = n

theorem counts_zero : Counts 0 0 := rfl

section

variable {nest : BitVec 32} {n : Nat} (h : Counts nest n)
include h

theorem Counts.succ (hn : n < int32Max) : Counts (nest + 1) (n + 1):= by
  unfold Counts int32Max at *
  rw [BitVec.toInt_add, h, show (1 : BitVec 32).toInt = 1 from rfl]
  rw [Int.bmod_eq_of_le (by omega) (by omega)]
  rfl

theorem Counts.pred (hn : 0 < n) : Counts (nest - 1) (n - 1):= by
  have hlt := BitVec.toInt_lt (x := nest)
  unfold Counts at *
  rw [BitVec.toInt_sub, h, show (1 : BitVec 32).toInt = 1 from rfl]
  rw [Int.bmod_eq_of_le (by omega) (by omega)]
  omega

theorem Counts.eq_zero_iff : nest = 0 ↔ n = 0 := by
  unfold Counts at h
  constructor
  · intro hz
    rw [hz] at h
    exact Int.ofNat.inj h.symm
  · intro hz
    rw [hz] at h
    exact BitVec.eq_of_toInt_eq h

end

/-- What the owner of the lock has done, by its position. -/
def Inside (id : Int) (nest : BitVec 32) (held : Nat) : Pc → Prop
  | .idle | .nestCheck | .syncCheck | .loadDown => Counts nest held ∧ 0 < held
  | .swap | .trySwap => Counts nest held ∧ 0 < held ∧ held < int32Max
  | .poll | .swapAgain => False
  | .check sync | .tryCheck sync =>
    Counts nest held ∧ held < int32Max ∧ (held = 0 ∨ sync = id)
  | .load _ => Counts nest held ∧ held < int32Max
  | .store _ n => Counts nest held ∧ Counts n (held + 1)
  | .answer => Counts nest (held + 1)
  | .storeDown n => Counts nest held ∧ 0 < held ∧ Counts n (held - 1)
  | .lastCheck => 0 < held ∧ Counts nest (held - 1)
  | .release => held = 1 ∧ Counts nest 0

/-- Where a thread can stand that does not own the lock. -/
def Outside (held : Nat) : Pc → Prop
  | .idle | .swap | .poll | .swapAgain | .trySwap => held = 0
  | _ => False

/-- What holds of a thread. -/
def ThreadOk (sync : Int) (nest : BitVec 32) (id : Int) (th : Thread) : Prop :=
  if sync = id then Inside id nest th.held th.pc else Outside th.held th.pc

structure Inv (s : State T) : Prop where
  unfailed : s.failed = false
  free : s.sync = unlocked → Counts s.nest 0
  thread : ∀ t, ThreadOk s.sync s.nest (T.globalId t) (s.thread t)

theorem Outside.held_eq {held : Nat} {pc : Pc} (h : Outside held pc) : held = 0 := by
  cases pc <;> first | exact h | exact h.elim

namespace Inv
variable {s : State T}

section

variable (hi : Inv s) {t : T.Id}
include hi

theorem inside (h : s.sync = T.globalId t) :
    Inside (T.globalId t) s.nest (s.thread t).held (s.thread t).pc := by
  have ht := hi.thread t
  rwa [ThreadOk, if_pos h] at ht

theorem outside (h : s.sync ≠ T.globalId t) : Outside (s.thread t).held (s.thread t).pc:= by
  have ht := hi.thread t
  rwa [ThreadOk, if_neg h] at ht

theorem owns (h : 0 < (s.thread t).held) : s.sync = T.globalId t := by
  by_contra hne
  exact absurd (hi.outside hne).held_eq (by omega)

variable {th : Thread}

theorem move_outside (h : s.sync ≠ T.globalId t)
    (hth : Outside th.held th.pc) : Inv (s.setThread t th) where
  unfailed := hi.unfailed
  free := hi.free
  thread := forall_update (C := fun u th => ThreadOk s.sync s.nest (T.globalId u) th)
    (by rwa [ThreadOk, if_neg h]) fun u _ => hi.thread u

theorem move_inside (h : s.sync = T.globalId t) {nest : BitVec 32}
    (hth : Inside (T.globalId t) nest th.held th.pc) :
    Inv ({ s with nest := nest }.setThread t th) where
  unfailed := hi.unfailed
  free := fun hfree => absurd (h.symm.trans hfree) (T.valid t)
  thread := forall_update (C := fun u th => ThreadOk s.sync nest (T.globalId u) th)
    (by rwa [ThreadOk, if_pos h]) fun u hu => by
      have hne : s.sync ≠ T.globalId u := fun he => hu (T.distinct (he.symm.trans h))
      rw [ThreadOk, if_neg hne]
      exact hi.outside hne

theorem acquire (h : s.sync = unlocked) (hth : Inside (T.globalId t) s.nest th.held th.pc) :
    Inv ({ s with sync := T.globalId t }.setThread t th) where
  unfailed := hi.unfailed
  free := fun hfree => absurd hfree (T.valid t)
  thread := forall_update (C := fun u th => ThreadOk (T.globalId t) s.nest (T.globalId u) th)
    (by rwa [ThreadOk, if_pos rfl]) fun u hu => by
      rw [ThreadOk, if_neg fun he => hu (T.distinct he).symm]
      exact hi.outside fun he => T.valid u (he.symm.trans h)

theorem giveAway (h : s.sync = T.globalId t) (hnest : Counts s.nest 0)
    (hth : Outside th.held th.pc) : Inv ({ s with sync := unlocked }.setThread t th) where
  unfailed := hi.unfailed
  free := fun _ => hnest
  thread := forall_update (C := fun u th => ThreadOk unlocked s.nest (T.globalId u) th)
    (by rwa [ThreadOk, if_neg fun he => T.valid t he.symm]) fun u hu => by
      rw [ThreadOk, if_neg fun he => T.valid u he.symm]
      exact hi.outside fun he => hu (T.distinct (he.symm.trans h))

end

end Inv

/-! ## What a step preserves -/

section step
variable {s s' : State T} {t : T.Id} {call : Call}

/-- A step of the owner, which counts its nesting. -/
theorem Inv.step_inside (hi : Inv s) (hown : s.sync = T.globalId t)
    (hcan : (s.thread t).CanCount call) (h : stepThread call t s = some s') : Inv s' := by
  have hin := hi.inside hown
  have hsync : s.sync ≠ unlocked := fun he => T.valid t (hown.symm.trans he)
  unfold stepThread at h
  rw [if_neg (by rw [hi.unfailed]; exact Bool.false_ne_true)] at h
  -- one case for each place in the code; the owner changes nothing but the count
  cases hpc : (s.thread t).pc with
  | idle =>
    simp only [hpc] at h
    rw [hpc] at hin
    obtain ⟨hcount, hpos⟩ := hin
    cases call with
    | lock =>
      cases h
      exact hi.move_inside hown ⟨hcount, hpos, hcan hpc (by decide)⟩
    | trylock =>
      cases h
      exact hi.move_inside hown ⟨hcount, hpos, hcan hpc (by decide)⟩
    | unlock =>
      rw [begin, if_pos hpos] at h
      cases h
      exact hi.move_inside hown ⟨hcount, hpos⟩
  | swap =>
    simp only [hpc, if_pos hown] at h
    rw [hpc] at hin
    cases h
    exact hi.move_inside hown ⟨hin.1, hin.2.2, .inr hown⟩
  | poll =>
    rw [hpc] at hin
    exact hin.elim
  | swapAgain =>
    rw [hpc] at hin
    exact hin.elim
  | check sync =>
    rw [hpc] at hin
    obtain ⟨hcount, hlt, hor⟩ := hin
    simp only [hpc] at h
    rw [if_pos (hor.imp hcount.eq_zero_iff.mpr id)] at h
    cases h
    exact hi.move_inside hown ⟨hcount, hlt⟩
  | trySwap =>
    simp only [hpc, if_neg hsync, if_pos hown] at h
    rw [hpc] at hin
    cases h
    exact hi.move_inside hown ⟨hin.1, hin.2.2, .inr hown⟩
  | tryCheck sync =>
    rw [hpc] at hin
    obtain ⟨hcount, hlt, hor⟩ := hin
    simp only [hpc] at h
    rw [if_pos (hor.symm.imp id hcount.eq_zero_iff.mpr)] at h
    cases h
    exact hi.move_inside hown ⟨hcount, hlt⟩
  | load answer =>
    simp only [hpc] at h
    rw [hpc] at hin
    cases h
    exact hi.move_inside hown ⟨hin.1, hin.1.succ hin.2⟩
  | store answer nest =>
    simp only [hpc] at h
    rw [hpc] at hin
    cases answer with
    | true =>
      cases h
      exact hi.move_inside hown hin.2
    | false =>
      cases h
      exact hi.move_inside hown ⟨hin.2, Nat.succ_pos _⟩
  | answer =>
    simp only [hpc] at h
    rw [hpc] at hin
    cases h
    exact hi.move_inside hown ⟨hin, Nat.succ_pos _⟩
  | nestCheck =>
    simp only [hpc] at h
    rw [hpc] at hin
    have hnest : 0 < s.nest.toInt := by
      rw [show s.nest.toInt = _ from hin.1]
      exact Int.ofNat_lt.mpr hin.2
    rw [if_pos hnest] at h
    cases h
    exact hi.move_inside hown hin
  | syncCheck =>
    simp only [hpc, if_pos hown] at h
    rw [hpc] at hin
    cases h
    exact hi.move_inside hown hin
  | loadDown =>
    simp only [hpc] at h
    rw [hpc] at hin
    cases h
    exact hi.move_inside hown ⟨hin.1, hin.2, hin.1.pred hin.2⟩
  | storeDown nest =>
    simp only [hpc] at h
    rw [hpc] at hin
    cases h
    exact hi.move_inside hown hin.2
  | lastCheck =>
    simp only [hpc] at h
    rw [hpc] at hin
    obtain ⟨hpos, hcount⟩ := hin
    by_cases hz : s.nest = 0
    · rw [if_pos hz] at h
      cases h
      have hone : (s.thread t).held - 1 = 0 := hcount.eq_zero_iff.mp hz
      refine hi.move_inside hown ⟨?_, by rwa [hone] at hcount⟩
      show (s.thread t).held = 1
      omega
    · rw [if_neg hz] at h
      cases h
      have hmore : (s.thread t).held - 1 ≠ 0 := fun hone => hz (hcount.eq_zero_iff.mpr hone)
      exact hi.move_inside hown ⟨hcount, Nat.pos_of_ne_zero hmore⟩
  | release =>
    simp only [hpc, if_pos hown] at h
    rw [hpc] at hin
    obtain ⟨hone, hcount⟩ := hin
    cases h
    refine hi.giveAway hown hcount ?_
    show (s.thread t).held - 1 = 0
    omega

/-- A step of a thread that does not own the lock: it waits, or takes a lock that is free. -/
theorem Inv.step_outside (hi : Inv s) (hown : s.sync ≠ T.globalId t)
    (h : stepThread call t s = some s') : Inv s' := by
  have hout := hi.outside hown
  have hheld : (s.thread t).held = 0 := hout.held_eq
  unfold stepThread at h
  rw [if_neg (by rw [hi.unfailed]; exact Bool.false_ne_true)] at h
  -- a thread that does not own the lock stands before it; the other places cannot occur
  cases hpc : (s.thread t).pc with
  | idle =>
    simp only [hpc] at h
    cases call with
    | lock =>
      cases h
      exact hi.move_outside hown hheld
    | trylock =>
      cases h
      exact hi.move_outside hown hheld
    | unlock =>
      rw [begin, if_neg (by omega)] at h
      cases h
  | swap =>
    simp only [hpc, if_neg hown] at h
    unfold swapped at h
    by_cases hfree : s.sync = unlocked
    · rw [if_pos hfree] at h
      cases h
      exact hi.acquire hfree ⟨hheld ▸ hi.free hfree,
        by rw [show (s.thread t).held = 0 from hheld]; decide, .inl hheld⟩
    · rw [if_neg hfree] at h
      cases h
      exact hi.move_outside hown hheld
  | poll =>
    simp only [hpc, if_neg hown] at h
    by_cases hfree : s.sync = unlocked
    · rw [if_pos hfree] at h
      cases h
      exact hi.move_outside hown hheld
    · rw [if_neg hfree] at h
      cases h
      exact hi.move_outside hown hheld
  | swapAgain =>
    simp only [hpc, if_neg hown] at h
    unfold swapped at h
    by_cases hfree : s.sync = unlocked
    · rw [if_pos hfree] at h
      cases h
      exact hi.acquire hfree ⟨hheld ▸ hi.free hfree,
        by rw [show (s.thread t).held = 0 from hheld]; decide, .inl hheld⟩
    · rw [if_neg hfree] at h
      cases h
      exact hi.move_outside hown hheld
  | trySwap =>
    simp only [hpc, if_neg hown] at h
    by_cases hfree : s.sync = unlocked
    · rw [if_pos hfree] at h
      cases h
      exact hi.acquire hfree ⟨hheld ▸ hi.free hfree,
        by rw [show (s.thread t).held = 0 from hheld]; decide, .inl hheld⟩
    · rw [if_neg hfree] at h
      cases h
      exact hi.move_outside hown hheld
  | check sync => rw [hpc] at hout; exact hout.elim
  | tryCheck sync => rw [hpc] at hout; exact hout.elim
  | load answer => rw [hpc] at hout; exact hout.elim
  | store answer nest => rw [hpc] at hout; exact hout.elim
  | answer => rw [hpc] at hout; exact hout.elim
  | nestCheck => rw [hpc] at hout; exact hout.elim
  | syncCheck => rw [hpc] at hout; exact hout.elim
  | loadDown => rw [hpc] at hout; exact hout.elim
  | storeDown nest => rw [hpc] at hout; exact hout.elim
  | lastCheck => rw [hpc] at hout; exact hout.elim
  | release => rw [hpc] at hout; exact hout.elim

theorem Inv.step (hi : Inv s) (h : CountedStep s s') : Inv s' := by
  obtain ⟨t, call, hcan, hstep⟩ := h
  by_cases hown : s.sync = T.globalId t
  · exact hi.step_inside hown hcan hstep
  · exact hi.step_outside hown hstep

end step

theorem Initial.inv {s : State T} (h : Initial s) : Inv s where
  unfailed := h.2.2.1
  free := fun _ => h.2.1 ▸ counts_zero
  thread := fun t => by
    rw [ThreadOk, if_neg fun he => T.valid t (he.symm.trans h.1), (h.2.2.2 t).1]
    exact (h.2.2.2 t).2

theorem Inv.safe {s : State T} (hi : Inv s) : Safe s where
  exclusive t u ht hu := T.distinct ((hi.owns ht).symm.trans (hi.owns hu))
  counted t ht hpc := by
    have hin := hi.inside (hi.owns ht)
    cases h : (s.thread t).pc <;> rw [h] at hin hpc
    all_goals first
      | exact hin.1
      | exact hin.elim
      | exact absurd trivial hpc
  refused t u htu hu hpc call := by
    have hne : s.sync ≠ T.globalId t := fun he => htu (T.distinct (he.symm.trans (hi.owns hu)))
    have hheld : s.sync ≠ unlocked := fun he => T.valid u ((hi.owns hu).symm.trans he)
    unfold stepThread
    simp only [hi.unfailed, hpc, if_neg hne, if_neg hheld, Bool.false_eq_true, if_false]
  unfailed := hi.unfailed

/-- The lock is safe in every state that the threads reach while nobody has more acquisitions than
`nest` can count. -/
theorem nestLock_safe {s₀ s : State T} (hinit : Initial s₀) {k : Nat} (hrun : Run CountedStep k s₀ s) :
    Safe s :=
  (hrun.inv (fun _ _ hi hst => hi.step hst) hinit.inv).safe

/-! ## Too many acquisitions -/

/-- Threads with the global ids 0 and 1. -/
def twoThreads : Threads where
  Id := Fin 2
  globalId := fun t => (t : Nat)
  distinct := fun t u h => Fin.ext (Int.ofNat.inj h)
  valid := fun t h => by
    unfold unlocked at h
    omega

/-- A lock that is free, in nobody's call. -/
def newLock (T : Threads) : State T where
  sync := unlocked
  nest := 0
  thread := fun _ => ⟨.idle, 0, 0⟩
  failed := false

theorem initial_newLock (T : Threads) : Initial (newLock T) :=
  ⟨rfl, rfl, rfl, fun _ => ⟨rfl, rfl⟩⟩

theorem nestLock_safe_refused : ∃ s : State twoThreads,
    Safe s ∧ (s.thread (0 : Fin 2)).held = 2 ∧ (s.thread (1 : Fin 2)).held = 0 := by
  let first : Fin 2 × Call := (0, .lock)
  let second : Fin 2 × Call := (1, .trylock)
  let o := (List.replicate 10 first ++ List.replicate 2 second).foldlM
    (fun (s : State twoThreads) (c : Fin 2 × Call) =>
      if (s.thread c.1).CanCount c.2 then stepThread (T := twoThreads) c.2 c.1 s else none)
    (newLock twoThreads)
  have hdone : o.isSome = true ∧ o.all (fun s => decide ((s.thread (0 : Fin 2)).held = 2 ∧
      (s.thread (1 : Fin 2)).held = 0)) = true := by decide
  obtain ⟨s, hs⟩ := Option.isSome_iff_exists.mp hdone.1
  have hstep : ∀ (c : Fin 2 × Call) (s s' : State twoThreads),
      (if (s.thread c.1).CanCount c.2 then stepThread (T := twoThreads) c.2 c.1 s else none) =
        some s' → CountedStep s s' := by
    intro c s s' h
    split_ifs at h with hcan
    exact ⟨c.1, c.2, hcan, h⟩
  have hrun := Run.of_foldlM hstep _ (.refl _) hs
  rw [hs] at hdone
  obtain ⟨h0, h1⟩ := of_decide_eq_true hdone.2
  exact ⟨s, nestLock_safe (initial_newLock _) hrun, h0, h1⟩

/-- One thread. -/
def oneThread : Threads where
  Id := Unit
  globalId := fun _ => 0
  distinct := fun _ _ _ => rfl
  valid := fun _ => by decide

/-- The one thread at a position, owning the lock. -/
def owning (nest : BitVec 32) (pc : Pc) (held : Nat) : State oneThread where
  sync := 0
  nest := nest
  thread := fun _ => ⟨pc, held, 0⟩
  failed := false

theorem setThread_owning (nest : BitVec 32) (pc : Pc) (held : Nat) (pc' : Pc) (held' : Nat) :
    (owning nest pc held).setThread () ⟨pc', held', 0⟩ = owning nest pc' held' := by
  unfold owning State.setThread
  congr 1

theorem run_owning (n : Nat) :
    ∃ k, Run TeamStep k (newLock oneThread) (owning (ofNat 32 (n + 1)) .idle (n + 1)) := by
  -- from the assertion to the return of `__pmp_nest_lock`
  have hcount : ∀ (nest : BitVec 32) (held : Nat) (sync : Int) (k : Nat),
      (nest = 0 ∨ sync = 0) → Run TeamStep k (newLock oneThread) (owning nest (.check sync) held) →
      ∃ k, Run TeamStep k (newLock oneThread) (owning (nest + 1) .idle (held + 1)) := by
    intro nest held sync k hor hrun
    have h1 : stepThread .lock () (owning nest (.check sync) held) =
        some (owning nest (.load false) held) := by
      show (if nest = 0 ∨ sync = 0 then _ else _) = _
      rw [if_pos hor]
      exact congrArg some (setThread_owning ..)
    have h2 : stepThread .lock () (owning nest (.load false) held) =
        some (owning nest (.store false (nest + 1)) held) :=
      congrArg some (setThread_owning ..)
    have h3 : stepThread .lock () (owning nest (.store false (nest + 1)) held) =
        some (owning (nest + 1) .idle (held + 1)) :=
      congrArg some (setThread_owning (nest + 1) ..)
    exact ⟨_, ((hrun.tail ⟨(), .lock, h1⟩).tail ⟨(), .lock, h2⟩).tail ⟨(), .lock, h3⟩⟩
  induction n with
  | zero =>
    have h1 : stepThread .lock () (newLock oneThread) =
        some ((newLock oneThread).goto () .swap) := rfl
    have h2 : stepThread .lock () ((newLock oneThread).goto () .swap) =
        some (owning 0 (.check unlocked) 0) := by
      show some _ = some _
      unfold owning
      congr 2
    exact hcount 0 0 unlocked _ (.inl rfl)
      (((Run.refl _).tail ⟨(), .lock, h1⟩).tail ⟨(), .lock, h2⟩)
  | succ n ih =>
    obtain ⟨k, hrun⟩ := ih
    have h1 : stepThread .lock () (owning (ofNat 32 (n + 1)) .idle (n + 1)) =
        some (owning (ofNat 32 (n + 1)) .swap (n + 1)) :=
      congrArg some (setThread_owning ..)
    have h2 : stepThread .lock () (owning (ofNat 32 (n + 1)) .swap (n + 1)) =
        some (owning (ofNat 32 (n + 1)) (.check 0) (n + 1)) :=
      congrArg some (setThread_owning ..)
    have hnext := hcount _ _ 0 _ (.inr rfl) ((hrun.tail ⟨(), .lock, h1⟩).tail ⟨(), .lock, h2⟩)
    have hsum : ofNat 32 (n + 1 + 1) = ofNat 32 (n + 1) + 1 := BitVec.ofNat_add ..
    rwa [← hsum] at hnext

/-- After `2^31` acquisitions the count is negative, and the assertion of `__pmp_nest_unlock` fails.
-/
theorem nestLock_overflow :
    ¬ ∀ (T : Threads) (s₀ s : State T), Initial s₀ → ∀ k, Run TeamStep k s₀ s → Safe s := by
  intro hall
  obtain ⟨k, hrun⟩ := run_owning (2 ^ 31 - 1)
  have h1 : stepThread .unlock () (owning (ofNat 32 (2 ^ 31 - 1 + 1)) .idle (2 ^ 31 - 1 + 1)) =
      some (owning (ofNat 32 (2 ^ 31 - 1 + 1)) .nestCheck (2 ^ 31 - 1 + 1)) :=
    congrArg some (setThread_owning ..)
  have h2 : stepThread .unlock ()
      (owning (ofNat 32 (2 ^ 31 - 1 + 1)) .nestCheck (2 ^ 31 - 1 + 1)) =
      some { owning (ofNat 32 (2 ^ 31 - 1 + 1)) .nestCheck (2 ^ 31 - 1 + 1) with
        failed := true } := rfl
  have hsafe := hall oneThread _ _ (initial_newLock _) _
    ((hrun.tail ⟨(), .unlock, h1⟩).tail ⟨(), .unlock, h2⟩)
  exact absurd hsafe.unfailed (by decide)

end OpenMP.NestLock
