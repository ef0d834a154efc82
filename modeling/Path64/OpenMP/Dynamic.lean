import Mathlib.Algebra.BigOperators.Fin
import Mathlib.Tactic.Abel
import Path64.Lib.Tiling
import Path64.Lib.Interleaving
import Path64.OpenMP.Static

/-! # Dynamic and guided scheduling of OpenMP loops

The threads of a team share one loop descriptor and call
`__pmp_schedule_next` until it returns 0. A call reads `chunk`, for a
guided loop also `current`, moves `current` by an atomic fetch-and-add
and, for a guided loop, replaces `chunk` by a compare-and-swap. Each
of these is one step of one thread, and the steps of the threads
interleave in any order. -/

namespace OpenMP

open Progression Tiling Interleaving

/-! ## Model -/

/-- `PMP_SCHED_DYNAMIC` and `PMP_SCHED_GUIDED`. -/
inductive DynSched where
  | dynamic
  | guided
  deriving DecidableEq

/-- The parameters of guided scheduling, which let only positive values through. -/
structure Param where
  guidedChunkDivisor : Int
  guidedChunkMax : Int
  divisorPos : 0 < guidedChunkDivisor
  maxPos : 0 < guidedChunkMax

/-- The fields of `pmp_loop_t` that the two schedules use. -/
structure LoopDesc where
  sched : DynSched
  lower : Int
  upper : Int
  inc : Int
  chunk : Int
  current : Int
  minChunk : Int
  deriving DecidableEq

/-- What a call that returns 1 stores through its three pointers. -/
structure Handed where
  lower : Int
  upper : Int
  inc : Int
  deriving DecidableEq

/-- Where a thread stands in `__pmp_schedule_next`. -/
inductive Pc where
  /-- About to read `loop->chunk`. -/
  | call
  /-- `chunk` is read. -/
  | haveChunk (chunk : Int)
  /-- Guided: `my_chunk` is chosen from the estimate of what remains. -/
  | haveEstimate (chunk myChunk : Int)
  /-- Guided: `current` is moved, `loop->chunk` not yet replaced. -/
  | added (chunk current stride : Int)
  /-- The call returned 0. -/
  | done
  deriving DecidableEq

/-- A thread: its position and the fields of `pmp_thread_t` it updates. -/
structure Thread where
  pc : Pc
  iteration : Nat
  ticketNumber : Int
  deriving DecidableEq

/-- The team: the descriptor, the threads, and the ranges handed out, latest first. -/
structure TeamState (teamSize : Nat) where
  loop : LoopDesc
  thread : Fin teamSize → Thread
  handed : List (Fin teamSize × Handed)

variable {teamSize : Nat}

def TeamState.setPc (s : TeamState teamSize) (t : Fin teamSize) (pc : Pc) : TeamState teamSize :=
  { s with thread := Function.update s.thread t { s.thread t with pc := pc } }

/-- `__pmp_atomic_xadd64(&loop->current, stride)`. -/
def TeamState.xaddCurrent (s : TeamState teamSize) (stride : Int) : TeamState teamSize :=
  { s with loop := { s.loop with current := s.loop.current + stride } }

/-- The call returns 1 with the range from `current` to `upper`. -/
def TeamState.handOut (s : TeamState teamSize) (t : Fin teamSize) (current upper : Int) :
    TeamState teamSize :=
  { s with
    thread := Function.update s.thread t
      { pc := .call, iteration := (s.thread t).iteration + 1, ticketNumber := current }
    handed := (t, ⟨current, upper, s.loop.inc⟩) :: s.handed }

/-- `__pmp_atomic_cmpxchg64(&loop->chunk, chunk, new_chunk)`. -/
def TeamState.cmpxchgChunk (s : TeamState teamSize) (chunk newChunk : Int) : TeamState teamSize :=
  if s.loop.chunk = chunk then { s with loop := { s.loop with chunk := newChunk } } else s

theorem cmpxchgChunk_loop (s : TeamState teamSize) (chunk new : Int) :
    (s.cmpxchgChunk chunk new).loop = s.loop ∨
    (s.cmpxchgChunk chunk new).loop = { s.loop with chunk := new } := by
  unfold TeamState.cmpxchgChunk
  split
  · exact .inr rfl
  · exact .inl rfl

theorem cmpxchgChunk_frame (s : TeamState teamSize) (chunk new : Int) :
    (s.cmpxchgChunk chunk new).thread = s.thread ∧ (s.cmpxchgChunk chunk new).handed = s.handed:= by
  unfold TeamState.cmpxchgChunk
  split <;> exact ⟨rfl, rfl⟩

/-- The chunk that a guided call puts in place of the one it used. -/
def newChunk (param : Param) (teamSize : Nat) (minChunk upper myUpper : Int) : Int :=
  let remaining := upper - myUpper
  let divisor := teamSize * param.guidedChunkDivisor
  max minChunk (min param.guidedChunkMax ((remaining + divisor - 1).tdiv divisor))

theorem newChunk_pos (param : Param) (teamSize : Nat) {minChunk u myUpper : Int}
    (hmin : 1 ≤ minChunk) : 1 ≤ newChunk param teamSize minChunk u myUpper :=
  le_trans hmin (le_max_left _ _)

/-- The next atomic step of thread `t` in `__pmp_schedule_next`; `none` when it has left. -/
def stepThread (param : Param) (t : Fin teamSize) (s : TeamState teamSize) :
    Option (TeamState teamSize) :=
  match (s.thread t).pc with
  | .call => some (s.setPc t (.haveChunk s.loop.chunk))
  | .haveChunk chunk =>
    match s.loop.sched with
    | .dynamic =>
      let stride := s.loop.inc * chunk
      let current := s.loop.current
      let s' := s.xaddCurrent stride
      if Past s.loop.inc current s.loop.upper then some (s'.setPc t .done)
      else some (s'.handOut t current
        (loopMin s.loop.inc s.loop.upper (current + stride - s.loop.inc)))
    | .guided =>
      let remaining := s.loop.upper - s.loop.current + 1
      some (s.setPc t (.haveEstimate chunk (max s.loop.minChunk (min chunk remaining))))
  | .haveEstimate chunk myChunk =>
    let stride := s.loop.inc * myChunk
    let current := s.loop.current
    let s' := s.xaddCurrent stride
    if Past s.loop.inc current s.loop.upper then some (s'.setPc t .done)
    else some (s'.setPc t (.added chunk current stride))
  | .added chunk current stride =>
    let myUpper := loopMin s.loop.inc s.loop.upper (current + stride - s.loop.inc)
    let s' := s.cmpxchgChunk chunk
      (newChunk param teamSize s.loop.minChunk s.loop.upper myUpper)
    some (s'.handOut t current myUpper)
  | .done => none

/-- One step of any thread. -/
def TeamStep (param : Param) (s s' : TeamState teamSize) : Prop :=
  ∃ t, stepThread param t s = some s'

/-- `__pmp_loop_alloc`: the descriptor as the first thread sets it up. -/
def loopAlloc (teamSize : Nat) (sched : DynSched) (lower upper inc chunk minChunk : Int) :
    TeamState teamSize where
  loop := { sched := sched, lower := lower, upper := upper, inc := inc, chunk := chunk,
            current := lower, minChunk := minChunk }
  thread := fun _ => { pc := .call, iteration := 0, ticketNumber := 0 }
  handed := []

/-- Every thread has left the loop. -/
def AllDone (s : TeamState teamSize) : Prop := ∀ t, (s.thread t).pc = .done

instance (s : TeamState teamSize) : Decidable (AllDone s) :=
  inferInstanceAs (Decidable (∀ t, (s.thread t).pc = .done))

/-- The iterations of a range. -/
def Handed.Has (r : Handed) (x : Int) : Prop :=
  ∃ k : Nat, x = r.lower + k * r.inc ∧ ¬ Past r.inc x r.upper

/-! ## The invariant -/

/-- The range that a call hands out for a block of indices. -/
def blockRange (l u inc : Int) (b : Int × Int) : Handed :=
  { lower := l + b.1 * inc, upper := loopMin inc u (l + (b.2 - 1) * inc), inc := inc }

/-- A range that is cut off but not yet returned. -/
def pending (u inc : Int) : Pc → Multiset Handed
  | .added _ current stride => {⟨current, loopMin inc u (current + stride - inc), inc⟩}
  | _ => 0

/-- At its position a thread has a nonempty chunk, and leaves only when nothing is left. -/
def PcOk (n m : Int) : Pc → Prop
  | .haveChunk chunk => 1 ≤ chunk
  | .haveEstimate _ myChunk => 1 ≤ myChunk
  | .done => n ≤ m
  | _ => True

/-- The number of terms within the bound, 0 or less for an empty loop. -/
def termCount (l u inc : Int) : Int := (u - l).fdiv inc + 1

/-- After the blocks `given`, which cut `0 .. g - 1`, the descriptor is at `m`, and each is handed
out or pending. -/
structure Dispensed (l u inc : Int) (s : TeamState teamSize) (m g : Int)
    (given : List (Int × Int)) : Prop where
  fixed : s.loop.lower = l ∧ s.loop.upper = u ∧ s.loop.inc = inc
  chunk : 1 ≤ s.loop.chunk
  minChunk : 1 ≤ s.loop.minChunk
  current : s.loop.current = l + m * inc
  tiles : Tiles g given
  place : m = g ∨ (termCount l u inc ≤ g ∧ termCount l u inc ≤ m)
  start : ∀ b ∈ given, b.1 < termCount l u inc
  acct : ((s.handed.map Prod.snd : List Handed) : Multiset Handed)
    + ∑ t, pending u inc (s.thread t).pc = (given.map (blockRange l u inc) : List Handed)
  pcs : ∀ t, PcOk (termCount l u inc) m (s.thread t).pc

variable {m' c lower minChunk : Int} {t : Fin teamSize} {param : Param}

section Invariant

variable {l u inc m g : Int} {given : List (Int × Int)} {s s' : TeamState teamSize}

theorem sum_update_thread {M : Type} [AddCommMonoid M] (f : Pc → M)
    (thread : Fin teamSize → Thread) (t : Fin teamSize) (th : Thread) :
    f (thread t).pc + ∑ t', f (Function.update thread t th t').pc
      = f th.pc + ∑ t', f (thread t').pc := by
  rw [← Finset.add_sum_erase Finset.univ _ (Finset.mem_univ t),
    ← Finset.add_sum_erase Finset.univ (fun t' => f (thread t').pc) (Finset.mem_univ t),
    Function.update_self]
  have hrest : ∑ t' ∈ Finset.univ.erase t, f (Function.update thread t th t').pc
      = ∑ t' ∈ Finset.univ.erase t, f (thread t').pc :=
    Finset.sum_congr rfl (fun t' ht' => by
      rw [Function.update_of_ne (Finset.ne_of_mem_erase ht')])
  rw [hrest]
  exact add_left_comm _ _ _

theorem PcOk.mono {n m : Int} {pc : Pc} (h : PcOk n m pc) (hm : m ≤ m') : PcOk n m' pc := by
  cases pc with
  | done => exact le_trans h hm
  | _ => exact h

theorem Dispensed.update {t : Fin teamSize} {th : Thread} {m' g' : Int}
    {given' : List (Int × Int)} (h : Dispensed l u inc s m g given)
    (hthread : s'.thread = Function.update s.thread t th) (hm : m ≤ m')
    (hfixed : s'.loop.lower = l ∧ s'.loop.upper = u ∧ s'.loop.inc = inc)
    (hchunk : 1 ≤ s'.loop.chunk) (hmin : 1 ≤ s'.loop.minChunk)
    (hcurrent : s'.loop.current = l + m' * inc) (htiles : Tiles g' given')
    (hplace : m' = g' ∨ (termCount l u inc ≤ g' ∧ termCount l u inc ≤ m'))
    (hstart : ∀ b ∈ given', b.1 < termCount l u inc) (hpc : PcOk (termCount l u inc) m' th.pc)
    (hbalance : ((s'.handed.map Prod.snd : List Handed) : Multiset Handed)
        + pending u inc th.pc + (given.map (blockRange l u inc) : List Handed)
      = ((s.handed.map Prod.snd : List Handed) : Multiset Handed)
        + pending u inc (s.thread t).pc + (given'.map (blockRange l u inc) : List Handed)) :
    Dispensed l u inc s' m' g' given' := by
  refine ⟨hfixed, hchunk, hmin, hcurrent, htiles, hplace, hstart, ?_, fun t' => ?_⟩
  · have hsum := sum_update_thread (pending u inc) s.thread t th
    rw [hthread]
    have hacct := h.acct
    generalize ((s.handed.map Prod.snd : List Handed) : Multiset Handed) = hand at *
    generalize ((s'.handed.map Prod.snd : List Handed) : Multiset Handed) = hand' at *
    generalize ((given.map (blockRange l u inc) : List Handed) : Multiset Handed) = giv at *
    generalize ((given'.map (blockRange l u inc) : List Handed) : Multiset Handed) = giv' at *
    generalize pending u inc (s.thread t).pc = old at *
    generalize pending u inc th.pc = new at *
    generalize ∑ t', pending u inc (Function.update s.thread t th t').pc = sum' at *
    generalize ∑ t', pending u inc (s.thread t').pc = sum at *
    refine add_right_cancel (b := old + new + giv) ?_
    calc hand' + sum' + (old + new + giv) = (hand' + new + giv) + (old + sum') := by abel
      _ = (hand + old + giv') + (new + sum) := by rw [hbalance, hsum]
      _ = giv' + (old + new + (hand + sum)) := by abel
      _ = giv' + (old + new + giv) := by rw [hacct]
  · rw [hthread]
    by_cases ht : t' = t
    · rw [ht, Function.update_self]; exact hpc
    · rw [Function.update_of_ne ht]; exact (h.pcs t').mono hm

/-- The steps that a thread takes at most before it moves `current` again or leaves. -/
def weight : Pc → Nat
  | .call => 3
  | .haveChunk _ => 2
  | .haveEstimate .. => 1
  | .added .. => 4
  | .done => 0

/-- A bound on the steps the team can still take. -/
def stepsLeft (l u inc : Int) (s : TeamState teamSize) : Nat :=
  4 * (termCount l u inc - (s.loop.current - l) / inc).toNat + ∑ t, weight (s.thread t).pc

theorem stepsLeft_lt {th : Thread} (hinc : inc ≠ 0)
    (hcur : s.loop.current = l + m * inc) (hcur' : s'.loop.current = l + m' * inc)
    (hthread : s'.thread = Function.update s.thread t th)
    (hlt : 4 * (termCount l u inc - m').toNat + weight th.pc
      < 4 * (termCount l u inc - m).toNat + weight (s.thread t).pc) :
    stepsLeft l u inc s' < stepsLeft l u inc s := by
  have hsum := sum_update_thread weight s.thread t th
  unfold stepsLeft
  rw [hcur, hcur', hthread, add_sub_cancel_left, add_sub_cancel_left,
    Int.mul_ediv_cancel _ hinc, Int.mul_ediv_cancel _ hinc]
  omega

theorem Dispensed.cut (h : Dispensed l u inc s m g given) (hc : 1 ≤ c)
    (hm : m < termCount l u inc) : Tiles (m + c) ((m, m + c) :: given) ∧
    ∀ b ∈ (m, m + c) :: given, b.1 < termCount l u inc := by
  have hmg : m = g := by
    rcases h.place with hmg | ⟨-, hge⟩
    · exact hmg
    · omega
  refine ⟨.cons (hmg ▸ h.tiles) (by omega), fun b hb => ?_⟩
  rcases List.mem_cons.mp hb with rfl | hb
  · exact hm
  · exact h.start b hb

theorem Dispensed.miss (h : Dispensed l u inc s m g given) (hc : 1 ≤ c)
    (hm : termCount l u inc ≤ m) :
    m + c = g ∨ (termCount l u inc ≤ g ∧ termCount l u inc ≤ m + c) := by
  rcases h.place with hmg | ⟨hg, -⟩
  · exact .inr ⟨by omega, by omega⟩
  · exact .inr ⟨hg, by omega⟩

theorem blockRange_cut (c : Int) : blockRange l u inc (m, m + c)
      = ⟨l + m * inc, loopMin inc u (l + m * inc + inc * c - inc), inc⟩ := by
  unfold blockRange
  rw [show l + (m + c - 1) * inc = l + m * inc + inc * c - inc by ring]

theorem Dispensed.xadd_current (h : Dispensed l u inc s m g given) (c : Int) :
    (s.xaddCurrent (s.loop.inc * c)).loop.current = l + (m + c) * inc := by
  show s.loop.current + s.loop.inc * c = _
  rw [h.current, h.fixed.2.2]
  ring

theorem Dispensed.leave (hinc : inc ≠ 0) (h : Dispensed l u inc s m g given)
    (hc : 1 ≤ c) (hm : termCount l u inc ≤ m)
    (hpend : pending u inc (s.thread t).pc = 0) (hw : 0 < weight (s.thread t).pc) : ∃ m' g' given',
      Dispensed l u inc ((s.xaddCurrent (s.loop.inc * c)).setPc t .done) m' g' given' ∧
      stepsLeft l u inc ((s.xaddCurrent (s.loop.inc * c)).setPc t .done) < stepsLeft l u inc s:= by
  refine ⟨m + c, g, given, h.update rfl (by omega) h.fixed h.chunk h.minChunk
    (h.xadd_current c) h.tiles (h.miss hc hm) h.start ?_ ?_,
    stepsLeft_lt hinc h.current (h.xadd_current c) rfl ?_⟩
  · show termCount l u inc ≤ m + c
    omega
  · rw [hpend]; rfl
  · show _ + 0 < _
    omega

/-- One atomic step: what is handed out, what is still to be handed out, and the measure that goes
down. -/
theorem stepThread_dispensed (hinc : inc ≠ 0)
    (h : Dispensed l u inc s m g given) (hstep : stepThread param t s = some s') :
    ∃ m' g' given', Dispensed l u inc s' m' g' given' ∧
      stepsLeft l u inc s' < stepsLeft l u inc s := by
  obtain ⟨hl, hu, hi⟩ := h.fixed
  have hbound := upTo_floor l u hinc m
  have hpcok := h.pcs t
  unfold stepThread at hstep
  cases hpc : (s.thread t).pc with
  | call =>
    simp only [hpc, Option.some.injEq] at hstep
    subst hstep
    refine ⟨m, g, given, h.update rfl (le_refl m) h.fixed h.chunk h.minChunk h.current h.tiles
      h.place h.start h.chunk ?_, stepsLeft_lt hinc h.current h.current rfl ?_⟩
    · rw [hpc]; rfl
    · rw [hpc]; show _ + 2 < _ + 3; omega
  | haveChunk chunk =>
    rw [hpc] at hpcok
    simp only [hpc] at hstep
    cases hsched : s.loop.sched with
    | dynamic =>
      have hc : 1 ≤ chunk := hpcok
      simp only [hsched, hu, hi, h.current] at hstep
      split at hstep
      · next hpast =>
        rw [← hi] at hstep
        simp only [Option.some.injEq] at hstep
        subst hstep
        exact h.leave hinc hc (not_lt.mp (fun hlt => hbound.mpr hlt hpast))
          (by rw [hpc]; rfl) (by rw [hpc]; exact Nat.succ_pos _)
      · next hpast =>
        have hm : m < termCount l u inc := hbound.mp hpast
        obtain ⟨htiles, hstart⟩ := h.cut hc hm
        rw [← hi] at hstep
        simp only [Option.some.injEq] at hstep
        subst hstep
        refine ⟨m + chunk, m + chunk, _, h.update rfl (by omega) h.fixed h.chunk h.minChunk
          (h.xadd_current chunk) htiles (.inl rfl) hstart trivial ?_,
          stepsLeft_lt hinc h.current (h.xadd_current chunk) rfl ?_⟩
        · rw [hpc, List.map_cons, blockRange_cut]
          show (((_ : Handed) :: s.handed.map Prod.snd : List Handed) : Multiset Handed) + 0 + _
            = _ + 0 + _
          rw [← Multiset.cons_coe, ← Multiset.cons_coe, add_zero, add_zero, Multiset.cons_add,
            Multiset.add_cons]
          show Handed.mk _ _ s.loop.inc ::ₘ _ = _
          rw [hi]
        · rw [hpc]; show _ + 3 < _ + 2; omega
    | guided =>
      -- the estimate cuts nothing off yet
      simp only [hsched, Option.some.injEq] at hstep
      subst hstep
      refine ⟨m, g, given, h.update rfl (le_refl m) h.fixed h.chunk h.minChunk h.current h.tiles
        h.place h.start ?_ ?_, stepsLeft_lt hinc h.current h.current rfl ?_⟩
      · exact le_trans h.minChunk (le_max_left _ _)
      · rw [hpc]; rfl
      · rw [hpc]; show _ + 1 < _ + 2; omega
  | haveEstimate chunk myChunk =>
    have hc : 1 ≤ myChunk := by rw [hpc] at hpcok; exact hpcok
    simp only [hpc, hu, hi, h.current] at hstep
    split at hstep
    · next hpast =>
      rw [← hi] at hstep
      simp only [Option.some.injEq] at hstep
      subst hstep
      exact h.leave hinc hc (not_lt.mp (fun hlt => hbound.mpr hlt hpast))
        (by rw [hpc]; rfl) (by rw [hpc]; exact Nat.succ_pos _)
    · next hpast =>
      have hm : m < termCount l u inc := hbound.mp hpast
      obtain ⟨htiles, hstart⟩ := h.cut hc hm
      rw [← hi] at hstep
      simp only [Option.some.injEq] at hstep
      subst hstep
      refine ⟨m + myChunk, m + myChunk, _, h.update rfl (by omega) h.fixed h.chunk h.minChunk
        (h.xadd_current myChunk) htiles (.inl rfl) hstart trivial ?_,
        stepsLeft_lt hinc h.current (h.xadd_current myChunk) rfl ?_⟩
      · rw [hpc, List.map_cons, blockRange_cut]
        show _ + {Handed.mk _ (loopMin inc u (_ + s.loop.inc * _ - inc)) _} + _ = _ + 0 + _
        rw [← Multiset.cons_coe, add_zero, hi, ← Multiset.singleton_add, add_assoc]
        rfl
      · rw [hpc]; show _ + 4 < _ + 1; omega
  | added chunk current stride =>
    -- a smaller chunk for those that come after, if nobody was faster
    simp only [hpc, hu, hi, Option.some.injEq] at hstep
    subst hstep
    have hnew := @newChunk_pos param teamSize _ u (loopMin inc u (current + stride - inc)) h.minChunk
    generalize newChunk param teamSize s.loop.minChunk u
      (loopMin inc u (current + stride - inc)) = new at *
    have hloop := cmpxchgChunk_loop s chunk new
    have hrest := cmpxchgChunk_frame s chunk new
    generalize s.cmpxchgChunk chunk new = s1 at *
    have hcur : s1.loop.current = l + m * inc := by rcases hloop with h' | h' <;> rw [h', h.current]
    have hthread : (s1.handOut t current (loopMin inc u (current + stride - inc))).thread
        = Function.update s.thread t ⟨.call, (s.thread t).iteration + 1, current⟩ := by
      unfold TeamState.handOut
      rw [hrest.1]
    refine ⟨m, g, given, h.update hthread (le_refl m) ?_ ?_ ?_ hcur h.tiles h.place h.start
      trivial ?_, stepsLeft_lt hinc h.current hcur hthread ?_⟩
    · show s1.loop.lower = l ∧ s1.loop.upper = u ∧ s1.loop.inc = inc
      rcases hloop with h' | h' <;> rw [h'] <;> exact h.fixed
    · show 1 ≤ s1.loop.chunk
      rcases hloop with h' | h' <;> rw [h']
      · exact h.chunk
      · exact hnew
    · show 1 ≤ s1.loop.minChunk
      rcases hloop with h' | h' <;> rw [h'] <;> exact h.minChunk
    · rw [hpc]
      show (((_ : Handed) :: s1.handed.map Prod.snd : List Handed) : Multiset Handed) + 0 + _
        = _ + {Handed.mk _ _ _} + _
      rw [← Multiset.cons_coe, add_zero, hrest.2, ← Multiset.singleton_add]
      rw [show s1.loop.inc = inc by rcases hloop with h' | h' <;> rw [h'] <;> exact hi]
      abel
    · rw [hpc]; show _ + 3 < _ + 4; omega
  | done =>
    simp only [hpc] at hstep
    cases hstep

/-! ## What the ranges are -/

theorem handed_has {a e upper : Int} (hup : UpTo l inc upper e) (x : Int) :
    Handed.Has ⟨l + a * inc, upper, inc⟩ x ↔ ∃ k, x = l + k * inc ∧ a ≤ k ∧ k < e := by
  unfold Handed.Has
  dsimp only
  constructor
  · rintro ⟨j, rfl, hin⟩
    rw [show l + a * inc + j * inc = l + (a + j) * inc by ring] at hin ⊢
    have hlt := (hup _).mp hin
    exact ⟨a + j, rfl, by omega, by omega⟩
  · rintro ⟨k, rfl, hlo, hhi⟩
    refine ⟨(k - a).toNat, ?_, (hup k).mpr hhi⟩
    rw [Int.toNat_of_nonneg (by omega)]
    ring

theorem blockRange_has (hinc : inc ≠ 0) (b : Int × Int) (x : Int) : (blockRange l u inc b).Has x ↔
      ∃ k, x = l + k * inc ∧ b.1 ≤ k ∧ k < b.2 ∧ k < termCount l u inc := by
  have hup : UpTo l inc (loopMin inc u (l + (b.2 - 1) * inc)) (min (termCount l u inc) b.2) :=
    UpTo.loopMin (upTo_floor l u hinc) (upTo_term hinc b.2)
  unfold blockRange
  rw [handed_has hup]
  simp only [lt_min_iff, and_comm]

theorem not_past_loopMin (a b : Int) : ¬ Past inc (loopMin inc a b) a := by
  unfold Past loopMin
  split <;> omega

/-- The iterations of the loop. -/
def InLoop (l u inc x : Int) : Prop := ∃ k : Nat, x = l + k * inc ∧ ¬ Past inc x u

theorem inLoop_iff (hinc : inc ≠ 0) (x : Int) :
    InLoop l u inc x ↔ ∃ k, x = l + k * inc ∧ 0 ≤ k ∧ k < termCount l u inc := by
  constructor
  · rintro ⟨k, rfl, hin⟩
    exact ⟨k, rfl, Int.natCast_nonneg k, (upTo_floor l u hinc k).mp hin⟩
  · rintro ⟨k, rfl, h0, hn⟩
    exact ⟨k.toNat, by rw [Int.toNat_of_nonneg h0], (upTo_floor l u hinc k).mpr hn⟩

/-- The blocks given so far, as ranges. -/
structure RangesOk (l u inc : Int) (rs : List Handed) : Prop where
  disjoint : rs.Pairwise (fun r r' => ∀ x, ¬ (r.Has x ∧ r'.Has x))
  within : ∀ r ∈ rs, r.inc = inc ∧ r.Has r.lower ∧ ¬ Past inc r.upper u ∧
    ∀ x, r.Has x → InLoop l u inc x

theorem Dispensed.given_ok (hinc : inc ≠ 0) (h : Dispensed l u inc s m g given) :
    RangesOk l u inc (given.map (blockRange l u inc)) := by
  obtain ⟨-, hbounds⟩ := h.tiles.bounds
  constructor
  · rw [List.pairwise_map]
    refine h.tiles.pairwise.imp (fun {b b'} hsep x hx => ?_)
    obtain ⟨k, hk, hlo, hhi, -⟩ := (blockRange_has hinc b x).mp hx.1
    obtain ⟨k', hk', hlo', hhi', -⟩ := (blockRange_has hinc b' x).mp hx.2
    have := term_injective hinc (hk.symm.trans hk')
    omega
  · intro r hr
    obtain ⟨b, hb, rfl⟩ := List.mem_map.mp hr
    obtain ⟨h0, hlt, -⟩ := hbounds b hb
    have hstart := h.start b hb
    refine ⟨rfl, (blockRange_has hinc b _).mpr ⟨b.1, rfl, le_refl _, hlt, hstart⟩,
      not_past_loopMin _ _, fun x hx => ?_⟩
    obtain ⟨k, hk, hlo, -, hn⟩ := (blockRange_has hinc b x).mp hx
    exact (inLoop_iff hinc x).mpr ⟨k, hk, by omega, hn⟩

theorem Dispensed.handed_ok (hinc : inc ≠ 0) (h : Dispensed l u inc s m g given) :
    RangesOk l u inc (s.handed.map Prod.snd) := by
  obtain ⟨hdisj, hwithin⟩ := h.given_ok hinc
  have hle : ((s.handed.map Prod.snd : List Handed) : Multiset Handed)
      ≤ (given.map (blockRange l u inc) : List Handed) := by
    rw [← h.acct]
    exact Multiset.le_add_right _ _
  have hsub := Multiset.coe_le.mp hle
  refine ⟨?_, fun r hr => hwithin r (hsub.subset hr)⟩
  obtain ⟨rs, hperm, hsublist⟩ := hsub
  exact (hperm.pairwise_iff (fun {r r'} hrr x hx => hrr x hx.symm)).mp
    (hdisj.sublist hsublist)

theorem Dispensed.complete (hinc : inc ≠ 0) (hteam : 0 < teamSize)
    (h : Dispensed l u inc s m g given) (hdone : AllDone s) {x : Int}
    (hx : InLoop l u inc x) : ∃ r ∈ s.handed.map Prod.snd, r.Has x := by
  have hsum : ∑ t, pending u inc (s.thread t).pc = 0 :=
    Finset.sum_eq_zero (fun t _ => by rw [hdone t]; rfl)
  have hacct := h.acct
  rw [hsum, add_zero] at hacct
  have hperm := Multiset.coe_eq_coe.mp hacct
  have hm : termCount l u inc ≤ m := by
    have hpc := h.pcs ⟨0, hteam⟩
    rwa [hdone] at hpc
  have hg : termCount l u inc ≤ g := by
    rcases h.place with hmg | ⟨hg, -⟩
    · omega
    · exact hg
  obtain ⟨k, hk, h0, hn⟩ := (inLoop_iff hinc x).mp hx
  obtain ⟨b, hb, hlo, hhi⟩ := h.tiles.cover h0 (by omega)
  exact ⟨blockRange l u inc b, hperm.mem_iff.mpr (List.mem_map_of_mem hb),
    (blockRange_has hinc b x).mpr ⟨k, hk, hlo, hhi, hn⟩⟩

end Invariant

/-! ## Every interleaving -/

theorem loopAlloc_dispensed (teamSize : Nat) (sched : DynSched) {upper inc chunk : Int}
    (hchunk : 1 ≤ chunk) (hmin : 1 ≤ minChunk) :
    Dispensed lower upper inc (loopAlloc teamSize sched lower upper inc chunk minChunk) 0 0 [] := by
  refine ⟨⟨rfl, rfl, rfl⟩, hchunk, hmin, ?_, .nil, .inl rfl, fun b hb => ?_, ?_, fun _ => trivial⟩
  · rw [zero_mul, add_zero]; rfl
  · exact absurd hb List.not_mem_nil
  · show (0 : Multiset Handed) + ∑ _t : Fin teamSize, (0 : Multiset Handed) = 0
    rw [zero_add, Finset.sum_const_zero]

theorem stepThread_progress (param : Param) {s : TeamState teamSize}
    (h : (s.thread t).pc ≠ .done) : ∃ s', stepThread param t s = some s' := by
  unfold stepThread
  cases hpc : (s.thread t).pc with
  | call => exact ⟨_, rfl⟩
  | haveChunk chunk =>
    cases s.loop.sched with
    | dynamic => dsimp only; split <;> exact ⟨_, rfl⟩
    | guided => exact ⟨_, rfl⟩
  | haveEstimate chunk myChunk => dsimp only; split <;> exact ⟨_, rfl⟩
  | added chunk current stride => exact ⟨_, rfl⟩
  | done => exact absurd hpc h

theorem run_dispensed {sched : DynSched} {upper inc chunk : Int}
    (hinc : inc ≠ 0) (hchunk : 1 ≤ chunk) (hmin : 1 ≤ minChunk) {k : Nat} {s : TeamState teamSize}
    (hrun : Run (TeamStep param) k (loopAlloc teamSize sched lower upper inc chunk minChunk) s) :
    (∃ m g given, Dispensed lower upper inc s m g given) ∧
      k ≤ 4 * (termCount lower upper inc).toNat + 3 * teamSize := by
  have hinit : ∃ m g given, Dispensed lower upper inc
      (loopAlloc teamSize sched lower upper inc chunk minChunk) m g given :=
    ⟨0, 0, [], loopAlloc_dispensed teamSize sched hchunk hmin⟩
  have hstep : ∀ t t' : TeamState teamSize,
      (∃ m g given, Dispensed lower upper inc t m g given) → TeamStep param t t' →
      (∃ m g given, Dispensed lower upper inc t' m g given) ∧
        stepsLeft lower upper inc t' < stepsLeft lower upper inc t := by
    rintro t t' ⟨m, g, given, h⟩ ⟨i, hi⟩
    obtain ⟨m', g', given', h', hlt⟩ := stepThread_dispensed hinc h hi
    exact ⟨⟨m', g', given', h'⟩, hlt⟩
  have hlen := hrun.length_le (stepsLeft lower upper inc) hstep hinit
  have hstart : stepsLeft lower upper inc (loopAlloc teamSize sched lower upper inc chunk minChunk)
      = 4 * (termCount lower upper inc).toNat + 3 * teamSize := by
    unfold stepsLeft loopAlloc
    simp [weight, mul_comm]
  exact ⟨hrun.inv (fun t t' ht hst => (hstep t t' ht hst).1) hinit, by omega⟩

/-- Dynamic and guided scheduling is an exact partition under every interleaving: at any time the
ranges handed out are disjoint, not empty and within the loop; a run ends after a bounded number of
steps, and then every iteration has been handed out. -/
theorem scheduleNext_partition (param : Param) (sched : DynSched)
    {lower upper inc chunk minChunk : Int} (hteam : 1 < teamSize) (hinc : inc ≠ 0)
    (hchunk : 1 ≤ chunk) (hmin : 1 ≤ minChunk) {k : Nat} {s : TeamState teamSize}
    (hrun : Run (TeamStep param) k (loopAlloc teamSize sched lower upper inc chunk minChunk) s) :
    (s.handed.map Prod.snd).Pairwise (fun r r' => ∀ x, ¬ (r.Has x ∧ r'.Has x)) ∧
    (∀ r ∈ s.handed.map Prod.snd, r.inc = inc ∧ r.Has r.lower ∧ ¬ Past inc r.upper upper ∧
      ∀ x, r.Has x → InLoop lower upper inc x) ∧
    (AllDone s → ∀ x, (∃ r ∈ s.handed.map Prod.snd, r.Has x) ↔ InLoop lower upper inc x) ∧
    (¬ AllDone s → ∃ s', TeamStep param s s') ∧
    k ≤ 4 * (termCount lower upper inc).toNat + 3 * teamSize := by
  obtain ⟨⟨m, g, given, h⟩, hlen⟩ := run_dispensed hinc hchunk hmin hrun
  obtain ⟨hdisj, hwithin⟩ := h.handed_ok hinc
  refine ⟨hdisj, hwithin, fun hdone x => ⟨?_, h.complete hinc (by omega) hdone⟩, fun hnot => ?_, hlen⟩
  · rintro ⟨r, hr, hx⟩
    exact (hwithin r hr).2.2.2 x hx
  · obtain ⟨t, ht⟩ := not_forall.mp hnot
    obtain ⟨s', hs'⟩ := stepThread_progress param ht
    exact ⟨s', t, hs'⟩

/-- The steps of the given threads, one after the other. -/
def runSchedule (param : Param) (ts : List (Fin teamSize)) (s : TeamState teamSize) :
    Option (TeamState teamSize) :=
  ts.foldlM (fun s t => stepThread param t s) s

theorem scheduleNext_partition_two :
    ∃ s : TeamState 2, Run (TeamStep ⟨1, 1000, by decide, by decide⟩) 22
        (loopAlloc 2 .guided 10 0 (-3) 2 1) s ∧ AllDone s ∧
      ∀ x, (∃ r ∈ s.handed.map Prod.snd, r.Has x) ↔ InLoop 10 0 (-3) x := by
  let o := runSchedule ⟨1, 1000, by decide, by decide⟩
    [0, 0, 1, 1, 1, 0, 1, 0, 0, 0, 0, 1, 1, 1, 0, 1, 0, 0, 0, 1, 1, 1]
    (loopAlloc 2 .guided 10 0 (-3) 2 1)
  have hdone : o.all (fun s => decide (AllDone s)) = true ∧ o.isSome = true := by decide
  obtain ⟨s, hs⟩ := Option.isSome_iff_exists.mp hdone.2
  have hrun := Run.of_foldlM (fun t s s' h => (⟨t, h⟩ : TeamStep _ s s')) _ (.refl _) hs
  rw [hs] at hdone
  have hall : AllDone s := of_decide_eq_true hdone.1
  exact ⟨s, hrun, hall, (scheduleNext_partition _ .guided (by decide) (by decide) (by decide)
    (by decide) hrun).2.2.1 hall⟩

end OpenMP
