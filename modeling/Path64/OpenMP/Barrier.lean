import Mathlib.Algebra.Order.BigOperators.Group.Finset
import Mathlib.Data.Fintype.Card
import Path64.OpenMP.Handshake
import Path64.Lib.Interleaving

/-! # Barriers

A thread that comes to a barrier counts down `team->barrier_count`. The
last one sets the counter back and wakes the others, one by one; those
that are awake may come to the next barrier while it is still doing so. -/

namespace OpenMP.Barrier

open Finset Function Interleaving Handshake

/-! ## Model -/

/-- Where a thread stands in `__pmp_thread_barrier`. -/
inductive Pc (n : Nat) where
  /-- Before the fetch-and-add of `barrier_count`. -/
  | out
  | waiting (w : Wait)
  /-- Before it sets `barrier_count` back. -/
  | reset
  /-- Before the test of the `for` loop. -/
  | loop (i : Nat)
  /-- In `__pmp_thread_wake` of member `i`. -/
  | waking (i : Fin n) (k : Wake)
  deriving DecidableEq

/-- A thread, with the barriers where it waited and where it was woken, latest first. -/
structure Thread (n : Nat) where
  pc : Pc n
  entered : Nat
  returned : Nat
  waits : List Nat
  wakes : List Nat

/-- The team; a thread is its place in `team->members`. -/
structure Team where
  teamSize : Nat
  threadSpin : Fin teamSize → Int

/-- `failed` is set when an assertion fails. -/
structure State (T : Team) where
  barrierCount : Int
  cell : Fin T.teamSize → Cell
  thread : Fin T.teamSize → Thread T.teamSize
  failed : Bool

variable {T : Team}

def State.setThread (s : State T) (t : Fin T.teamSize) (th : Thread T.teamSize) : State T :=
  { s with thread := update s.thread t th }

def State.setCell (s : State T) (t : Fin T.teamSize) (c : Cell) : State T :=
  { s with cell := update s.cell t c }

/-- The next step of thread `t`; `none` when it is suspended, and after a failed assertion. -/
def stepThread (t : Fin T.teamSize) (s : State T) : Option (State T) :=
  let th := s.thread t
  if s.failed then none
  else match th.pc with
  | .out =>
    if T.teamSize > 1 then
      let count := s.barrierCount
      let s' := { s with barrierCount := s.barrierCount - 1 }
      if count ≤ 0 then some { s' with failed := true }
      else if count > 1 then
        some (s'.setThread t { th with
          pc := .waiting .test, entered := th.entered + 1, waits := th.entered :: th.waits })
      else some (s'.setThread t { th with pc := .reset, entered := th.entered + 1 })
    else
      some (s.setThread t { th with entered := th.entered + 1, returned := th.returned + 1 })
  | .waiting w =>
    match w.step (T.threadSpin t) (s.cell t) with
    | none => none
    | some (some w', c) => some ((s.setCell t c).setThread t { th with pc := .waiting w' })
    | some (none, c) =>
      some ((s.setCell t c).setThread t { th with pc := .out, returned := th.returned + 1 })
  | .reset => some ({ s with barrierCount := T.teamSize }.setThread t { th with pc := .loop 0 })
  | .loop i =>
    if hi : i < T.teamSize then
      if i ≠ t then some (s.setThread t { th with pc := .waking ⟨i, hi⟩ .swap })
      else some (s.setThread t { th with pc := .loop (i + 1) })
    else some (s.setThread t { th with pc := .out, returned := th.returned + 1 })
  | .waking i k =>
    match k.step (s.cell i) with
    | (.next k', c) => some ((s.setCell i c).setThread t { th with pc := .waking i k' })
    | (.failed, _) => some { s with failed := true }
    | (.done, c) =>
      -- the barrier that thread `t` is the last one at
      let s' := (s.setCell i c).setThread t { th with pc := .loop (i + 1) }
      some (s'.setThread i { s'.thread i with wakes := (th.entered - 1) :: (s'.thread i).wakes })

/-- One step of any thread. -/
def TeamStep (s s' : State T) : Prop := ∃ t, stepThread t s = some s'

/-- A new team. -/
structure Initial (s : State T) : Prop where
  barrierCount : s.barrierCount = T.teamSize
  cell : ∀ t, s.cell t = ⟨.idle, false⟩
  thread : ∀ t, s.thread t = ⟨.out, 0, 0, [], []⟩
  failed : s.failed = false

/-! ## The invariant -/

namespace Pc

variable {n : Nat}

/-- The position in `__pmp_thread_wait`. -/
def wait : Pc n → Option Wait
  | waiting w => some w
  | _ => none

/-- The last one to come, until it returns. -/
def Last : Pc n → Prop
  | reset | loop _ | waking _ _ => True
  | _ => False

/-- After it has set the counter back. -/
def Wakes : Pc n → Prop
  | loop _ | waking _ _ => True
  | _ => False

/-- It has still to wake thread `t`. -/
def Left (t : Fin n) : Pc n → Prop
  | loop i => i ≤ t
  | waking i _ => i ≤ t
  | _ => False

section Positions

variable (t i : Fin n) (j : Nat) (w : Wait) (k : Wake)

@[grind =] theorem left_out : (out : Pc n).Left t = False := rfl
@[grind =] theorem left_waiting : (waiting w : Pc n).Left t = False := rfl
@[grind =] theorem left_reset : (reset : Pc n).Left t = False := rfl
@[grind =] theorem left_loop : (loop j : Pc n).Left t = (j ≤ t) := rfl
@[grind =] theorem left_waking : (waking i k : Pc n).Left t = (i ≤ t) := rfl

end Positions

@[grind →] theorem Left.wakes {t : Fin n} {pc : Pc n} (h : pc.Left t) : pc.Wakes := by
  cases pc <;> trivial

theorem Wakes.last {pc : Pc n} (h : pc.Wakes) : pc.Last := by
  cases pc <;> trivial

end Pc

/-- `g` barriers are complete; `phase` says how far the waits are. -/
structure InvAt (s : State T) (g : Nat) (phase : Fin T.teamSize → Phase) : Prop where
  entered : ∀ t, (s.thread t).entered = g ∨ (s.thread t).entered = g + 1
  count : s.barrierCount + (Finset.univ.filter fun t => (s.thread t).entered = g + 1).card
    = T.teamSize
  ahead : ∀ t, (s.thread t).entered = g + 1 →
    (s.thread t).pc = .reset ∨ ∃ w, (s.thread t).pc = .waiting w
  reset : ∀ t, (s.thread t).pc = .reset → ∀ u, (s.thread u).entered = g + 1
  wakes : ∀ t, (s.thread t).pc.Wakes → (s.thread t).entered = g
  alone : ∀ t u, (s.thread t).pc.Last → (s.thread u).pc.Last → t = u
  ok : ∀ t, Ok (phase t) (s.thread t).pc.wait (s.cell t)
  early : ∀ t, phase t ≠ .early
  /-- who waits in the next barrier, or in the last one and is not woken -/
  pending : ∀ t, (phase t).Pending ↔
    (s.thread t).entered = g + 1 ∧ (s.thread t).pc ≠ .reset ∨
      ∃ m, m ≠ t ∧ (s.thread m).pc.Left t
  left : ∀ m u, m ≠ u → (s.thread m).pc.Left u → (s.thread u).entered = g
  waking : ∀ m i k, (s.thread m).pc = .waking i k → i ≠ m ∧ (phase i).At k
  begun : ∀ t, (phase t).Waking → ∃ m k, (s.thread m).pc = .waking t k ∧ k ≠ .swap
  returned : ∀ t, (s.thread t).entered
    = (s.thread t).returned + if (s.thread t).pc = .out then 0 else 1
  waits : ∀ t, (s.thread t).waits.Pairwise (· > ·) ∧
    ∀ k ∈ (s.thread t).waits, k < (s.thread t).entered
  owed : ∀ t, (phase t).Pending →
    (s.thread t).waits = ((s.thread t).entered - 1) :: (s.thread t).wakes
  woken : ∀ t, ¬ (phase t).Pending → (s.thread t).waits = (s.thread t).wakes

def Inv (s : State T) : Prop := s.failed = false ∧ ∃ g phase, InvAt s g phase

theorem inv_initial {s : State T} (h : Initial s) : Inv s := by
  refine ⟨h.failed, 0, fun _ => .off, ?_⟩
  refine ⟨?_, ?_, ?_, ?_, ?_, ?_, ?_, ?_, ?_, ?_, ?_, ?_, ?_, ?_, ?_, ?_⟩
  · simp [h.thread]
  · simp [h.thread, h.barrierCount]
  · simp [h.thread]
  · simp [h.thread]
  · simp [h.thread]
  · simp [h.thread, Pc.Last]
  · intro t
    rw [h.thread, h.cell]
    exact .off
  · simp
  · simp [h.thread, Phase.Pending, Pc.Left]
  · simp [h.thread]
  · simp [h.thread]
  · simp [Phase.Waking]
  · simp [h.thread]
  · simp [h.thread]
  · simp [Phase.Pending]
  · simp [h.thread]

/-! ## Steps -/

section Steps

variable {s s' : State T} {g : Nat} {phase : Fin T.teamSize → Phase} {t : Fin T.teamSize}

section

variable (h : InvAt s g phase)
include h

theorem InvAt.phase_off (hpc : (s.thread t).pc.wait = none) : phase t = .off:= by
  have hok := h.ok t
  rw [hpc] at hok
  exact hok.off_or_early.resolve_right (h.early t)

theorem InvAt.alone_keep (hpc : (s.thread t).pc.Last)
    (hothers : ∀ u, u ≠ t → (s'.thread u).pc = (s.thread u).pc) (u v : Fin T.teamSize)
    (hu : (s'.thread u).pc.Last) (hv : (s'.thread v).pc.Last) : u = v := by
  have hlast : ∀ u, (s'.thread u).pc.Last → (s.thread u).pc.Last := by
    intro u hu
    by_cases hut : u = t
    · exact hut ▸ hpc
    · exact hothers u hut ▸ hu
  exact h.alone u v (hlast u hu) (hlast v hv)

theorem InvAt.wait_next {w w' : Wait} {c : Cell}
    (hpc : (s.thread t).pc = .waiting w) (hok : Ok (phase t) (some w') c)
    (hthread : ∀ u, s'.thread u = if u = t then { s.thread t with pc := .waiting w' }
      else s.thread u)
    (hcell : ∀ u, s'.cell u = if u = t then c else s.cell u)
    (hcount : s'.barrierCount = s.barrierCount) : InvAt s' g phase := by
  have hentered : ∀ u, (s'.thread u).entered = (s.thread u).entered := by grind
  refine ⟨?_, ?_, ?_, ?_, ?_, ?_, ?_, h.early, ?_, ?_, ?_, ?_, ?_, ?_, ?_, ?_⟩
  · simpa only [hentered] using h.entered
  · simpa only [hentered, hcount] using h.count
  · grind [h.ahead]
  · grind [h.reset]
  · grind [h.wakes, Pc.Wakes]
  · grind [h.alone, Pc.Last]
  · intro u
    rw [hthread, hcell]
    split
    · rename_i hu
      exact hu ▸ hok
    · exact h.ok u
  · intro u
    have := h.pending u
    grind
  · intro m u
    have := h.left m u
    grind
  · grind [h.waking]
  · grind [h.begun]
  · grind [h.returned]
  · grind [h.waits]
  · grind [h.owed]
  · grind [h.woken]

theorem InvAt.wait_return {w : Wait} {c : Cell}
    (hpc : (s.thread t).pc = .waiting w) (hph : phase t = .woken) (hok : Ok .off none c)
    (hthread : ∀ u, s'.thread u = if u = t then
      { s.thread t with pc := .out, returned := (s.thread t).returned + 1 } else s.thread u)
    (hcell : ∀ u, s'.cell u = if u = t then c else s.cell u)
    (hcount : s'.barrierCount = s.barrierCount) :
    InvAt s' g (fun u => if u = t then .off else phase u) := by
  have hentered : ∀ u, (s'.thread u).entered = (s.thread u).entered := by grind
  have hnot : ¬ (phase t).Pending := by simp [hph, Phase.Pending]
  -- it was woken, so the barrier is complete
  have hold : (s.thread t).entered = g := by
    have := h.entered t
    have := h.pending t
    grind
  refine ⟨?_, ?_, ?_, ?_, ?_, ?_, ?_, ?_, ?_, ?_, ?_, ?_, ?_, ?_, ?_, ?_⟩
  · simpa only [hentered] using h.entered
  · simpa only [hentered, hcount] using h.count
  · grind [h.ahead]
  · grind [h.reset]
  · grind [h.wakes, Pc.Wakes]
  · grind [h.alone, Pc.Last]
  · intro u
    rw [hthread, hcell]
    split
    · exact hok
    · exact h.ok u
  · grind [h.early]
  · intro u
    have := h.pending u
    grind [Phase.Pending]
  · intro m u
    have := h.left m u
    have := h.pending u
    grind
  · intro m i k hm
    have := h.waking m i k
    grind [Phase.At]
  · grind [h.begun, Phase.Waking]
  · grind [h.returned]
  · grind [h.waits]
  · grind [h.owed, Phase.Pending]
  · grind [h.woken, Phase.Pending]

/-- A thread arrives and is not the last one: it is owed a wake. -/
theorem InvAt.enter_wait (hpc : (s.thread t).pc = .out)
    (hthread : ∀ u, s'.thread u = if u = t then { s.thread t with
        pc := .waiting .test, entered := (s.thread t).entered + 1,
        waits := (s.thread t).entered :: (s.thread t).waits }
      else s.thread u)
    (hcell : s'.cell = s.cell) (hcount : s'.barrierCount = s.barrierCount - 1) :
    InvAt s' g (fun u => if u = t then .owed else phase u) := by
  have hoff := h.phase_off (t := t) (by rw [hpc]; rfl)
  have hold : (s.thread t).entered = g := by
    have := h.ahead t
    have := h.entered t
    grind
  -- the last one to come, if there is one, set the counter back
  have hreset : ∀ u, (s.thread u).pc ≠ .reset := by
    intro u hu
    have := h.reset u hu t
    omega
  have hnot : ¬ (phase t).Pending := by simp [hoff, Phase.Pending]
  refine ⟨?_, ?_, ?_, ?_, ?_, ?_, ?_, ?_, ?_, ?_, ?_, ?_, ?_, ?_, ?_, ?_⟩
  · grind [h.entered]
  · have hset : (Finset.univ.filter fun u => (s'.thread u).entered = g + 1)
        = insert t (Finset.univ.filter fun u => (s.thread u).entered = g + 1) := by
      ext u
      simp only [mem_filter, mem_univ, true_and, mem_insert]
      grind
    have hcard := h.count
    rw [hset, card_insert_of_notMem (by simp [hold]), hcount]
    push_cast
    omega
  · grind [h.ahead]
  · grind
  · grind [h.wakes, Pc.Wakes]
  · grind [h.alone, Pc.Last]
  · intro u
    rw [hthread, hcell]
    have hok := h.ok u
    split
    · rename_i hu
      subst hu
      rw [hoff, hpc] at hok
      exact hok.begin
    · exact hok
  · grind [h.early]
  · intro u
    have := h.pending u
    grind [Phase.Pending]
  · intro m u
    have := h.left m u
    have := h.pending u
    grind
  · intro m i k hm
    have := h.waking m i k
    grind [Phase.At]
  · grind [h.begun, Phase.Waking]
  · grind [h.returned]
  · intro u
    rw [hthread]
    obtain ⟨hsorted, hlt⟩ := h.waits u
    split
    · rename_i hu
      subst hu
      refine ⟨List.pairwise_cons.mpr ⟨hlt, hsorted⟩, ?_⟩
      grind
    · exact ⟨hsorted, hlt⟩
  · have := h.woken t hnot
    grind [h.owed, Phase.Pending]
  · grind [h.woken, Phase.Pending]

theorem InvAt.others_entered (hpc : (s.thread t).entered = g)
    (hlast : s.barrierCount ≤ 1) {u : Fin T.teamSize} (hu : u ≠ t) :
    (s.thread u).entered = g + 1 := by
  have hsub : (Finset.univ.filter fun v => (s.thread v).entered = g + 1) ⊆ Finset.univ.erase t := by
    intro v hv
    have := (mem_filter.mp hv).2
    refine mem_erase.mpr ⟨?_, mem_univ v⟩
    rintro rfl
    omega
  have hcard : (Finset.univ.erase t).card
      ≤ (Finset.univ.filter fun v => (s.thread v).entered = g + 1).card := by
    have := h.count
    rw [card_erase_of_mem (mem_univ t), card_univ, Fintype.card_fin]
    omega
  have hmem : u ∈ Finset.univ.erase t := mem_erase.mpr ⟨hu, mem_univ u⟩
  rw [← eq_of_subset_of_card_le hsub hcard] at hmem
  exact (mem_filter.mp hmem).2

/-- The last thread arrives: all others have entered, and none is woken yet. -/
theorem InvAt.enter_last (hpc : (s.thread t).pc = .out) (hlast : s.barrierCount ≤ 1)
    (hthread : ∀ u, s'.thread u = if u = t then { s.thread t with
        pc := .reset, entered := (s.thread t).entered + 1 }
      else s.thread u)
    (hcell : s'.cell = s.cell) (hcount : s'.barrierCount = s.barrierCount - 1) :
    InvAt s' g phase := by
  have hoff := h.phase_off (t := t) (by rw [hpc]; rfl)
  have hold : (s.thread t).entered = g := by
    have := h.ahead t
    have := h.entered t
    grind
  have hothers : ∀ u, u ≠ t → (s.thread u).entered = g + 1 :=
    fun u hu => h.others_entered hold hlast hu
  -- so nobody is on the way back
  have hreset : ∀ u, (s.thread u).pc ≠ .reset := by
    intro u hu
    have := h.reset u hu t
    omega
  have hwakes : ∀ u, ¬ (s.thread u).pc.Wakes := by
    intro u hu
    have := h.wakes u hu
    have := hothers u
    grind [Pc.Wakes]
  have hnot : ¬ (phase t).Pending := by simp [hoff, Phase.Pending]
  refine ⟨?_, ?_, ?_, ?_, ?_, ?_, ?_, h.early, ?_, ?_, ?_, ?_, ?_, ?_, ?_, ?_⟩
  · grind [h.entered]
  · have hset : (Finset.univ.filter fun u => (s'.thread u).entered = g + 1)
        = insert t (Finset.univ.filter fun u => (s.thread u).entered = g + 1) := by
      ext u
      simp only [mem_filter, mem_univ, true_and, mem_insert]
      grind
    have hcard := h.count
    rw [hset, card_insert_of_notMem (by simp [hold]), hcount]
    push_cast
    omega
  · grind [h.ahead]
  · grind
  · grind [Pc.Wakes]
  · intro u v hu hv
    have hlast : ∀ u, (s'.thread u).pc.Last → u = t := by
      intro u hu
      by_contra hut
      rw [hthread, if_neg hut] at hu
      cases hpcu : (s.thread u).pc <;> rw [hpcu] at hu
      · cases hu
      · cases hu
      · exact hreset u hpcu
      · exact hwakes u (by rw [hpcu]; trivial)
      · exact hwakes u (by rw [hpcu]; trivial)
    rw [hlast u hu, hlast v hv]
  · intro u
    rw [hthread, hcell]
    have hok := h.ok u
    split
    · rename_i hu
      subst hu
      rwa [hpc] at hok
    · exact hok
  · intro u
    have := h.pending u
    have := hwakes
    grind
  · intro m u _ hleft
    have := hwakes m
    grind [Pc.Left.wakes]
  · grind [h.waking]
  · grind [h.begun]
  · grind [h.returned]
  · intro u
    have := h.waits u
    grind
  · grind [h.owed]
  · grind [h.woken]

/-- The count is set back before anyone is woken, so that a woken thread can enter the next
barrier. -/
theorem InvAt.reset_count (hpc : (s.thread t).pc = .reset)
    (hthread : ∀ u, s'.thread u = if u = t then { s.thread t with pc := .loop 0 } else s.thread u)
    (hcell : s'.cell = s.cell) (hcount : s'.barrierCount = T.teamSize) : InvAt s' (g + 1) phase := by
  have hoff := h.phase_off (t := t) (by rw [hpc]; rfl)
  have hall := h.reset t hpc
  have hentered : ∀ u, (s'.thread u).entered = g + 1 := by grind
  have hlast : ∀ u, (s.thread u).pc.Last → u = t :=
    fun u hu => h.alone u t hu (by rw [hpc]; trivial)
  have hwakes : ∀ u, ¬ (s.thread u).pc.Wakes := by
    intro u hu
    have := h.wakes u hu
    have := hall u
    omega
  refine ⟨?_, ?_, ?_, ?_, ?_, ?_, ?_, h.early, ?_, ?_, ?_, ?_, ?_, ?_, ?_, ?_⟩
  · exact fun u => .inl (hentered u)
  · have hset : (Finset.univ.filter fun u => (s'.thread u).entered = g + 1 + 1) = ∅ := by
      refine filter_eq_empty_iff.mpr fun u _ => ?_
      rw [hentered u]
      omega
    rw [hset, hcount, card_empty]
    simp
  · grind
  · grind [Pc.Last]
  · exact fun u _ => hentered u
  · intro u v hu hv
    have := hlast u
    have := hlast v
    grind
  · intro u
    rw [hthread, hcell]
    have hok := h.ok u
    split
    · rename_i hu
      subst hu
      rwa [hpc] at hok
    · exact hok
  · intro u
    have hold := h.pending u
    constructor
    · intro hp
      refine .inr ⟨t, ?_, ?_⟩
      · rintro rfl
        simp [hoff, Phase.Pending] at hp
      · grind
    · rintro (⟨hu, -⟩ | ⟨m, hm, hleft⟩)
      · have := hentered u
        omega
      · have hmt : m = t := by
          by_contra hmt
          rw [hthread, if_neg hmt] at hleft
          have := hwakes m
          grind
        subst hmt
        exact hold.mpr (.inl ⟨hall u, fun hu => hm (hlast u (by rw [hu]; trivial)).symm⟩)
  · exact fun m u _ _ => hentered u
  · grind [h.waking]
  · grind [h.begun]
  · grind [h.returned]
  · grind [h.waits]
  · grind [h.owed]
  · grind [h.woken]

theorem InvAt.loop_wake {i : Fin T.teamSize} (hpc : (s.thread t).pc = .loop i) (hi : i ≠ t)
    (hthread : ∀ u, s'.thread u = if u = t then { s.thread t with pc := .waking i .swap }
      else s.thread u)
    (hcell : s'.cell = s.cell) (hcount : s'.barrierCount = s.barrierCount) : InvAt s' g phase := by
  have hentered : ∀ u, (s'.thread u).entered = (s.thread u).entered := by grind
  -- the thread waits, and nobody else is waking it
  have hat : (phase i).At .swap := by
    have hpending : (phase i).Pending := by
      refine (h.pending i).mpr (.inr ⟨t, hi.symm, ?_⟩)
      rw [hpc]
      exact le_refl _
    have hnot : ¬ (phase i).Waking := by
      intro hw
      obtain ⟨m, k, hm, -⟩ := h.begun i hw
      have := h.alone m t (by rw [hm]; trivial) (by rw [hpc]; trivial)
      subst this
      rw [hpc] at hm
      cases hm
    cases hph : phase i <;> simp [hph, Phase.Pending, Phase.Waking] at hpending hnot
    trivial
  refine ⟨?_, ?_, ?_, ?_, ?_, ?_, ?_, h.early, ?_, ?_, ?_, ?_, ?_, ?_, ?_, ?_⟩
  · simpa only [hentered] using h.entered
  · simpa only [hentered, hcount] using h.count
  · grind [h.ahead]
  · grind [h.reset]
  · grind [h.wakes, Pc.Wakes]
  · exact h.alone_keep (t := t) (by rw [hpc]; trivial) (by grind)
  · intro u
    rw [hthread, hcell]
    have hok := h.ok u
    split
    · rename_i hu
      subst hu
      rwa [hpc] at hok
    · exact hok
  · intro u
    have := h.pending u
    grind
  · intro m u
    have := h.left m u
    grind
  · intro m j k hm
    have := h.waking m j k
    grind
  · grind [h.begun]
  · grind [h.returned]
  · grind [h.waits]
  · grind [h.owed]
  · grind [h.woken]

theorem InvAt.loop_skip (hpc : (s.thread t).pc = .loop t)
    (hthread : ∀ u, s'.thread u = if u = t then { s.thread t with pc := .loop (t + 1) }
      else s.thread u)
    (hcell : s'.cell = s.cell) (hcount : s'.barrierCount = s.barrierCount) : InvAt s' g phase := by
  have hentered : ∀ u, (s'.thread u).entered = (s.thread u).entered := by grind
  refine ⟨?_, ?_, ?_, ?_, ?_, ?_, ?_, h.early, ?_, ?_, ?_, ?_, ?_, ?_, ?_, ?_⟩
  · simpa only [hentered] using h.entered
  · simpa only [hentered, hcount] using h.count
  · grind [h.ahead]
  · grind [h.reset]
  · grind [h.wakes, Pc.Wakes]
  · exact h.alone_keep (t := t) (by rw [hpc]; trivial) (by grind)
  · intro u
    rw [hthread, hcell]
    have hok := h.ok u
    split
    · rename_i hu
      subst hu
      rwa [hpc] at hok
    · exact hok
  · intro u
    have hold := h.pending u
    have hleft : ∀ m, m ≠ u → ((s'.thread m).pc.Left u ↔ (s.thread m).pc.Left u) := by
      intro m hm
      rw [hthread]
      split
      · rename_i hmt
        subst hmt
        have hne : (m : Nat) ≠ u := fun heq => hm (Fin.ext heq)
        simp only [hpc, Pc.Left]
        omega
      · rfl
    grind
  · intro m u
    have := h.left m u
    grind
  · grind [h.waking]
  · grind [h.begun]
  · grind [h.returned]
  · grind [h.waits]
  · grind [h.owed]
  · grind [h.woken]

theorem InvAt.loop_end {i : Nat} (hpc : (s.thread t).pc = .loop i) (hi : ¬ i < T.teamSize)
    (hthread : ∀ u, s'.thread u = if u = t then
      { s.thread t with pc := .out, returned := (s.thread t).returned + 1 } else s.thread u)
    (hcell : s'.cell = s.cell) (hcount : s'.barrierCount = s.barrierCount) : InvAt s' g phase := by
  have hentered : ∀ u, (s'.thread u).entered = (s.thread u).entered := by grind
  have hold := h.wakes t (by rw [hpc]; trivial)
  refine ⟨?_, ?_, ?_, ?_, ?_, ?_, ?_, h.early, ?_, ?_, ?_, ?_, ?_, ?_, ?_, ?_⟩
  · simpa only [hentered] using h.entered
  · simpa only [hentered, hcount] using h.count
  · grind [h.ahead]
  · grind [h.reset]
  · grind [h.wakes, Pc.Wakes]
  · exact h.alone_keep (t := t) (by rw [hpc]; trivial) (by grind)
  · intro u
    rw [hthread, hcell]
    have hok := h.ok u
    split
    · rename_i hu
      subst hu
      rwa [hpc] at hok
    · exact hok
  · intro u
    have hu := u.isLt
    have := h.pending u
    grind
  · intro m u
    have := h.left m u
    grind
  · grind [h.waking]
  · grind [h.begun]
  · grind [h.returned]
  · grind [h.waits]
  · grind [h.owed]
  · grind [h.woken]

theorem InvAt.wake_next {i : Fin T.teamSize} {k k' : Wake} {ph : Phase}
    {c : Cell} (hpc : (s.thread t).pc = .waking i k) (hpending : (phase i).Pending)
    (hwaking : ph.Waking) (hat : ph.At k') (hok : Ok ph (s.thread i).pc.wait c)
    (hthread : ∀ u, s'.thread u = if u = t then { s.thread t with pc := .waking i k' }
      else s.thread u)
    (hcell : ∀ u, s'.cell u = if u = i then c else s.cell u)
    (hcount : s'.barrierCount = s.barrierCount) :
    InvAt s' g (fun u => if u = i then ph else phase u) := by
  have hentered : ∀ u, (s'.thread u).entered = (s.thread u).entered := by grind
  obtain ⟨hne, -⟩ := h.waking t i k hpc
  have hph : ph.Pending := by
    cases ph <;> trivial
  have hk' : k' ≠ .swap := by
    rintro rfl
    cases ph <;> simp [Phase.Waking, Phase.At] at hwaking hat
  refine ⟨?_, ?_, ?_, ?_, ?_, ?_, ?_, ?_, ?_, ?_, ?_, ?_, ?_, ?_, ?_, ?_⟩
  · simpa only [hentered] using h.entered
  · simpa only [hentered, hcount] using h.count
  · grind [h.ahead]
  · grind [h.reset]
  · grind [h.wakes, Pc.Wakes]
  · exact h.alone_keep (t := t) (by rw [hpc]; trivial) (by grind)
  · intro u
    have hu := h.ok u
    rw [hthread, hcell]
    grind [Pc.wait]
  · grind [h.early, Phase.Waking]
  · intro u
    have := h.pending u
    grind
  · intro m u
    have := h.left m u
    grind
  · intro m j l hm
    have := h.waking m j l
    have := h.alone m t
    grind [Pc.Last]
  · intro u hu
    by_cases hui : u = i
    · subst hui
      exact ⟨t, k', by grind, hk'⟩
    · have := h.begun u
      grind
  · grind [h.returned]
  · grind [h.waits]
  · grind [h.owed]
  · grind [h.woken]

/-- A wake that is completed pays what was owed to one thread. -/
theorem InvAt.wake_done {i : Fin T.teamSize} {k : Wake} {c : Cell}
    (hpc : (s.thread t).pc = .waking i k) (hpending : (phase i).Pending)
    (hok : Ok .woken (s.thread i).pc.wait c) (hthread : ∀ u, s'.thread u = if u = i then
        { s.thread i with wakes := ((s.thread t).entered - 1) :: (s.thread i).wakes }
      else if u = t then { s.thread t with pc := .loop (i + 1) } else s.thread u)
    (hcell : ∀ u, s'.cell u = if u = i then c else s.cell u)
    (hcount : s'.barrierCount = s.barrierCount) :
    InvAt s' g (fun u => if u = i then .woken else phase u) := by
  have hentered : ∀ u, (s'.thread u).entered = (s.thread u).entered := by grind
  obtain ⟨hne, -⟩ := h.waking t i k hpc
  have hold := h.wakes t (by rw [hpc]; trivial)
  have hlast : ∀ u, (s.thread u).pc.Last → u = t :=
    fun u hu => h.alone u t hu (by rw [hpc]; trivial)
  have hreset : ∀ u, (s.thread u).pc ≠ .reset := by
    intro u hu
    have := h.reset u hu t
    omega
  have hi : (s.thread i).entered = g := by
    refine h.left t i hne.symm ?_
    rw [hpc]
    exact le_refl _
  refine ⟨?_, ?_, ?_, ?_, ?_, ?_, ?_, ?_, ?_, ?_, ?_, ?_, ?_, ?_, ?_, ?_⟩
  · simpa only [hentered] using h.entered
  · simpa only [hentered, hcount] using h.count
  · grind [h.ahead]
  · grind
  · grind [h.wakes, Pc.Wakes]
  · exact h.alone_keep (t := t) (by rw [hpc]; trivial) (by grind)
  · intro u
    have hu := h.ok u
    rw [hthread, hcell]
    grind [Pc.wait]
  · grind [h.early]
  · intro u
    have hold := h.pending u
    have hleft : ∀ m, m ≠ u → ((s'.thread m).pc.Left u ↔ (s.thread m).pc.Left u ∧ u ≠ i) := by
      intro m hm
      by_cases hmt : m = t
      · subst hmt
        rw [hthread, if_neg hne.symm, if_pos rfl, hpc, Pc.left_loop, Pc.left_waking, ne_eq,
          Fin.ext_iff]
        omega
      · have hno : ¬ (s.thread m).pc.Wakes := fun hw => hmt (hlast m hw.last)
        grind [Pc.Left.wakes]
    grind [Phase.Pending]
  · intro m u
    have := h.left m u
    grind
  · intro m j l hm
    have := h.waking m j l
    have := hlast m
    grind [Pc.Last]
  · intro u hu
    have hui : u ≠ i := by
      rintro rfl
      simp [Phase.Waking] at hu
    rw [if_neg hui] at hu
    -- nobody but this thread is waking others
    obtain ⟨m, l, hm, hl⟩ := h.begun u hu
    have hmt := hlast m (by rw [hm]; trivial)
    rw [hmt, hpc] at hm
    grind
  · grind [h.returned]
  · grind [h.waits]
  · grind [h.owed, Phase.Pending]
  · have := h.owed i hpending
    grind [h.woken, Phase.Pending]

theorem InvAt.count_pos (hpc : (s.thread t).pc = .out) : 0 < s.barrierCount:= by
  have hold : (s.thread t).entered = g := by
    have := h.ahead t
    have := h.entered t
    grind
  have hsub : (Finset.univ.filter fun v => (s.thread v).entered = g + 1) ⊆ Finset.univ.erase t := by
    intro v hv
    have := (mem_filter.mp hv).2
    refine mem_erase.mpr ⟨?_, mem_univ v⟩
    rintro rfl
    omega
  have hcard := card_le_card hsub
  rw [card_erase_of_mem (mem_univ t), card_univ, Fintype.card_fin] at hcard
  have := h.count
  have := t.isLt
  omega

end

end Steps

/-- One step of any thread keeps the invariant; one case for each place in the code. -/
theorem inv_step (hsize : T.teamSize > 1) {s s' : State T} (h : Inv s) (hstep : TeamStep s s') :
    Inv s' := by
  obtain ⟨hfailed, g, phase, h⟩ := h
  obtain ⟨t, hst⟩ := hstep
  unfold stepThread at hst
  dsimp only at hst
  rw [if_neg (by simp [hfailed])] at hst
  -- one case for each position
  split at hst
  · -- a thread arrives
    rename_i hpc
    have hpos := h.count_pos hpc
    rw [if_pos hsize, if_neg (by omega)] at hst
    split at hst
    · cases hst
      refine ⟨hfailed, g, _, h.enter_wait hpc ?_ rfl rfl⟩
      exact fun u => update_apply _ _ _ _
    · rename_i hlast
      cases hst
      refine ⟨hfailed, g, _, h.enter_last hpc (by omega) ?_ rfl rfl⟩
      exact fun u => update_apply _ _ _ _
  · -- it waits
    rename_i w hpc
    have hok := h.ok t
    rw [hpc] at hok
    split at hst
    · cases hst
    · rename_i w' c hw
      cases hst
      refine ⟨hfailed, g, _, h.wait_next hpc (hok.wait_step hw) ?_ ?_ rfl⟩
      · exact fun u => update_apply _ _ _ _
      · exact fun u => update_apply _ _ _ _
    · rename_i c hw
      cases hst
      obtain ⟨hph, hoff⟩ := hok.wait_step hw
      refine ⟨hfailed, g, _, h.wait_return hpc hph hoff ?_ ?_ rfl⟩
      · exact fun u => update_apply _ _ _ _
      · exact fun u => update_apply _ _ _ _
  · rename_i hpc
    cases hst
    refine ⟨hfailed, g + 1, _, h.reset_count hpc ?_ rfl rfl⟩
    exact fun u => update_apply _ _ _ _
  · rename_i i hpc
    split at hst
    · rename_i hi
      split at hst
      · rename_i hne
        cases hst
        refine ⟨hfailed, g, _, h.loop_wake (i := ⟨i, hi⟩) hpc ?_ ?_ rfl rfl⟩
        · exact fun heq => hne (congrArg Fin.val heq)
        · exact fun u => update_apply _ _ _ _
      · rename_i heq
        rw [not_not] at heq
        subst heq
        cases hst
        refine ⟨hfailed, g, _, h.loop_skip hpc ?_ rfl rfl⟩
        exact fun u => update_apply _ _ _ _
    · rename_i hi
      cases hst
      refine ⟨hfailed, g, _, h.loop_end hpc hi ?_ rfl rfl⟩
      exact fun u => update_apply _ _ _ _
  · rename_i i k hpc
    obtain ⟨hne, hat⟩ := h.waking t i k hpc
    have hpending : (phase i).Pending := by
      refine (h.pending i).mpr (.inr ⟨t, hne.symm, ?_⟩)
      rw [hpc]
      exact le_refl _
    have hok := h.ok i
    split at hst
    · rename_i k' c hk
      cases hst
      obtain ⟨-, ph, hwaking, hat', hok'⟩ := hok.wake_step hat hk
      refine ⟨hfailed, g, _, h.wake_next hpc hpending hwaking hat' hok' ?_ ?_ rfl⟩
      · exact fun u => update_apply _ _ _ _
      · exact fun u => update_apply _ _ _ _
    · rename_i c hk
      exact (hok.wake_step hat hk).elim
    · rename_i c hk
      cases hst
      have hwoken : (phase i).wake = .woken := by
        cases hph : phase i <;> first | rfl | (rw [hph] at hpending; cases hpending)
      have hok' := hok.wake_step hat hk
      rw [hwoken] at hok'
      refine ⟨hfailed, g, _, h.wake_done hpc hpending hok' ?_ ?_ rfl⟩
      · intro u
        simp only [State.setThread, State.setCell, update_apply, if_neg hne]
      · exact fun u => update_apply _ _ _ _

/-! ## Barriers separate phases -/

/-- Nobody returns from a barrier that somebody has not entered; every thread that waits at a
barrier is woken there once, and no others; and no assertion fails. -/
theorem barrier_separates (hsize : T.teamSize > 1) {n : Nat} {s₀ s : State T} (h₀ : Initial s₀)
    (hrun : Run TeamStep n s₀ s) : (∀ t u, (s.thread t).returned ≤ (s.thread u).entered) ∧
      (∀ t k, (s.thread t).wakes.count k ≤ 1 ∧ (k ∈ (s.thread t).wakes → k ∈ (s.thread t).waits) ∧
        (k ∈ (s.thread t).waits → k < (s.thread t).returned → (s.thread t).wakes.count k = 1)) ∧
      s.failed = false := by
  obtain ⟨hfailed, g, phase, h⟩ :=
    hrun.inv (fun _ _ ht hst => inv_step hsize ht hst) (inv_initial h₀)
  refine ⟨fun t u => ?_, fun t k => ?_, hfailed⟩
  · have := h.entered t
    have := h.entered u
    have := h.returned t
    have := h.ahead t
    grind
  · have hnodup : (s.thread t).waits.Nodup := (h.waits t).1.imp fun hlt => Nat.ne_of_gt hlt
    by_cases hp : (phase t).Pending
    · have howed := h.owed t hp
      rw [howed, List.nodup_cons] at hnodup
      refine ⟨List.nodup_iff_count_le_one.mp hnodup.2 k, ?_, ?_⟩
      · intro hk
        rw [howed]
        exact List.mem_cons_of_mem _ hk
      · intro hk hlt
        have := h.returned t
        rw [howed, List.mem_cons] at hk
        rcases hk with hk | hk
        · have hout : (s.thread t).pc ≠ .out := by
            intro hpc
            rw [h.phase_off (by rw [hpc]; rfl)] at hp
            cases hp
          grind
        · exact List.count_eq_one_of_mem hnodup.2 hk
    · have hwoken := h.woken t hp
      rw [hwoken] at hnodup ⊢
      refine ⟨List.nodup_iff_count_le_one.mp hnodup k, id, fun hk _ => ?_⟩
      exact List.count_eq_one_of_mem hnodup hk

/-- A new team, whose threads do not spin. -/
def start (T : Team) : State T where
  barrierCount := T.teamSize
  cell := fun _ => ⟨.idle, false⟩
  thread := fun _ => ⟨.out, 0, 0, [], []⟩
  failed := false

def twoThreads : Team := ⟨2, fun _ => 0⟩

/-- The first thread is suspended when the second comes, and waits at the next barrier before the
second is through with its loop. -/
theorem barrier_separates_twoThreads : ∃ s : State twoThreads,
    (∃ n, Run TeamStep n (start twoThreads) s) ∧
      (s.thread (0 : Fin 2)).wakes = [0] ∧ (s.thread (0 : Fin 2)).entered = 2 ∧
      (s.thread (1 : Fin 2)).returned = 0 ∧
      (s.thread (0 : Fin 2)).returned ≤ (s.thread (1 : Fin 2)).entered := by
  let o := ([0, 0, 0, 1, 1, 1, 1, 1, 1, 0, 0] : List (Fin 2)).foldlM (fun s t => stepThread t s)
    (start twoThreads)
  have hend : o.all (fun s => decide ((s.thread (0 : Fin 2)).wakes = [0] ∧
      (s.thread (0 : Fin 2)).entered = 2 ∧ (s.thread (1 : Fin 2)).returned = 0)) = true ∧
        o.isSome = true := by decide
  obtain ⟨s, hs⟩ := Option.isSome_iff_exists.mp hend.2
  have hrun := Run.of_foldlM (fun t s s' h => (⟨t, h⟩ : TeamStep s s')) _ (.refl _) hs
  rw [hs] at hend
  obtain ⟨hwakes, hentered, hreturned⟩ := of_decide_eq_true hend.1
  exact ⟨s, ⟨_, hrun⟩, hwakes, hentered, hreturned,
    (barrier_separates (by decide) ⟨rfl, fun _ => rfl, fun _ => rfl, rfl⟩ hrun).1 _ _⟩

/-! ## Barriers end -/

/-- The steps that a wait has left once it is woken. -/
def waitSteps (threadSpin : Int) : Wait → Nat
  | .test => threadSpin.toNat + 4
  | .spin i => (threadSpin - i).toNat + 3
  | .swap => 2
  | .suspended | .clear => 1

def wakeSteps : Wake → Nat
  | .swap => 2
  | .clear => 1
  | .signal => 0

/-- The steps that a thread has left in its barrier. -/
def Pc.steps {n : Nat} (threadSpin : Int) : Pc n → Nat
  | out => 0
  | waiting w => waitSteps threadSpin w
  | reset => 4 * n + 2
  | loop i => 4 * (n - i) + 1
  | waking i k => 4 * (n - i) - 2 + wakeSteps k

def State.steps (s : State T) : Nat := ∑ t, (s.thread t).pc.steps (T.threadSpin t)

/-- One step of a thread that is in a barrier. -/
def InsideStep (s s' : State T) : Prop := ∃ t, (s.thread t).pc ≠ .out ∧ stepThread t s = some s'

section Ends

variable {s s' : State T} {t : Fin T.teamSize} {c c' : Cell}

theorem waitSteps_step {threadSpin : Int} {w : Wait} {w' : Option Wait}
    (h : w.step threadSpin c = some (w', c')) :
    w'.elim 0 (waitSteps threadSpin) < waitSteps threadSpin w := by
  cases w with
  | test | spin =>
    cases h
    simp only [Option.elim_some, spinTest]
    split_ifs <;> simp only [waitSteps] <;> omega
  | swap | suspended | clear =>
    simp only [Wait.step] at h
    grind [waitSteps]

theorem wakeSteps_step {k k' : Wake} (h : k.step c = (.next k', c')) :
    wakeSteps k' < wakeSteps k := by
  cases k with
  | swap =>
    simp only [Wake.step] at h
    split at h <;> cases h
    exact Nat.lt_succ_self 1
  | clear =>
    cases h
    exact Nat.one_pos
  | signal => cases h

/-- What a step of thread `t` does to the positions. -/
structure Moves (t : Fin T.teamSize) (s s' : State T) : Prop where
  others : ∀ u, u ≠ t → (s'.thread u).pc = (s.thread u).pc
  inside : (s.thread t).pc ≠ .out →
    (s'.thread t).pc.steps (T.threadSpin t) < (s.thread t).pc.steps (T.threadSpin t)
  /-- the last one to come is at `reset` -/
  counts : s'.barrierCount ≤ 0 →
    (s'.thread t).pc = .reset ∨ s.barrierCount ≤ 0 ∧ (s.thread t).pc ≠ .reset

theorem stepThread_moves (hsize : T.teamSize > 1) (h : Inv s) (hst : stepThread t s = some s') :
    Moves t s s' := by
  obtain ⟨hfailed, g, phase, h⟩ := h
  unfold stepThread at hst
  dsimp only at hst
  rw [if_neg (by simp [hfailed])] at hst
  split at hst
  · rename_i hpc
    have hpos := h.count_pos hpc
    rw [if_pos hsize, if_neg (by omega)] at hst
    split at hst <;> cases hst <;> constructor <;> simp only [State.setThread, update_apply] <;>
      grind
  · split at hst
    · cases hst
    all_goals
      rename_i hw
      have hlt := waitSteps_step hw
      cases hst
      constructor <;> simp only [State.setThread, State.setCell, update_apply] <;>
        grind [Pc.steps, Option.elim]
  · cases hst
    constructor <;> simp only [State.setThread, update_apply] <;> grind [Pc.steps]
  · split at hst
    · split at hst <;> cases hst <;> constructor <;> simp only [State.setThread, update_apply] <;>
        grind [Pc.steps, wakeSteps]
    · cases hst
      constructor <;> simp only [State.setThread, update_apply] <;> grind [Pc.steps]
  · rename_i i k hpc
    obtain ⟨hne, hat⟩ := h.waking t i k hpc
    split at hst
    · rename_i hk
      have hlt := wakeSteps_step hk
      cases hst
      constructor <;> simp only [State.setThread, State.setCell, update_apply] <;>
        grind [Pc.steps]
    · rename_i hk
      exact ((h.ok i).wake_step hat hk).elim
    · cases hst
      constructor <;> simp only [State.setThread, State.setCell, update_apply] <;>
        grind [Pc.steps]

theorem Moves.steps_lt (h : Moves t s s') (hin : (s.thread t).pc ≠ .out) : s'.steps < s.steps := by
  refine sum_lt_sum (fun u _ => ?_) ⟨t, mem_univ t, h.inside hin⟩
  by_cases hu : u = t
  · rw [hu]
    exact (h.inside hin).le
  · rw [h.others u hu]

/-- Somebody sets the counter back when all have come. -/
def Settled (s : State T) : Prop := s.barrierCount ≤ 0 → ∃ t, (s.thread t).pc = .reset

theorem Moves.settled (h : Moves t s s') (hs : Settled s) : Settled s' := by
  intro hc
  rcases h.counts hc with hreset | ⟨hc, hne⟩
  · exact ⟨t, hreset⟩
  · obtain ⟨u, hu⟩ := hs hc
    refine ⟨u, (h.others u ?_).trans hu⟩
    rintro rfl
    exact hne hu

/-- Only a wait can be stuck. -/
theorem wait_of_stuck (hf : s.failed = false) (h : stepThread t s = none) :
    ∃ w, (s.thread t).pc = .waiting w ∧ w.step (T.threadSpin t) (s.cell t) = none := by
  unfold stepThread at h
  dsimp only at h
  rw [if_neg (by simp [hf])] at h
  split at h
  · split_ifs at h
  · rename_i w hpc
    split at h
    · exact ⟨w, hpc, by assumption⟩
    · cases h
    · cases h
  · cases h
  · split_ifs at h
  · split at h <;> cases h

/-- And only where its wake is not complete. -/
theorem pending_of_stuck {threadSpin : Int} {ph : Phase} {w : Wait} (h : Ok ph (some w) c)
    (hw : w.step threadSpin c = none) : ph.Pending := by
  cases h with
  | owed | suspended | clearing | signalling => trivial
  | woken ha => cases w <;> cases ha <;> cases hw
  | found | signalled => cases hw

/-- While a thread is inside and all the others have come, some thread can move. -/
theorem exists_insideStep (h : Inv s) (hs : Settled s) (hin : (s.thread t).pc ≠ .out)
    (hcome : ∀ u, (s.thread u).pc = .out → (s.thread t).entered ≤ (s.thread u).entered) :
    ∃ s', InsideStep s s' := by
  by_contra hno
  have stuck : ∀ u, (s.thread u).pc ≠ .out →
      ∃ w, (s.thread u).pc = .waiting w ∧ w.step (T.threadSpin u) (s.cell u) = none := by
    intro u hu
    refine wait_of_stuck h.1 ?_
    by_contra hsome
    obtain ⟨s', hst⟩ := Option.ne_none_iff_exists'.mp hsome
    exact hno ⟨s', u, hu, hst⟩
  obtain ⟨-, g, phase, h⟩ := h
  -- nobody is on the way to wake it, so it waits in the next barrier
  have hnext : ∀ u, (s.thread u).pc ≠ .out → (s.thread u).entered = g + 1 := by
    intro u hu
    obtain ⟨w, hpc, hw⟩ := stuck u hu
    have hok := h.ok u
    rw [hpc] at hok
    rcases (h.pending u).mp (pending_of_stuck hok hw) with ⟨hu, -⟩ | ⟨m, -, hm⟩
    · exact hu
    · have hlast := hm.wakes.last
      obtain ⟨v, hv, -⟩ := stuck m (by rintro hout; rw [hout] at hlast; exact hlast)
      rw [hv] at hm
      exact hm.elim
  have hall : ∀ u, (s.thread u).entered = g + 1 := by
    intro u
    by_cases hu : (s.thread u).pc = .out
    · have := hcome u hu
      have := hnext t hin
      have := h.entered u
      omega
    · exact hnext u hu
  have hcard : (univ.filter fun u => (s.thread u).entered = g + 1).card = T.teamSize := by
    rw [filter_true_of_mem fun u _ => hall u, card_univ, Fintype.card_fin]
  have hcount := h.count
  obtain ⟨u, hu⟩ := hs (by omega)
  obtain ⟨v, hv, -⟩ := stuck u (by simp [hu])
  simp [hu] at hv

/-- **Barriers end**: the threads that are in a barrier take a bounded number of steps, in any
order; and if none of them can move, each waits for one that has yet to come. -/
theorem barrier_ends (hsize : T.teamSize > 1) {n : Nat} {s₀ s : State T} (h₀ : Initial s₀)
    (hrun : Run TeamStep n s₀ s) : (∀ m s', Run InsideStep m s s' → m ≤ s.steps) ∧
      ∀ t, (s.thread t).pc ≠ .out → (∃ s', InsideStep s s') ∨
        ∃ u, (s.thread u).pc = .out ∧ (s.thread u).entered < (s.thread t).entered := by
  have hstep : ∀ a b : State T, Inv a ∧ Settled a → TeamStep a b → Inv b ∧ Settled b := by
    rintro a b hab ⟨t, hst⟩
    exact ⟨inv_step hsize hab.1 ⟨t, hst⟩, (stepThread_moves hsize hab.1 hst).settled hab.2⟩
  obtain ⟨hinv, hs⟩ := hrun.inv hstep ⟨inv_initial h₀, fun hc => by
    rw [h₀.barrierCount] at hc
    omega⟩
  refine ⟨fun m s' hin => ?_, fun t ht => ?_⟩
  · have hle := hin.length_le State.steps (fun a b ha ⟨t, hout, hst⟩ =>
      ⟨inv_step hsize ha ⟨t, hst⟩, (stepThread_moves hsize ha hst).steps_lt hout⟩) hinv
    omega
  · by_contra hno
    rw [not_or] at hno
    refine hno.1 (exists_insideStep hinv hs ht fun u hu => ?_)
    by_contra hlt
    exact hno.2 ⟨u, hu, Nat.lt_of_not_le hlt⟩

/-- The first thread is suspended, and the second has yet to come. -/
theorem barrier_ends_twoThreads : ∃ s : State twoThreads,
    (∃ n, Run TeamStep n (start twoThreads) s) ∧
      (s.thread (0 : Fin 2)).pc = .waiting .suspended ∧ ((∃ s', InsideStep s s') ∨
        ∃ u, (s.thread u).pc = .out ∧ (s.thread u).entered < (s.thread (0 : Fin 2)).entered) := by
  let o := ([0, 0, 0] : List (Fin 2)).foldlM (fun s t => stepThread t s) (start twoThreads)
  have hend : o.all (fun s => decide ((s.thread (0 : Fin 2)).pc = .waiting .suspended)) = true ∧
      o.isSome = true := by decide
  obtain ⟨s, hs⟩ := Option.isSome_iff_exists.mp hend.2
  have hrun := Run.of_foldlM (fun t s s' h => (⟨t, h⟩ : TeamStep s s')) _ (.refl _) hs
  rw [hs] at hend
  have hpc := of_decide_eq_true hend.1
  exact ⟨s, ⟨_, hrun⟩, hpc,
    (barrier_ends (by decide) ⟨rfl, fun _ => rfl, fun _ => rfl, rfl⟩ hrun).2 _ (by simp [hpc])⟩

end Ends

end OpenMP.Barrier
