import Mathlib
import Path64.Lib.Interleaving

/-! # Single constructs

Every thread of a team counts the single constructs that it comes to.
In `__pmp_thread_single` it tries to move the team's counter from its own
count to the next; the thread that succeeds executes the construct.
The compare-and-swap is one step, the update of the thread's own counter
and the return another. -/

namespace OpenMP.Single

open Function Interleaving

/-! ## Model -/

/-- Where a thread stands in `__pmp_thread_single`. -/
inductive Pc where
  /-- Before the compare-and-swap. -/
  | idle
  /-- After it, with `thread_count` and `team_count`. -/
  | swapped (threadCount teamCount : Nat)

/-- A thread: its position, `thread->single_count`, and the single constructs done. -/
structure Thread where
  pc : Pc
  singleCount : Nat
  calls : Nat

/-- A team, whose threads come to the same single constructs, fewer than `2 ^ 31`. -/
structure Team where
  teamSize : Nat
  singles : Nat
  few : singles < 2 ^ 31

/-- What `__pmp_thread_single` returned to a thread. -/
structure Return (T : Team) where
  thread : Fin T.teamSize
  instance_ : Nat
  value : Nat

/-- The team's counter, the threads, and what was returned so far. -/
structure State (T : Team) where
  singleCount : Nat
  thread : Fin T.teamSize → Thread
  returns : List (Return T)

variable {T : Team}

/-- The next step of thread `t`; `none` when it is through with all single constructs. -/
def stepThread (t : Fin T.teamSize) (s : State T) : Option (State T) :=
  let th := s.thread t
  match th.pc with
  | .idle =>
    if th.calls < T.singles then
      if T.teamSize = 1 then
        some { s with
          thread := update s.thread t { th with calls := th.calls + 1 }
          returns := ⟨t, th.calls, 1⟩ :: s.returns }
      else
        -- the compare-and-swap of `team->single_count`
        let threadCount := th.singleCount
        let teamCount := s.singleCount
        some { s with
          singleCount := if teamCount = threadCount then threadCount + 1 else teamCount
          thread := update s.thread t { th with pc := .swapped threadCount teamCount } }
    else none
  | .swapped threadCount teamCount =>
    some { s with
      thread := update s.thread t
        { pc := .idle, singleCount := th.singleCount + 1, calls := th.calls + 1 }
      returns := ⟨t, th.calls, if threadCount = teamCount then 1 else 0⟩ :: s.returns }

/-- One step of any thread. -/
def TeamStep (s s' : State T) : Prop := ∃ t, stepThread t s = some s'

/-- A new team. -/
structure Initial (s : State T) : Prop where
  singleCount : s.singleCount = 0
  thread : ∀ t, s.thread t = { pc := .idle, singleCount := 0, calls := 0 }
  returns : s.returns = []

/-! ## The invariant -/

/-- The single constructs that a thread has done its compare-and-swap for. -/
def Thread.reached (th : Thread) : Nat :=
  match th.pc with
  | .idle => th.calls
  | .swapped .. => th.calls + 1

/-- Thread `t` moved the counter from `k` to `k + 1`. -/
def State.Wins (s : State T) (k : Nat) (t : Fin T.teamSize) : Prop :=
  ⟨t, k, 1⟩ ∈ s.returns ∨ (s.thread t).pc = .swapped k k

structure Inv (s : State T) : Prop where
  count : ∀ t, (s.thread t).singleCount = (s.thread t).calls
  swapped : ∀ t a b, (s.thread t).pc = .swapped a b → a = (s.thread t).calls
  /-- no thread is ahead of the counter -/
  reached : ∀ t, (s.thread t).reached ≤ s.singleCount
  below : ∀ k t, s.Wins k t → k < s.singleCount
  unique : ∀ k t t', s.Wins k t → s.Wins k t' → t = t'
  winner : ∀ k < s.singleCount, ∃ t, s.Wins k t
  past : ∀ r ∈ s.returns, r.instance_ < (s.thread r.thread).calls

theorem inv_initial {s : State T} (h : Initial s) : Inv s := by
  have hwins : ∀ k t, ¬ s.Wins k t := by
    rintro k t (hret | hpc)
    · simp [h.returns] at hret
    · simp [h.thread] at hpc
  refine ⟨?_, ?_, ?_, ?_, ?_, ?_, ?_⟩
  · simp [h.thread]
  · simp [h.thread]
  · simp [h.thread, Thread.reached]
  · exact fun k t hw => absurd hw (hwins k t)
  · exact fun k t _ hw => absurd hw (hwins k t)
  · simp [h.singleCount]
  · simp [h.returns]

/-! ## Steps -/

section Steps

variable {s s' : State T} {t : Fin T.teamSize}

theorem step_cases (hsize : 1 < T.teamSize) (h : stepThread t s = some s') :
    ((s.thread t).pc = .idle ∧ s' = { s with
      singleCount := if s.singleCount = (s.thread t).singleCount then (s.thread t).singleCount + 1
        else s.singleCount
      thread := update s.thread t
        { s.thread t with pc := .swapped (s.thread t).singleCount s.singleCount } }) ∨
    ∃ a b, (s.thread t).pc = .swapped a b ∧ s' = { s with
      thread := update s.thread t
        ⟨.idle, (s.thread t).singleCount + 1, (s.thread t).calls + 1⟩
      returns := ⟨t, (s.thread t).calls, if a = b then 1 else 0⟩ :: s.returns } := by
  unfold stepThread at h
  cases hpc : (s.thread t).pc with
  | idle =>
    simp only [hpc] at h
    split at h
    · rw [if_neg (by omega)] at h
      exact .inl ⟨rfl, (Option.some.inj h).symm⟩
    · cases h
  | swapped a b =>
    simp only [hpc] at h
    exact .inr ⟨a, b, rfl, (Option.some.inj h).symm⟩

/-- The compare and swap: it succeeds for one thread of each region. -/
theorem inv_swap (h : Inv s) (hpc : (s.thread t).pc = .idle) (hs : s' = { s with
      singleCount := if s.singleCount = (s.thread t).singleCount then (s.thread t).singleCount + 1
        else s.singleCount
      thread := update s.thread t
        { s.thread t with pc := .swapped (s.thread t).singleCount s.singleCount } }) : Inv s' := by
  have hcount := h.count t
  have hreached := h.reached t
  simp only [Thread.reached, hpc] at hreached
  -- who wins, besides the thread itself
  have hold : ∀ k u, s.Wins k u → s'.Wins k u := by
    rintro k u (hret | hu)
    · exact .inl (by simpa [hs] using hret)
    · have hne : u ≠ t := by
        rintro rfl
        rw [hpc] at hu
        cases hu
      exact .inr (by simpa [hs, update_of_ne hne] using hu)
  have hnew : ∀ k u, s'.Wins k u →
      s.Wins k u ∨ u = t ∧ k = (s.thread t).calls ∧ s.singleCount = (s.thread t).calls := by
    rintro k u (hret | hu)
    · exact .inl (.inl (by simpa [hs] using hret))
    · by_cases hne : u = t
      · subst hne
        simp [hs] at hu
        exact .inr ⟨rfl, by omega, by omega⟩
      · exact .inl (.inr (by simpa [hs, update_of_ne hne] using hu))
  have hmono : s.singleCount ≤ s'.singleCount := by
    simp only [hs]
    split <;> omega
  have hwin : s.singleCount = (s.thread t).calls → s'.singleCount = s.singleCount + 1 := by
    intro heq
    simp only [hs]
    rw [if_pos (by omega)]
    omega
  refine ⟨?_, ?_, ?_, ?_, ?_, ?_, ?_⟩
  · intro u
    by_cases hu : u = t
    · subst hu
      simpa [hs] using hcount
    · simpa [hs, update_of_ne hu] using h.count u
  · intro u a b hab
    by_cases hu : u = t
    · subst hu
      simp [hs] at hab ⊢
      omega
    · simp only [hs, update_of_ne hu] at hab ⊢
      exact h.swapped u a b hab
  · intro u
    by_cases hu : u = t
    · subst hu
      by_cases heq : s.singleCount = (s.thread u).calls
      · have := hwin heq
        simp [hs, Thread.reached] at this ⊢
        omega
      · have hlt : (s.thread u).calls + 1 ≤ s.singleCount := by omega
        have hreach : (s'.thread u).reached = (s.thread u).calls + 1 := by
          simp [hs, Thread.reached]
        omega
    · have hkeep : (s'.thread u).reached = (s.thread u).reached := by
        simp [hs, update_of_ne hu]
      have := h.reached u
      omega
  · -- whoever wins a construct wins one below the counter
    intro k u hw
    rcases hnew k u hw with hw | ⟨rfl, rfl, heq⟩
    · exact Nat.lt_of_lt_of_le (h.below k u hw) hmono
    · have := hwin heq
      omega
  · intro k u u' hw hw'
    rcases hnew k u hw with hu | ⟨rfl, rfl, heq⟩ <;> rcases hnew _ u' hw' with hu' | ⟨rfl, hk, heq'⟩
    · exact h.unique k u u' hu hu'
    · have := h.below k u hu
      omega
    · have := h.below _ u' hu'
      omega
    · rfl
  · intro k hk
    by_cases hlt : k < s.singleCount
    · obtain ⟨u, hu⟩ := h.winner k hlt
      exact ⟨u, hold k u hu⟩
    · -- the counter moved, and this thread moved it
      have heq : s.singleCount = (s.thread t).singleCount := by
        by_contra hne
        simp only [hs, if_neg hne] at hk
        omega
      have := hwin (by omega)
      refine ⟨t, .inr ?_⟩
      simp [hs]
      omega
  · intro r hr
    have hr' : r ∈ s.returns := by simpa [hs] using hr
    have := h.past r hr'
    by_cases hu : r.thread = t
    · simpa [hs, hu] using hu ▸ this
    · simpa [hs, update_of_ne hu] using this

theorem inv_return (h : Inv s) {a b : Nat} (hpc : (s.thread t).pc = .swapped a b)
    (hs : s' = { s with
      thread := update s.thread t
        ⟨.idle, (s.thread t).singleCount + 1, (s.thread t).calls + 1⟩
      returns := ⟨t, (s.thread t).calls, if a = b then 1 else 0⟩ :: s.returns }) : Inv s' := by
  have ha := h.swapped t a b hpc
  have hcount := h.count t
  -- the winners stay the same
  have hwins : ∀ k u, s'.Wins k u ↔ s.Wins k u := by
    intro k u
    unfold State.Wins
    by_cases hu : u = t
    · subst hu
      by_cases hab : a = b
      · subst hab
        simp [hs, hpc, ha]
        tauto
      · simp [hs, hpc, hab]
        omega
    · simp [hs, hu]
  have hsame : s'.singleCount = s.singleCount := by simp [hs]
  refine ⟨?_, ?_, ?_, ?_, ?_, ?_, ?_⟩
  · intro u
    by_cases hu : u = t
    · subst hu
      simpa [hs] using hcount
    · simpa [hs, update_of_ne hu] using h.count u
  · intro u c d hcd
    by_cases hu : u = t
    · subst hu
      simp [hs] at hcd
    · simp only [hs, update_of_ne hu] at hcd ⊢
      exact h.swapped u c d hcd
  · intro u
    rw [hsame]
    by_cases hu : u = t
    · subst hu
      have := h.reached u
      simpa [hs, Thread.reached, hpc] using this
    · simpa [hs, update_of_ne hu] using h.reached u
  · intro k u hw
    rw [hsame]
    exact h.below k u ((hwins k u).mp hw)
  · exact fun k u u' hw hw' => h.unique k u u' ((hwins k u).mp hw) ((hwins k u').mp hw')
  · intro k hk
    rw [hsame] at hk
    obtain ⟨u, hu⟩ := h.winner k hk
    exact ⟨u, (hwins k u).mpr hu⟩
  · intro r hr
    simp only [hs, List.mem_cons] at hr
    rcases hr with rfl | hr
    · simp [hs]
    · have := h.past r hr
      by_cases hu : r.thread = t
      · rw [hu] at this
        simp [hs, hu]
        omega
      · simpa [hs, update_of_ne hu] using this

end Steps

theorem inv_step (hsize : 1 < T.teamSize) {s s' : State T} (h : Inv s) (hstep : TeamStep s s') :
    Inv s' := by
  obtain ⟨t, hst⟩ := hstep
  rcases step_cases hsize hst with ⟨hpc, hs⟩ | ⟨a, b, hpc, hs⟩
  · exact inv_swap h hpc hs
  · exact inv_return h hpc hs

/-! ## One winner -/

/-- In every state of every run a single construct is won by one thread at most, and by one when all
threads are through with it. -/
theorem single_winner {T : Team} (hsize : 1 < T.teamSize) {n : Nat} {s₀ s : State T}
    (h₀ : Initial s₀) (hrun : Run TeamStep n s₀ s) (k : Nat) :
    (∀ t t', ⟨t, k, 1⟩ ∈ s.returns → ⟨t', k, 1⟩ ∈ s.returns → t = t') ∧
      ((∀ t, k < (s.thread t).calls) → ∃! t, ⟨t, k, 1⟩ ∈ s.returns) := by
  have h := hrun.inv (fun _ _ ht hst => inv_step hsize ht hst) (inv_initial h₀)
  have hunique : ∀ t t', ⟨t, k, 1⟩ ∈ s.returns → ⟨t', k, 1⟩ ∈ s.returns → t = t' :=
    fun t t' ht ht' => h.unique k t t' (.inl ht) (.inl ht')
  refine ⟨hunique, fun hall => ?_⟩
  obtain ⟨t0⟩ : Nonempty (Fin T.teamSize) := ⟨⟨0, by omega⟩⟩
  have hlt : k < s.singleCount := by
    have hcalls := hall t0
    have hreached := h.reached t0
    unfold Thread.reached at hreached
    split at hreached <;> omega
  obtain ⟨t, hwin⟩ := h.winner k hlt
  rcases hwin with hret | hpc
  · exact ⟨t, hret, fun u hu => hunique u t hu hret⟩
  · -- a thread that is still in the construct is not through with it
    have := h.swapped t k k hpc
    have := hall t
    omega

/-- The initial state. -/
def start (T : Team) : State T where
  singleCount := 0
  thread := fun _ => ⟨.idle, 0, 0⟩
  returns := []

/-- Two threads with four single constructs. -/
def twoThreads : Team := ⟨2, 4, by decide⟩

/-- The first thread wins two constructs before the second comes to the first one, and both race on
the third. -/
theorem single_winner_twoThreads : ∃ s : State twoThreads,
    Run TeamStep 12 (start twoThreads) s ∧ (∀ t, (s.thread t).calls = 3) ∧
      ∃! t, ⟨t, 2, 1⟩ ∈ s.returns := by
  let o := ([0, 0, 0, 0, 1, 1, 1, 1, 1, 0, 0, 1] : List (Fin 2)).foldlM (fun s t => stepThread t s)
    (start twoThreads)
  have hend : o.all (fun s => decide (∀ t, (s.thread t).calls = 3)) = true ∧
      o.isSome = true := by decide
  obtain ⟨s, hs⟩ := Option.isSome_iff_exists.mp hend.2
  have hrun := Run.of_foldlM (fun t s s' h => (⟨t, h⟩ : TeamStep s s')) _ (.refl _) hs
  rw [hs] at hend
  have hcalls : ∀ t, (s.thread t).calls = 3 := of_decide_eq_true hend.1
  exact ⟨s, hrun, hcalls, (single_winner (by decide) ⟨rfl, fun _ => rfl, rfl⟩ hrun 2).2
    fun t => by rw [hcalls t]; decide⟩

end OpenMP.Single
