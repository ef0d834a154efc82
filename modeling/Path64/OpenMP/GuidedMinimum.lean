import Path64.OpenMP.Runtime

/-! # The minimum of a guided loop

Under `GUIDED` the chunks become smaller as the loop goes on, down to a
minimum that the program gives, or the environment with
`OMP_SCHEDULE=guided,m`. The estimate of what remains may be stale; it
never takes a chunk below the minimum of the descriptor.

That minimum is the chunk argument of `__pmp_scheduler_init`, taken
before `schedule(runtime)` is looked at. The `int64_t`s of the loop are
exact integers. -/

namespace OpenMP

open Progression Interleaving

/-! ## What is asked for -/

/-- The minimum `m` is given by the call, or by the environment. -/
inductive MinimumGiven (m : Int) : Option (List Char) → CallSched → Int → Prop
  | direct (env : Option (List Char)) (ordered : Bool) :
      MinimumGiven m env (.known .guided ordered) m
  | environment {text num : List Char} (ordered : Bool) (chunk : Int)
      (kind : sameText (kindText text) "guided".toList = true)
      (number : chunkText text = some num) (value : atoi num = m) :
      MinimumGiven m (some text) (.runtime ordered) chunk

/-- The range has at least `m` iterations. -/
def Handed.AtLeast (r : Handed) (m : Int) : Prop :=
  ∀ i : Nat, (i : Int) < m → r.Has (r.lower + i * r.inc)

/-- No iteration of the loop lies behind the range. -/
def Handed.ReachesEnd (l u inc : Int) (r : Handed) : Prop :=
  ∀ x, InLoop l u inc x → ¬ Past inc x r.upper

/-- A guided loop begins. -/
def guidedTeam (param : Param) (env : Option (List Char)) (call : CallSched) (teamSize : Nat)
    (lower upper inc chunk : Int) : TeamState teamSize :=
  (schedulerSetup param (initSchedule env .initial) teamSize call lower upper inc chunk).team
    teamSize .guided

/-! ## The invariant -/

section invariant
variable {teamSize : Nat} {l u inc m : Int} {s s' : TeamState teamSize}

/-- A range of at least `m` iterations, cut off at the bound of the loop. -/
def Wide (u inc m : Int) (r : Handed) : Prop :=
  r.inc = inc ∧ ∃ c, m ≤ c ∧ r.upper = loopMin inc u (r.lower + inc * c - inc)

/-- What a thread has chosen or cut off is no shorter. -/
def PcWide (inc m : Int) : Pc → Prop
  | .haveEstimate _ myChunk => m ≤ myChunk
  | .added _ _ stride => ∃ c, m ≤ c ∧ stride = inc * c
  | _ => True

/-- The descriptor keeps its minimum, and whatever is handed out is wide. -/
structure MinimumKept (u inc m : Int) (s : TeamState teamSize) : Prop where
  sched : s.loop.sched = .guided
  upperEq : s.loop.upper = u
  incEq : s.loop.inc = inc
  minChunk : m ≤ s.loop.minChunk
  pcs : ∀ t, PcWide inc m (s.thread t).pc
  handed : ∀ r ∈ s.handed.map Prod.snd, Wide u inc m r

theorem MinimumKept.move {t : Fin teamSize} {th : Thread} (h : MinimumKept u inc m s)
    (hloop : s'.loop.sched = s.loop.sched ∧ s'.loop.upper = s.loop.upper ∧
      s'.loop.inc = s.loop.inc ∧ s'.loop.minChunk = s.loop.minChunk)
    (hthread : s'.thread = Function.update s.thread t th) (hpc : PcWide inc m th.pc)
    (hhanded : s'.handed = s.handed ∨ ∃ r, s'.handed = (t, r) :: s.handed ∧ Wide u inc m r) :
    MinimumKept u inc m s' := by
  obtain ⟨hsched, hupper, hinc, hmin⟩ := hloop
  refine ⟨by rw [hsched, h.sched], by rw [hupper, h.upperEq], by rw [hinc, h.incEq],
    by rw [hmin]; exact h.minChunk, fun t' => ?_, fun r hr => ?_⟩
  · rw [hthread]
    exact forall_update (C := fun _ (th : Thread) => PcWide inc m th.pc) hpc (fun j _ => h.pcs j) t'
  · rcases hhanded with hsame | ⟨r1, hnew, hwide⟩
    · rw [hsame] at hr
      exact h.handed r hr
    · rw [hnew, List.map_cons] at hr
      rcases List.mem_cons.mp hr with rfl | hr
      · exact hwide
      · exact h.handed r hr

/-- One atomic step of any thread keeps the minimum and hands out wide ranges only. -/
theorem MinimumKept.step {param : Param} {t : Fin teamSize} (h : MinimumKept u inc m s)
    (hstep : stepThread param t s = some s') : MinimumKept u inc m s' := by
  have hpcok := h.pcs t
  unfold stepThread at hstep
  cases hpc : (s.thread t).pc with
  | call =>
    simp only [hpc, Option.some.injEq] at hstep
    subst hstep
    exact h.move ⟨rfl, rfl, rfl, rfl⟩ rfl trivial (.inl rfl)
  | haveChunk chunk =>
    -- the estimate may be anything: it is not taken below the minimum
    simp only [hpc, h.sched, Option.some.injEq] at hstep
    subst hstep
    exact h.move ⟨rfl, rfl, rfl, rfl⟩ rfl (le_trans h.minChunk (le_max_left _ _)) (.inl rfl)
  | haveEstimate chunk myChunk =>
    rw [hpc] at hpcok
    simp only [hpc] at hstep
    split at hstep
    · simp only [Option.some.injEq] at hstep
      subst hstep
      exact h.move ⟨rfl, rfl, rfl, rfl⟩ rfl trivial (.inl rfl)
    · simp only [Option.some.injEq] at hstep
      subst hstep
      exact h.move ⟨rfl, rfl, rfl, rfl⟩ rfl ⟨myChunk, hpcok, by rw [h.incEq]⟩ (.inl rfl)
  | added chunk current stride =>
    rw [hpc] at hpcok
    obtain ⟨c, hc, hstride⟩ := hpcok
    simp only [hpc, Option.some.injEq] at hstep
    subst hstep
    generalize newChunk param teamSize s.loop.minChunk s.loop.upper
      (loopMin s.loop.inc s.loop.upper (current + stride - s.loop.inc)) = new
    have hloop := cmpxchgChunk_loop s chunk new
    have hrest := cmpxchgChunk_frame s chunk new
    generalize s.cmpxchgChunk chunk new = s1 at *
    have hsame : s1.loop.sched = s.loop.sched ∧ s1.loop.upper = s.loop.upper ∧
        s1.loop.inc = s.loop.inc ∧ s1.loop.minChunk = s.loop.minChunk := by
      rcases hloop with h' | h' <;> rw [h'] <;> exact ⟨rfl, rfl, rfl, rfl⟩
    have hthread : (s1.handOut t current
          (loopMin s.loop.inc s.loop.upper (current + stride - s.loop.inc))).thread
        = Function.update s.thread t ⟨.call, (s.thread t).iteration + 1, current⟩ := by
      unfold TeamState.handOut
      rw [hrest.1]
    refine h.move hsame hthread trivial (.inr ⟨_, congrArg (_ :: ·) hrest.2, ?_, c, hc, ?_⟩)
    · show s1.loop.inc = inc
      rw [hsame.2.2.1, h.incEq]
    · show loopMin s.loop.inc s.loop.upper (current + stride - s.loop.inc) = _
      rw [h.incEq, h.upperEq, hstride]
  | done =>
    simp only [hpc] at hstep
    cases hstep

theorem Wide.atLeast_or_end {r : Handed} (hinc : inc ≠ 0) (h : Wide u inc m r) :
    r.AtLeast m ∨ r.ReachesEnd l u inc := by
  obtain ⟨hrinc, c, hc, hupper⟩ := h
  have hterm : r.lower + inc * c - inc = r.lower + (c - 1) * inc := by ring
  by_cases hall : ∀ i : Nat, (i : Int) < m → ¬ Past inc (r.lower + i * inc) u
  · refine .inl fun i hi => ⟨i, rfl, ?_⟩
    rw [hrinc, hupper, past_loopMin, hterm, past_term hinc]
    rintro (hpast | hlt)
    · exact hall i hi hpast
    · omega
  · -- one of the first `m` terms is past the bound, and so is the last one
    push Not at hall
    obtain ⟨i, hi, hpast⟩ := hall
    refine .inr fun x hx => ?_
    obtain ⟨k, -, hin⟩ := hx
    rw [hupper, past_loopMin, hterm]
    rintro (hpastx | hpastx)
    · exact hin hpastx
    · have hle : ¬ Past inc (r.lower + i * inc) (r.lower + (c - 1) * inc) := by
        rw [past_term hinc]
        omega
      rcases lt_or_gt_of_ne hinc with hneg | hpos
      · rw [past_of_neg hneg] at hin hpast hpastx hle
        omega
      · rw [past_of_pos hpos] at hin hpast hpastx hle
        omega

end invariant

/-! ## Every interleaving -/

end OpenMP
