import Mathlib.Order.Basic

/-! # Nested parallel regions

What `__pmp_thread_fork` does to the thread that forks. The thread keeps
its team and its position in it on the stack of the call; its counters
of single constructs and of worksharing loops it sets to 0 for the new
team, and does not set back. -/

namespace OpenMP.Nested

/-! ## Model -/

/-- A team: that of `__pmp_manager.teams` at the depth 0, a new one at a greater depth. -/
structure TeamRef where
  globalId : Nat
  depth : Nat
  teamSize : Nat

/-- `thread->loop`, and its `loop_id`. -/
structure LoopRef where
  team : Option TeamRef
  index : Nat
  loopId : Nat

/-- The fields of a thread that a fork and the constructs in a region read or write. -/
structure Thread where
  globalId : Nat
  team : Option TeamRef
  localId : Int
  singleCount : Nat
  loopCount : Nat
  loop : Option LoopRef
  nestingDepth : Nat

/-- What a thread comes to in a region: single constructs and loops with what is in them, and forks.
-/
inductive Region where
  | done
  | single (body next : Region)
  | loop (body next : Region)
  | fork (acquired : Nat) (body next : Region)

/-- `__pmp_get_team_size`. -/
def teamSize (team : Option TeamRef) : Nat := (team.map (·.teamSize)).getD 1

/-- `__pmp_thread_single`: the thread's own counter. -/
def threadSingle (th : Thread) : Thread :=
  if teamSize th.team = 1 then th else { th with singleCount := th.singleCount + 1 }

/-- `thread_count & PMP_MASK_LOOP_ID`. -/
def loopIdOf (threadCount : Nat) : Nat := threadCount &&& 0x7fffffff

/-- `__pmp_loop_alloc`: the descriptor waited for; nothing when the assertion fails. -/
def loopAlloc (th : Thread) : Option Thread :=
  if th.loop.isNone then
    let index := if th.team.isNone then 0 else th.loopCount &&& 15
    some { th with
      loopCount := th.loopCount + 1
      loop := some ⟨th.team, index, loopIdOf th.loopCount⟩ }
  else none

/-- `__pmp_loop_free`. -/
def loopFree (th : Thread) : Option Thread :=
  match th.loop with
  | none => none
  | some loop =>
    -- the count is not 0 when the assertion holds: -1 has another id
    if th.loopCount ≠ 0 ∧ loop.loopId = loopIdOf (th.loopCount - 1) then
      some { th with loop := none }
    else none

/-- `__pmp_team_alloc`: a team of `acquired` threads. -/
def teamAlloc (acquired : Nat) (master : Thread) : Option Thread :=
  if 0 < acquired then
    some { master with
      nestingDepth := master.nestingDepth + 1
      team := some ⟨master.globalId, master.nestingDepth, acquired⟩ }
  else none

/-- `__pmp_team_free`. -/
def teamFree (master : Thread) : Option Thread :=
  if 0 < master.nestingDepth then some { master with nestingDepth := master.nestingDepth - 1 }
  else none

/-- `__pmp_thread_fork`. -/
def threadFork (work : Thread → Option Thread) (acquired : Nat) (master : Thread) :
    Option Thread := do
  let oldTeam := master.team
  let oldLocalId := master.localId
  let master := { master with localId := 0, singleCount := 0, loopCount := 0 }
  let master ← teamAlloc acquired master
  let master ← work master
  let master ← teamFree master
  some { master with team := oldTeam, localId := oldLocalId }

/-- A thread in a region. -/
def run : Region → Thread → Option Thread
  | .done => fun th => some th
  | .single body next => fun th => do
    let th ← run body (threadSingle th)
    run next th
  | .loop body next => fun th => do
    let th ← loopAlloc th
    let th ← run body th
    let th ← loopFree th
    run next th
  | .fork acquired body next => fun th => do
    let th ← threadFork (run body) acquired th
    run next th

/-! ## What a region leaves -/

/-- The count of single constructs after a region; a fork leaves that of its own region. -/
def Region.singles (size : Nat) : Region → Nat → Nat
  | .done, n => n
  | .single body next, n =>
    next.singles size (body.singles size (if size = 1 then n else n + 1))
  | .loop body next, n => next.singles size (body.singles size n)
  | .fork acquired body next, _ => next.singles size (body.singles acquired 0)

/-- The count of loops. -/
def Region.loops : Region → Nat → Nat
  | .done, n => n
  | .single body next, n => next.loops (body.loops n)
  | .loop body next, n => next.loops (body.loops (n + 1))
  | .fork _ body next, _ => next.loops (body.loops 0)

/-- The fields that come out of a region as they went in. -/
structure Same (th th' : Thread) : Prop where
  team : th'.team = th.team
  localId : th'.localId = th.localId
  loop : th'.loop = th.loop
  nestingDepth : th'.nestingDepth = th.nestingDepth

/-- What a region does: it keeps the position in the team, and leaves its counts. -/
structure Leaves (singles loops : Nat) (th th' : Thread) : Prop extends Same th th' where
  singleCount : th'.singleCount = singles
  loopCount : th'.loopCount = loops

theorem threadFork_leaves {work : Thread → Option Thread} {acquired singles loops : Nat}
    (hwork : ∀ th th', teamSize th.team = acquired → th.singleCount = 0 → th.loopCount = 0 →
      work th = some th' → Leaves singles loops th th')
    {master master' : Thread} (h : threadFork work acquired master = some master') :
    Leaves singles loops master master' := by
  unfold threadFork teamAlloc at h
  by_cases hpos : 0 < acquired
  · simp only [if_pos hpos, Option.bind_eq_bind, Option.bind_some, Option.bind_eq_some_iff] at h
    obtain ⟨th, hth, th', hfree, hend⟩ := h
    have hl := hwork _ _ rfl rfl rfl hth
    unfold teamFree at hfree
    rw [if_pos (by rw [hl.nestingDepth]; exact Nat.succ_pos _)] at hfree
    cases hfree
    cases hend
    exact ⟨⟨rfl, rfl, hl.loop, by simp [hl.nestingDepth]⟩, hl.singleCount, hl.loopCount⟩
  · simp only [if_neg hpos, Option.bind_eq_bind, Option.bind_none, reduceCtorEq] at h

theorem run_leaves (r : Region) : ∀ {th th' : Thread}, run r th = some th' →
    Leaves (r.singles (teamSize th.team) th.singleCount) (r.loops th.loopCount) th th' := by
  induction r with
  | done =>
    intro th th' h
    cases h
    exact ⟨⟨rfl, rfl, rfl, rfl⟩, rfl, rfl⟩
  | single body next ihbody ihnext =>
    intro th th' h
    simp only [run, Option.bind_eq_bind, Option.bind_eq_some_iff] at h
    obtain ⟨th1, hbody, hnext⟩ := h
    have hb := ihbody hbody
    have hn := ihnext hnext
    have hteam : (threadSingle th).team = th.team := by
      unfold threadSingle
      split <;> rfl
    have hcount : (threadSingle th).singleCount
        = if teamSize th.team = 1 then th.singleCount else th.singleCount + 1 := by
      unfold threadSingle
      split <;> rfl
    have hloops : (threadSingle th).loopCount = th.loopCount := by
      unfold threadSingle
      split <;> rfl
    have hsame : Same th (threadSingle th) := by
      unfold threadSingle
      split <;> exact ⟨rfl, rfl, rfl, rfl⟩
    refine ⟨⟨?_, ?_, ?_, ?_⟩, ?_, ?_⟩
    · rw [hn.team, hb.team, hsame.team]
    · rw [hn.localId, hb.localId, hsame.localId]
    · rw [hn.loop, hb.loop, hsame.loop]
    · rw [hn.nestingDepth, hb.nestingDepth, hsame.nestingDepth]
    · rw [hn.singleCount, hb.singleCount, hb.team, hteam, hcount]
      rfl
    · rw [hn.loopCount, hb.loopCount, hloops]
      rfl
  | loop body next ihbody ihnext =>
    intro th th' h
    simp only [run, Option.bind_eq_bind, Option.bind_eq_some_iff] at h
    obtain ⟨th1, halloc, th2, hbody, th3, hfree, hnext⟩ := h
    have hb := ihbody hbody
    have hn := ihnext hnext
    unfold loopAlloc at halloc
    by_cases hnone : th.loop.isNone = true
    · rw [if_pos hnone] at halloc
      cases halloc
      have hloop : th2.loop = some ⟨th.team, if th.team.isNone then 0 else th.loopCount &&& 15,
          loopIdOf th.loopCount⟩ := hb.loop
      unfold loopFree at hfree
      rw [hloop] at hfree
      simp only at hfree
      split at hfree
      · cases hfree
        refine ⟨⟨?_, ?_, ?_, ?_⟩, ?_, ?_⟩
        · exact hn.team.trans hb.team
        · exact hn.localId.trans hb.localId
        · rw [hn.loop, Option.isNone_iff_eq_none.mp hnone]
        · exact hn.nestingDepth.trans hb.nestingDepth
        · rw [hn.singleCount, hb.singleCount, hb.team]
          rfl
        · rw [hn.loopCount, hb.loopCount]
          rfl
      · cases hfree
    · -- inside a loop the assertion fails
      rw [if_neg hnone] at halloc
      cases halloc
  | fork acquired body next ihbody ihnext =>
    -- a fork works on fields of its own and puts the saved ones back
    intro th th' h
    simp only [run, Option.bind_eq_bind, Option.bind_eq_some_iff] at h
    obtain ⟨th1, hfork, hnext⟩ := h
    have hf : Leaves (body.singles acquired 0) (body.loops 0) th th1 :=
      threadFork_leaves (fun t t' hsize hs hl ht => by
        have := ihbody ht
        rwa [hsize, hs, hl] at this) hfork
    have hn := ihnext hnext
    refine ⟨⟨?_, ?_, ?_, ?_⟩, ?_, ?_⟩
    · rw [hn.team, hf.team]
    · rw [hn.localId, hf.localId]
    · rw [hn.loop, hf.loop]
    · rw [hn.nestingDepth, hf.nestingDepth]
    · rw [hn.singleCount, hf.singleCount, hf.team]
      rfl
    · rw [hn.loopCount, hf.loopCount]
      rfl

/-! ## The position in the outer team -/

/-- The thread's position in its team: `team`, `local_id`, the counters and the current loop. -/
def Intact (master master' : Thread) : Prop :=
  master'.team = master.team ∧ master'.localId = master.localId ∧
    master'.singleCount = master.singleCount ∧ master'.loopCount = master.loopCount ∧
    master'.loop = master.loop

/-- A fork leaves the position intact just if its region counts as many single constructs and loops
as the thread had counted before it. -/
theorem fork_intact_iff {acquired : Nat} {body : Region} {master master' : Thread}
    (h : threadFork (run body) acquired master = some master') : Intact master master' ↔
      body.singles acquired 0 = master.singleCount ∧ body.loops 0 = master.loopCount := by
  have hl : Leaves (body.singles acquired 0) (body.loops 0) master master' :=
    threadFork_leaves (fun th th' hsize hs hl hth => by
      have := run_leaves body hth
      rwa [hsize, hs, hl] at this) h
  constructor
  · rintro ⟨-, -, hs, hloops, -⟩
    exact ⟨hl.singleCount.symm.trans hs, hl.loopCount.symm.trans hloops⟩
  · rintro ⟨hs, hloops⟩
    exact ⟨hl.team, hl.localId, hl.singleCount.trans hs, hl.loopCount.trans hloops, hl.loop⟩

/-- A thread that has come to one single construct of its team, and forks. -/
def pastOneSingle : Thread := ⟨0, some ⟨0, 0, 2⟩, 0, 1, 0, none, 1⟩

theorem fork_intact_iff_oneSingle : Intact pastOneSingle pastOneSingle ↔
      (Region.single .done .done).singles 2 0 = 1 ∧ (Region.single .done .done).loops 0 = 0 :=
  fork_intact_iff (show threadFork (run (.single .done .done)) 2 pastOneSingle
    = some pastOneSingle from rfl)

/-- An empty region loses the count. -/
theorem fork_loses_count : ¬ ∀ (acquired : Nat) (body : Region) (master master' : Thread),
    threadFork (run body) acquired master = some master' → Intact master master' := by
  intro h
  have hintact := h 2 .done pastOneSingle { pastOneSingle with singleCount := 0 } rfl
  exact absurd hintact.2.2.1 (by decide)

end OpenMP.Nested
