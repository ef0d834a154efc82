import Path64.OpenMP.StaticNext

/-! # Schedules that are chosen at run time

For a loop with `schedule(runtime)` the schedule and its chunk come from
`OMP_SCHEDULE`: the library reads the variable at its start
(`__pmp_init_schedule`), and `__pmp_scheduler_init` puts what it has
read in place of the arguments of the call. -/

namespace OpenMP

open Progression Interleaving

/-! ## Reading the environment -/

/-- `isspace` in the C locale. -/
def isSpace (c : Char) : Bool := c.toNat = 32 || (9 ≤ c.toNat && c.toNat ≤ 13)

/-- The number that the leading digits stand for. -/
def leadingNumber : Nat → List Char → Nat
  | acc, [] => acc
  | acc, c :: s => if c.isDigit then leadingNumber (acc * 10 + (c.toNat - 48)) s else acc

/-- `strtol(s, NULL, 10)`, cut to the range of a `long`. -/
def strtol (s : List Char) : Int :=
  match s.dropWhile isSpace with
  | '-' :: s => max (-9223372036854775808) (-(leadingNumber 0 s : Int))
  | '+' :: s => min 9223372036854775807 (leadingNumber 0 s)
  | s => min 9223372036854775807 (leadingNumber 0 s)

/-- `atoi`: the `long` cast to `int`. -/
def atoi (s : List Char) : Int := Int.bmod (strtol s) 4294967296

/-- `strcasecmp(s, t) == 0`. -/
def sameText (s t : List Char) : Bool := s.map Char.toLower = t.map Char.toLower

/-- The schedules that the environment can name are those of an ordered loop. -/
abbrev PmpSched : Type := OrderedSched

/-- The two fields of `__pmp_param` that `__pmp_init_schedule` sets. -/
structure RuntimeParam where
  runtimeSchedule : PmpSched
  runtimeChunk : Int
  deriving DecidableEq

/-- The values before the environment is read. -/
def RuntimeParam.initial : RuntimeParam where
  runtimeSchedule := .staticEven
  runtimeChunk := 1

/-- The copy loop: what stands before the first comma. -/
def kindText (env : List Char) : List Char := env.takeWhile (· != ',')

/-- Where the copy loop stops: `p + 1`, if there is a comma. -/
def chunkText (env : List Char) : Option (List Char) :=
  match env.dropWhile (· != ',') with
  | [] => none
  | _ :: s => some s

/-- `__pmp_init_schedule`; `env` is the value of `OMP_SCHEDULE`, if it is set. -/
def initSchedule (env : Option (List Char)) (param : RuntimeParam) : RuntimeParam :=
  match env with
  | none => param
  | some env =>
    if sameText (kindText env) "dynamic".toList then
      { runtimeSchedule := .dynamic
        runtimeChunk := match chunkText env with
          | none => param.runtimeChunk
          | some s => atoi s }
    else if sameText (kindText env) "static".toList then
      match chunkText env with
      | none => { param with runtimeSchedule := .staticEven }
      | some s => { runtimeSchedule := .static, runtimeChunk := atoi s }
    else if sameText (kindText env) "guided".toList then
      { runtimeSchedule := .guided
        runtimeChunk := match chunkText env with
          | none => param.runtimeChunk
          | some s => atoi s }
    else param

/-! ## Setting up a loop -/

/-- The schedule in the call of `__pmp_scheduler_init`; each has an ordered variant. -/
inductive CallSched where
  | known (sched : PmpSched) (ordered : Bool)
  | runtime (ordered : Bool)
  deriving DecidableEq

/-- The arguments of `__pmp_loop_alloc`. -/
structure LoopSetup where
  sched : PmpSched
  ordered : Bool
  lower : Int
  upper : Int
  inc : Int
  chunk : Int
  minChunk : Int
  deriving DecidableEq

/-- The schedule of the loop: `runtime` stands for the one of the environment. -/
def CallSched.schedOf (rt : RuntimeParam) : CallSched → PmpSched
  | .known sched _ => sched
  | .runtime _ => rt.runtimeSchedule

/-- The chunk of the loop: that of the environment takes the place of the argument. -/
def CallSched.chunkOf (rt : RuntimeParam) (chunk : Int) : CallSched → Int
  | .known _ _ => chunk
  | .runtime _ => rt.runtimeChunk

def CallSched.ordered : CallSched → Bool
  | .known _ ordered => ordered
  | .runtime ordered => ordered

/-- What `__pmp_scheduler_init` computes for `__pmp_loop_alloc`, before its assertion. -/
def schedulerSetup (param : Param) (rt : RuntimeParam) (teamSize : Nat) (call : CallSched)
    (lower upper inc chunk : Int) : LoopSetup :=
  let minChunk := max 1 chunk
  let sched := call.schedOf rt
  let chunk := call.chunkOf rt chunk
  let chunk := if sched = .guided then
      let divisor := teamSize * param.guidedChunkDivisor
      max minChunk (min param.guidedChunkMax ((upper - lower + divisor).tdiv divisor))
    else chunk
  { sched := sched, ordered := call.ordered, lower := lower, upper := upper, inc := inc,
    chunk := chunk, minChunk := minChunk }

/-- `__pmp_scheduler_init`, up to its call of `__pmp_loop_alloc`; `none` if the assertion fails. -/
def schedulerInit (param : Param) (rt : RuntimeParam) (teamSize : Nat) (call : CallSched)
    (lower upper inc chunk : Int) : Option LoopSetup :=
  let a := schedulerSetup param rt teamSize call lower upper inc chunk
  if a.inc ≠ 0 ∧ a.chunk ≠ 0 ∧ a.minChunk ≠ 0 then some a else none

/-- The team as it begins a loop with a schedule that shares `current`. -/
def LoopSetup.team (a : LoopSetup) (teamSize : Nat) (sched : DynSched) : TeamState teamSize :=
  loopAlloc teamSize sched a.lower a.upper a.inc a.chunk a.minChunk

/-! ## Loops that end -/

/-- Every thread gets a 0 from `__pmp_schedule_next`, in any order of steps. -/
def LoopSetup.Ends (a : LoopSetup) (param : Param) (staticFair : Bool) (teamSize : Nat) : Prop :=
  if teamSize = 1 then ∃ fuel rs, callRanges (soleNext a.lower a.upper a.inc) fuel 0 = some rs
  else match a.sched with
    | .static => ∀ t : Fin teamSize, ∃ fuel rs, threadRanges fuel staticFair .static teamSize
        t.val a.lower a.upper a.inc a.chunk = some rs
    | .staticEven => ∀ t : Fin teamSize, ∃ fuel rs, threadRanges fuel staticFair .staticEven
        teamSize t.val a.lower a.upper a.inc a.chunk = some rs
    | .dynamic => ∃ bound, ∀ k s, Run (TeamStep param) k (a.team teamSize .dynamic) s →
          k ≤ bound ∧ (¬ AllDone s → ∃ s', TeamStep param s s')
    | .guided => ∃ bound, ∀ k s, Run (TeamStep param) k (a.team teamSize .guided) s →
          k ≤ bound ∧ (¬ AllDone s → ∃ s', TeamStep param s s')

section ending
variable {inc l u : Int}

theorem callRanges_single {next : Nat → Option Handed} (hnext : next 1 = none) :
    ∃ fuel rs, callRanges next fuel 0 = some rs := by
  cases hcall : next 0 with
  | none => exact ⟨1, [], callRanges_none hcall 0⟩
  | some r =>
    refine ⟨2, [r], ?_⟩
    rw [callRanges_some hcall, callRanges_none hnext, Option.map_some]

theorem staticNext_bound (hinc : inc ≠ 0) (teamSize t chunk : Int) :
    ∃ a e : Int, ∀ i : Int, (staticNext teamSize t i l u inc chunk).isSome ↔ a + i * chunk < e := by
  obtain ⟨c, hc⟩ : ∃ c, (trips l u inc - 1).tdiv teamSize + 1 = c := ⟨_, rfl⟩
  have hbound := upTo_floor l (loopMin inc (l + t * c * inc + (c - 1) * inc) u) hinc
  refine ⟨t * c, (loopMin inc (l + t * c * inc + (c - 1) * inc) u - l).fdiv inc + 1, fun i => ?_⟩
  rw [staticNext_eq teamSize t chunk i hc, ← hbound]
  split
  · next hpast => exact ⟨fun h => absurd h (by simp), fun h => absurd hpast h⟩
  · next hpast => exact ⟨fun _ => hpast, fun _ => rfl⟩

theorem staticNext_ends (hinc : inc ≠ 0) {teamSize t chunk : Int} (hchunk : 1 ≤ chunk) :
    ∃ fuel rs, callRanges (fun i => staticNext teamSize t i l u inc chunk) fuel 0 = some rs := by
  obtain ⟨a, e, hsome⟩ := staticNext_bound (l := l) (u := u) hinc teamSize t chunk
  -- by induction on the indices that are left of the share
  have hgen : ∀ n i : Nat, (e - (a + i * chunk)).toNat ≤ n →
      ∃ fuel rs, callRanges (fun i => staticNext teamSize t i l u inc chunk) fuel i = some rs := by
    intro n
    induction n with
    | zero =>
      intro i hn
      have hnone : staticNext teamSize t i l u inc chunk = none :=
        Option.not_isSome_iff_eq_none.mp (fun h => absurd ((hsome i).mp h) (by omega))
      exact ⟨1, [], callRanges_none hnone 0⟩
    | succ n ih =>
      intro i hn
      cases hcall : staticNext teamSize t i l u inc chunk with
      | none => exact ⟨1, [], callRanges_none hcall 0⟩
      | some r =>
        have hlt := (hsome i).mp (by rw [hcall]; rfl)
        have hstep := chunk_step a chunk i
        obtain ⟨fuel, rs, hrs⟩ := ih (i + 1) (by omega)
        exact ⟨fuel + 1, r :: rs, by rw [callRanges_some hcall, hrs, Option.map_some]⟩
  exact hgen _ 0 (le_refl _)

theorem LoopSetup.ends {a : LoopSetup} {param : Param} {staticFair : Bool} {teamSize : Nat}
    (hinc : a.inc ≠ 0) (hchunk : 1 ≤ a.chunk) (hmin : 1 ≤ a.minChunk) :
    a.Ends param staticFair teamSize := by
  unfold LoopSetup.Ends
  split
  · exact callRanges_single rfl
  · next hone =>
    have hone' : ¬ (teamSize : Int) = 1 := by omega
    -- the threads of a static schedule call for themselves
    have hcalls : ∀ (sched : StaticSched) (t : Fin teamSize),
        ∃ fuel rs, threadRanges fuel staticFair sched teamSize t.val a.lower a.upper a.inc a.chunk
          = some rs := by
      intro sched t
      unfold threadRanges scheduleNextStatic
      simp only [if_neg hone']
      cases sched with
      | static => exact staticNext_ends hinc hchunk
      | staticEven =>
        exact callRanges_single
          (staticEvenNext_later staticFair teamSize t.val a.lower a.upper a.inc 1 Nat.one_ne_zero)
    have hshared : ∀ sched : DynSched, ∃ bound, ∀ k s,
        Run (TeamStep param) k (a.team teamSize sched) s →
          k ≤ bound ∧ (¬ AllDone s → ∃ s', TeamStep param s s') := by
      intro sched
      refine ⟨_, fun k s hrun => ⟨(run_dispensed hinc hchunk hmin hrun).2, fun hnot => ?_⟩⟩
      obtain ⟨t, ht⟩ := not_forall.mp hnot
      obtain ⟨s', hs'⟩ := stepThread_progress param ht
      exact ⟨s', t, hs'⟩
    cases a.sched with
    | static => exact hcalls .static
    | staticEven => exact hcalls .staticEven
    | dynamic => exact hshared .dynamic
    | guided => exact hshared .guided

end ending

/-- The number behind the comma is positive if it becomes the chunk. -/
def ChunkPositive (env : Option (List Char)) : Prop :=
  ∀ s n, env = some s → chunkText s = some n →
    sameText (kindText s) "dynamic".toList = true ∨ sameText (kindText s) "static".toList = true →
    1 ≤ atoi n

/-- Each branch of the set-up leaves a chunk of at least 1. -/
theorem schedulerSetup_chunk_pos (param : Param) (teamSize : Nat) (ordered : Bool)
    (lower upper inc chunk : Int) (env : Option (List Char)) :
    1 ≤ (schedulerSetup param (initSchedule env .initial) teamSize (.runtime ordered) lower upper
        inc chunk).chunk ↔ ChunkPositive env := by
  unfold ChunkPositive
  unfold schedulerSetup initSchedule
  cases env with
  | none =>
    refine ⟨fun _ s n h => ?_, fun _ => Int.le_refl 1⟩
    cases h
  | some text =>
    dsimp only
    simp only [Option.some.injEq]
    by_cases hdyn : sameText (kindText text) "dynamic".toList = true
    · -- `dynamic`
      rw [if_pos hdyn]
      cases hnum : chunkText text with
      | none =>
        refine ⟨fun _ s n hs hn => ?_, fun _ => Int.le_refl 1⟩
        rw [← hs, hnum] at hn
        cases hn
      | some num =>
        refine ⟨fun h s n hs hn _ => ?_, fun h => h text num rfl hnum (.inl hdyn)⟩
        rw [← hs, hnum] at hn
        cases hn
        exact h
    · rw [if_neg hdyn]
      by_cases hsta : sameText (kindText text) "static".toList = true
      · -- `static`
        rw [if_pos hsta]
        cases hnum : chunkText text with
        | none =>
          refine ⟨fun _ s n hs hn => ?_, fun _ => Int.le_refl 1⟩
          rw [← hs, hnum] at hn
          cases hn
        | some num =>
          refine ⟨fun h s n hs hn _ => ?_, fun h => h text num rfl hnum (.inr hsta)⟩
          rw [← hs, hnum] at hn
          cases hn
          exact h
      · -- no number is used
        rw [if_neg hsta]
        have hright : ∀ s n, text = s → chunkText s = some n →
            sameText (kindText s) "dynamic".toList = true ∨
              sameText (kindText s) "static".toList = true → 1 ≤ atoi n := by
          rintro s n rfl - (h | h)
          · exact absurd h hdyn
          · exact absurd h hsta
        refine ⟨fun _ => hright, fun _ => ?_⟩
        by_cases hgui : sameText (kindText text) "guided".toList = true
        · rw [if_pos hgui]
          show 1 ≤ max (max 1 chunk) _
          exact le_trans (le_max_left 1 chunk) (le_max_left _ _)
        · rw [if_neg hgui]
          exact Int.le_refl 1

/-- A loop that is set up with positive chunks and comes to its end. -/
structure EndsPositive (a : LoopSetup) (param : Param) (staticFair : Bool) (teamSize : Nat) :
    Prop where
  chunk : 1 ≤ a.chunk
  minChunk : 1 ≤ a.minChunk
  ends : a.Ends param staticFair teamSize

/-- `OMP_GUIDED_CHUNK_DIVISOR` and `OMP_GUIDED_CHUNK_MAX` when not set. -/
def defaultParam : Param where
  guidedChunkDivisor := 2
  guidedChunkMax := 300
  divisorPos := by decide
  maxPos := by decide

end OpenMP
