import Mathlib
import Path64.OpenMP.Dynamic

/-! # Handing out ranges under the four schedules

An ordered loop calls `__pmp_schedule_next` under any of the schedules
`STATIC`, `STATIC_EVEN`, `DYNAMIC` and `GUIDED`. A `Dispenser` is what
they have in common: a shared state, the atomic steps of a call, and
the ranges that come back together with a ticket. -/

namespace OpenMP

open Option Function Progression Interleaving

/-! ## Model -/

/-- What a step of a call brings. -/
inductive Reply where
  | busy
  | range (r : Handed) (ticket : Int)
  | done
  deriving DecidableEq

/-- The atomic steps of the threads in `__pmp_schedule_next`. -/
structure Dispenser (teamSize : Nat) where
  State : Type
  start : State
  next : Fin teamSize → State → Option (State × Reply)

/-- `__pmp_schedule_next` under `STATIC`, by a thread that has called it `iteration` times. -/
def staticNext (teamSize localId iteration lower upper inc chunk : Int) : Option Handed :=
  let size := (upper - lower).tdiv inc + 1
  let sizePerThread := ((size - 1).tdiv teamSize + 1) * inc
  let threadLower := lower + localId * sizePerThread
  let threadUpper := threadLower + sizePerThread - inc
  let thisLower := threadLower + iteration * chunk * inc
  let thisUpper := thisLower + (chunk - 1) * inc
  let threadUpper := loopMin inc threadUpper upper
  let thisUpper := loopMin inc thisUpper threadUpper
  if Past inc thisLower threadUpper then none
  else some { lower := thisLower, upper := thisUpper, inc := inc }

/-- `thread_lower` and `thread_upper` under `STATIC_EVEN`, before the bound. -/
def staticEvenBounds (staticFair : Bool) (teamSize localId size lower inc : Int) : Int × Int :=
  if !staticFair then
    let sizePerThread := ((size - 1).tdiv teamSize + 1) * inc
    let threadLower := lower + localId * sizePerThread
    (threadLower, threadLower + sizePerThread - inc)
  else
    let chunk := size.tdiv teamSize
    let remainder := size - chunk * teamSize
    let index := min localId remainder * (chunk + 1) +
      (if localId > remainder then (localId - remainder) * chunk else 0)
    let threadLower := lower + index * inc
    let chunk := chunk + if localId < remainder then 1 else 0
    (threadLower, threadLower + (chunk - 1) * inc)

/-- `__pmp_schedule_next` under `STATIC_EVEN`. -/
def staticEvenNext (staticFair : Bool) (teamSize localId iteration lower upper inc : Int) :
    Option Handed :=
  if iteration = 0 then
    let size := (upper - lower).tdiv inc + 1
    let bounds := staticEvenBounds staticFair teamSize localId size lower inc
    let threadUpper := loopMin inc bounds.2 upper
    if Past inc bounds.1 threadUpper then none
    else some { lower := bounds.1, upper := threadUpper, inc := inc }
  else none

/-- The two static schedules. -/
def staticAnyNext (staticFair : Bool) (sched : StaticSched)
    (teamSize localId iteration lower upper inc chunk : Int) : Option Handed :=
  match sched with
  | .static => staticNext teamSize localId iteration lower upper inc chunk
  | .staticEven => staticEvenNext staticFair teamSize localId iteration lower upper inc

/-- Under a static schedule a call is one step. -/
def staticDispenser (staticFair : Bool) (sched : StaticSched) (teamSize : Nat)
    (lower upper inc chunk : Int) : Dispenser teamSize where
  State := Fin teamSize → Nat
  start := fun _ => 0
  next := fun t s =>
    match staticAnyNext staticFair sched teamSize t (s t) lower upper inc chunk with
    | none => some (s, .done)
    | some r => some (update s t (s t + 1), .range r r.lower)

/-- What thread `t` learns from the step that led to `s`. -/
def replyOf {teamSize : Nat} (t : Fin teamSize) (s : TeamState teamSize) : Reply :=
  match (s.thread t).pc, s.handed with
  | .done, _ => .done
  | .call, (_, r) :: _ => .range r (s.thread t).ticketNumber
  | _, _ => .busy

/-- `__pmp_scheduler_init`; `argChunk` is the argument, `chunk` it or the environment's. -/
def dynStart (param : Param) (teamSize : Nat) (sched : DynSched)
    (lower upper inc argChunk chunk : Int) : TeamState teamSize :=
  let minChunk := max 1 argChunk
  let chunk := match sched with
    | .dynamic => chunk
    | .guided =>
      let divisor := teamSize * param.guidedChunkDivisor
      max minChunk (min param.guidedChunkMax ((upper - lower + divisor).tdiv divisor))
  loopAlloc teamSize sched lower upper inc chunk minChunk

/-- The dynamic and guided schedules, step by step. -/
def dynDispenser (param : Param) (sched : DynSched) (teamSize : Nat)
    (lower upper inc argChunk chunk : Int) : Dispenser teamSize where
  State := TeamState teamSize
  start := dynStart param teamSize sched lower upper inc argChunk chunk
  next := fun t s => (stepThread param t s).map (fun s' => (s', replyOf t s'))

/-- The schedules of an ordered loop. -/
inductive OrderedSched where
  | static
  | staticEven
  | dynamic
  | guided
  deriving DecidableEq

/-- `__pmp_schedule_next` under each of them. -/
def dispenser (param : Param) (staticFair : Bool) (sched : OrderedSched) (teamSize : Nat)
    (lower upper inc argChunk chunk : Int) : Dispenser teamSize :=
  match sched with
  | .static => staticDispenser staticFair .static teamSize lower upper inc chunk
  | .staticEven => staticDispenser staticFair .staticEven teamSize lower upper inc chunk
  | .dynamic => dynDispenser param .dynamic teamSize lower upper inc argChunk chunk
  | .guided => dynDispenser param .guided teamSize lower upper inc argChunk chunk

/-! ## Soundness -/

/-- Ranges that share no iteration, each of them a part of the loop. -/
structure PartsOf (l u inc : Int) (rs : List Handed) : Prop where
  disjoint : rs.Pairwise (fun r r' => ∀ x, ¬ (r.Has x ∧ r'.Has x))
  within : ∀ r ∈ rs, r.inc = inc ∧ ∀ x, r.Has x → InLoop l u inc x

/-- The ranges handed out, latest first, as the steps of the calls add to them. -/
structure Sound {teamSize : Nat} (d : Dispenser teamSize) (l u inc : Int) where
  Inv : d.State → List Handed → Prop
  start : Inv d.start []
  step : ∀ {t s s' rep hs}, Inv s hs → d.next t s = some (s', rep) →
    match rep with
    | .range r ticket => ticket = r.lower ∧ Inv s' (r :: hs)
    | _ => Inv s' hs
  parts : ∀ {s hs}, Inv s hs → PartsOf l u inc hs

/-! ## The static schedules -/

section Static

variable {l u inc : Int}

/-- The indices that a call of `__pmp_schedule_next` gives, before the bound. -/
def staticBlock (staticFair : Bool) (sched : StaticSched)
    (teamSize size chunk t i : Int) : Int × Int :=
  let perThread := (size - 1).tdiv teamSize + 1
  match sched with
  | .static => (t * perThread + i * chunk,
      min (t * perThread + i * chunk + chunk) (t * perThread + perThread))
  | .staticEven =>
    if !staticFair then (t * perThread, t * perThread + perThread)
    else
      let c := size.tdiv teamSize
      let r := size - c * teamSize
      let index := min t r * (c + 1) + (if t > r then (t - r) * c else 0)
      (index, index + (c + if t < r then 1 else 0))

theorem staticEvenBounds_eq (staticFair : Bool) (teamSize t size chunk i : Int) :
    staticEvenBounds staticFair teamSize t size l inc =
      (l + (staticBlock staticFair .staticEven teamSize size chunk t i).1 * inc,
        l + ((staticBlock staticFair .staticEven teamSize size chunk t i).2 - 1) * inc) := by
  unfold staticEvenBounds staticBlock
  cases staticFair with
  | false =>
    simp only [Bool.not_false, if_true, Prod.mk.injEq]
    constructor <;> ring
  | true =>
    simp only [Bool.not_true, Bool.false_eq_true, if_false, Prod.mk.injEq, true_and]
    ring

/-- What one static hand-out holds: the iterations of one block of the schedule. -/
theorem staticAnyNext_has {staticFair : Bool} {sched : StaticSched}
    {teamSize t i chunk : Int} {r : Handed} (hinc : inc ≠ 0)
    (h : staticAnyNext staticFair sched teamSize t i l u inc chunk = some r) :
    r.inc = inc ∧ (sched = .staticEven → i = 0) ∧
      ∀ x, r.Has x ↔ ∃ k, x = l + k * inc ∧ k < termCount l u inc ∧
        (staticBlock staticFair sched teamSize ((u - l).tdiv inc + 1) chunk t i).1 ≤ k ∧
        k < (staticBlock staticFair sched teamSize ((u - l).tdiv inc + 1) chunk t i).2 := by
  have hu : UpTo l inc u (termCount l u inc) := upTo_floor l u hinc
  unfold staticAnyNext at h
  cases sched with
  | static =>
    unfold staticNext at h
    dsimp only at h
    generalize (u - l).tdiv inc + 1 = size at h ⊢
    unfold staticBlock
    dsimp only
    generalize (size - 1).tdiv teamSize + 1 = p at h ⊢
    split at h
    · cases h
    · simp only [some.injEq] at h
      subst h
      refine ⟨rfl, nofun, fun x => ?_⟩
      rw [show l + t * (p * inc) + i * chunk * inc = l + (t * p + i * chunk) * inc by ring,
        show l + (t * p + i * chunk) * inc + (chunk - 1) * inc
          = l + (t * p + i * chunk + chunk - 1) * inc by ring,
        show l + t * (p * inc) + p * inc - inc = l + (t * p + p - 1) * inc by ring]
      have hthis : UpTo l inc _ (t * p + i * chunk + chunk) := upTo_term hinc _
      have hthread : UpTo l inc _ (t * p + p) := upTo_term hinc _
      rw [handed_has (UpTo.loopMin hthis (UpTo.loopMin hthread hu))]
      exact exists_congr fun k => and_congr_right fun _ => by omega
  | staticEven =>
    dsimp only at h
    unfold staticEvenNext at h
    by_cases hi : i = 0
    · rw [if_pos hi] at h
      dsimp only at h
      rw [staticEvenBounds_eq staticFair teamSize t _ chunk i] at h
      generalize staticBlock staticFair .staticEven teamSize ((u - l).tdiv inc + 1) chunk t i = b
        at h ⊢
      split at h
      · cases h
      · simp only [some.injEq] at h
        subst h
        refine ⟨rfl, fun _ => hi, fun x => ?_⟩
        have hthread : UpTo l inc _ b.2 := upTo_term hinc _
        rw [handed_has (UpTo.loopMin hthread hu)]
        exact exists_congr fun k => and_congr_right fun _ => by omega
    · rw [if_neg hi] at h
      cases h

theorem interval_unique {f : Int → Int} (hf : Monotone f) {t t' k : Int}
    (h : f t ≤ k ∧ k < f (t + 1)) (h' : f t' ≤ k ∧ k < f (t' + 1)) : t = t' := by
  rcases lt_trichotomy t t' with hlt | heq | hgt
  · have := hf (show t + 1 ≤ t' by omega)
    omega
  · exact heq
  · have := hf (show t' + 1 ≤ t by omega)
    omega

theorem monotone_mul_add {c : Int} (hc : 0 ≤ c) (b : Int) : Monotone fun t : Int => b + t * c :=
  fun _ _ h => Int.add_le_add_left (Int.mul_le_mul_of_nonneg_right h hc) b

/-- `f` marks the starts of the threads: thread `t` has `f t` up to `f (t + 1)`. -/
def Marks (f : Int → Int) (block : Int → Int → Int × Int) : Prop :=
  Monotone f ∧ 0 ≤ f 0 ∧ ∀ t i k, 0 ≤ t → 0 ≤ i →
    (block t i).1 ≤ k → k < (block t i).2 → f t ≤ k ∧ k < f (t + 1)

theorem marks_of_empty {block : Int → Int → Int × Int}
    (h : ∀ t i, 0 ≤ t → 0 ≤ i → (block t i).2 ≤ (block t i).1) : Marks (fun _ => 0) block := by
  refine ⟨monotone_const, le_refl _, fun t i k ht hi hlo hhi => ?_⟩
  have := h t i ht hi
  omega

theorem marks_fair (c r : Int) (hsign : (0 ≤ c ∧ 0 ≤ r) ∨ (c ≤ 0 ∧ r ≤ 0)) : ∃ f, Marks f fun t _ =>
      let index := min t r * (c + 1) + (if t > r then (t - r) * c else 0)
      (index, index + (c + if t < r then 1 else 0)) := by
  rcases hsign with ⟨hc, hr⟩ | ⟨hc, hr⟩
  · refine ⟨fun t => min t r + t * c, ?_, ?_, fun t i k _ _ hlo hhi => ?_⟩
    · exact fun t t' h => Int.add_le_add (min_le_min_right r h) (Int.mul_le_mul_of_nonneg_right h hc)
    · dsimp only
      rw [zero_mul, add_zero, min_eq_left hr]
    · have hindex : min t r * (c + 1) + (if t > r then (t - r) * c else 0) = min t r + t * c := by
        by_cases htr : t > r
        · rw [if_pos htr, min_eq_right htr.le]
          ring
        · rw [if_neg htr, min_eq_left (not_lt.mp htr)]
          ring
      dsimp only at hlo hhi ⊢
      rw [hindex] at hlo hhi
      rw [add_mul, one_mul]
      split at hhi <;> omega
  · refine ⟨_, marks_of_empty fun t i ht _ => ?_⟩
    dsimp only
    rw [if_neg (show ¬ t < r by omega)]
    omega

theorem marks_even (p : Int) : ∃ f, Marks f fun t _ => (t * p, t * p + p) := by
  by_cases hp : 0 ≤ p
  · refine ⟨fun t => 0 + t * p, monotone_mul_add hp 0, by simp, fun t i k _ _ hlo hhi => ?_⟩
    dsimp only at hlo hhi ⊢
    rw [add_mul, one_mul]
    omega
  · exact ⟨_, marks_of_empty fun t i _ _ => by dsimp only; omega⟩

theorem marks_static (p chunk : Int) : ∃ f, Marks f fun t i =>
      (t * p + i * chunk, min (t * p + i * chunk + chunk) (t * p + p)) := by
  by_cases hchunk : 0 ≤ chunk
  · obtain ⟨f, hmono, h0, hf⟩ := marks_even p
    refine ⟨f, hmono, h0, fun t i k ht hi hlo hhi => hf t i k ht hi ?_ ?_⟩
    · have := Int.mul_nonneg hi hchunk
      dsimp only at hlo ⊢
      omega
    · dsimp only at hhi ⊢
      omega
  · exact ⟨_, marks_of_empty fun t i _ _ => by dsimp only; omega⟩

theorem tdiv_sign (size : Int) {teamSize : Int} (hteam : 1 ≤ teamSize) :
    (0 ≤ size.tdiv teamSize ∧ 0 ≤ size - size.tdiv teamSize * teamSize) ∨
    (size.tdiv teamSize ≤ 0 ∧ size - size.tdiv teamSize * teamSize ≤ 0) := by
  have hsum : size - size.tdiv teamSize * teamSize = size.tmod teamSize := by
    have := Int.mul_tdiv_add_tmod size teamSize
    rw [mul_comm] at this
    omega
  rw [hsum]
  rcases le_or_gt 0 size with hpos | hneg
  · exact .inl ⟨Int.tdiv_nonneg hpos (by omega), Int.tmod_nonneg _ hpos⟩
  · have hq := Int.tdiv_nonneg (show 0 ≤ -size by omega) (show 0 ≤ teamSize by omega)
    have hr := Int.tmod_nonneg teamSize (show 0 ≤ -size by omega)
    rw [Int.neg_tdiv] at hq
    rw [Int.neg_tmod] at hr
    exact .inr ⟨by omega, by omega⟩

theorem staticBlock_marks (staticFair : Bool) (sched : StaticSched)
    {teamSize : Int} (size chunk : Int) (hteam : 1 ≤ teamSize) :
    ∃ f, Marks f (staticBlock staticFair sched teamSize size chunk) := by
  cases sched with
  | static => exact marks_static _ chunk
  | staticEven =>
    cases staticFair with
    | false => exact marks_even _
    | true => exact marks_fair _ _ (tdiv_sign size hteam)

theorem staticBlock_call {staticFair : Bool} {teamSize size chunk t i i' k : Int}
    (h : (staticBlock staticFair .static teamSize size chunk t i).1 ≤ k ∧
      k < (staticBlock staticFair .static teamSize size chunk t i).2)
    (h' : (staticBlock staticFair .static teamSize size chunk t i').1 ≤ k ∧
      k < (staticBlock staticFair .static teamSize size chunk t i').2) : i = i' := by
  unfold staticBlock at h h'
  dsimp only at h h'
  generalize t * ((size - 1).tdiv teamSize + 1) = a at h h'
  have hc : 0 ≤ chunk := by omega
  refine interval_unique (monotone_mul_add hc a) (k := k) ?_ ?_
  · rw [add_mul, one_mul]
    omega
  · rw [add_mul, one_mul]
    omega

/-! ### Accounting for the calls -/

/-- Every range handed out comes from a call of its own. -/
def StaticGiven (staticFair : Bool) (sched : StaticSched) (teamSize : Nat)
    (l u inc chunk : Int) (s : Fin teamSize → Nat) (hs : List Handed) : Prop :=
  ∃ calls : List (Fin teamSize × Nat), calls.Nodup ∧ (∀ p ∈ calls, p.2 < s p.1) ∧
    hs = calls.filterMap fun p =>
      staticAnyNext staticFair sched teamSize p.1 p.2 l u inc chunk

section

variable {staticFair : Bool} {sched : StaticSched} {teamSize : Nat} {chunk : Int}

theorem staticAnyNext_call (hinc : inc ≠ 0) {p p' : Fin teamSize × Nat} {r r' : Handed} {x : Int}
    (h : staticAnyNext staticFair sched teamSize p.1 p.2 l u inc chunk = some r)
    (h' : staticAnyNext staticFair sched teamSize p'.1 p'.2 l u inc chunk = some r')
    (hx : r.Has x) (hx' : r'.Has x) : p = p' := by
  obtain ⟨-, heven, hhas⟩ := staticAnyNext_has hinc h
  obtain ⟨-, heven', hhas'⟩ := staticAnyNext_has hinc h'
  obtain ⟨k, rfl, -, hlo, hhi⟩ := (hhas x).mp hx
  obtain ⟨k', hk, -, hlo', hhi'⟩ := (hhas' _).mp hx'
  obtain rfl := term_injective hinc hk
  have hteam : 1 ≤ (teamSize : Int) := by have := p.1.isLt; omega
  obtain ⟨f, hmono, -, hf⟩ :=
    staticBlock_marks staticFair sched ((u - l).tdiv inc + 1) chunk hteam
  have hthread : (p.1 : Int) = (p'.1 : Int) :=
    interval_unique hmono (hf _ _ k (by omega) (by omega) hlo hhi)
      (hf _ _ k (by omega) (by omega) hlo' hhi')
  rw [hthread] at hlo hhi
  have hcall : (p.2 : Int) = (p'.2 : Int) := by
    cases sched with
    | static => exact staticBlock_call ⟨hlo, hhi⟩ ⟨hlo', hhi'⟩
    | staticEven => rw [heven rfl, heven' rfl]
  exact Prod.ext (Fin.ext (by omega)) (by omega)

theorem StaticGiven.parts (hinc : inc ≠ 0) {s : Fin teamSize → Nat} {hs : List Handed}
    (h : StaticGiven staticFair sched teamSize l u inc chunk s hs) : PartsOf l u inc hs := by
  obtain ⟨calls, hnodup, -, rfl⟩ := h
  constructor
  · rw [List.pairwise_filterMap]
    refine hnodup.imp fun {p p'} hne r hr r' hr' x hx => ?_
    exact hne (staticAnyNext_call hinc hr hr' hx.1 hx.2)
  · intro r hr
    obtain ⟨p, -, hp⟩ := List.mem_filterMap.mp hr
    obtain ⟨hri, -, hhas⟩ := staticAnyNext_has hinc hp
    refine ⟨hri, fun x hx => (inLoop_iff hinc x).mpr ?_⟩
    obtain ⟨k, rfl, hn, hlo, hhi⟩ := (hhas x).mp hx
    have hteam : 1 ≤ (teamSize : Int) := by have := p.1.isLt; omega
    obtain ⟨f, hmono, h0, hf⟩ :=
      staticBlock_marks staticFair sched ((u - l).tdiv inc + 1) chunk hteam
    have hk := (hf _ _ k (by omega) (by omega) hlo hhi).1
    have hf0 := hmono (show (0 : Int) ≤ p.1 by omega)
    exact ⟨k, rfl, by omega, hn⟩

theorem StaticGiven.step {s : Fin teamSize → Nat} {hs : List Handed} {t : Fin teamSize} {r : Handed}
    (h : StaticGiven staticFair sched teamSize l u inc chunk s hs)
    (hr : staticAnyNext staticFair sched teamSize t (s t) l u inc chunk = some r) :
    StaticGiven staticFair sched teamSize l u inc chunk (update s t (s t + 1)) (r :: hs):= by
  obtain ⟨calls, hnodup, hlt, rfl⟩ := h
  refine ⟨(t, s t) :: calls, ?_, ?_, ?_⟩
  · refine List.nodup_cons.mpr ⟨fun hmem => ?_, hnodup⟩
    exact absurd (hlt _ hmem) (lt_irrefl _)
  · intro p hp
    rcases List.mem_cons.mp hp with rfl | hp
    · rw [update_self]
      exact Nat.lt_succ_self _
    · have := hlt p hp
      by_cases hpt : p.1 = t
      · rw [hpt] at this ⊢
        rw [update_self]
        omega
      · rw [update_of_ne hpt]
        exact this
  · simp only [List.filterMap_cons, hr]

end

/-- The static schedules hand out parts of the loop. -/
def staticSound (staticFair : Bool) (sched : StaticSched) (teamSize : Nat) (l u : Int)
    {inc : Int} (hinc : inc ≠ 0) (chunk : Int) :
    Sound (staticDispenser staticFair sched teamSize l u inc chunk) l u inc where
  Inv := StaticGiven staticFair sched teamSize l u inc chunk
  start := ⟨[], List.nodup_nil, fun _ hp => absurd hp List.not_mem_nil, rfl⟩
  step := by
    intro t s s' rep hs h hstep
    unfold staticDispenser at hstep
    dsimp only at hstep
    cases hr : staticAnyNext staticFair sched teamSize t (s t) l u inc chunk with
    | none =>
      simp only [hr, some.injEq] at hstep
      cases hstep
      exact h
    | some r =>
      simp only [hr, some.injEq] at hstep
      cases hstep
      exact ⟨rfl, h.step hr⟩
  parts := fun h => h.parts hinc

end Static

/-! ## Dynamic and guided schedules -/

section Dyn

variable {teamSize : Nat} {l u inc : Int} {param : Param} {t : Fin teamSize}
  {s s' : TeamState teamSize}

theorem stepThread_handed (h : stepThread param t s = some s') :
    (∃ r, s'.handed = (t, r) :: s.handed ∧ replyOf t s' = .range r r.lower) ∨
    (s'.handed = s.handed ∧ (replyOf t s' = .busy ∨ replyOf t s' = .done)) := by
  unfold stepThread at h
  cases hpc : (s.thread t).pc with
  | call =>
    simp only [hpc, some.injEq] at h
    subst h
    exact .inr ⟨rfl, .inl (by simp [replyOf, TeamState.setPc])⟩
  | haveChunk chunk =>
    simp only [hpc] at h
    cases hsched : s.loop.sched with
    | dynamic =>
      simp only [hsched] at h
      split at h
      · simp only [some.injEq] at h
        subst h
        exact .inr ⟨rfl, .inr (by simp [replyOf, TeamState.setPc])⟩
      · simp only [some.injEq] at h
        subst h
        exact .inl ⟨_, rfl, by simp [replyOf, TeamState.handOut]⟩
    | guided =>
      simp only [hsched, some.injEq] at h
      subst h
      exact .inr ⟨rfl, .inl (by simp [replyOf, TeamState.setPc])⟩
  | haveEstimate chunk myChunk =>
    simp only [hpc] at h
    split at h
    · simp only [some.injEq] at h
      subst h
      exact .inr ⟨rfl, .inr (by simp [replyOf, TeamState.setPc])⟩
    · simp only [some.injEq] at h
      subst h
      exact .inr ⟨rfl, .inl (by simp [replyOf, TeamState.setPc])⟩
  | added chunk current stride =>
    simp only [hpc, some.injEq] at h
    subst h
    refine .inl ⟨⟨current, _, _⟩, congrArg (_ :: ·) (cmpxchgChunk_frame s chunk _).2, ?_⟩
    simp [replyOf, TeamState.handOut]
  | done => simp only [hpc] at h; cases h

/-- Where a thread of a loop with a chunk below 1 can stand. -/
def PcIdle : Pc → Prop
  | .call | .done => True
  | .haveChunk chunk => chunk ≤ 0
  | _ => False

/-- A dynamic loop with a chunk below 1: the ranges are empty. -/
structure Idle (inc : Int) (s : TeamState teamSize) : Prop where
  sched : s.loop.sched = .dynamic
  step : s.loop.inc = inc
  chunk : s.loop.chunk ≤ 0
  pcs : ∀ t, PcIdle (s.thread t).pc
  handed : ∀ r ∈ s.handed.map Prod.snd, r.inc = inc ∧ ∀ x, ¬ r.Has x

theorem not_has_of_before (hinc : inc ≠ 0) {current chunk : Int} (hchunk : chunk ≤ 0) (x : Int) :
    ¬ (Handed.mk current (loopMin inc u (current + inc * chunk - inc)) inc).Has x := by
  rintro ⟨k, rfl, hin⟩
  have hup : UpTo current inc (current + inc * chunk - inc) chunk := by
    have := upTo_term (l := current) hinc chunk
    rwa [show current + (chunk - 1) * inc = current + inc * chunk - inc by ring] at this
  rw [past_loopMin, not_or] at hin
  have := (hup k).mp hin.2
  omega

/-- A step of such a loop hands out an empty range or nothing. -/
theorem Idle.next (hinc : inc ≠ 0) (h : Idle inc s) (hstep : stepThread param t s = some s') :
    Idle inc s' := by
  have hpc := h.pcs t
  have hothers : ∀ th : Thread, PcIdle th.pc → ∀ t', PcIdle (update s.thread t th t').pc := by
    intro th hth t'
    by_cases ht : t' = t
    · rw [ht, update_self]; exact hth
    · rw [update_of_ne ht]; exact h.pcs t'
  unfold stepThread at hstep
  cases hp : (s.thread t).pc with
  | call =>
    simp only [hp, some.injEq] at hstep
    subst hstep
    exact ⟨h.sched, h.step, h.chunk, hothers _ h.chunk, h.handed⟩
  | haveChunk chunk =>
    rw [hp] at hpc
    simp only [hp, h.sched] at hstep
    split at hstep
    · simp only [some.injEq] at hstep
      subst hstep
      exact ⟨h.sched, h.step, h.chunk, hothers _ trivial, h.handed⟩
    · simp only [some.injEq] at hstep
      subst hstep
      refine ⟨h.sched, h.step, h.chunk, hothers _ trivial, fun r hr => ?_⟩
      rcases List.mem_cons.mp hr with rfl | hr
      · refine ⟨h.step, ?_⟩
        show ∀ x, ¬ (Handed.mk s.loop.current _ s.loop.inc).Has x
        rw [h.step]
        exact not_has_of_before hinc hpc
      · exact h.handed r hr
  | haveEstimate chunk myChunk => rw [hp] at hpc; exact hpc.elim
  | added chunk current stride => rw [hp] at hpc; exact hpc.elim
  | done => simp only [hp] at hstep; cases hstep

/-- The accounting of the previous module, or a loop that hands out nothing. -/
def DynGiven (l u inc : Int) (s : TeamState teamSize) (hs : List Handed) : Prop :=
  s.handed.map Prod.snd = hs ∧ ((∃ m g given, Dispensed l u inc s m g given) ∨ Idle inc s)

theorem DynGiven.parts (hinc : inc ≠ 0) {hs : List Handed} (h : DynGiven l u inc s hs) :
    PartsOf l u inc hs := by
  obtain ⟨rfl, ⟨m, g, given, hd⟩ | hidle⟩ := h
  · obtain ⟨hdisj, hwithin⟩ := hd.handed_ok hinc
    exact ⟨hdisj, fun r hr => ⟨(hwithin r hr).1, (hwithin r hr).2.2.2⟩⟩
  · refine ⟨List.pairwise_of_forall_mem_list fun r hr r' _ x hx => ?_, fun r hr => ?_⟩
    · exact (hidle.handed r hr).2 x hx.1
    · exact ⟨(hidle.handed r hr).1, fun x hx => absurd hx ((hidle.handed r hr).2 x)⟩

theorem dynStart_given (param : Param) (sched : DynSched) (argChunk chunk : Int) :
    DynGiven l u inc (dynStart param teamSize sched l u inc argChunk chunk) [] := by
  refine ⟨rfl, ?_⟩
  have hmin : 1 ≤ max 1 argChunk := le_max_left _ _
  unfold dynStart
  cases sched with
  | guided => exact .inl ⟨0, 0, [], loopAlloc_dispensed _ _ (le_trans hmin (le_max_left _ _)) hmin⟩
  | dynamic =>
    rcases le_or_gt 1 chunk with hpos | hneg
    · exact .inl ⟨0, 0, [], loopAlloc_dispensed _ _ hpos hmin⟩
    · exact .inr ⟨rfl, rfl, show chunk ≤ 0 by omega, fun _ => trivial,
        fun r hr => absurd hr List.not_mem_nil⟩

/-- The dynamic and guided schedules hand out parts of the loop. -/
def dynSound (param : Param) (sched : DynSched) (teamSize : Nat) (l u : Int) {inc : Int}
    (hinc : inc ≠ 0) (argChunk chunk : Int) :
    Sound (dynDispenser param sched teamSize l u inc argChunk chunk) l u inc where
  Inv := DynGiven l u inc
  start := dynStart_given param sched argChunk chunk
  step := by
    intro t s s' rep hs h hstep
    obtain ⟨s₁, hs₁, heq⟩ := map_eq_some_iff.mp hstep
    obtain ⟨rfl, rfl⟩ := Prod.mk.inj heq
    obtain ⟨rfl, hgiven⟩ := h
    have hnext : (∃ m g given, Dispensed l u inc s₁ m g given) ∨ Idle inc s₁ := by
      rcases hgiven with ⟨m, g, given, hd⟩ | hidle
      · obtain ⟨m', g', given', hd', -⟩ := stepThread_dispensed hinc hd hs₁
        exact .inl ⟨m', g', given', hd'⟩
      · exact .inr (hidle.next hinc hs₁)
    rcases stepThread_handed hs₁ with ⟨r, hhanded, hrep⟩ | ⟨hhanded, hrep | hrep⟩
    · rw [hrep]
      exact ⟨rfl, by rw [hhanded]; rfl, hnext⟩
    · rw [hrep]
      exact ⟨by rw [hhanded], hnext⟩
    · rw [hrep]
      exact ⟨by rw [hhanded], hnext⟩
  parts := fun h => h.parts hinc

end Dyn

/-- Under every schedule the ranges are parts of the loop. -/
def sound (param : Param) (staticFair : Bool) (sched : OrderedSched) (teamSize : Nat)
    (l u : Int) {inc : Int} (hinc : inc ≠ 0) (argChunk chunk : Int) :
    Sound (dispenser param staticFair sched teamSize l u inc argChunk chunk) l u inc :=
  match sched with
  | .static => staticSound staticFair .static teamSize l u hinc chunk
  | .staticEven => staticSound staticFair .staticEven teamSize l u hinc chunk
  | .dynamic => dynSound param .dynamic teamSize l u hinc argChunk chunk
  | .guided => dynSound param .guided teamSize l u hinc argChunk chunk

end OpenMP
