import Path64.OpenMP.StaticNext

/-! # The 32-bit entry of static scheduling

`__ompc_static_init_4` widens its arguments, lets `__pmp_static_init`
work in 64 bits, which the model takes to be enough, and casts the
results to `int`.

The theorem says for which arguments a thread runs the same iterations
as with the 64-bit entry. -/

namespace OpenMP

open Progression

/-! ## Model -/

/-- The values of an `int`. -/
def FitsInt (z : Int) : Prop := -2147483648 ≤ z ∧ z ≤ 2147483647

instance (z : Int) : Decidable (FitsInt z) := inferInstanceAs (Decidable (_ ∧ _))

/-- The cast of an `int64_t` to `int`. -/
def wrapInt (z : Int) : Int := Int.bmod z (2 ^ 32)

/-- What `__ompc_static_init_4` stores. -/
def staticInit4 (staticFair : Bool) (sched : StaticSched)
    (teamSize localId lower upper inc chunk : Int) : Range :=
  let range := staticInit staticFair sched teamSize localId lower upper inc chunk
  { lower := wrapInt range.lower, upper := wrapInt range.upper, stride := wrapInt range.stride }

/-- A thread of the team runs its share of the loop with the 32-bit results. -/
def threadRun4 (fuel : Nat) (staticFair : Bool) (sched : StaticSched)
    (teamSize localId lower upper inc chunk : Int) : Option ThreadRun :=
  let range := staticInit4 staticFair sched teamSize localId lower upper inc chunk
  outerLoop inc upper range.stride fuel fuel range.lower range.upper

/-- Both loops come to an end, and run the same iterations in the same order. -/
def SameIters (run₄ run₈ : Nat → Option ThreadRun) : Prop :=
  ∃ (fuel₀ : Nat) (r₄ r₈ : ThreadRun), (∀ fuel ≥ fuel₀, run₄ fuel = some r₄) ∧
    (∀ fuel ≥ fuel₀, run₈ fuel = some r₈) ∧ r₄.iters = r₈.iters

theorem wrapInt_spec (z : Int) : FitsInt (wrapInt z) ∧ ∃ q, wrapInt z = z + 4294967296 * q := by
  have hlo : -((2 : Int) ^ 32) / 2 ≤ Int.bmod z (2 ^ 32) := Int.le_bmod (by decide)
  have hhi : Int.bmod z (2 ^ 32) < ((2 : Int) ^ 32 + 1) / 2 := Int.bmod_lt (by decide)
  have hq : Int.bmod z (2 ^ 32) = z - 4294967296 * Int.bdiv z (2 ^ 32) :=
    Int.bmod_eq_self_sub_mul_bdiv z (2 ^ 32)
  unfold FitsInt wrapInt
  exact ⟨by omega, -Int.bdiv z (2 ^ 32), by omega⟩

variable {z b n : Int} {fuel turns : Nat} {p : List Int × Int} {r : ThreadRun}

theorem wrapInt_of_fits (h : FitsInt z) : wrapInt z = z := by
  obtain ⟨hw, q, hq⟩ := wrapInt_spec z
  unfold FitsInt at h hw
  omega

theorem fits_of_wrapInt (h : wrapInt z = z) : FitsInt z := by
  rw [← h]
  exact (wrapInt_spec z).1

/-! ## Turns of the two loops -/

section turns
variable {inc limit stride : Int}

theorem doLoop_mono {fuel' : Nat} (hle : fuel ≤ fuel') :
    ∀ {i : Int} {p : List Int × Int}, doLoop inc b fuel i = some p → doLoop inc b fuel' i = some p := by
  induction fuel generalizing fuel' with
  | zero => intro i p h; cases h
  | succ fuel ih =>
    intro i p h
    obtain ⟨f, rfl⟩ : ∃ f, fuel' = f + 1 := ⟨fuel' - 1, by omega⟩
    unfold doLoop at h ⊢
    split
    · next hpast => rwa [if_pos hpast] at h
    · next hpast =>
      rw [if_neg hpast, Option.map_eq_some_iff] at h
      obtain ⟨q, hq, rfl⟩ := h
      rw [ih (by omega) hq, Option.map_some]

theorem doLoop_starts {i : Int} (hin : ¬ Past inc i b)
    (h : doLoop inc b turns i = some p) : ∃ rest, p.1 = i :: rest := by
  cases turns with
  | zero => cases h
  | succ turns =>
    unfold doLoop at h
    rw [if_neg hin, Option.map_eq_some_iff] at h
    obtain ⟨q, -, rfl⟩ := h
    exact ⟨q.1, rfl⟩

theorem outerLoop_peel {lower upper : Int} (hin : ¬ Past inc lower limit)
    (h : outerLoop inc limit stride turns (fuel + 1) lower upper = some r) :
    ∃ p r', doLoop inc (loopMin inc upper limit) turns lower = some p ∧
      outerLoop inc limit stride turns fuel (lower + stride) (loopMin inc upper limit + stride)
        = some r' ∧ r.iters = p.1 ++ r'.iters := by
  unfold outerLoop at h
  rw [if_neg hin] at h
  dsimp only at h
  cases hdo : doLoop inc (loopMin inc upper limit) turns lower with
  | none => rw [hdo] at h; cases h
  | some p =>
    rw [hdo] at h
    obtain ⟨iters, index⟩ := p
    dsimp only at h
    rw [Option.map_eq_some_iff] at h
    obtain ⟨r', hr', rfl⟩ := h
    exact ⟨_, r', rfl, hr', List.flatMap_cons⟩

theorem outerLoop_past {lower upper : Int} (h : Past inc lower limit) (fuel : Nat) :
    outerLoop inc limit stride turns (fuel + 1) lower upper = some ⟨[], lower, upper⟩ := by
  unfold outerLoop
  rw [if_pos h]

theorem not_past_loopMin_iff (x a b : Int) :
    ¬ Past inc x (loopMin inc a b) ↔ ¬ Past inc x a ∧ ¬ Past inc x b := by
  rw [past_loopMin, not_or]

theorem outerLoop_starts {lower upper : Int}
    (hin : ¬ Past inc lower limit) (hup : ¬ Past inc lower upper)
    (h : outerLoop inc limit stride turns fuel lower upper = some r) :
    ∃ rest, r.iters = lower :: rest := by
  cases fuel with
  | zero => cases h
  | succ fuel =>
    obtain ⟨p, r', hdo, -, hiters⟩ := outerLoop_peel hin h
    obtain ⟨rest, hp⟩ := doLoop_starts ((not_past_loopMin_iff _ _ _).mpr ⟨hup, hin⟩) hdo
    exact ⟨rest ++ r'.iters, by rw [hiters, hp, List.cons_append]⟩

theorem outerLoop_once {turns0 : Nat} {lower upper : Int}
    (hin : ¬ Past inc lower limit) (hpast : Past inc (lower + stride) limit)
    (hdo : doLoop inc (loopMin inc upper limit) turns0 lower = some p) (ht : turns0 ≤ turns)
    (fuel : Nat) : outerLoop inc limit stride turns (fuel + 2) lower upper
      = some ⟨[⟨p.1, p.2⟩], lower + stride, loopMin inc upper limit + stride⟩ := by
  unfold outerLoop
  rw [if_neg hin]
  dsimp only
  rw [doLoop_mono ht hdo]
  dsimp only
  rw [outerLoop_past hpast, Option.map_some]

end turns

/-! ## A thread with iterations -/

section working
variable {inc u lower upper stride : Int}

theorem past_of_wrap (hinc : inc ≠ 0) (hin : ¬ Past inc lower u)
    (hdir : Past inc (lower + stride) lower) (hwrap : Past inc (lower + wrapInt stride) u) :
    Past inc (lower + stride) u := by
  obtain ⟨hw, q, hq⟩ := wrapInt_spec stride
  unfold FitsInt at hw
  rcases lt_or_gt_of_ne hinc with hneg | hpos
  · rw [past_of_neg hneg] at *
    omega
  · rw [past_of_pos hpos] at *
    omega

theorem stride_same_iff (hinc : inc ≠ 0) (hin : ¬ Past inc lower u) (hup : ¬ Past inc lower upper)
    (hdir : Past inc (lower + stride) lower) (hrun : ∃ (fuel0 : Nat) (r : ThreadRun),
      ∀ fuel ≥ fuel0, outerLoop inc u stride fuel fuel lower upper = some r) :
    SameIters (fun fuel => outerLoop inc u (wrapInt stride) fuel fuel lower upper)
        (fun fuel => outerLoop inc u stride fuel fuel lower upper) ↔
      FitsInt stride ∨ Past inc (lower + wrapInt stride) u := by
  have hmin : ¬ Past inc lower (loopMin inc upper u) := (not_past_loopMin_iff _ _ _).mpr ⟨hup, hin⟩
  constructor
  · rintro ⟨fuel0, r4, r8, h4, h8, heq⟩
    by_contra hnot
    rw [not_or] at hnot
    obtain ⟨hfit, hin4⟩ := hnot
    obtain ⟨p, r4', hdo, hrest4, hiters4⟩ := outerLoop_peel hin (h4 (fuel0 + 2) (by omega))
    obtain ⟨p', r8', hdo', hrest8, hiters8⟩ := outerLoop_peel hin (h8 (fuel0 + 2) (by omega))
    have hp : p' = p := Option.some.inj (hdo'.symm.trans hdo)
    -- the wrapped stride leads to a second turn
    obtain ⟨rest4, hsecond4⟩ := outerLoop_starts hin4 (by rwa [past_add]) hrest4
    rw [hiters4, hiters8, hp, hsecond4] at heq
    have htail := List.append_cancel_left heq
    by_cases hpast : Past inc (lower + stride) u
    · rw [outerLoop_past hpast] at hrest8
      cases hrest8
      cases htail
    · obtain ⟨rest8, hsecond8⟩ := outerLoop_starts hpast (by rwa [past_add]) hrest8
      rw [hsecond8] at htail
      have hhead := (List.cons.inj htail).1
      exact hfit (fits_of_wrapInt (by omega))
  · intro h
    obtain ⟨fuel0, r8, h8⟩ := hrun
    by_cases hfit : FitsInt stride
    · exact ⟨fuel0, r8, r8, by rw [wrapInt_of_fits hfit]; exact h8, h8, rfl⟩
    · have hwrap := h.resolve_left hfit
      -- both strides end the loop after its first turn
      have hpast := past_of_wrap hinc hin hdir hwrap
      obtain ⟨p, r', hdo, -, -⟩ := outerLoop_peel hin (h8 (fuel0 + 1) (by omega))
      have honce : ∀ z, Past inc (lower + z) u → ∀ fuel ≥ fuel0 + 2,
          outerLoop inc u z fuel fuel lower upper
            = some ⟨[⟨p.1, p.2⟩], lower + z, loopMin inc upper u + z⟩ := by
        intro z hz fuel hf
        obtain ⟨f, rfl⟩ : ∃ f, fuel = f + 2 := ⟨fuel - 2, by omega⟩
        exact outerLoop_once hin hz hdo (by omega) f
      exact ⟨fuel0 + 2, _, _, honce _ hwrap, honce _ hpast, rfl⟩

end working

/-! ## A thread without iterations -/

section idle
variable {inc l u : Int}

theorem wrapInt_before (hl : FitsInt l) (hi : FitsInt inc)
    (h : FitsInt (l - inc) → FitsInt (l - inc - inc)) :
    wrapInt (l - inc - inc) = wrapInt (l - inc) - inc := by
  obtain ⟨hw1, q1, hq1⟩ := wrapInt_spec (l - inc)
  obtain ⟨hw2, q2, hq2⟩ := wrapInt_spec (l - inc - inc)
  unfold FitsInt at *
  omega

theorem idle_anywhere (hinc : inc ≠ 0) (lower : Int) :
    ∃ (fuel0 : Nat) (r : ThreadRun), r.iters = [] ∧
      ∀ fuel ≥ fuel0, outerLoop inc u inc fuel fuel lower (lower - inc) = some r := by
  by_cases hpast : Past inc lower u
  · refine ⟨1, ⟨[], lower, lower - inc⟩, rfl, fun fuel hf => ?_⟩
    obtain ⟨f, rfl⟩ : ∃ f, fuel = f + 1 := ⟨fuel - 1, by omega⟩
    exact outerLoop_past hpast f
  · obtain ⟨r, hr, hidle, -, -⟩ := outerLoop_idle hinc hpast ((trips lower u inc).toNat + 1) 0
      (trips_pos hinc hpast).le (by omega)
    rw [zero_mul, add_zero, show lower + (0 - 1) * inc = lower - inc by ring] at hr
    exact ⟨_, r, List.flatMap_eq_nil_iff.mpr (fun p hp => (hidle p hp).1),
      fun fuel hf => hr fuel (by omega) fuel hf⟩

theorem idle_same_iff (hinc : inc ≠ 0) (hne : ¬ Past inc l u) (hl : FitsInt l) (hu : FitsInt u)
    (hi : FitsInt inc) : SameIters
        (fun fuel => outerLoop inc u (wrapInt inc) fuel fuel (wrapInt (l - inc))
          (wrapInt (l - inc - inc)))
        (fun fuel => outerLoop inc u inc fuel fuel (l - inc) (l - inc - inc)) ↔
      (FitsInt (l - inc) → FitsInt (l - inc - inc)) := by
  rw [wrapInt_of_fits hi]
  obtain ⟨fuel8, r8, hnil8, h8⟩ := idle_anywhere (u := u) hinc (l - inc)
  constructor
  · rintro ⟨fuel0, r4, r, h4, h, heq⟩ hfit
    by_contra hbad
    have hr : r = r8 := Option.some.inj
      ((h (fuel0 + fuel8) (by omega)).symm.trans (h8 (fuel0 + fuel8) (by omega)))
    -- the upper bound comes out on the other side of the range of `int`
    obtain ⟨hw, q, hq⟩ := wrapInt_spec (l - inc - inc)
    have hlast := h4 fuel0 (le_refl _)
    rw [wrapInt_of_fits hfit] at hlast
    have hside : ¬ Past inc (l - inc) u ∧ ¬ Past inc (l - inc) (wrapInt (l - inc - inc)) := by
      unfold FitsInt at hl hu hi hfit hbad hw
      rcases lt_or_gt_of_ne hinc with hneg | hpos
      · rw [past_of_neg hneg] at hne
        rw [past_of_neg hneg, past_of_neg hneg]
        omega
      · rw [past_of_pos hpos] at hne
        rw [past_of_pos hpos, past_of_pos hpos]
        omega
    obtain ⟨rest, hstart⟩ := outerLoop_starts hside.1 hside.2 hlast
    rw [hr, hnil8, hstart] at heq
    cases heq
  · intro h
    obtain ⟨fuel4, r4, hnil4, h4⟩ := idle_anywhere (u := u) hinc (wrapInt (l - inc))
    rw [wrapInt_before hl hi h]
    exact ⟨fuel4 + fuel8, r4, r8, fun fuel hf => h4 fuel (by omega),
      fun fuel hf => h8 fuel (by omega), by rw [hnil4, hnil8]⟩

end idle

/-! ## The arguments -/

/-- The index of the first iteration of a thread's share. -/
def firstIndex (staticFair : Bool) (sched : StaticSched) (teamSize chunk n t : Int) : Int :=
  match sched with
  | .static => t * chunk
  | .staticEven =>
    if staticFair then
      min t (n % teamSize) * (n / teamSize + 1) +
        (if t > n % teamSize then (t - n % teamSize) * (n / teamSize) else 0)
    else t * ((n + teamSize - 1) / teamSize)

/-- The iterations of the share. -/
def shareLength (staticFair : Bool) (sched : StaticSched) (teamSize chunk n t : Int) : Int :=
  match sched with
  | .static => chunk
  | .staticEven =>
    if staticFair then n / teamSize + (if t < n % teamSize then 1 else 0)
    else (n + teamSize - 1) / teamSize

/-- The iterations from one share of a thread to its next. -/
def roundLength (sched : StaticSched) (teamSize chunk n : Int) : Int :=
  match sched with
  | .static => chunk * teamSize
  | .staticEven => n

/-- The first value of a thread's share. -/
def firstValue (staticFair : Bool) (sched : StaticSched) (teamSize t l u inc chunk : Int) : Int :=
  if teamSize = 1 then l
  else l + firstIndex staticFair sched teamSize chunk (trips l u inc) t * inc

/-- The distance of a thread's shares; a team of one goes past the loop. -/
def roundStride (sched : StaticSched) (teamSize l u inc chunk : Int) : Int :=
  if teamSize = 1 then (if inc > 0 then u - l + 1 else u - l - 1)
  else roundLength sched teamSize chunk (trips l u inc) * inc

/-- With iterations: the distance of the shares fits, or wraps past the loop. Without: the second
value before the loop fits if the first does. -/
def CastKept (staticFair : Bool) (sched : StaticSched) (teamSize t l u inc chunk : Int) : Prop :=
  if Past inc (firstValue staticFair sched teamSize t l u inc chunk) u then
    FitsInt (l - inc) → FitsInt (l - inc - inc)
  else FitsInt (roundStride sched teamSize l u inc chunk) ∨
    Past inc (firstValue staticFair sched teamSize t l u inc chunk
      + wrapInt (roundStride sched teamSize l u inc chunk)) u

instance (staticFair : Bool) (sched : StaticSched) (teamSize t l u inc chunk : Int) :
    Decidable (CastKept staticFair sched teamSize t l u inc chunk) :=
  inferInstanceAs (Decidable (if Past inc (firstValue staticFair sched teamSize t l u inc chunk) u
    then FitsInt (l - inc) → FitsInt (l - inc - inc)
    else FitsInt (roundStride sched teamSize l u inc chunk) ∨
      Past inc (firstValue staticFair sched teamSize t l u inc chunk
        + wrapInt (roundStride sched teamSize l u inc chunk)) u))

section arguments
variable {inc l u teamSize t chunk : Int} {staticFair : Bool} {sched : StaticSched}

theorem staticInit_clip (hteam : 1 < teamSize) (hinc : inc ≠ 0) (hne : ¬ Past inc l u) :
    staticInit staticFair sched teamSize t l u inc chunk
      = clipRange l u inc (l + firstIndex staticFair sched teamSize chunk (trips l u inc) t * inc)
          (shareLength staticFair sched teamSize chunk (trips l u inc) t)
          (roundLength sched teamSize chunk (trips l u inc) * inc) := by
  have hpos := trips_pos hinc hne
  unfold staticInit firstIndex shareLength roundLength
  rw [if_neg (by omega)]
  cases sched with
  | static =>
    unfold staticRange
    dsimp only
    rw [show l + t * (chunk * inc) = l + t * chunk * inc by ring,
      show chunk * inc * teamSize = chunk * teamSize * inc by ring]
  | staticEven =>
    unfold staticEvenRange
    have hsize : (u - l).tdiv inc + 1 = trips l u inc := rfl
    simp only [hsize]
    cases staticFair with
    | false =>
      simp only [Bool.not_false, if_true, Bool.false_eq_true, if_false]
      rw [Int.tdiv_eq_ediv_of_nonneg (by omega)]
    | true =>
      have hrem : trips l u inc - trips l u inc / teamSize * teamSize
          = trips l u inc % teamSize := by rw [Int.emod_def, mul_comm]
      simp only [Bool.not_true, Bool.false_eq_true, if_false, if_true]
      rw [Int.tdiv_eq_ediv_of_nonneg hpos.le, hrem]

section

variable (hteam : 1 < teamSize) (hn : 0 < trips l u inc) (hchunk : 1 ≤ chunk)
include hteam hn hchunk

theorem firstIndex_nonneg
    (ht : 0 ≤ t) : 0 ≤ firstIndex staticFair sched teamSize chunk (trips l u inc) t := by
  have hq : 0 ≤ trips l u inc / teamSize := Int.ediv_nonneg hn.le (by omega)
  have hr := Int.emod_nonneg (trips l u inc) (show teamSize ≠ 0 by omega)
  unfold firstIndex
  cases sched with
  | static => exact Int.mul_nonneg ht (by omega)
  | staticEven =>
    dsimp only
    split
    · have h1 : 0 ≤ min t (trips l u inc % teamSize) * (trips l u inc / teamSize + 1) :=
        Int.mul_nonneg (by omega) (by omega)
      split
      · have h2 : 0 ≤ (t - trips l u inc % teamSize) * (trips l u inc / teamSize) :=
          Int.mul_nonneg (by omega) hq
        omega
      · omega
    · exact Int.mul_nonneg ht (Int.ediv_nonneg (by omega) (by omega))

theorem shareLength_pos
    (hfirst : firstIndex staticFair sched teamSize chunk (trips l u inc) t < trips l u inc) :
    1 ≤ shareLength staticFair sched teamSize chunk (trips l u inc) t := by
  have hq : 0 ≤ trips l u inc / teamSize := Int.ediv_nonneg hn.le (by omega)
  have hr := Int.emod_nonneg (trips l u inc) (show teamSize ≠ 0 by omega)
  have hdiv := Int.emod_add_mul_ediv (trips l u inc) teamSize
  unfold firstIndex at hfirst
  unfold shareLength
  cases sched with
  | static => exact hchunk
  | staticEven =>
    dsimp only at hfirst ⊢
    split
    · next hfair =>
      rw [if_pos hfair] at hfirst
      generalize trips l u inc / teamSize = c at *
      generalize trips l u inc % teamSize = r at *
      split
      · omega
      · next htr =>
        rcases hq.lt_or_eq with h | h
        · omega
        · -- with fewer iterations than threads the rest have none
          rw [← h, min_eq_right (by omega)] at hfirst
          rw [← h] at hdiv
          split at hfirst <;> omega
    · exact Int.le_ediv_of_mul_le (by omega) (by omega)

theorem roundLength_pos : 0 < roundLength sched teamSize chunk (trips l u inc):= by
  unfold roundLength
  cases sched with
  | static => exact Int.mul_pos (by omega) (by omega)
  | staticEven => exact hn

end

theorem fits_between {x : Int} (hl : FitsInt l) (hu : FitsInt u) (hlx : ¬ Past inc l x)
    (hxu : ¬ Past inc x u) : FitsInt x := by
  unfold FitsInt Past at *
  by_cases hinc : 0 ≤ inc
  · rw [if_pos hinc] at hlx hxu
    omega
  · rw [if_neg hinc] at hlx hxu
    omega

theorem past_round (hinc : inc ≠ 0) (hn : 0 < n) (x : Int) : Past inc (x + n * inc) x:= by
  have h := (past_term (l := x) hinc n 0).mpr hn
  rwa [zero_mul, add_zero] at h

theorem clipRange_same_iff (hinc : inc ≠ 0) (hne : ¬ Past inc l u) (hl : FitsInt l)
    (hu : FitsInt u) {first c : Int} (hfirst : ¬ Past inc l first) (hin : ¬ Past inc first u)
    (hc : 1 ≤ c) (hn : 0 < n) (hrun : ∃ (fuel0 : Nat) (r : ThreadRun), ∀ fuel ≥ fuel0,
      outerLoop inc u (n * inc) fuel fuel first (loopMin inc (first + (c - 1) * inc) u) = some r) :
    SameIters (fun fuel => outerLoop inc u (wrapInt (n * inc)) fuel fuel (wrapInt first)
          (wrapInt (loopMin inc (first + (c - 1) * inc) u)))
        (fun fuel => outerLoop inc u (n * inc) fuel fuel first
          (loopMin inc (first + (c - 1) * inc) u)) ↔
      FitsInt (n * inc) ∨ Past inc (first + wrapInt (n * inc)) u := by
  have hend : ¬ Past inc first (first + (c - 1) * inc) := by
    have h := (past_term (l := first) hinc 0 (c - 1)).not.mpr (by omega)
    rwa [zero_mul, add_zero] at h
  have hup : ¬ Past inc first (loopMin inc (first + (c - 1) * inc) u) :=
    (not_past_loopMin_iff _ _ _).mpr ⟨hend, hin⟩
  have hlow : ¬ Past inc l (loopMin inc (first + (c - 1) * inc) u) := by
    refine (not_past_loopMin_iff _ _ _).mpr ⟨?_, hne⟩
    rcases lt_or_gt_of_ne hinc with hneg | hpos
    · rw [past_of_neg hneg] at hfirst hend ⊢
      omega
    · rw [past_of_pos hpos] at hfirst hend ⊢
      omega
  have hlim : ¬ Past inc (loopMin inc (first + (c - 1) * inc) u) u := by
    unfold Past loopMin
    split <;> omega
  rw [wrapInt_of_fits (fits_between hl hu hfirst hin), wrapInt_of_fits (fits_between hl hu hlow hlim)]
  exact stride_same_iff hinc hin hup (past_round hinc hn first) hrun

end arguments

/-! ## The two entries -/

end OpenMP
