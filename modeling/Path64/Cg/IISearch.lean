import Mathlib.Data.Int.Init

/-! # The search for an initiation interval

`SWP_DRIVER::Perform_SWP` tries one II after the other, first in steps of
one, then with an increment that doubles, and at last by bisection. The
increment counts from the smallest II; the two bounds of the bisection are
set on the way and start as what the stack holds. -/

namespace Cg.Swp

/-! ## Model -/

/-- `SWP_SEARCH_PHASE`. -/
inductive SearchPhase
  | linearSearch | exponentialSearch | binarySearch

/-- The values of `SWP_STATUS_CODE` that the loop assigns. -/
inductive StatusCode
  | schedulingFailed | registerFailed | successful
deriving DecidableEq

/-- What the loop reads, and what the scheduler and the register allocator answer at an II. -/
structure Problem where
  minII : Int
  maxII : Int
  linearSearchLimit : Int
  schedulerStatus : Int → Bool
  allocatorStatus : Int → Bool

/-- The variables of the loop. -/
structure Search where
  iiIncr : Int
  curII : Int
  lowerBound : Int
  upperBound : Int
  searchPhase : SearchPhase
  statusCode : StatusCode
  tried : List Int
  found : Option Int

namespace Problem

variable (p : Problem)

/-- The variables before the loop; `lower` and `upper` are what is left on the stack. -/
def start (lower upper : Int) : Search :=
  ⟨0, p.minII, lower, upper, .linearSearch, .successful, [], none⟩

/-- `cur_ii = min_ii + ii_incr`. -/
def withIncr (s : Search) (incr : Int) : Search :=
  { s with iiIncr := incr, curII := p.minII + incr }

/-- The increment that halves the distance of the bounds. -/
def halfway (s : Search) : Int :=
  (s.upperBound - s.lowerBound).tdiv 2 + s.lowerBound - p.minII

/-- What follows the `switch`: register allocation and code emission. -/
def foundSchedule (s : Search) : Search :=
  { s with
    found := some s.curII
    statusCode := if p.allocatorStatus s.curII then .successful else .registerFailed }

/-- The arm `SWP_Linear_Search`. -/
def linear (s : Search) : Search :=
  if p.schedulerStatus s.curII then p.foundSchedule s
  else
    let s := { s with statusCode := .schedulingFailed, iiIncr := s.iiIncr + 1 }
    let s := if s.iiIncr ≥ p.linearSearchLimit then { s with searchPhase := .exponentialSearch }
      else s
    p.withIncr s s.iiIncr

/-- The arm `SWP_Exponential_Search`. -/
def exponential (s : Search) : Search :=
  if p.schedulerStatus s.curII then
    if s.iiIncr ≤ 2 then p.foundSchedule s
    else
      let s := { s with upperBound := s.curII + 1, searchPhase := .binarySearch }
      p.withIncr s (p.halfway s)
  else
    let incr := if s.iiIncr = 0 then 1 else s.iiIncr * 2
    let incr := if s.curII ≠ p.maxII ∧ p.minII + incr > p.maxII then p.maxII - p.minII else incr
    p.withIncr { s with lowerBound := s.curII } incr

/-- The arm `SWP_Binary_Search`. -/
def binary (s : Search) : Search :=
  if p.schedulerStatus s.curII then
    let s := { s with upperBound := s.curII + 1 }
    if s.upperBound - s.lowerBound = 2 then p.foundSchedule { s with iiIncr := p.halfway s }
    else p.withIncr s (p.halfway s)
  else
    let s := { s with lowerBound := s.curII }
    p.withIncr s (p.halfway s)

/-- The body of the loop up to `CLEANUP`. -/
def pass (s : Search) : Search :=
  let s := { s with tried := s.curII :: s.tried }
  match s.searchPhase with
  | .linearSearch => p.linear s
  | .exponentialSearch => p.exponential s
  | .binarySearch => p.binary s

/-- `while (cur_ii <= max_ii)`, with the `continue` and the `break` below `CLEANUP`. -/
def perform : Nat → Search → Option Search
  | 0, _ => none
  | fuel + 1, s =>
    if s.curII ≤ p.maxII then
      if (p.pass s).statusCode = .schedulingFailed then perform fuel (p.pass s)
      else some (p.pass s)
    else some s

/-! ## What the search is for -/

/-- `ii` was given to the scheduler, in vain. -/
def Failed (s : Search) (ii : Int) : Prop := ii ∈ s.tried ∧ p.schedulerStatus ii = false

/-- A schedule at the smallest II, or one whose predecessor failed. -/
def LocallySmallest (s : Search) (ii : Int) : Prop :=
  p.schedulerStatus ii = true ∧ (ii = p.minII ∨ p.Failed s (ii - 1))

/-- How the loop should have ended. -/
structure Settled (s : Search) : Prop where
  within : ∀ ii ∈ s.tried, p.minII ≤ ii ∧ ii ≤ p.maxII
  found_of_max : p.schedulerStatus p.maxII = true → s.found.isSome = true
  smallest : ∀ ii, s.found = some ii → p.LocallySmallest s ii

/-- The loop ends, and as it should, whatever the two bounds hold at first. -/
def Searches : Prop :=
  ∀ lower upper, ∃ fuel s, p.perform fuel (p.start lower upper) = some s ∧ p.Settled s

/-- The first II that the exponential phase tries has a schedule, and is
not one of the first two after the smallest. -/
def BoundUnset : Prop :=
  3 ≤ p.linearSearchLimit ∧ p.minII + p.linearSearchLimit ≤ p.maxII ∧
    (∀ i, 0 ≤ i → i < p.linearSearchLimit → p.schedulerStatus (p.minII + i) = false) ∧
    p.schedulerStatus (p.minII + p.linearSearchLimit) = true

/-! ## The invariant -/

/-- What each phase knows about the increment and the bounds. -/
def PhaseInv (s : Search) : SearchPhase → Prop
  | .linearSearch =>
    0 ≤ s.iiIncr ∧ (s.iiIncr = 0 ∨ s.iiIncr < p.linearSearchLimit) ∧
      ∀ i, 0 ≤ i → i < s.iiIncr → p.Failed s (p.minII + i)
  | .exponentialSearch =>
    s.statusCode = .schedulingFailed ∧ 1 ≤ s.iiIncr ∧
      (s.iiIncr ≤ 2 → p.Failed s (s.curII - 1)) ∧
      (p.maxII < s.curII → p.Failed s p.maxII) ∧
      (2 < s.iiIncr → s.curII ≤ p.maxII → p.schedulerStatus s.curII = true →
        p.Failed s s.lowerBound ∧ s.lowerBound < s.curII)
  | .binarySearch =>
    s.statusCode = .schedulingFailed ∧ p.Failed s s.lowerBound ∧
      p.schedulerStatus (s.upperBound - 1) = true ∧ s.upperBound - 1 ≤ p.maxII ∧
      2 ≤ s.upperBound - s.lowerBound ∧
      s.curII = s.lowerBound + (s.upperBound - s.lowerBound) / 2

structure Inv (s : Search) : Prop where
  cur : s.curII = p.minII + s.iiIncr
  min_le : p.minII ≤ s.curII
  within : ∀ ii ∈ s.tried, p.minII ≤ ii ∧ ii ≤ p.maxII
  unfound : s.found = none
  phase : p.PhaseInv s s.searchPhase

/-- The phases only go forward, and each one comes nearer to its end. -/
def distance (s : Search) : Nat :=
  match s.searchPhase with
  | .linearSearch => 2 * (p.maxII - p.minII + 2).toNat + (p.maxII + 1 - s.curII).toNat
  | .exponentialSearch => (p.maxII - p.minII + 2).toNat + (p.maxII + 1 - s.curII).toNat
  | .binarySearch => (s.upperBound - s.lowerBound).toNat

/-- What a pass may do: leave the loop settled, or go on with less to do. -/
def PassOk (s s' : Search) : Prop :=
  (s'.statusCode ≠ .schedulingFailed ∧ p.Settled s') ∨
    (s'.statusCode = .schedulingFailed ∧ p.Inv s' ∧ p.distance s' < p.distance s)

variable {p} {s : Search}

theorem foundSchedule_statusCode : (p.foundSchedule s).statusCode ≠ .schedulingFailed := by
  unfold foundSchedule
  cases p.allocatorStatus s.curII <;> simp

theorem settled_foundSchedule (hin : ∀ ii ∈ s.tried, p.minII ≤ ii ∧ ii ≤ p.maxII)
    (h : p.LocallySmallest s s.curII) : p.Settled (p.foundSchedule s) where
  within := hin
  found_of_max _ := rfl
  smallest ii hii := by
    obtain rfl : s.curII = ii := Option.some.inj hii
    exact h

theorem halfway_eq (h : s.lowerBound ≤ s.upperBound) :
    p.minII + p.halfway s = s.lowerBound + (s.upperBound - s.lowerBound) / 2 := by
  have hdiv := Int.tdiv_eq_ediv_of_nonneg (a := s.upperBound - s.lowerBound) (b := 2) (by omega)
  simp only [halfway, hdiv]
  omega

/-! ## One pass -/

theorem Inv.within_cons (h : p.Inv s) (hle : s.curII ≤ p.maxII) :
    ∀ ii ∈ s.curII :: s.tried, p.minII ≤ ii ∧ ii ≤ p.maxII :=
  List.forall_mem_cons.mpr ⟨⟨h.min_le, hle⟩, h.within⟩

/-- A pass in the linear phase does what a pass should: the invariant stays and the measure goes
down. -/
theorem pass_linear (hset : ¬ p.BoundUnset) (h : p.Inv s) (hle : s.curII ≤ p.maxII)
    (hphase : s.searchPhase = .linearSearch) : p.PassOk s (p.pass s) := by
  obtain ⟨hcur, hmin, -, hfound, hinv⟩ := id h
  rw [hphase] at hinv
  obtain ⟨hpos, hlim, hfail⟩ := hinv
  cases hs : p.schedulerStatus s.curII with
  | true =>
    simp only [pass, hphase, linear, hs, if_true]
    refine .inl ⟨foundSchedule_statusCode, settled_foundSchedule (h.within_cons hle) ⟨hs, ?_⟩⟩
    by_cases hzero : s.iiIncr = 0
    · exact .inl (by simp only [hcur, hzero, Int.add_zero])
    · obtain ⟨hmem, hstat⟩ := hfail (s.iiIncr - 1) (by omega) (by omega)
      rw [← Int.add_sub_assoc, ← hcur] at hmem hstat
      exact .inr ⟨.tail _ hmem, hstat⟩
  | false =>
    -- every II up to the current one has failed by now
    have hall : ∀ i, 0 ≤ i → i < s.iiIncr + 1 →
        p.minII + i ∈ s.curII :: s.tried ∧ p.schedulerStatus (p.minII + i) = false := by
      intro i hi hlt
      by_cases hlast : i = s.iiIncr
      · rw [hlast, ← hcur]
        exact ⟨.head _, hs⟩
      · exact ⟨.tail _ (hfail i hi (by omega)).1, (hfail i hi (by omega)).2⟩
    right
    by_cases hexp : s.iiIncr + 1 ≥ p.linearSearchLimit
    · simp only [pass, hphase, linear, hs, Bool.false_eq_true, if_false, hexp, if_true]
      refine ⟨rfl, ⟨rfl, ?_, h.within_cons hle, hfound, rfl, ?_, ?_, ?_, ?_⟩, ?_⟩
      · simp only [withIncr]; omega
      · simp only [withIncr]; omega
      · intro _
        have hlast := hall s.iiIncr hpos (by omega)
        rw [show p.minII + s.iiIncr = p.minII + (s.iiIncr + 1) - 1 by omega] at hlast
        exact hlast
      · intro hover
        simp only [withIncr] at hover
        have hlast := hall s.iiIncr hpos (by omega)
        rw [show p.minII + s.iiIncr = p.maxII by omega] at hlast
        exact hlast
      · -- the limit is the increment, so the bound would not be set
        intro h2 hmax hok
        simp only [withIncr] at h2 hmax hok
        have heq : s.iiIncr + 1 = p.linearSearchLimit := by omega
        rw [heq] at hall h2 hmax hok
        exact absurd ⟨by omega, hmax, fun i hi hlt => (hall i hi hlt).2, hok⟩ hset
      · simp only [distance, hphase, withIncr]; omega
    · simp only [pass, hphase, linear, hs, Bool.false_eq_true, if_false, hexp]
      refine ⟨rfl, ⟨rfl, ?_, h.within_cons hle, hfound, ?_⟩, ?_⟩
      · simp only [withIncr]; omega
      · simp only [withIncr]
        exact ⟨by simp only; omega, .inr (by simp only; omega), hall⟩
      · simp only [distance, hphase, withIncr]; omega

/-- The same in the exponential phase. -/
theorem pass_exponential (h : p.Inv s) (hle : s.curII ≤ p.maxII)
    (hphase : s.searchPhase = .exponentialSearch) : p.PassOk s (p.pass s) := by
  obtain ⟨hcur, hmin, -, hfound, hinv⟩ := id h
  rw [hphase] at hinv
  obtain ⟨hstat, hpos, hpred, -, hbound⟩ := hinv
  cases hs : p.schedulerStatus s.curII with
  | true =>
    by_cases hsmall : s.iiIncr ≤ 2
    · simp only [pass, hphase, exponential, hs, if_true, hsmall]
      exact .inl ⟨foundSchedule_statusCode, settled_foundSchedule (h.within_cons hle)
        ⟨hs, .inr ⟨.tail _ (hpred hsmall).1, (hpred hsmall).2⟩⟩⟩
    · simp only [pass, hphase, exponential, hs, if_true, hsmall, if_false]
      obtain ⟨⟨hmem, hlow⟩, hlt⟩ := hbound (by omega) hle hs
      have hlo := h.within _ hmem
      have hhalf := halfway_eq (p := p) (s := { s with
        upperBound := s.curII + 1, searchPhase := .binarySearch, tried := s.curII :: s.tried })
        (by simp only; omega)
      simp only at hhalf
      refine .inr ⟨hstat, ⟨rfl, ?_, h.within_cons hle, hfound, hstat, ⟨.tail _ hmem, hlow⟩, ?_, ?_,
        ?_, hhalf⟩, ?_⟩
      · simp only [withIncr]; omega
      · simpa only [withIncr, Int.add_sub_cancel] using hs
      · simp only [withIncr]; omega
      · simp only [withIncr]; omega
      · simp only [distance, hphase, withIncr]; omega
  | false =>
    simp only [pass, hphase, exponential, hs, Bool.false_eq_true, if_false,
      show s.iiIncr ≠ 0 by omega]
    have hself : s.curII ∈ s.curII :: s.tried ∧ p.schedulerStatus s.curII = false := ⟨.head _, hs⟩
    -- the next II is larger, and behind the last one only from there
    have hnext : ∀ incr, incr = (if s.curII ≠ p.maxII ∧ p.minII + s.iiIncr * 2 > p.maxII then
        p.maxII - p.minII else s.iiIncr * 2) → s.curII < p.minII + incr ∧
        (incr ≤ 2 → p.minII + incr - 1 = s.curII) ∧
        (p.maxII < p.minII + incr → p.maxII = s.curII) := by
      intro incr hincr
      split at hincr <;> omega
    obtain ⟨hlt, hsmall, hover⟩ := hnext _ rfl
    refine .inr ⟨hstat, ⟨rfl, ?_, h.within_cons hle, hfound, hstat, ?_, fun h2 => ?_, fun h2 => ?_,
      fun _ _ _ => ⟨hself, hlt⟩⟩, ?_⟩
    · simp only [withIncr]; omega
    · simp only [withIncr]; omega
    · exact (hsmall h2).symm ▸ hself
    · exact (hover h2).symm ▸ hself
    · simp only [distance, hphase, withIncr]; omega

/-- The same in the binary phase. -/
theorem pass_binary (h : p.Inv s) (hle : s.curII ≤ p.maxII)
    (hphase : s.searchPhase = .binarySearch) : p.PassOk s (p.pass s) := by
  obtain ⟨-, hmin, -, hfound, hinv⟩ := id h
  rw [hphase] at hinv
  obtain ⟨hstat, hlow, hup, hmax, hdist, hmid⟩ := hinv
  have hlo := h.within _ hlow.1
  cases hs : p.schedulerStatus s.curII with
  | true =>
    simp only [pass, hphase, binary, hs, if_true]
    by_cases hdone : s.curII + 1 - s.lowerBound = 2
    · simp only [hdone, if_true]
      refine .inl ⟨foundSchedule_statusCode, settled_foundSchedule (h.within_cons hle) ⟨hs, .inr ?_⟩⟩
      rw [show s.curII - 1 = s.lowerBound by omega]
      exact ⟨.tail _ hlow.1, hlow.2⟩
    · simp only [hdone, if_false]
      have hhalf := halfway_eq (p := p) (s := { s with
        upperBound := s.curII + 1, tried := s.curII :: s.tried }) (by simp only; omega)
      refine .inr ⟨hstat, ⟨rfl, ?_, h.within_cons hle, hfound, ?_⟩, ?_⟩
      all_goals simp only [withIncr, distance, hphase] at hhalf ⊢
      · omega
      · refine ⟨hstat, ⟨.tail _ hlow.1, hlow.2⟩, ?_, ?_, ?_, hhalf⟩
        · simpa only [Int.add_sub_cancel] using hs
        · simpa only [Int.add_sub_cancel] using hle
        · simp only; omega
      · omega
  | false =>
    -- with bounds two apart this II had a schedule before
    have hfar : s.upperBound - 1 ≠ s.curII := by
      intro heq
      rw [heq, hs] at hup
      exact absurd hup Bool.false_ne_true
    simp only [pass, hphase, binary, hs, Bool.false_eq_true, if_false]
    have hhalf := halfway_eq (p := p) (s := { s with
      lowerBound := s.curII, tried := s.curII :: s.tried }) (by simp only; omega)
    refine .inr ⟨hstat, ⟨rfl, ?_, h.within_cons hle, hfound, ?_⟩, ?_⟩
    all_goals simp only [withIncr, distance, hphase] at hhalf ⊢
    · omega
    · exact ⟨hstat, ⟨.head _, hs⟩, hup, hmax, by simp only; omega, hhalf⟩
    · omega

theorem pass_ok (hset : ¬ p.BoundUnset) (h : p.Inv s) (hle : s.curII ≤ p.maxII) :
    p.PassOk s (p.pass s) := by
  cases hphase : s.searchPhase with
  | linearSearch => exact pass_linear hset h hle hphase
  | exponentialSearch => exact pass_exponential h hle hphase
  | binarySearch => exact pass_binary h hle hphase

/-! ## Every run -/

theorem Inv.settled (hord : p.minII ≤ p.maxII) (h : p.Inv s) (hgt : ¬ s.curII ≤ p.maxII) :
    p.Settled s := by
  obtain ⟨hcur, hmin, hin, hfound, hinv⟩ := h
  have hlast : p.Failed s p.maxII := by
    cases hphase : s.searchPhase with
    | linearSearch =>
      rw [hphase] at hinv
      have hfail := hinv.2.2 (s.iiIncr - 1) (by omega) (by omega)
      have hle := hin _ hfail.1
      rwa [show p.minII + (s.iiIncr - 1) = p.maxII by omega] at hfail
    | exponentialSearch =>
      rw [hphase] at hinv
      exact hinv.2.2.2.1 (by omega)
    | binarySearch =>
      rw [hphase] at hinv
      obtain ⟨-, -, -, hmax, hdist, hmid⟩ := hinv
      omega
  refine ⟨hin, fun hok => ?_, fun ii hii => ?_⟩
  · rw [hlast.2] at hok
    exact absurd hok Bool.false_ne_true
  · rw [hfound] at hii
    exact absurd hii (Option.some_ne_none ii).symm

theorem perform_settled (hord : p.minII ≤ p.maxII) (hset : ¬ p.BoundUnset) :
    ∀ (n : Nat) (s : Search), p.Inv s → p.distance s ≤ n →
      ∃ fuel s', p.perform fuel s = some s' ∧ p.Settled s'
  | n, s, h, hn => by
    by_cases hle : s.curII ≤ p.maxII
    · obtain ⟨hstat, hend⟩ | ⟨hstat, hinv, hlt⟩ := pass_ok hset h hle
      · exact ⟨1, p.pass s, by simp only [perform, if_pos hle, if_neg hstat], hend⟩
      · cases n with
        | zero => omega
        | succ n =>
          obtain ⟨fuel, s', hrun, hend⟩ := perform_settled hord hset n (p.pass s) hinv (by omega)
          exact ⟨fuel + 1, s', by simp only [perform, if_pos hle, if_pos hstat, hrun], hend⟩
    · exact ⟨1, s, by simp only [perform, if_neg hle], h.settled hord hle⟩

theorem inv_start (lower upper : Int) : p.Inv (p.start lower upper) where
  cur := (Int.add_zero _).symm
  min_le := Int.le_refl _
  within := by simp only [start, List.not_mem_nil, false_imp_iff, implies_true]
  unfound := rfl
  phase := ⟨Int.le_refl _, .inl rfl, fun i hi hlt => absurd hlt (by simp only [start]; omega)⟩

/-! ## The bound that is not set -/

/-- With the lower bound as large as the first II of the exponential phase
the bisection stays where it is. -/
structure Stuck (p : Problem) (s : Search) : Prop where
  cur : s.curII = p.minII + s.iiIncr
  lower : s.lowerBound = p.minII + p.linearSearchLimit
  phase : s.searchPhase = .linearSearch ∧ 0 ≤ s.iiIncr ∧ s.iiIncr < p.linearSearchLimit ∨
    s.searchPhase ≠ .linearSearch ∧ s.iiIncr = p.linearSearchLimit ∧
      s.statusCode = .schedulingFailed

theorem Stuck.pass (hset : p.BoundUnset) (h : p.Stuck s) :
    s.curII ≤ p.maxII ∧ (p.pass s).statusCode = .schedulingFailed ∧ p.Stuck (p.pass s) := by
  obtain ⟨hlim, hmax, hfail, hok⟩ := hset
  obtain ⟨hcur, hlow, ⟨hphase, hpos, hlt⟩ | ⟨hphase, hincr, hstat⟩⟩ := h
  · have hs : p.schedulerStatus s.curII = false := hcur ▸ hfail _ hpos hlt
    refine ⟨by omega, ?_, ?_⟩ <;>
      by_cases hexp : s.iiIncr + 1 ≥ p.linearSearchLimit <;>
      simp only [Problem.pass, hphase, linear, hs, Bool.false_eq_true, if_false, hexp, if_true]
    · rfl
    · rfl
    · exact ⟨rfl, hlow, .inr ⟨SearchPhase.noConfusion, by simp only [withIncr]; omega, rfl⟩⟩
    · exact ⟨rfl, hlow, .inl ⟨rfl, by simp only [withIncr]; omega⟩⟩
  · have hat : s.curII = p.minII + p.linearSearchLimit := by rw [hcur, hincr]
    have hs : p.schedulerStatus s.curII = true := hat ▸ hok
    have hone : s.curII + 1 - s.lowerBound = 1 := by omega
    refine ⟨by omega, ?_⟩
    cases hph : s.searchPhase with
    | linearSearch => exact absurd hph hphase
    | exponentialSearch =>
      simp only [Problem.pass, hph, exponential, hs, if_true, show ¬ s.iiIncr ≤ 2 by omega, if_false]
      refine ⟨hstat, rfl, hlow, .inr ⟨SearchPhase.noConfusion, ?_, hstat⟩⟩
      simp only [withIncr, halfway, hone, show Int.tdiv 1 2 = 0 from rfl]
      omega
    | binarySearch =>
      simp only [Problem.pass, hph, binary, hs, if_true, hone, show (1 : Int) ≠ 2 by decide, if_false]
      refine ⟨hstat, rfl, hlow, .inr ⟨SearchPhase.noConfusion, ?_, hstat⟩⟩
      simp only [withIncr, halfway, hone, show Int.tdiv 1 2 = 0 from rfl]
      omega

theorem Stuck.perform (hset : p.BoundUnset) :
    ∀ (fuel : Nat) (s : Search), p.Stuck s → p.perform fuel s = none
  | 0, _, _ => rfl
  | fuel + 1, s, h => by
    obtain ⟨hle, hstat, hnext⟩ := h.pass hset
    simp only [Problem.perform, if_pos hle, if_pos hstat, Stuck.perform hset fuel _ hnext]

theorem not_searches (hset : p.BoundUnset) : ¬ p.Searches := by
  intro h
  obtain ⟨fuel, s, hrun, -⟩ := h (p.minII + p.linearSearchLimit) 0
  have hstuck : p.Stuck (p.start (p.minII + p.linearSearchLimit) 0) :=
    ⟨(Int.add_zero _).symm, rfl, .inl ⟨rfl, Int.le_refl _, by have := hset.1; simp only [start]; omega⟩⟩
  rw [hstuck.perform hset] at hrun
  exact absurd hrun.symm (Option.some_ne_none s)

/-- The search ends, at an II whose predecessor failed, exactly when the
exponential phase does not begin with a schedule. -/
theorem searches_iff_not_boundUnset (p : Problem) (hord : p.minII ≤ p.maxII) :
    p.Searches ↔ ¬ p.BoundUnset :=
  ⟨fun h hset => not_searches hset h, fun hset lower upper =>
    perform_settled hord hset _ _ (inv_start lower upper) (Nat.le_refl _)⟩

/-- Schedules from 4 on, a limit of three tries, and the smallest II 1. -/
def fromFour : Problem := ⟨1, 10, 3, fun ii => decide (4 ≤ ii), fun _ => true⟩

theorem searches_iff_fromFour :
    1 ≤ (10 : Int) ∧ (fromFour.Searches ↔ ¬ fromFour.BoundUnset) :=
  ⟨by decide, searches_iff_not_boundUnset fromFour (by decide)⟩

/-- With 4 left in the lower bound the search from 1 to 10 does not end. -/
theorem exists_not_searches : ¬ ∀ p : Problem, p.minII ≤ p.maxII → 0 ≤ p.linearSearchLimit →
    p.Searches := by
  intro h
  refine not_searches (p := fromFour) ⟨by decide, by decide, fun i _ hi => ?_, rfl⟩
    (h fromFour (by decide) (by decide))
  simp only [fromFour] at hi ⊢
  exact decide_eq_false (by omega)

end Problem
end Cg.Swp
