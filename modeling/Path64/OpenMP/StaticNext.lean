import Path64.OpenMP.Dispenser

/-! # Static schedules through the dynamic interface

A loop with `schedule(runtime)`, or an ordered one, asks
`__pmp_schedule_next` for its ranges even if the schedule is static.
The split of the loop is then written a second time: `STATIC_EVEN`
gives a thread one range, and `STATIC` cuts that same range into
chunks. An `int64_t` is an exact integer here as there. -/

namespace OpenMP

open Progression

/-! ## Model -/

/-- A call in a team of one; it does not look at the schedule. -/
def soleNext (lower upper inc : Int) (iteration : Nat) : Option Handed :=
  if iteration = 0 then some { lower := lower, upper := upper, inc := inc } else none

/-- `__pmp_schedule_next` under a static schedule, at the call `iteration`; `none` is 0. -/
def scheduleNextStatic (staticFair : Bool) (sched : StaticSched)
    (teamSize localId lower upper inc chunk : Int) (iteration : Nat) : Option Handed :=
  if teamSize = 1 then soleNext lower upper inc iteration
  else staticAnyNext staticFair sched teamSize localId iteration lower upper inc chunk

/-- The ranges until a call returns 0; `none` if none does in `fuel` calls. -/
def callRanges (next : Nat → Option Handed) : Nat → Nat → Option (List Handed)
  | 0, _ => none
  | fuel + 1, iteration =>
    match next iteration with
    | none => some []
    | some r => (callRanges next fuel (iteration + 1)).map (fun rs => r :: rs)

variable {i n : Nat} {a e t c : Int}

theorem callRanges_none {next : Nat → Option Handed} (h : next i = none) (fuel : Nat) :
    callRanges next (fuel + 1) i = some [] := by
  unfold callRanges
  rw [h]

theorem callRanges_some {next : Nat → Option Handed} {r : Handed}
    (h : next i = some r) (fuel : Nat) :
    callRanges next (fuel + 1) i = (callRanges next fuel (i + 1)).map (fun rs => r :: rs) := by
  conv_lhs => unfold callRanges
  rw [h]

/-- All the ranges of one thread; `__pmp_scheduler_init` has set `thread->iteration` to 0. -/
def threadRanges (fuel : Nat) (staticFair : Bool) (sched : StaticSched)
    (teamSize localId lower upper inc chunk : Int) : Option (List Handed) :=
  callRanges (scheduleNextStatic staticFair sched teamSize localId lower upper inc chunk) fuel 0

/-! ## The ranges of one thread -/

section ranges
variable {inc l u : Int}

/-- The ranges are disjoint, and cut up the indices from `a` below `e`. -/
structure CutsBlock (l inc a e : Int) (rs : List Handed) : Prop where
  disjoint : rs.Pairwise (fun r r' => ∀ x, ¬ (r.Has x ∧ r'.Has x))
  has : ∀ x, (∃ r ∈ rs, r.Has x) ↔ ∃ k, x = l + k * inc ∧ a ≤ k ∧ k < e

theorem CutsBlock.nil {a e : Int} (h : e ≤ a) : CutsBlock l inc a e [] := by
  refine ⟨.nil, fun x => ⟨?_, ?_⟩⟩
  · rintro ⟨r, hr, -⟩
    exact absurd hr List.not_mem_nil
  · rintro ⟨k, -, hlo, hhi⟩
    omega

theorem CutsBlock.cons {a b e upper : Int} {rs : List Handed} (hinc : inc ≠ 0)
    (hrest : CutsBlock l inc b e rs) (hup : UpTo l inc upper (min b e)) (hab : a ≤ b) :
    CutsBlock l inc a e (⟨l + a * inc, upper, inc⟩ :: rs) := by
  have hfirst := handed_has (a := a) hup
  refine ⟨List.pairwise_cons.mpr ⟨fun r' hr' x hx => ?_, hrest.disjoint⟩, fun x => ?_⟩
  · obtain ⟨k, hk, -, hhi⟩ := (hfirst x).mp hx.1
    obtain ⟨k', hk', hlo', -⟩ := (hrest.has x).mp ⟨r', hr', hx.2⟩
    have := term_injective hinc (hk.symm.trans hk')
    omega
  · rw [List.exists_mem_cons_iff, hfirst, hrest.has]
    constructor
    · rintro (⟨k, hk, hlo, hhi⟩ | ⟨k, hk, hlo, hhi⟩)
      · exact ⟨k, hk, hlo, by omega⟩
      · exact ⟨k, hk, by omega, hhi⟩
    · rintro ⟨k, hk, hlo, hhi⟩
      rcases lt_or_ge k b with hkb | hkb
      · exact .inl ⟨k, hk, hlo, by omega⟩
      · exact .inr ⟨k, hk, hkb, hhi⟩

/-- What the calls return from the `i`-th on, for the indices from `a` below `e`. -/
def Cuts (l inc a e : Int) (fuel₀ : Nat) (next : Nat → Option Handed) (i : Nat) : Prop :=
  ∃ rs, (∀ fuel ≥ fuel₀, callRanges next fuel i = some rs) ∧ CutsBlock l inc a e rs

theorem Cuts.mono {n' : Nat} {next : Nat → Option Handed}
    (h : Cuts l inc a e n next i) (hn : n ≤ n') : Cuts l inc a e n' next i := by
  obtain ⟨rs, hrs, hcuts⟩ := h
  exact ⟨rs, fun fuel hf => hrs fuel (by omega), hcuts⟩

theorem cuts_none {next : Nat → Option Handed} (hnext : next i = none)
    (h : e ≤ a) : Cuts l inc a e 1 next i := by
  refine ⟨[], fun fuel hf => ?_, CutsBlock.nil h⟩
  obtain ⟨f, rfl⟩ : ∃ f, fuel = f + 1 := ⟨fuel - 1, by omega⟩
  exact callRanges_none hnext f

theorem cuts_some {b upper : Int} {next : Nat → Option Handed} (hinc : inc ≠ 0)
    (hnext : next i = some ⟨l + a * inc, upper, inc⟩) (hup : UpTo l inc upper (min b e))
    (hab : a ≤ b) (hrest : Cuts l inc b e n next (i + 1)) : Cuts l inc a e (n + 1) next i := by
  obtain ⟨rs, hrs, hcuts⟩ := hrest
  refine ⟨_, fun fuel hf => ?_, hcuts.cons hinc hup hab⟩
  obtain ⟨f, rfl⟩ : ∃ f, fuel = f + 1 := ⟨fuel - 1, by omega⟩
  rw [callRanges_some hnext, hrs f (by omega), Option.map_some]

theorem upTo_share (hinc : inc ≠ 0) (hne : ¬ Past inc l u) (a c : Int) :
    UpTo l inc (loopMin inc (l + a * inc + (c - 1) * inc) u) (min (a + c) (trips l u inc)) := by
  refine UpTo.loopMin ?_ (upTo_trips hinc hne)
  rw [show l + a * inc + (c - 1) * inc = l + (a + c - 1) * inc by ring]
  exact upTo_term hinc (a + c)

theorem staticNext_eq (teamSize t chunk i : Int) {c : Int}
    (hc : (trips l u inc - 1).tdiv teamSize + 1 = c) : staticNext teamSize t i l u inc chunk
      = if Past inc (l + (t * c + i * chunk) * inc)
            (loopMin inc (l + t * c * inc + (c - 1) * inc) u) then none
        else some ⟨l + (t * c + i * chunk) * inc,
          loopMin inc (l + (t * c + i * chunk) * inc + (chunk - 1) * inc)
            (loopMin inc (l + t * c * inc + (c - 1) * inc) u), inc⟩ := by
  unfold staticNext
  rw [show (u - l).tdiv inc + 1 = trips l u inc from rfl]
  dsimp only
  rw [hc, show l + t * (c * inc) + i * chunk * inc = l + (t * c + i * chunk) * inc by ring,
    show l + t * (c * inc) + c * inc - inc = l + t * c * inc + (c - 1) * inc by ring]

theorem chunk_step (a chunk : Int) (i : Nat) :
    a + ((i + 1 : Nat) : Int) * chunk = a + i * chunk + chunk := by
  push_cast
  ring

theorem staticNext_cuts (hinc : inc ≠ 0) (hne : ¬ Past inc l u) {teamSize chunk : Int}
    (hchunk : 1 ≤ chunk) (hc : (trips l u inc - 1).tdiv teamSize + 1 = c) (n : Nat) :
    ∀ i : Nat, (min (t * c + c) (trips l u inc) - (t * c + i * chunk)).toNat ≤ n →
      Cuts l inc (t * c + i * chunk) (min (t * c + c) (trips l u inc)) (n + 1)
        (fun i => staticNext teamSize t i l u inc chunk) i := by
  have hshare := upTo_share hinc hne (t * c) c
  have hnext := fun i => @staticNext_eq inc l u teamSize t chunk i c hc
  generalize loopMin inc (l + t * c * inc + (c - 1) * inc) u = w at *
  generalize min (t * c + c) (trips l u inc) = e at *
  induction n with
  | zero =>
    intro i hn
    refine cuts_none ?_ (by omega)
    rw [hnext, if_pos]
    by_contra hin
    have := (hshare _).mp hin
    omega
  | succ n ih =>
    intro i hn
    by_cases hpast : Past inc (l + (t * c + i * chunk) * inc) w
    · refine Cuts.mono (cuts_none ?_ ?_) (show 1 ≤ n + 1 + 1 by omega)
      · rw [hnext, if_pos hpast]
      · by_contra hlt
        exact (hshare _).mpr (not_le.mp hlt) hpast
    · -- one chunk, or what is left of the share
      have hlt := (hshare _).mp hpast
      have hstep := chunk_step (t * c) chunk i
      have hrest := ih (i + 1) (by omega)
      rw [hstep] at hrest
      have hcall : staticNext teamSize t i l u inc chunk = some ⟨l + (t * c + i * chunk) * inc,
              loopMin inc (l + (t * c + i * chunk) * inc + (chunk - 1) * inc) w, inc⟩ := by
        rw [hnext, if_neg hpast]
      have hup : UpTo l inc (l + (t * c + i * chunk) * inc + (chunk - 1) * inc)
          (t * c + i * chunk + chunk) := by
        rw [show l + (t * c + i * chunk) * inc + (chunk - 1) * inc
          = l + (t * c + i * chunk + chunk - 1) * inc by ring]
        exact upTo_term hinc _
      exact cuts_some hinc hcall (UpTo.loopMin hup hshare) (by omega) hrest

theorem single_cuts (hinc : inc ≠ 0) {w : Int} (hup : UpTo l inc w e) {next : Nat → Option Handed}
    (hfirst : next 0 = if Past inc (l + a * inc) w then none else some ⟨l + a * inc, w, inc⟩)
    (hnext : ∀ i, i ≠ 0 → next i = none) : Cuts l inc a e 2 next 0 := by
  by_cases hpast : Past inc (l + a * inc) w
  · refine Cuts.mono (cuts_none ?_ ?_) (show 1 ≤ 2 by omega)
    · rw [hfirst, if_pos hpast]
    · by_contra hlt
      exact (hup a).mpr (not_le.mp hlt) hpast
  · have hlt := (hup a).mp hpast
    have hrest : Cuts l inc e e 1 next 1 := cuts_none (hnext 1 Nat.one_ne_zero) (le_refl e)
    have hcall : next 0 = some ⟨l + a * inc, w, inc⟩ := by
      rw [hfirst, if_neg hpast]
    have hupe : UpTo l inc w (min e e) := by
      rw [min_self]
      exact hup
    exact cuts_some hinc hcall hupe hlt.le hrest

/-! ## The threads of the team -/

theorem staticEvenNext_eq {staticFair : Bool} {teamSize : Int}
    (hbounds : staticEvenBounds staticFair teamSize t (trips l u inc) l inc
      = (l + a * inc, l + a * inc + (c - 1) * inc)) :
    staticEvenNext staticFair teamSize t 0 l u inc
      = if Past inc (l + a * inc) (loopMin inc (l + a * inc + (c - 1) * inc) u) then none
        else some ⟨l + a * inc, loopMin inc (l + a * inc + (c - 1) * inc) u, inc⟩ := by
  unfold staticEvenNext
  rw [show (u - l).tdiv inc + 1 = trips l u inc from rfl, if_pos rfl]
  dsimp only
  rw [hbounds]

theorem evenBounds_eq (teamSize t : Int) (hc : (trips l u inc - 1).tdiv teamSize + 1 = c) :
    staticEvenBounds false teamSize t (trips l u inc) l inc
      = (l + t * c * inc, l + t * c * inc + (c - 1) * inc) := by
  unfold staticEvenBounds
  simp only [Bool.not_false, if_true]
  rw [hc, show l + t * (c * inc) = l + t * c * inc by ring,
    show l + t * c * inc + c * inc - inc = l + t * c * inc + (c - 1) * inc by ring]

theorem fairBounds_eq (teamSize t : Int) {r : Int} (hc : (trips l u inc).tdiv teamSize = c)
    (hr : trips l u inc - c * teamSize = r) : staticEvenBounds true teamSize t (trips l u inc) l inc
      = (l + (min t r * (c + 1) + if t > r then (t - r) * c else 0) * inc,
        l + (min t r * (c + 1) + if t > r then (t - r) * c else 0) * inc
          + ((c + if t < r then 1 else 0) - 1) * inc) := by
  unfold staticEvenBounds
  simp only [Bool.not_true, Bool.false_eq_true, if_false]
  rw [hc, hr]

theorem staticEvenNext_later (staticFair : Bool) (teamSize t l u inc : Int) (i : Nat) (hi : i ≠ 0) :
    staticEvenNext staticFair teamSize t i l u inc = none := by
  unfold staticEvenNext
  rw [if_neg (by omega)]

theorem ceil_eq {n teamSize : Int} (hteam : 1 ≤ teamSize) (hn : 0 < n) :
    (n - 1).tdiv teamSize + 1 = (n + teamSize - 1) / teamSize := by
  rw [Int.tdiv_eq_ediv_of_nonneg (by omega),
    show n + teamSize - 1 = n - 1 + 1 * teamSize by ring, Int.add_mul_ediv_right _ _ (by omega)]

/-- The thread of index `k` of `n`: under `STATIC` the chunks stay within its share. -/
def nextOwner (staticFair : Bool) (sched : StaticSched) (teamSize n k : Int) : Int :=
  owner (staticFair && sched = .staticEven) .staticEven teamSize 1 n k

/-- The ranges of a thread that is to run the indices in `own`. -/
structure GetsOwn (l u inc : Int) (own : Int → Prop) (rs : List Handed) : Prop where
  disjoint : rs.Pairwise (fun r r' => ∀ x, ¬ (r.Has x ∧ r'.Has x))
  has : ∀ x, (∃ r ∈ rs, r.Has x) ↔ ∃ k, x = l + k * inc ∧ 0 ≤ k ∧ k < trips l u inc ∧ own k

theorem Cuts.getsOwn {next : Nat → Option Handed}
    {own : Int → Prop} (h : Cuts l inc a e n next 0) (hn : n ≤ (trips l u inc).toNat + 2)
    (ha : 0 ≤ a) (he : e ≤ trips l u inc)
    (hown : ∀ k, 0 ≤ k → k < trips l u inc → (a ≤ k ∧ k < e ↔ own k)) :
    ∃ rs, (∀ fuel ≥ (trips l u inc).toNat + 2, callRanges next fuel 0 = some rs) ∧
      GetsOwn l u inc own rs := by
  obtain ⟨rs, hrs, hblock⟩ := h.mono hn
  refine ⟨rs, hrs, hblock.disjoint, fun x => ?_⟩
  rw [hblock.has]
  refine exists_congr fun k => and_congr_right fun _ => ?_
  constructor
  · rintro ⟨hlo, hhi⟩
    exact ⟨by omega, by omega, (hown k (by omega) (by omega)).mp ⟨hlo, hhi⟩⟩
  · rintro ⟨hk, hkn, hk'⟩
    exact (hown k hk hkn).mpr hk'

theorem share_iff {n k : Int} (hc : 1 ≤ c) (hkn : k < n) :
    t * c ≤ k ∧ k < min (t * c + c) n ↔ k / c = t := by
  rw [Int.ediv_eq_iff_of_pos (by omega)]
  omega

/-- The ranges handed to a thread, one call after the other, are the iterations it owns. -/
theorem threadRanges_owner (staticFair : Bool) (sched : StaticSched) {teamSize chunk : Int}
    (hteam : 1 < teamSize) (hinc : inc ≠ 0) (hne : ¬ Past inc l u)
    (hchunk : sched = .static → 1 ≤ chunk) (ht : 0 ≤ t) : ∃ rs, (∀ fuel ≥ (trips l u inc).toNat + 2,
        threadRanges fuel staticFair sched teamSize t l u inc chunk = some rs) ∧ GetsOwn l u inc
        (fun k => nextOwner staticFair sched teamSize (trips l u inc) k = t) rs := by
  have hpos := trips_pos hinc hne
  have hceil := @ceil_eq (trips l u inc) teamSize (by omega) hpos
  have hc1 : 1 ≤ (trips l u inc + teamSize - 1) / teamSize :=
    Int.le_ediv_of_mul_le (by omega) (by omega)
  have hstart : 0 ≤ t * ((trips l u inc + teamSize - 1) / teamSize) := Int.mul_nonneg ht (by omega)
  have hone : ¬ teamSize = 1 := by omega
  unfold threadRanges nextOwner owner scheduleNextStatic
  simp only [if_neg hone]
  cases sched with
  | static =>
    -- chunk after chunk, a team of chunks apart
    have hcuts := staticNext_cuts hinc hne (t := t) (hchunk rfl) hceil
      ((trips l u inc).toNat + 1) 0 (by
        show (_ - (_ + (0 : Int) * chunk)).toNat ≤ _
        omega)
    rw [show t * ((trips l u inc + teamSize - 1) / teamSize) + ((0 : Nat) : Int) * chunk
        = t * ((trips l u inc + teamSize - 1) / teamSize) by
      show _ + (0 : Int) * chunk = _
      ring] at hcuts
    refine hcuts.getsOwn (le_refl _) hstart (min_le_right _ _) fun k _ hkn => ?_
    simp only [reduceCtorEq, decide_false, Bool.and_false, Bool.false_eq_true, if_false]
    exact share_iff hc1 hkn
  | staticEven =>
    cases staticFair with
    | false =>
      -- one block each, rounded up
      have hcuts := single_cuts hinc
        (upTo_share hinc hne _ ((trips l u inc + teamSize - 1) / teamSize))
        (staticEvenNext_eq (evenBounds_eq teamSize t hceil))
        (staticEvenNext_later false teamSize t l u inc)
      refine hcuts.getsOwn (by omega) hstart (min_le_right _ _) fun k _ hkn => ?_
      simp only [Bool.false_and, Bool.false_eq_true, if_false]
      exact share_iff hc1 hkn
    | true =>
      -- fair shares: the first `r` threads get one iteration more
      have hc : 0 ≤ trips l u inc / teamSize := Int.ediv_nonneg hpos.le (by omega)
      have hr := Int.emod_nonneg (trips l u inc) (show teamSize ≠ 0 by omega)
      have hn := Int.emod_add_mul_ediv (trips l u inc) teamSize
      have hquot : (trips l u inc).tdiv teamSize = trips l u inc / teamSize :=
        Int.tdiv_eq_ediv_of_nonneg hpos.le
      have hrem : trips l u inc - trips l u inc / teamSize * teamSize
          = trips l u inc % teamSize := by rw [Int.emod_def, mul_comm]
      have hfirst := staticEvenNext_eq (fairBounds_eq (l := l) (u := u) teamSize t hquot hrem)
      simp only [decide_true, Bool.and_self, if_true]
      generalize trips l u inc / teamSize = c at *
      generalize trips l u inc % teamSize = r at *
      have hfair := fun k (hkn : k < trips l u inc) =>
        runs_fair hc hr (show _ = c * teamSize + r by rw [← hn]; ring) ht hkn
      have hstart' : 0 ≤ min t r * (c + 1) + (if t > r then (t - r) * c else 0) := by
        have h1 : 0 ≤ min t r * (c + 1) := Int.mul_nonneg (by omega) (by omega)
        split
        · have h2 : 0 ≤ (t - r) * c := Int.mul_nonneg (by omega) hc
          omega
        · omega
      have hcuts := single_cuts hinc (upTo_share hinc hne
          (min t r * (c + 1) + (if t > r then (t - r) * c else 0)) (c + if t < r then 1 else 0))
        hfirst (staticEvenNext_later true teamSize t l u inc)
      refine hcuts.getsOwn (by omega) hstart' (min_le_right _ _) fun k hk hkn => ?_
      rw [← hfair k hkn, runs_block hstart' hkn]
      omega

end ranges

end OpenMP
