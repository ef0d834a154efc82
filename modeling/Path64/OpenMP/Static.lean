import Path64.Lib.Progression

/-! # Static scheduling of OpenMP loops

`__pmp_static_init` gives each thread of a team its first range and a
stride; the compiler wraps the loop of the program in an outer loop
that runs the range and moves it by the stride until it is past the
loop's bound. The `int64_t`s of the library are taken as exact integers. -/

namespace OpenMP

open Int Progression

/-! ## Model -/

/-- `LOOPMIN`: the minimum in the direction of the loop. -/
def loopMin (inc a b : Int) : Int := if 0 ≤ inc then min a b else max a b

/-- `PMP_SCHED_STATIC` and `PMP_SCHED_STATIC_EVEN`. -/
inductive StaticSched where
  | static
  | staticEven
  deriving DecidableEq

/-- What `__pmp_static_init` stores through its three pointers. -/
structure Range where
  lower : Int
  upper : Int
  stride : Int

/-- A range that falls out of the loop's bounds is replaced by one that does not iterate. -/
def clipRange (loopLower loopUpper inc lower chunk stride : Int) : Range :=
  if ¬ Past inc lower loopUpper then
    { lower := lower, upper := loopMin inc (lower + (chunk - 1) * inc) loopUpper,
      stride := stride }
  else
    { lower := loopLower - inc, upper := loopLower - inc - inc, stride := inc }

/-- The range of one thread under `STATIC_EVEN`; `staticFair` is the library's. -/
def staticEvenRange (staticFair : Bool) (teamSize localId loopLower loopUpper inc : Int) : Range:=
  let size := (loopUpper - loopLower).tdiv inc + 1
  if !staticFair then
    let chunk := (size + teamSize - 1).tdiv teamSize
    clipRange loopLower loopUpper inc (loopLower + localId * chunk * inc) chunk (size * inc)
  else
    let chunk := size.tdiv teamSize
    let remainder := size - chunk * teamSize
    let index := min localId remainder * (chunk + 1) +
      (if localId > remainder then (localId - remainder) * chunk else 0)
    clipRange loopLower loopUpper inc (loopLower + index * inc)
      (chunk + if localId < remainder then 1 else 0) (size * inc)

/-- The range of one thread under `STATIC`. -/
def staticRange (teamSize localId loopLower loopUpper inc chunk : Int) : Range :=
  let stride := chunk * inc
  clipRange loopLower loopUpper inc (loopLower + localId * stride) chunk (stride * teamSize)

/-- `__pmp_static_init`. -/
def staticInit (staticFair : Bool) (sched : StaticSched)
    (teamSize localId loopLower loopUpper inc chunk : Int) : Range :=
  if teamSize = 1 then
    { lower := loopLower, upper := loopUpper,
      stride := if inc > 0 then loopUpper - loopLower + 1 else loopUpper - loopLower - 1 }
  else match sched with
    | .staticEven => staticEvenRange staticFair teamSize localId loopLower loopUpper inc
    | .static => staticRange teamSize localId loopLower loopUpper inc chunk

/-- The loop `for (i = i; i <= upper; i += inc)`: the iterations, and the final `i`. -/
def doLoop (inc upper : Int) : Nat → Int → Option (List Int × Int)
  | 0, _ => none
  | fuel + 1, i =>
    if Past inc i upper then some ([], i)
    else (doLoop inc upper fuel (i + inc)).map (fun r => (i :: r.1, r.2))

/-- One turn of the outer loop. -/
structure Pass where
  iters : List Int
  index : Int

/-- What a thread does: its turns, and the bounds it ends with. -/
structure ThreadRun where
  passes : List Pass
  lower : Int
  upper : Int

def ThreadRun.iters (r : ThreadRun) : List Int := r.passes.flatMap Pass.iters

/-- The outer loop that the compiler puts around. -/
def outerLoop (inc limit stride : Int) (turns : Nat) : Nat → Int → Int → Option ThreadRun
  | 0, _, _ => none
  | fuel + 1, lower, upper =>
    if Past inc lower limit then some { passes := [], lower := lower, upper := upper }
    else
      let upper' := loopMin inc upper limit
      match doLoop inc upper' turns lower with
      | none => none
      | some (iters, index) =>
        (outerLoop inc limit stride turns fuel (lower + stride) (upper' + stride)).map
          (fun r => { r with passes := ⟨iters, index⟩ :: r.passes })

/-- A thread of the team runs its share of the loop. -/
def threadRun (fuel : Nat) (staticFair : Bool) (sched : StaticSched)
    (teamSize localId lower upper inc chunk : Int) : Option ThreadRun :=
  let range := staticInit staticFair sched teamSize localId lower upper inc chunk
  outerLoop inc upper range.stride fuel fuel range.lower range.upper

/-- The test for the last iteration after a `STATIC` loop, one stride back. -/
def lastIterStatic (inc limit stride : Int) (r : ThreadRun) : Prop :=
  ¬ Past inc (r.lower - stride) limit ∧ ¬ Past inc limit (r.upper - stride)

/-! ## The inner loop -/

variable {e a s c : Int}

section Inner

variable {inc l u : Int}

theorem past_loopMin (x a b : Int) : Past inc x (loopMin inc a b) ↔ Past inc x a ∨ Past inc x b:= by
  unfold Past loopMin
  split <;> omega

theorem UpTo.loopMin {a b e e' : Int} (ha : UpTo l inc a e) (hb : UpTo l inc b e') :
    UpTo l inc (loopMin inc a b) (min e e') := by
  intro k
  rw [past_loopMin, not_or, ha k, hb k, lt_min_iff]

theorem doLoop_eq {b : Int} (hb : UpTo l inc b e) (fuel : Nat) : ∀ a : Int, (e - a).toNat < fuel →
      doLoop inc b fuel (l + a * inc) = some (slice l inc a (e - a).toNat, l + max a e * inc):= by
  induction fuel with
  | zero => intro a h; omega
  | succ fuel ih =>
    intro a hfuel
    unfold doLoop
    by_cases hpast : Past inc (l + a * inc) b
    · have hle : ¬ a < e := fun h => (hb a).mpr h hpast
      rw [if_pos hpast, show (e - a).toNat = 0 by omega, max_eq_left (by omega)]
      rfl
    · have hlt : a < e := (hb a).mp hpast
      have hnext := ih (a + 1) (by omega)
      rw [show l + (a + 1) * inc = l + a * inc + inc by ring] at hnext
      rw [if_neg hpast, hnext, Option.map_some,
        show (e - a).toNat = (e - (a + 1)).toNat + 1 by omega, slice_succ,
        max_eq_right (by omega), max_eq_right (by omega)]

end Inner

/-! ## The outer loop -/

section Outer

variable {inc l u : Int}

/-- The indices that the outer loop runs from `a` below `e`, moved by `s`, of `n` iterations. -/
def Runs (a e s n k : Int) : Prop := a ≤ k ∧ k < n ∧ (k - a) % s < e - a

theorem runs_step {n k : Int} (hs : 0 < s) (hes : e ≤ a + s) :
    Runs a e s n k ↔ (a ≤ k ∧ k < min e n) ∨ Runs (a + s) (min e n + s) s n k := by
  unfold Runs
  rcases lt_or_ge k a with hka | hka
  · omega
  rcases lt_or_ge k (a + s) with hk | hk
  · rw [emod_eq_of_lt (by omega) (by omega)]
    omega
  · have hmod : (k - (a + s)) % s = (k - a) % s := by
      rw [show k - (a + s) = k - a - s by ring, sub_emod_right]
    rw [hmod]
    omega

/-- The outer loop takes up the chunks of one thread, a stride apart; by induction on the fuel. -/
theorem outerLoop_runs (hinc : inc ≠ 0) (hne : ¬ Past inc l u) (hs : 0 < s) (fuel : Nat) :
    ∀ a e upper : Int, 0 ≤ a → e ≤ a + s → UpTo l inc upper e → (trips l u inc - a).toNat < fuel →
      ∃ r, (∀ turns > (trips l u inc).toNat, ∀ fuel' ≥ fuel,
          outerLoop inc u (s * inc) turns fuel' (l + a * inc) upper = some r) ∧ r.iters.Nodup ∧
        ∀ x, x ∈ r.iters ↔ ∃ k, x = l + k * inc ∧ Runs a e s (trips l u inc) k := by
  induction fuel with
  | zero => intro a e upper _ _ _ h; omega
  | succ fuel ih =>
    intro a e upper ha hes hup hfuel
    have hlimit := upTo_trips hinc hne
    by_cases hpast : Past inc (l + a * inc) u
    · have hn : ¬ a < trips l u inc := fun h => (hlimit a).mpr h hpast
      refine ⟨⟨[], l + a * inc, upper⟩, fun turns _ fuel' hf => ?_, List.nodup_nil,
        fun x => ?_⟩
      · obtain ⟨f, rfl⟩ : ∃ f, fuel' = f + 1 := ⟨fuel' - 1, by omega⟩
        unfold outerLoop
        rw [if_pos hpast]
      · simp only [ThreadRun.iters, List.flatMap_nil, List.not_mem_nil, false_iff]
        rintro ⟨k, -, hlo, hhi, -⟩
        omega
    · have hn : a < trips l u inc := (hlimit a).mp hpast
      have hmin := UpTo.loopMin hup hlimit
      obtain ⟨r, hr, hnodup, hmem⟩ := ih (a + s) (min e (trips l u inc) + s)
        (loopMin inc upper u + s * inc) (by omega) (by omega) (hmin.add s) (by omega)
      rw [show l + (a + s) * inc = l + a * inc + s * inc by ring] at hr
      have hiters : ∀ p : Pass, ThreadRun.iters { r with passes := p :: r.passes }
          = p.iters ++ r.iters := fun p => List.flatMap_cons
      refine ⟨{ r with passes := ⟨slice l inc a (min e (trips l u inc) - a).toNat,
        l + max a (min e (trips l u inc)) * inc⟩ :: r.passes }, fun turns hturns fuel' hf => ?_, ?_, fun x => ?_⟩
      · obtain ⟨f, rfl⟩ : ∃ f, fuel' = f + 1 := ⟨fuel' - 1, by omega⟩
        unfold outerLoop
        rw [if_neg hpast]
        dsimp only
        rw [doLoop_eq hmin turns a (by omega)]
        dsimp only
        rw [hr turns hturns f (by omega), Option.map_some]
      · rw [hiters]
        refine List.Nodup.append (slice_nodup hinc _ _) hnodup (fun x hx hx' => ?_)
        obtain ⟨k, hk, hlo, hhi⟩ := mem_slice.mp hx
        obtain ⟨k', hk', hlo', -⟩ := (hmem x).mp hx'
        have := term_injective hinc (hk.symm.trans hk')
        omega
      · rw [hiters, List.mem_append, mem_slice, hmem x]
        constructor
        · rintro (⟨k, hk, hlo, hhi⟩ | ⟨k, hk, hruns⟩)
          · exact ⟨k, hk, (runs_step hs hes).mpr (.inl ⟨hlo, by omega⟩)⟩
          · exact ⟨k, hk, (runs_step hs hes).mpr (.inr hruns)⟩
        · rintro ⟨k, hk, hruns⟩
          rcases (runs_step hs hes).mp hruns with ⟨hlo, hhi⟩ | hruns
          · exact .inl ⟨k, hk, hlo, by omega⟩
          · exact .inr ⟨k, hk, hruns⟩

theorem outerLoop_idle (hinc : inc ≠ 0) (hne : ¬ Past inc l u) (fuel : Nat) :
    ∀ a : Int, a ≤ trips l u inc → (trips l u inc - a).toNat < fuel →
      ∃ r, (∀ turns > 0, ∀ fuel' ≥ fuel,
          outerLoop inc u inc turns fuel' (l + a * inc) (l + (a - 1) * inc) = some r) ∧
        (∀ p ∈ r.passes, p.iters = [] ∧ ¬ Past inc p.index u) ∧
        r.lower = l + trips l u inc * inc ∧ r.upper = l + (trips l u inc - 1) * inc := by
  induction fuel with
  | zero => intro a _ h; omega
  | succ fuel ih =>
    intro a ha hfuel
    have hlimit := upTo_trips hinc hne
    by_cases hpast : Past inc (l + a * inc) u
    · have hn : a = trips l u inc := by
        have : ¬ a < trips l u inc := fun h => (hlimit a).mpr h hpast
        omega
      refine ⟨⟨[], l + a * inc, l + (a - 1) * inc⟩, fun turns _ fuel' hf => ?_, ?_, ?_, ?_⟩
      · obtain ⟨f, rfl⟩ : ∃ f, fuel' = f + 1 := ⟨fuel' - 1, by omega⟩
        unfold outerLoop
        rw [if_pos hpast]
      · exact fun p hp => absurd hp List.not_mem_nil
      · rw [hn]
      · rw [hn]
    · have hn : a < trips l u inc := (hlimit a).mp hpast
      obtain ⟨r, hr, hidle, hlower, hupper⟩ := ih (a + 1) (by omega) (by omega)
      rw [show l + (a + 1) * inc = l + a * inc + inc by ring,
        show l + (a + 1 - 1) * inc = l + (a - 1) * inc + inc by ring] at hr
      have hup := upTo_term hinc (l := l) a
      have hmin : loopMin inc (l + (a - 1) * inc) u = l + (a - 1) * inc := by
        have hin : ¬ Past inc (l + (a - 1) * inc) u := (hlimit (a - 1)).mpr (by omega)
        unfold loopMin Past at *
        split at hin <;> omega
      refine ⟨{ r with passes := ⟨[], l + a * inc⟩ :: r.passes }, fun turns hturns fuel' hf => ?_,
        ?_, hlower, hupper⟩
      · obtain ⟨f, rfl⟩ : ∃ f, fuel' = f + 1 := ⟨fuel' - 1, by omega⟩
        unfold outerLoop
        rw [if_neg hpast, hmin]
        dsimp only
        rw [doLoop_eq hup turns a (by omega), sub_self, max_self]
        dsimp only
        rw [hr turns hturns f (by omega), Option.map_some]
        rfl
      · intro p hp
        rcases List.mem_cons.mp hp with rfl | hp
        · exact ⟨rfl, hpast⟩
        · exact hidle p hp

end Outer

/-! ## Who runs an iteration -/

/-- The thread that runs the iteration with index `k` of `n`. -/
def owner (staticFair : Bool) (sched : StaticSched) (teamSize chunk n k : Int) : Int :=
  match sched with
  | .static => (k / chunk) % teamSize
  | .staticEven =>
    if staticFair then
      -- the first `n % teamSize` threads have one iteration more
      if k < n % teamSize * (n / teamSize + 1) then k / (n / teamSize + 1)
      else n % teamSize + (k - n % teamSize * (n / teamSize + 1)) / (n / teamSize)
    else k / ((n + teamSize - 1) / teamSize)

section Owner

variable {teamSize t n k : Int}

/-- The iterations of a static chunk, by the number of the chunk modulo the team. -/
theorem runs_static (hc : 0 < c) (ht : 0 ≤ t) (htT : t < teamSize) (hk : 0 ≤ k) (hkn : k < n) :
    Runs (t * c) (min (t * c + c) n) (c * teamSize) n k ↔ (k / c) % teamSize = t := by
  have hpos : 0 < c * teamSize := mul_pos hc (by omega)
  unfold Runs
  constructor
  · rintro ⟨hlo, -, hmod⟩
    have hr := emod_nonneg (k - t * c) (show c * teamSize ≠ 0 by omega)
    have hq := emod_add_mul_ediv (k - t * c) (c * teamSize)
    have hq0 : 0 ≤ (k - t * c) / (c * teamSize) := ediv_nonneg (by omega) hpos.le
    generalize (k - t * c) / (c * teamSize) = q at *
    generalize (k - t * c) % (c * teamSize) = r at *
    have hdiv : k / c = t + teamSize * q := by
      rw [ediv_eq_iff_of_pos hc, show (t + teamSize * q) * c = t * c + c * teamSize * q by ring]
      omega
    rw [hdiv, add_mul_emod_self_left, emod_eq_of_lt ht htT]
  · intro hown
    have hr := emod_nonneg k (show c ≠ 0 by omega)
    have hrc := emod_lt_of_pos k hc
    have hkc := emod_add_mul_ediv k c
    have hq := emod_add_mul_ediv (k / c) teamSize
    have hq0 : 0 ≤ k / c / teamSize := ediv_nonneg (ediv_nonneg hk hc.le) (by omega)
    rw [hown] at hq
    generalize k / c / teamSize = q at *
    generalize k % c = r at *
    have hsum : k - t * c = r + c * teamSize * q := by
      rw [← hkc, ← hq]; ring
    have hmul : 0 ≤ c * teamSize * q := mul_nonneg hpos.le hq0
    have hcT : c ≤ c * teamSize := by nlinarith
    have hmod : (k - t * c) % (c * teamSize) = r := by
      rw [hsum, add_mul_emod_self_left, emod_eq_of_lt hr (by omega)]
    rw [hmod]
    omega

theorem runs_block (ha : 0 ≤ a) (hkn : k < n) : Runs a (min e n) n n k ↔ a ≤ k ∧ k < e := by
  unfold Runs
  constructor
  · rintro ⟨hlo, -, hmod⟩
    rw [emod_eq_of_lt (by omega) (by omega)] at hmod
    omega
  · rintro ⟨hlo, hhi⟩
    rw [emod_eq_of_lt (by omega) (by omega)]
    omega

theorem runs_even (hc : 0 < c) (ht : 0 ≤ t) (hkn : k < n) :
    Runs (t * c) (min (t * c + c) n) n n k ↔ k / c = t := by
  rw [runs_block (mul_nonneg ht hc.le) hkn, ediv_eq_iff_of_pos hc]

/-- The iterations of a fair share: the first threads get one more each. -/
theorem runs_fair {r : Int} (hc : 0 ≤ c) (hr : 0 ≤ r) (hn : n = c * teamSize + r)
    (ht : 0 ≤ t) (hkn : k < n) : Runs (min t r * (c + 1) + if t > r then (t - r) * c else 0)
        (min (min t r * (c + 1) + (if t > r then (t - r) * c else 0)
          + (c + if t < r then 1 else 0)) n) n n k ↔
      (if k < r * (c + 1) then k / (c + 1) else r + (k - r * (c + 1)) / c) = t := by
  rcases lt_or_ge t r with htr | htr
  · rw [min_eq_left htr.le, if_neg (by omega), if_pos htr, add_zero,
      runs_block (mul_nonneg ht (by omega)) hkn]
    have hend : t * (c + 1) + (c + 1) ≤ r * (c + 1) := by nlinarith
    split
    · rw [ediv_eq_iff_of_pos (by omega)]
    · next hge =>
      have hq := ediv_nonneg (show 0 ≤ k - r * (c + 1) by omega) hc
      constructor <;> intro h <;> omega
  · have hstart : min t r * (c + 1) + (if t > r then (t - r) * c else 0)
        = r * (c + 1) + (t - r) * c := by
      rw [min_eq_right htr]
      split
      · rfl
      · rw [show t - r = 0 by omega, zero_mul]
    have hmul : 0 ≤ r * (c + 1) := mul_nonneg hr (by omega)
    have hmul' : 0 ≤ (t - r) * c := mul_nonneg (by omega) hc
    rw [hstart, if_neg (by omega), add_zero, runs_block (by omega) hkn]
    split
    · next hlt =>
      have hq : k / (c + 1) < r := Int.ediv_lt_of_lt_mul (by omega) hlt
      constructor <;> intro h <;> omega
    · next hge =>
      rcases hc.lt_or_eq with hcpos | hzero
      · rw [show (r + (k - r * (c + 1)) / c = t ↔ (k - r * (c + 1)) / c = t - r) by
          constructor <;> intro h <;> omega, ediv_eq_iff_of_pos hcpos]
        constructor <;> intro h <;> omega
      · -- no full round: every iteration is one of the first `r`
        rw [← hzero] at hn hge
        omega

theorem owner_range {staticFair : Bool} {sched : StaticSched} {chunk : Int}
    (hteam : 1 ≤ teamSize) (hchunk : sched = .static → 1 ≤ chunk) (hk : 0 ≤ k) (hkn : k < n) :
    0 ≤ owner staticFair sched teamSize chunk n k ∧
    owner staticFair sched teamSize chunk n k < teamSize := by
  unfold owner
  split
  · exact ⟨emod_nonneg _ (by omega), emod_lt_of_pos _ (by omega)⟩
  · have hc : 0 ≤ n / teamSize := ediv_nonneg (by omega) (by omega)
    have hr := emod_nonneg n (show teamSize ≠ 0 by omega)
    have hrT := emod_lt_of_pos n (show 0 < teamSize by omega)
    have hn := emod_add_mul_ediv n teamSize
    split
    · generalize n / teamSize = c at *
      generalize n % teamSize = r at *
      split
      · next hlt =>
        exact ⟨Int.ediv_nonneg hk (by omega),
          lt_trans (Int.ediv_lt_of_lt_mul (by omega) hlt) hrT⟩
      · next hge =>
        have hq := ediv_nonneg (show 0 ≤ k - r * (c + 1) by omega) hc
        refine ⟨by omega, ?_⟩
        have hcpos : 0 < c := by
          rcases hc.lt_or_eq with h | h
          · exact h
          · rw [← h] at hn hge; omega
        have hlt : k - r * (c + 1) < (teamSize - r) * c := by nlinarith
        have := Int.ediv_lt_of_lt_mul hcpos hlt
        omega
    · have hceil := lt_ediv_add_one_mul_self (n + teamSize - 1) (show 0 < teamSize by omega)
      have hcpos : 1 ≤ (n + teamSize - 1) / teamSize :=
        Int.le_ediv_of_mul_le (by omega) (by omega)
      exact ⟨Int.ediv_nonneg hk (by omega), Int.ediv_lt_of_lt_mul hcpos (by nlinarith)⟩

end Owner

/-! ## The team -/

section Team

variable {inc l u : Int}

/-- `r` is what a thread does that runs the indices in `own`. -/
structure RunsOwn (l u inc stride : Int) (own : Int → Prop) (r : ThreadRun) : Prop where
  nodup : r.iters.Nodup
  mem : ∀ x, x ∈ r.iters ↔ ∃ k, x = l + k * inc ∧ 0 ≤ k ∧ k < trips l u inc ∧ own k
  idle : r.iters = [] → (∀ p ∈ r.passes, p.iters = [] ∧ ¬ Past inc p.index u) ∧
    ¬ lastIterStatic inc u stride r

theorem clipRange_run (hinc : inc ≠ 0) (hne : ¬ Past inc l u) {own : Int → Prop}
    (ha : 0 ≤ a) (hc : a < trips l u inc → 0 < c) (hs : 0 < s)
    (hcs : min (a + c) (trips l u inc) ≤ a + s) (hown : ∀ k, 0 ≤ k → k < trips l u inc →
      (Runs a (min (a + c) (trips l u inc)) s (trips l u inc) k ↔ own k)) :
    ∃ r, (∀ fuel ≥ (trips l u inc).toNat + 2,
        outerLoop inc u (clipRange l u inc (l + a * inc) c (s * inc)).stride fuel fuel
          (clipRange l u inc (l + a * inc) c (s * inc)).lower
          (clipRange l u inc (l + a * inc) c (s * inc)).upper = some r) ∧
      RunsOwn l u inc (clipRange l u inc (l + a * inc) c (s * inc)).stride own r := by
  have hlimit := upTo_trips hinc hne
  have hpos := trips_pos hinc hne
  unfold clipRange
  by_cases hpast : Past inc (l + a * inc) u
  · -- the thread is idle
    have hn : ¬ a < trips l u inc := fun h => (hlimit a).mpr h hpast
    rw [if_neg (not_not.mpr hpast)]
    obtain ⟨r, hr, hidle, hlower, hupper⟩ := outerLoop_idle hinc hne
      ((trips l u inc).toNat + 2) (-1) (by omega) (by omega)
    rw [show l + (-1) * inc = l - inc by ring, show l + (-1 - 1) * inc = l - inc - inc by ring]
      at hr
    have hnil : r.iters = [] := List.flatMap_eq_nil_iff.mpr (fun p hp => (hidle p hp).1)
    refine ⟨r, fun fuel hf => hr fuel (by omega) fuel hf, ?_, fun x => ?_, fun _ => ⟨hidle, ?_⟩⟩
    · rw [hnil]; exact List.nodup_nil
    · rw [hnil]
      simp only [List.not_mem_nil, false_iff]
      rintro ⟨k, -, hk, hkn, hk'⟩
      have := ((hown k hk hkn).mpr hk').1
      omega
    · rintro ⟨-, hlast⟩
      apply hlast
      -- the last iteration is within the bound, so the bound is past the one before it
      have hin := (hlimit (trips l u inc - 1)).mpr (by omega)
      rw [hupper]
      generalize trips l u inc = n at hin ⊢
      dsimp only
      rw [show l + (n - 1) * inc = l + (n - 2) * inc + inc by ring] at hin
      rw [show l + (n - 1) * inc - inc = l + (n - 2) * inc by ring]
      unfold Past at hin ⊢
      split at hin
      · rw [if_pos (by omega)]; omega
      · rw [if_neg (by omega)]; omega
  · have hn : a < trips l u inc := (hlimit a).mp hpast
    rw [if_pos hpast]
    have hup : UpTo l inc (loopMin inc (l + a * inc + (c - 1) * inc) u)
        (min (a + c) (trips l u inc)) := by
      refine UpTo.loopMin ?_ hlimit
      rw [show l + a * inc + (c - 1) * inc = l + (a + c - 1) * inc by ring]
      exact upTo_term hinc (a + c)
    obtain ⟨r, hr, hnodup, hmem⟩ := outerLoop_runs hinc hne hs ((trips l u inc).toNat + 2) a _ _
      ha hcs hup (by omega)
    refine ⟨r, fun fuel hf => hr fuel (by omega) fuel hf, hnodup, fun x => ?_, fun hnil => ?_⟩
    · rw [hmem x]
      refine exists_congr (fun k => and_congr_right (fun _ => ?_))
      constructor
      · intro hruns
        have hk : 0 ≤ k := le_trans ha hruns.1
        exact ⟨hk, hruns.2.1, (hown k hk hruns.2.1).mp hruns⟩
      · rintro ⟨hk, hkn, hk'⟩
        exact (hown k hk hkn).mpr hk'
    · have hfirst : l + a * inc ∈ r.iters := by
        refine (hmem _).mpr ⟨a, rfl, le_refl a, hn, ?_⟩
        have := hc hn
        rw [sub_self, zero_emod]
        omega
      rw [hnil] at hfirst
      exact absurd hfirst List.not_mem_nil

theorem single_run (hinc : inc ≠ 0) (hne : ¬ Past inc l u) {own : Int → Prop}
    (hown : ∀ k, 0 ≤ k → k < trips l u inc → own k) {stride : Int}
    (hstride : Past inc (l + stride) u) :
    ∃ r, (∀ fuel ≥ (trips l u inc).toNat + 2, outerLoop inc u stride fuel fuel l u = some r) ∧
      RunsOwn l u inc stride own r := by
  have hlimit := upTo_trips hinc hne
  have hpos := trips_pos hinc hne
  have hmin : loopMin inc u u = u := by unfold loopMin; rw [min_self, max_self, ite_self]
  have hdo : ∀ fuel, (trips l u inc).toNat < fuel → doLoop inc u fuel l
      = some (slice l inc 0 (trips l u inc).toNat, l + trips l u inc * inc) := by
    intro fuel hf
    have := doLoop_eq hlimit fuel 0 (by omega)
    rwa [zero_mul, add_zero, sub_zero, max_eq_right hpos.le] at this
  let pass : Pass := ⟨slice l inc 0 (trips l u inc).toNat, l + trips l u inc * inc⟩
  have hiters : ThreadRun.iters ⟨[pass], l + stride, u + stride⟩
      = slice l inc 0 (trips l u inc).toNat := List.flatMap_singleton ..
  refine ⟨⟨[pass], l + stride, u + stride⟩, fun fuel hf => ?_, ?_, fun x => ?_, fun hnil => ?_⟩
  · obtain ⟨f, rfl⟩ : ∃ f, fuel = f + 2 := ⟨fuel - 2, by omega⟩
    unfold outerLoop
    rw [if_neg hne, hmin]
    dsimp only
    rw [hdo _ (by omega)]
    dsimp only
    unfold outerLoop
    rw [if_pos hstride]
    rfl
  · rw [hiters]; exact slice_nodup hinc _ _
  · rw [hiters, mem_slice]
    refine exists_congr (fun k => and_congr_right (fun _ => ?_))
    constructor
    · rintro ⟨hk, hkn⟩
      exact ⟨hk, by omega, hown k hk (by omega)⟩
    · rintro ⟨hk, hkn, -⟩
      omega
  · rw [hiters] at hnil
    have hfirst : l + 0 * inc ∈ slice l inc 0 (trips l u inc).toNat :=
      mem_slice.mpr ⟨0, rfl, by omega, by omega⟩
    rw [hnil] at hfirst
    exact absurd hfirst List.not_mem_nil

/-- A thread runs just the iterations it owns, under every static schedule. -/
theorem threadRun_owner (staticFair : Bool) (sched : StaticSched) {teamSize t chunk : Int}
    (hteam : 1 ≤ teamSize) (hinc : inc ≠ 0) (hne : ¬ Past inc l u)
    (hchunk : sched = .static → 1 ≤ chunk) (ht : 0 ≤ t) (htT : t < teamSize) :
    ∃ r, (∀ fuel ≥ (trips l u inc).toNat + 2,
        threadRun fuel staticFair sched teamSize t l u inc chunk = some r) ∧
      RunsOwn l u inc (staticInit staticFair sched teamSize t l u inc chunk).stride
        (fun k => owner staticFair sched teamSize chunk (trips l u inc) k = t) r := by
  have hpos := trips_pos hinc hne
  unfold threadRun staticInit
  by_cases hone : teamSize = 1
  · rw [if_pos hone]
    refine single_run hinc hne (fun k hk hkn => ?_) ?_
    · have := @owner_range _ _ _ staticFair _ _ hteam hchunk hk hkn
      omega
    · dsimp only
      unfold Past
      split <;> split <;> omega
  · rw [if_neg hone]
    cases sched with
    | static =>
      have hc := hchunk rfl
      have hmul : 0 ≤ t * chunk := mul_nonneg ht (by omega)
      have hcT : chunk ≤ chunk * teamSize := by nlinarith
      unfold staticRange
      dsimp only
      rw [show l + t * (chunk * inc) = l + t * chunk * inc by ring,
        show chunk * inc * teamSize = chunk * teamSize * inc by ring]
      exact clipRange_run hinc hne hmul (fun _ => by omega) (by omega) (by omega)
        (fun k hk hkn => runs_static (by omega) ht htT hk hkn)
    | staticEven =>
      unfold staticEvenRange owner
      have hsize : (u - l).tdiv inc + 1 = trips l u inc := rfl
      simp only [hsize]
      cases staticFair with
      | false =>
        have hc : 1 ≤ (trips l u inc + teamSize - 1) / teamSize :=
          Int.le_ediv_of_mul_le (by omega) (by omega)
        have hmul : 0 ≤ t * ((trips l u inc + teamSize - 1) / teamSize) :=
          mul_nonneg ht (by omega)
        simp only [Bool.not_false, if_true, Bool.false_eq_true, if_false]
        rw [tdiv_eq_ediv_of_nonneg (by omega)]
        exact clipRange_run hinc hne hmul (fun _ => by omega) hpos (by omega)
          (fun k _ hkn => runs_even (by omega) ht hkn)
      | true =>
        have hc : 0 ≤ trips l u inc / teamSize := ediv_nonneg hpos.le (by omega)
        have hr := emod_nonneg (trips l u inc) (show teamSize ≠ 0 by omega)
        have hn := emod_add_mul_ediv (trips l u inc) teamSize
        have hrem : trips l u inc - trips l u inc / teamSize * teamSize
            = trips l u inc % teamSize := by rw [emod_def, mul_comm]
        simp only [Bool.not_true, Bool.false_eq_true, if_false, if_true]
        rw [tdiv_eq_ediv_of_nonneg hpos.le, hrem]
        generalize trips l u inc / teamSize = c at *
        generalize trips l u inc % teamSize = r at *
        have hstart : 0 ≤ min t r * (c + 1) + (if t > r then (t - r) * c else 0) := by
          have h1 : 0 ≤ min t r * (c + 1) := mul_nonneg (by omega) (by omega)
          split
          · have h2 : 0 ≤ (t - r) * c := mul_nonneg (by omega) hc
            omega
          · omega
        refine clipRange_run hinc hne hstart (fun hlt => ?_) hpos (by omega)
          (fun k _ hkn =>
            runs_fair hc hr (show _ = c * teamSize + r by rw [← hn]; ring) ht hkn)
        -- a thread without iterations starts at the end of the loop
        split
        · omega
        · next htr =>
          rcases hc.lt_or_eq with h | h
          · omega
          · rw [← h, min_eq_right (by omega)] at hlt
            rw [← h] at hn
            split at hlt <;> omega

end Team

/-- Static scheduling is an exact partition: each thread runs to its end, no iteration is run twice,
every iteration of the loop is run, and a thread without an iteration never takes the `LASTPRIVATE`
branch. -/
theorem staticInit_partition (staticFair : Bool) (sched : StaticSched)
    {teamSize lower upper inc chunk : Int} (hteam : 1 ≤ teamSize) (hinc : inc ≠ 0)
    (hne : ¬ Past inc lower upper) (hchunk : sched = .static → 1 ≤ chunk) :
    ∃ (fuel₀ : Nat) (run : Int → ThreadRun), (∀ t, 0 ≤ t → t < teamSize → ∀ fuel ≥ fuel₀,
        threadRun fuel staticFair sched teamSize t lower upper inc chunk = some (run t)) ∧
      (∀ t, 0 ≤ t → t < teamSize → (run t).iters.Nodup) ∧
      (∀ t t', 0 ≤ t → t < teamSize → 0 ≤ t' → t' < teamSize → t ≠ t' →
        (run t).iters.Disjoint (run t').iters) ∧
      (∀ x, (∃ t, 0 ≤ t ∧ t < teamSize ∧ x ∈ (run t).iters) ↔
        ∃ k : Nat, x = lower + k * inc ∧ ¬ Past inc x upper) ∧
      (∀ t, 0 ≤ t → t < teamSize → (run t).iters = [] →
        (∀ p ∈ (run t).passes, p.iters = [] ∧ ¬ Past inc p.index upper) ∧ ¬ lastIterStatic inc upper
          (staticInit staticFair sched teamSize t lower upper inc chunk).stride (run t)) := by
  have hthread : ∀ t, ∃ r, (0 ≤ t ∧ t < teamSize) → (∀ fuel ≥ (trips lower upper inc).toNat + 2,
        threadRun fuel staticFair sched teamSize t lower upper inc chunk = some r) ∧
      RunsOwn lower upper inc
        (staticInit staticFair sched teamSize t lower upper inc chunk).stride
        (fun k => owner staticFair sched teamSize chunk (trips lower upper inc) k = t) r := by
    intro t
    by_cases h : 0 ≤ t ∧ t < teamSize
    · obtain ⟨r, hr⟩ := threadRun_owner staticFair sched hteam hinc hne hchunk h.1 h.2
      exact ⟨r, fun _ => hr⟩
    · exact ⟨⟨[], 0, 0⟩, fun h' => absurd h' h⟩
  choose run hall using hthread
  have hrun := fun t h => (hall t h).1
  have hspec := fun t h => (hall t h).2
  refine ⟨(trips lower upper inc).toNat + 2, run, fun t h0 hT => hrun t ⟨h0, hT⟩,
    fun t h0 hT => (hspec t ⟨h0, hT⟩).nodup, fun t t' h0 hT h0' hT' hne' x hx hx' => ?_,
    fun x => ⟨?_, ?_⟩, fun t h0 hT => (hspec t ⟨h0, hT⟩).idle⟩
  · obtain ⟨k, hk, -, -, hown⟩ := ((hspec t ⟨h0, hT⟩).mem x).mp hx
    obtain ⟨k', hk', -, -, hown'⟩ := ((hspec t' ⟨h0', hT'⟩).mem x).mp hx'
    have hkk : k = k' := term_injective hinc (hk.symm.trans hk')
    exact hne' (by rw [← hown, ← hown', hkk])
  · rintro ⟨t, h0, hT, hx⟩
    obtain ⟨k, rfl, hk, hkn, -⟩ := ((hspec t ⟨h0, hT⟩).mem x).mp hx
    refine ⟨k.toNat, by rw [toNat_of_nonneg hk], ?_⟩
    exact (upTo_trips hinc hne k).mpr hkn
  · rintro ⟨k, rfl, hin⟩
    have hkn := (upTo_trips hinc hne k).mp hin
    obtain ⟨h0, hT⟩ := @owner_range _ _ _ staticFair _ _ hteam hchunk
      (natCast_nonneg k) hkn
    exact ⟨_, h0, hT, ((hspec _ ⟨h0, hT⟩).mem _).mpr ⟨k, rfl, natCast_nonneg k, hkn, rfl⟩⟩

theorem staticInit_partition_down : ∃ (fuel₀ : Nat) (run : Int → ThreadRun),
      (∀ t, 0 ≤ t → t < 3 → ∀ fuel ≥ fuel₀,
        threadRun fuel true .staticEven 3 t 10 0 (-3) 0 = some (run t)) ∧
      ∀ x, (∃ t, 0 ≤ t ∧ t < 3 ∧ x ∈ (run t).iters) ↔
        ∃ k : Nat, x = 10 + k * (-3) ∧ ¬ Past (-3) x 0 := by
  obtain ⟨fuel₀, run, hrun, -, -, hunion, -⟩ :=
    @staticInit_partition true .staticEven 3 10 0 (-3) 0 (by decide) (by decide) (by decide) (by decide)
  exact ⟨fuel₀, run, hrun, hunion⟩

end OpenMP
