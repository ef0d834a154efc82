import Mathlib.Data.Int.DivMod
import Mathlib.Data.List.Nodup
import Mathlib.Tactic.Ring
import Mathlib.Tactic.Linarith

/-! # Arithmetic progressions with a bound

A counted loop runs over `l, l + inc, l + 2*inc, ...` until it is past
its bound, upwards or downwards. Everything here is about the index
`k` of the term `l + k*inc`. -/

namespace Progression

/-- `x` lies beyond `bound` in the direction of `inc`. -/
def Past (inc x bound : Int) : Prop :=
  if 0 ≤ inc then bound < x else x < bound

instance (inc x bound : Int) : Decidable (Past inc x bound) :=
  inferInstanceAs (Decidable (if 0 ≤ inc then bound < x else x < bound))

/-- The number of terms from `l` to `u`, for a progression that has one. -/
def trips (l u inc : Int) : Int := (u - l).tdiv inc + 1

variable {inc l u : Int}

theorem past_of_pos (h : 0 < inc) (x b : Int) : Past inc x b ↔ b < x := by
  unfold Past
  rw [if_pos h.le]

theorem past_of_neg (h : inc < 0) (x b : Int) : Past inc x b ↔ x < b := by
  unfold Past
  rw [if_neg (by omega)]

theorem past_add (x b d : Int) : Past inc (x + d) (b + d) ↔ Past inc x b := by
  unfold Past
  split <;> omega

/-- Terms of one progression are passed in the order of their indices. -/
theorem past_term (hinc : inc ≠ 0) (k e : Int) : Past inc (l + k * inc) (l + e * inc) ↔ e < k:= by
  rcases lt_or_gt_of_ne hinc with hneg | hpos
  · rw [past_of_neg hneg]
    constructor
    · intro h; by_contra hle; nlinarith
    · intro h; nlinarith
  · rw [past_of_pos hpos]
    constructor
    · intro h; by_contra hle; nlinarith
    · intro h; nlinarith

/-- The terms within `b` are those with an index below `e`. -/
def UpTo (l inc b e : Int) : Prop := ∀ k, ¬ Past inc (l + k * inc) b ↔ k < e

theorem upTo_term (hinc : inc ≠ 0) (e : Int) : UpTo l inc (l + (e - 1) * inc) e := by
  intro k
  rw [past_term hinc]
  omega

/-- Moving the bound by `s` increments moves the index by `s`. -/
theorem UpTo.add {b e : Int} (h : UpTo l inc b e) (s : Int) : UpTo l inc (b + s * inc) (e + s):= by
  intro k
  rw [show l + k * inc = l + (k - s) * inc + s * inc by ring, past_add, h (k - s)]
  omega

/-- The terms within `u` are numbered below the floor of `(u - l) / inc`. -/
theorem upTo_floor (l u : Int) (hinc : inc ≠ 0) : UpTo l inc u ((u - l).fdiv inc + 1) := by
  intro k
  rcases lt_or_gt_of_ne hinc with hneg | hpos
  · rw [past_of_neg hneg]
    have hdiv : (u - l).fdiv inc = (l - u) / (-inc) := by
      rw [← Int.fdiv_eq_ediv_of_nonneg _ (by omega : 0 ≤ -inc), ← Int.neg_fdiv_neg, neg_sub]
    rw [hdiv, Int.lt_add_one_iff, Int.le_ediv_iff_mul_le (by omega), mul_neg]
    omega
  · rw [past_of_pos hpos]
    rw [Int.fdiv_eq_ediv_of_nonneg _ hpos.le, Int.lt_add_one_iff, Int.le_ediv_iff_mul_le hpos]
    omega

/-- The terms of a progression that has a first one are numbered below `trips`. -/
theorem upTo_trips (hinc : inc ≠ 0) (hne : ¬ Past inc l u) : UpTo l inc u (trips l u inc) := by
  have hfloor : trips l u inc = (u - l).fdiv inc + 1 := by
    unfold trips
    rcases lt_or_gt_of_ne hinc with hneg | hpos
    · rw [past_of_neg hneg] at hne
      rw [← Int.neg_tdiv_neg, ← Int.neg_fdiv_neg,
        Int.fdiv_eq_tdiv_of_nonneg (by omega) (by omega)]
    · rw [past_of_pos hpos] at hne
      rw [Int.fdiv_eq_tdiv_of_nonneg (by omega) hpos.le]
  rw [hfloor]
  exact upTo_floor l u hinc

theorem trips_pos (hinc : inc ≠ 0) (hne : ¬ Past inc l u) : 0 < trips l u inc := by
  have h := upTo_trips hinc hne 0
  rw [zero_mul, add_zero] at h
  exact h.mp hne

/-- The terms with indices `a`, `a + 1`, ..., `a + n - 1`. -/
def slice (l inc a : Int) (n : Nat) : List Int :=
  (List.range n).map (fun (j : Nat) => l + (a + j) * inc)

theorem slice_succ (a : Int) (n : Nat) :
    slice l inc a (n + 1) = (l + a * inc) :: slice l inc (a + 1) n := by
  unfold slice
  rw [List.range_succ_eq_map, List.map_cons, List.map_map]
  simp only [Nat.cast_zero, add_zero, List.cons.injEq, true_and]
  refine List.map_congr_left (fun j _ => ?_)
  simp only [Function.comp_apply, Nat.succ_eq_add_one, Nat.cast_add, Nat.cast_one]
  ring

theorem slice_succ_last (a : Int) (n : Nat) :
    slice l inc a (n + 1) = slice l inc a n ++ [l + (a + n) * inc] := by
  unfold slice
  rw [List.range_succ, List.map_append]
  rfl

theorem mem_slice {a x : Int} {n : Nat} :
    x ∈ slice l inc a n ↔ ∃ k, x = l + k * inc ∧ a ≤ k ∧ k < a + n := by
  unfold slice
  simp only [List.mem_map, List.mem_range]
  constructor
  · rintro ⟨j, hj, rfl⟩
    exact ⟨a + j, rfl, by omega, by omega⟩
  · rintro ⟨k, rfl, hlo, hhi⟩
    exact ⟨(k - a).toNat, by omega, by rw [Int.toNat_of_nonneg (by omega)]; ring⟩

theorem term_injective (hinc : inc ≠ 0) {k k' : Int} (h : l + k * inc = l + k' * inc) : k = k':=
  mul_right_cancel₀ hinc (add_left_cancel h)

theorem slice_nodup (hinc : inc ≠ 0) (a : Int) (n : Nat) : (slice l inc a n).Nodup := by
  refine List.Nodup.map (fun j j' h => ?_) List.nodup_range
  have := term_injective hinc h
  omega

end Progression
