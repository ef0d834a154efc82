import Mathlib.Algebra.BigOperators.Ring.Finset
import Mathlib.Tactic.Ring
import Mathlib.Tactic.Linarith

/-! # Rows of integer linear systems

A row of coefficients is a function on column numbers, read up to the
number of columns in use. `dot n a x` is the left-hand side of the
row `a` at the point `x`. -/

namespace LinearRow

open Finset Function

/-- `a 0 * x 0 + ... + a (n-1) * x (n-1)`. -/
def dot (n : Nat) (a x : Nat → Int) : Int :=
  ∑ j ∈ Finset.range n, a j * x j

variable {n i : Nat} {a b x : Nat → Int}

theorem dot_congr {y : Nat → Int}
    (ha : ∀ j < n, a j = b j) (hx : ∀ j < n, a j ≠ 0 → x j = y j) : dot n a x = dot n b y:= by
  unfold dot
  apply sum_congr rfl
  intro j hj
  have hjn : j < n := mem_range.mp hj
  by_cases h0 : a j = 0
  · rw [← ha j hjn, h0, zero_mul, zero_mul]
  · rw [← ha j hjn, hx j hjn h0]

theorem dot_congr_left (x : Nat → Int) (ha : ∀ j < n, a j = b j) : dot n a x = dot n b x :=
  dot_congr ha (fun _ _ _ => rfl)

theorem dot_comb (n : Nat) (p q : Int) (a b x : Nat → Int) :
    dot n (fun j => p * a j + q * b j) x = p * dot n a x + q * dot n b x := by
  unfold dot
  rw [mul_sum, mul_sum, ← sum_add_distrib]
  apply sum_congr rfl
  intro j _
  ring

theorem dot_eq_zero (x : Nat → Int) (h : ∀ j < n, a j = 0) : dot n a x = 0 := by
  apply sum_eq_zero
  intro j hj
  rw [h j (mem_range.mp hj), zero_mul]

theorem dot_single {v : Nat} (x : Nat → Int) (hv : v < n)
    (h : ∀ j < n, j ≠ v → a j = 0) : dot n a x = a v * x v := by
  apply sum_eq_single v
  · intro j hj hne
    rw [h j (mem_range.mp hj) hne, zero_mul]
  · intro hnot
    exact absurd (mem_range.mpr hv) hnot

theorem dot_update_zero (a x : Nat → Int) (hi : i < n) :
    dot n (update a i 0) x = dot n a x - a i * x i := by
  have hmem : i ∈ Finset.range n := mem_range.mpr hi
  unfold dot
  rw [← add_sum_erase _ _ hmem, ← add_sum_erase _ (fun j => a j * x j) hmem]
  have hrest : ∑ j ∈ (Finset.range n).erase i, update a i 0 j * x j
      = ∑ j ∈ (Finset.range n).erase i, a j * x j := by
    apply sum_congr rfl
    intro j hj
    rw [update_of_ne (ne_of_mem_erase hj)]
  rw [hrest, update_self]
  ring

theorem dot_update_point (a x : Nat → Int) (v : Int) (hi : i < n) :
    dot n a (update x i v) = dot n a x - a i * x i + a i * v := by
  have hmem : i ∈ Finset.range n := mem_range.mpr hi
  unfold dot
  rw [← add_sum_erase _ _ hmem, ← add_sum_erase _ (fun j => a j * x j) hmem]
  have hrest : ∑ j ∈ (Finset.range n).erase i, a j * update x i v j
      = ∑ j ∈ (Finset.range n).erase i, a j * x j := by
    apply sum_congr rfl
    intro j hj
    rw [update_of_ne (ne_of_mem_erase hj)]
  rw [hrest, update_self]
  ring

theorem dot_succ (n : Nat) (a x : Nat → Int) : dot (n + 1) a x = dot n a x + a n * x n:=
  sum_range_succ _ _

/-- A row whose coefficients are `g` times those of `b`. -/
theorem dot_mul_left (x : Nat → Int) (g : Int)
    (h : ∀ j < n, a j = g * b j) : dot n a x = g * dot n b x := by
  have hrow := dot_comb n g 0 b b x
  rw [zero_mul, add_zero] at hrow
  rw [← hrow]
  apply dot_congr_left
  intro j hj
  rw [h j hj, zero_mul, add_zero]

/-- Dividing an integer row by a common divisor tightens the right-hand side to the floor. -/
theorem dot_le_floor {g c : Int}
    (hg : 0 < g) (h : ∀ j < n, a j = g * b j) : dot n a x ≤ c ↔ dot n b x ≤ c / g:= by
  rw [dot_mul_left x g h, Int.le_ediv_iff_mul_le hg, mul_comm]

end LinearRow
