import Mathlib.Algebra.BigOperators.Intervals
import Mathlib.Algebra.Order.Field.Basic
import Path64.Lib.LinearRow

/-! # Integer rows at points of an ordered field

The rows of `LinearRow` at points whose coordinates are rationals or
reals, and what one row implies about another there. -/

namespace LinearRow

open Finset

section value
variable {K : Type*} [Field K]

/-- The left-hand side of the row `a`, columns `lo .. n-1`, at the point `x`. -/
def value (lo n : Nat) (a : Nat → Int) (x : Nat → K) : K :=
  ∑ j ∈ Finset.Ico lo n, (a j : K) * x j

variable {lo n : Nat} {a b : Nat → Int} {x : Nat → K}

theorem value_congr (h : ∀ j, lo ≤ j → j < n → a j = b j) : value lo n a x = value lo n b x := by
  apply sum_congr rfl
  intro j hj
  obtain ⟨h1, h2⟩ := mem_Ico.mp hj
  rw [h j h1 h2]

theorem value_eq_zero (h : ∀ j, lo ≤ j → j < n → a j = 0) : value lo n a x = 0 := by
  apply sum_eq_zero
  intro j hj
  obtain ⟨h1, h2⟩ := mem_Ico.mp hj
  rw [h j h1 h2, Int.cast_zero, zero_mul]

theorem value_comb (p q : Int) (a b : Nat → Int) (x : Nat → K) :
    value lo n (fun j => p * a j + q * b j) x = p * value lo n a x + q * value lo n b x := by
  unfold value
  rw [mul_sum, mul_sum, ← sum_add_distrib]
  apply sum_congr rfl
  intro j _
  push_cast
  ring

theorem value_of_zero_below (hlo : lo ≤ n) (h : ∀ j < lo, a j = 0) :
    value 0 n a x = value lo n a x := by
  have hzero : ∑ j ∈ Finset.Ico 0 lo, (a j : K) * x j = 0 := by
    apply sum_eq_zero
    intro j hj
    rw [h j (mem_Ico.mp hj).2, Int.cast_zero, zero_mul]
  unfold value
  rw [← sum_Ico_consecutive _ (Nat.zero_le lo) hlo, hzero, zero_add]

theorem value_update (a : Nat → Int) (x : Nat → K) {i : Nat} (v : K) (hlo : lo ≤ i) (hi : i < n) :
    value lo n a (Function.update x i v) = value lo n a x + a i * (v - x i) := by
  have hmem : i ∈ Finset.Ico lo n := mem_Ico.mpr ⟨hlo, hi⟩
  unfold value
  rw [← add_sum_erase _ _ hmem, ← add_sum_erase _ (fun j => (a j : K) * x j) hmem]
  have hrest : ∑ j ∈ (Finset.Ico lo n).erase i, (a j : K) * Function.update x i v j
      = ∑ j ∈ (Finset.Ico lo n).erase i, (a j : K) * x j := by
    apply sum_congr rfl
    intro j hj
    rw [Function.update_of_ne (ne_of_mem_erase hj)]
  rw [hrest, Function.update_self]
  ring

end value

section order
variable {K : Type*} [Field K] [LinearOrder K]

/-- Row `a` holds with the right-hand side `c`. -/
def Below (lo n : Nat) (a : Nat → Int) (c : Int) (x : Nat → K) : Prop :=
  value lo n a x ≤ c

variable [IsStrictOrderedRing K] {lo n : Nat} {a b : Nat → Int} {x : Nat → K}

/-- Of rows that are positive multiples of each other the tighter one implies the other. -/
theorem Below.of_multiple {p q c d : Int} (hsign : 0 < p * q)
    (hmult : ∀ j, lo ≤ j → j < n → p * b j = q * a j)
    (htight : 0 < q ∧ q * c ≤ p * d ∨ q < 0 ∧ p * d ≤ q * c)
    (h : Below lo n a c x) : Below lo n b d x := by
  have hvalue : (p : K) * value lo n b x = q * value lo n a x := by
    unfold value
    rw [mul_sum, mul_sum]
    apply sum_congr rfl
    intro j hj
    obtain ⟨h1, h2⟩ := mem_Ico.mp hj
    have hj' : (p : K) * b j = q * a j := by exact_mod_cast hmult j h1 h2
    rw [← mul_assoc, ← mul_assoc, hj']
  unfold Below at h ⊢
  rcases htight with ⟨hq, hcd⟩ | ⟨hq, hcd⟩
  · have hp : (0 : K) < p := by exact_mod_cast pos_of_mul_pos_left hsign hq.le
    have hq' : (0 : K) < q := by exact_mod_cast hq
    have hcd' : (q : K) * c ≤ p * d := by exact_mod_cast hcd
    have := mul_le_mul_of_nonneg_left h hq'.le
    exact le_of_mul_le_mul_left (by linarith) hp
  · have hp : (p : K) < 0 := by
      have : p < 0 := by
        by_contra hp
        nlinarith
      exact_mod_cast this
    have hq' : (q : K) < 0 := by exact_mod_cast hq
    have hcd' : (p : K) * d ≤ q * c := by exact_mod_cast hcd
    have := mul_le_mul_of_nonpos_left h hq'.le
    by_contra hgt
    have := mul_lt_mul_of_neg_left (not_le.mp hgt) hp
    linarith

end order

end LinearRow
