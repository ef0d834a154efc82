import Mathlib.Tactic.Linarith
import Mathlib.Tactic.Ring
import Mathlib.Tactic.Positivity

/-! # Rounding to nearest

Rounding of nonnegative rationals to the nearest number of a binary
floating-point grid, ties to even, and what a last bit that stands for
everything below it may be used for.

The numbers of the grid are numbered in order: the first `2 ^ c` are the
denormal ones, one unit apart, and every further `2 ^ c` make up one
binade, twice as far apart as in the one before. -/

namespace Rounding

open Nat

/-! ## Sticky bits -/

/-- `n` stands for `q`, exactly if even; an odd number for anything between its neighbours. -/
def Sticky (n : ℕ) (q : ℚ) : Prop :=
  (n % 2 = 0 → q = n) ∧ (n % 2 = 1 → (n : ℚ) - 1 < q ∧ q < n + 1)

/-- Half of a number, with the bit that is lost kept in the last one. -/
def jam (n : ℕ) : ℕ := if n % 4 = 1 then n / 2 + 1 else n / 2

theorem sticky_self (n : ℕ) : Sticky n n :=
  ⟨fun _ => rfl, fun _ => ⟨by linarith, by linarith⟩⟩

variable {n m k c e n' : ℕ} {q : ℚ}

theorem Sticky.cases (h : Sticky n q) :
    (∃ m, n = 2 * m ∧ q = 2 * m) ∨ ∃ m, n = 2 * m + 1 ∧ 2 * (m : ℚ) < q ∧ q < 2 * m + 2 := by
  rcases mod_two_eq_zero_or_one n with hn | hn
  · refine .inl ⟨n / 2, by omega, ?_⟩
    have hcast : (n : ℚ) = 2 * (n / 2 : ℕ) := by
      exact_mod_cast (show n = 2 * (n / 2) by omega)
    rw [h.1 hn, hcast]
  · refine .inr ⟨n / 2, by omega, ?_⟩
    have hcast : (n : ℚ) = 2 * (n / 2 : ℕ) + 1 := by
      exact_mod_cast (show n = 2 * (n / 2) + 1 by omega)
    obtain ⟨hlo, hhi⟩ := h.2 hn
    rw [hcast] at hlo hhi
    constructor <;> linarith

theorem sticky_even (h : q = 2 * m) : Sticky (2 * m) q := by
  refine ⟨fun _ => ?_, fun hn => ?_⟩
  · rw [h]
    push_cast
    ring
  · omega

theorem sticky_odd (hlo : 2 * (m : ℚ) < q) (hhi : q < 2 * m + 2) : Sticky (2 * m + 1) q := by
  refine ⟨fun hn => ?_, fun _ => ?_⟩
  · omega
  · push_cast
    constructor <;> linarith

theorem Sticky.nonneg (h : Sticky n q) : 0 ≤ q := by
  rcases h.cases with ⟨m, _, hq⟩ | ⟨m, _, hlo, _⟩
  · rw [hq]
    positivity
  · have : (0 : ℚ) ≤ m := cast_nonneg m
    linarith

/-- Bounds by even numbers pass from `n` to what it stands for. -/
theorem Sticky.ge (h : Sticky n q) (hk : 2 * k ≤ n) : 2 * (k : ℚ) ≤ q := by
  rcases h.cases with ⟨m, rfl, hq⟩ | ⟨m, rfl, hlo, _⟩
  · have : (k : ℚ) ≤ m := by exact_mod_cast (show k ≤ m by omega)
    linarith
  · have : (k : ℚ) ≤ m := by exact_mod_cast (show k ≤ m by omega)
    linarith

theorem Sticky.lt (h : Sticky n q) (hk : n < 2 * k) : q < 2 * k := by
  rcases h.cases with ⟨m, rfl, hq⟩ | ⟨m, rfl, _, hhi⟩
  · have : (m : ℚ) < k := by exact_mod_cast (show m < k by omega)
    linarith
  · have : (m : ℚ) + 1 ≤ k := by exact_mod_cast (show m + 1 ≤ k by omega)
    linarith

theorem Sticky.jam {n : ℕ} {q : ℚ} (h : Sticky n q) : Sticky (jam n) (q / 2) := by
  rcases h.cases with ⟨m, rfl, hq⟩ | ⟨m, rfl, hlo, hhi⟩
  · have hjam : Rounding.jam (2 * m) = m := by
      unfold Rounding.jam
      rw [if_neg (by omega)]
      omega
    rw [hjam, hq, show 2 * (m : ℚ) / 2 = m by ring]
    exact sticky_self m
  · -- the bit that is lost was set, so the last one is
    rcases mod_two_eq_zero_or_one m with hm | hm
    · have hjam : Rounding.jam (2 * m + 1) = 2 * (m / 2) + 1 := by
        unfold Rounding.jam
        rw [if_pos (by omega)]
        omega
      have hcast : (m : ℚ) = 2 * (m / 2 : ℕ) := by
        exact_mod_cast (show m = 2 * (m / 2) by omega)
      rw [hjam]
      rw [hcast] at hlo hhi
      exact sticky_odd (by linarith) (by linarith)
    · have hjam : Rounding.jam (2 * m + 1) = 2 * (m / 2) + 1 := by
        unfold Rounding.jam
        rw [if_neg (by omega)]
        omega
      have hcast : (m : ℚ) = 2 * (m / 2 : ℕ) + 1 := by
        exact_mod_cast (show m = 2 * (m / 2) + 1 by omega)
      rw [hjam]
      rw [hcast] at hlo hhi
      exact sticky_odd (by linarith) (by linarith)

theorem Sticky.even_of_even (h : Sticky n q) (hq : q = 2 * k) : n % 2 = 0 := by
  rcases h.cases with ⟨m, rfl, _⟩ | ⟨m, rfl, hlo, hhi⟩
  · omega
  · rw [hq] at hlo hhi
    have h1 : m < k := by
      have : (m : ℚ) < k := by linarith
      exact_mod_cast this
    have h2 : k < m + 1 := by
      have : (k : ℚ) < m + 1 := by linarith
      exact_mod_cast this
    omega

theorem Sticky.le_of_le (h : Sticky n q) (hq : q ≤ 2 * k) : n ≤ 2 * k := by
  by_contra hlt
  rcases h.cases with ⟨m, rfl, hm⟩ | ⟨m, rfl, hlo, _⟩
  · have : (k : ℚ) < m := by exact_mod_cast (show k < m by omega)
    linarith
  · have : (k : ℚ) ≤ m := by exact_mod_cast (show k ≤ m by omega)
    linarith

theorem Sticky.add_even (h : Sticky n q) (k : ℕ) : Sticky (2 * k + n) (2 * k + q) := by
  rcases h.cases with ⟨m, rfl, hq⟩ | ⟨m, rfl, hlo, hhi⟩
  · rw [← mul_add]
    refine sticky_even ?_
    rw [hq]
    push_cast
    ring
  · rw [← add_assoc, ← mul_add]
    refine sticky_odd ?_ ?_ <;> push_cast <;> linarith

theorem Sticky.even_sub (h : Sticky n q) (hle : n ≤ 2 * k) : Sticky (2 * k - n) (2 * k - q) := by
  rcases h.cases with ⟨m, rfl, hq⟩ | ⟨m, rfl, hlo, hhi⟩
  · rw [← Nat.mul_sub]
    refine sticky_even ?_
    rw [hq, cast_sub (by omega)]
    ring
  · rw [show 2 * k - (2 * m + 1) = 2 * (k - m - 1) + 1 by omega]
    have hcast : ((k - m - 1 : ℕ) : ℚ) = k - m - 1 := by
      rw [Nat.sub_sub, Nat.cast_sub (by omega)]
      push_cast
      ring
    refine sticky_odd ?_ ?_ <;> rw [hcast] <;> linarith

theorem Sticky.sub_even (h : Sticky n q) (hle : 2 * k ≤ n) : Sticky (n - 2 * k) (q - 2 * k) := by
  rcases h.cases with ⟨m, rfl, hq⟩ | ⟨m, rfl, hlo, hhi⟩
  · rw [← Nat.mul_sub]
    refine sticky_even ?_
    rw [hq, cast_sub (by omega)]
    ring
  · rw [show 2 * m + 1 - 2 * k = 2 * (m - k) + 1 by omega]
    refine sticky_odd ?_ ?_ <;> rw [cast_sub (by omega)] <;> linarith

theorem Sticky.eq_zero_iff (h : Sticky n q) : q = 0 ↔ n = 0 := by
  rcases h.cases with ⟨m, rfl, hq⟩ | ⟨m, rfl, hlo, _⟩
  · rw [hq]
    constructor
    · intro h0
      have : (m : ℚ) = 0 := by linarith
      have : m = 0 := by exact_mod_cast this
      omega
    · intro h0
      obtain rfl : m = 0 := by omega
      simp
  · have : (0 : ℚ) ≤ m := cast_nonneg m
    exact iff_of_false (by linarith) (by omega)

/-! ## The nearest integer -/

/-- `m` is the integer nearest to `q`, the even one of two. -/
structure NearestEven (m : ℕ) (q : ℚ) : Prop where
  ge : 2 * (m : ℚ) - 1 ≤ 2 * q
  le : 2 * q ≤ 2 * m + 1
  tie : 2 * q = 2 * m - 1 ∨ 2 * q = 2 * m + 1 → m % 2 = 0

/-- The decision by three bits: up above the middle, and from the middle to an even number. -/
def roundEighth (n : ℕ) : ℕ := (n + 3 + n / 8 % 2) / 8

theorem nearestEven_self (m : ℕ) : NearestEven m m :=
  ⟨by linarith, by linarith, fun h => by rcases h with h | h <;> linarith⟩

theorem nearestEven_of_lt (hlo : 2 * (m : ℚ) - 1 < 2 * q) (hhi : 2 * q < 2 * m + 1) :
    NearestEven m q :=
  ⟨hlo.le, hhi.le, fun h => by rcases h with h | h <;> linarith⟩

/-- A value with three more bits, the last one sticky, rounds as the exact value does. -/
theorem nearest_of_sticky (h : Sticky n q) : NearestEven (roundEighth n) (q / 8) := by
  have hdiv : n = 8 * (n / 8) + n % 8 := by omega
  have hlt : n % 8 < 8 := mod_lt _ (by decide)
  unfold roundEighth
  generalize n / 8 = t at *
  generalize n % 8 = b at *
  subst hdiv
  rcases h.cases with ⟨m, hm, hq⟩ | ⟨m, hm, hlo, hhi⟩
  · have hq' : q = 8 * t + b := by
      rw [hq]
      exact_mod_cast hm.symm
    obtain rfl | rfl | rfl | rfl : b = 0 ∨ b = 2 ∨ b = 4 ∨ b = 6 := by omega
    · rw [show (8 * t + 0 + 3 + t % 2) / 8 = t by omega]
      push_cast at hq'
      exact nearestEven_of_lt (by linarith) (by linarith)
    · rw [show (8 * t + 2 + 3 + t % 2) / 8 = t by omega]
      push_cast at hq'
      exact nearestEven_of_lt (by linarith) (by linarith)
    · push_cast at hq'
      rcases mod_two_eq_zero_or_one t with ht | ht
      · rw [show (8 * t + 4 + 3 + t % 2) / 8 = t by omega]
        exact ⟨by linarith, by linarith, fun _ => ht⟩
      · rw [show (8 * t + 4 + 3 + t % 2) / 8 = t + 1 by omega]
        exact ⟨by push_cast; linarith, by push_cast; linarith, fun _ => by omega⟩
    · rw [show (8 * t + 6 + 3 + t % 2) / 8 = t + 1 by omega]
      push_cast at hq'
      exact nearestEven_of_lt (by push_cast; linarith) (by push_cast; linarith)
  · have hm' : 2 * (m : ℚ) + 1 = 8 * t + b := by
      exact_mod_cast hm.symm
    obtain rfl | rfl | rfl | rfl : b = 1 ∨ b = 3 ∨ b = 5 ∨ b = 7 := by omega
    · rw [show (8 * t + 1 + 3 + t % 2) / 8 = t by omega]
      push_cast at hm'
      exact nearestEven_of_lt (by linarith) (by linarith)
    · rw [show (8 * t + 3 + 3 + t % 2) / 8 = t by omega]
      push_cast at hm'
      exact nearestEven_of_lt (by linarith) (by linarith)
    · rw [show (8 * t + 5 + 3 + t % 2) / 8 = t + 1 by omega]
      push_cast at hm'
      exact nearestEven_of_lt (by push_cast; linarith) (by push_cast; linarith)
    · rw [show (8 * t + 7 + 3 + t % 2) / 8 = t + 1 by omega]
      push_cast at hm'
      exact nearestEven_of_lt (by push_cast; linarith) (by push_cast; linarith)

/-- One shift to the left, the last bit repeated: the two bits above it decide. -/
theorem nearest_of_sticky_double (h : Sticky n q) :
    NearestEven (roundEighth (2 * n + n % 2)) (q / 4) := by
  have hdiv : n = 4 * (n / 4) + n % 4 := by omega
  have hlt : n % 4 < 4 := mod_lt _ (by decide)
  unfold roundEighth
  generalize n / 4 = t at *
  generalize n % 4 = b at *
  subst hdiv
  rcases h.cases with ⟨m, hm, hq⟩ | ⟨m, hm, hlo, hhi⟩
  · have hq' : q = 4 * t + b := by
      rw [hq]
      exact_mod_cast hm.symm
    obtain rfl | rfl : b = 0 ∨ b = 2 := by omega
    · rw [show (2 * (4 * t + 0) + (4 * t + 0) % 2 + 3 + (2 * (4 * t + 0) + (4 * t + 0) % 2) / 8 % 2) / 8
        = t by omega]
      push_cast at hq'
      exact nearestEven_of_lt (by linarith) (by linarith)
    · push_cast at hq'
      rcases mod_two_eq_zero_or_one t with ht | ht
      · rw [show (2 * (4 * t + 2) + (4 * t + 2) % 2 + 3 +
          (2 * (4 * t + 2) + (4 * t + 2) % 2) / 8 % 2) / 8 = t by omega]
        exact ⟨by linarith, by linarith, fun _ => ht⟩
      · rw [show (2 * (4 * t + 2) + (4 * t + 2) % 2 + 3 +
          (2 * (4 * t + 2) + (4 * t + 2) % 2) / 8 % 2) / 8 = t + 1 by omega]
        exact ⟨by push_cast; linarith, by push_cast; linarith, fun _ => by omega⟩
  · have hm' : 2 * (m : ℚ) + 1 = 4 * t + b := by
      exact_mod_cast hm.symm
    obtain rfl | rfl : b = 1 ∨ b = 3 := by omega
    · rw [show (2 * (4 * t + 1) + (4 * t + 1) % 2 + 3 + (2 * (4 * t + 1) + (4 * t + 1) % 2) / 8 % 2) / 8
        = t by omega]
      push_cast at hm'
      exact nearestEven_of_lt (by linarith) (by linarith)
    · rw [show (2 * (4 * t + 3) + (4 * t + 3) % 2 + 3 + (2 * (4 * t + 3) + (4 * t + 3) % 2) / 8 % 2) / 8
        = t + 1 by omega]
      push_cast at hm'
      exact nearestEven_of_lt (by push_cast; linarith) (by push_cast; linarith)

/-- `k` shifts to the left, the last bit repeated. -/
def expand (k n : ℕ) : ℕ := 2 ^ k * n + (2 ^ k - 1) * (n % 2)

theorem expand_zero (n : ℕ) : expand 0 n = n := by simp [expand]

theorem expand_succ (k n : ℕ) : expand (k + 1) n = expand k (2 * n + n % 2) := by
  have hpow : 1 ≤ 2 ^ k := Nat.two_pow_pos k
  unfold expand
  rw [show (2 * n + n % 2) % 2 = n % 2 by omega, pow_succ]
  rcases mod_two_eq_zero_or_one n with hn | hn
  · rw [hn]
    ring
  · rw [hn, mul_one, mul_one, mul_add, mul_one]
    have : 2 ^ k * 2 * n = 2 ^ k * (2 * n) := by ring
    omega

/-- What a number stands for `k` places to the left: after two an odd one stands for the next even
one. -/
def Stands (k n : ℕ) (q : ℚ) : Prop := if k ≤ 1 ∨ n % 2 = 0 then Sticky n q else q = n + 1

theorem nearest_of_expand (hk : 1 ≤ k) (h : Stands k n q) :
    NearestEven (roundEighth (expand k n)) (q * 2 ^ k / 8) := by
  unfold Stands at h
  split at h
  · rename_i hcase
    rcases mod_two_eq_zero_or_one n with hn | hn
    · have hexp : expand k n = 2 ^ k * n := by
        unfold expand
        rw [hn]
        ring
      have hq : q * 2 ^ k = (2 ^ k * n : ℕ) := by
        rw [h.1 hn]
        push_cast
        ring
      rw [hexp, hq]
      exact nearest_of_sticky (sticky_self _)
    · obtain rfl : k = 1 := by omega
      rw [expand_succ, expand_zero, show q * 2 ^ 1 / 8 = q / 4 by ring]
      exact nearest_of_sticky_double h
  · -- one less than a multiple of eight
    rename_i hcase
    obtain ⟨d, rfl⟩ : ∃ d, k = d + 2 := ⟨k - 2, by omega⟩
    obtain ⟨m, rfl⟩ : ∃ m, n = 2 * m + 1 := ⟨n / 2, by omega⟩
    have hpow : 1 ≤ 2 ^ d := Nat.two_pow_pos d
    have hpos : 1 ≤ 2 ^ d * (m + 1) := Nat.one_le_iff_ne_zero.mpr (Nat.mul_ne_zero (by omega) (by omega))
    have hexp : expand (d + 2) (2 * m + 1) = 8 * (2 ^ d * (m + 1)) - 1 := by
      unfold expand
      rw [show (2 * m + 1) % 2 = 1 by omega, mul_one, pow_add]
      have h1 : 2 ^ d * 2 ^ 2 * (2 * m + 1) = 8 * (2 ^ d * m) + 4 * 2 ^ d := by ring
      have h2 : 2 ^ d * (m + 1) = 2 ^ d * m + 2 ^ d := by ring
      omega
    have hround : roundEighth (8 * (2 ^ d * (m + 1)) - 1) = 2 ^ d * (m + 1) := by
      unfold roundEighth
      omega
    have hq : q * 2 ^ (d + 2) / 8 = (2 ^ d * (m + 1) : ℕ) := by
      rw [h]
      push_cast
      ring
    rw [hexp, hround, hq]
    exact nearestEven_self _

theorem Stands.eq_zero_iff {k n : ℕ} {q : ℚ} (h : Stands k n q) : q = 0 ↔ n = 0 := by
  unfold Stands at h
  split at h
  · exact h.eq_zero_iff
  · next hcase =>
    have : (0 : ℚ) ≤ n := cast_nonneg n
    exact iff_of_false (by linarith) (fun h0 => hcase (.inr (by omega)))

theorem Stands.ge {k n p : ℕ} {q : ℚ} (hk : 1 ≤ k) (h : Stands k n q) (hp : 4 * p ≤ expand k n) :
    4 * (p : ℚ) ≤ q * 2 ^ k := by
  unfold Stands at h
  rcases mod_two_eq_zero_or_one n with hn | hn
  · rw [if_pos (.inr hn)] at h
    unfold expand at hp
    rw [hn, mul_zero, add_zero] at hp
    rw [h.1 hn]
    have : ((4 * p : ℕ) : ℚ) ≤ (2 ^ k * n : ℕ) := by exact_mod_cast hp
    push_cast at this
    linarith
  · split at h
    · obtain rfl : k = 1 := by omega
      rw [expand_succ, expand_zero] at hp
      have := h.ge (k := p) (by omega)
      linarith
    · unfold expand at hp
      rw [hn, Nat.mul_one] at hp
      have hpow : 1 ≤ 2 ^ k := Nat.two_pow_pos k
      have : ((4 * p : ℕ) : ℚ) ≤ (2 ^ k * (n + 1) : ℕ) := by
        exact_mod_cast (show 4 * p ≤ 2 ^ k * (n + 1) by rw [mul_add]; omega)
      push_cast at this
      rw [h]
      linarith

theorem Stands.le {p : ℕ} (hk : 1 ≤ k) (h : Stands k n q) (hp : expand k n < 4 * p) :
    q * 2 ^ k ≤ 4 * (p : ℚ) := by
  unfold Stands at h
  rcases mod_two_eq_zero_or_one n with hn | hn
  · rw [if_pos (.inr hn)] at h
    unfold expand at hp
    rw [hn, mul_zero, add_zero] at hp
    rw [h.1 hn]
    have : ((2 ^ k * n : ℕ) : ℚ) < (4 * p : ℕ) := by exact_mod_cast hp
    push_cast at this
    linarith
  · split at h
    · obtain rfl : k = 1 := by omega
      rw [expand_succ, expand_zero] at hp
      have := h.lt (k := p) (by omega)
      linarith
    · unfold expand at hp
      rw [hn, Nat.mul_one] at hp
      have hpow : 1 ≤ 2 ^ k := Nat.two_pow_pos k
      have : ((2 ^ k * (n + 1) : ℕ) : ℚ) ≤ (4 * p : ℕ) := by
        exact_mod_cast (show 2 ^ k * (n + 1) ≤ 4 * p by rw [mul_add]; omega)
      push_cast at this
      rw [h]
      linarith

/-! ## The grid -/

/-- The grid point of a number, in units of the smallest one. -/
def grid (c n : ℕ) : ℕ := if n < 2 ^ c then n else (2 ^ c + n % 2 ^ c) * 2 ^ (n / 2 ^ c - 1)

/-- A point of the binade `e`, or one of the two ends of it. -/
theorem grid_add (he : e = 0 ∨ 2 ^ c ≤ m) (hm : m ≤ 2 * 2 ^ c) :
    grid c (e * 2 ^ c + m) = m * 2 ^ e := by
  have hP : 0 < 2 ^ c := Nat.two_pow_pos c
  unfold grid
  by_cases hlow : e * 2 ^ c + m < 2 ^ c
  · have he0 : e = 0 := by
      rcases he with he | he
      · exact he
      · omega
    rw [if_pos hlow, he0]
    ring
  · rw [if_neg hlow]
    have hPm : 2 ^ c ≤ m := by
      rcases he with he | he
      · rw [he] at hlow
        omega
      · exact he
    rcases lt_or_ge m (2 * 2 ^ c) with hlt | hge
    · have hsplit : e * 2 ^ c + m = (m - 2 ^ c) + 2 ^ c * (e + 1) := by
        rw [mul_add, mul_comm]
        omega
      rw [hsplit, add_mul_mod_self_left, add_mul_div_left _ _ hP,
        mod_eq_of_lt (show m - 2 ^ c < 2 ^ c by omega),
        div_eq_of_lt (show m - 2 ^ c < 2 ^ c by omega),
        show 2 ^ c + (m - 2 ^ c) = m by omega, show 0 + (e + 1) - 1 = e by omega]
    · have hm2 : m = 2 * 2 ^ c := by omega
      have hsplit : e * 2 ^ c + m = 0 + 2 ^ c * (e + 2) := by
        rw [hm2]
        ring
      rw [hsplit, Nat.add_mul_mod_self_left, Nat.add_mul_div_left _ _ hP, Nat.zero_mod, Nat.zero_div,
        show 0 + (e + 2) - 1 = e + 1 by omega, hm2, Nat.pow_succ]
      ring

theorem exists_binade (c n : ℕ) :
    ∃ e m, n = e * 2 ^ c + m ∧ (e = 0 ∨ 2 ^ c ≤ m) ∧ m < 2 * 2 ^ c := by
  have hP : 0 < 2 ^ c := Nat.two_pow_pos c
  rcases Nat.lt_or_ge n (2 ^ c) with hlt | hge
  · exact ⟨0, n, by omega, .inl rfl, by omega⟩
  · have hdiv := div_add_mod n (2 ^ c)
    have hmod := mod_lt n hP
    have hpos : 1 ≤ n / 2 ^ c := (one_le_div_iff hP).mpr hge
    obtain ⟨e, he⟩ : ∃ e, n / 2 ^ c = e + 1 := ⟨n / 2 ^ c - 1, by omega⟩
    refine ⟨e, 2 ^ c + n % 2 ^ c, ?_, .inr (by omega), by omega⟩
    rw [he, mul_add, mul_one, mul_comm] at hdiv
    omega

theorem grid_succ (he : e = 0 ∨ 2 ^ c ≤ m) (hm : m < 2 * 2 ^ c) :
    grid c (e * 2 ^ c + m + 1) = grid c (e * 2 ^ c + m) + 2 ^ e := by
  rw [add_assoc, grid_add (he.imp id fun h => by omega) (by omega), grid_add he (by omega)]
  ring

theorem grid_lt_succ (c n : ℕ) : grid c n < grid c (n + 1) := by
  obtain ⟨e, m, rfl, he, hm⟩ := exists_binade c n
  rw [grid_succ he hm]
  have := Nat.two_pow_pos e
  omega

theorem grid_strictMono (c : ℕ) : StrictMono (grid c) := strictMono_nat_of_lt_succ (grid_lt_succ c)

theorem grid_pred (he : e = 0 ∨ 2 ^ c ≤ m) (hm : m ≤ 2 * 2 ^ c)
    (hk : e * 2 ^ c + m = k + 1) : (grid c k : ℚ) = (m - 1) * 2 ^ e ∨
      (m = 2 ^ c ∧ 1 ≤ e ∧ (grid c k : ℚ) = (m - 1 / 2) * 2 ^ e) := by
  have hP : 1 ≤ 2 ^ c := Nat.two_pow_pos c
  by_cases hfirst : e = 0 ∨ 2 ^ c < m
  · left
    have hpos : 1 ≤ m := by
      rcases hfirst with h | h
      · rw [h] at hk
        omega
      · omega
    rw [show k = e * 2 ^ c + (m - 1) by omega, grid_add (hfirst.imp id fun h => by omega) (by omega)]
    push_cast [cast_sub hpos]
    ring
  · right
    obtain ⟨d, rfl⟩ : ∃ d, e = d + 1 := ⟨e - 1, by omega⟩
    obtain rfl : m = 2 ^ c := by omega
    have hk' : k = d * 2 ^ c + (2 * 2 ^ c - 1) := by
      have : (d + 1) * 2 ^ c = d * 2 ^ c + 2 ^ c := by ring
      omega
    refine ⟨rfl, by omega, ?_⟩
    rw [hk', grid_add (.inr (by omega)) (by omega), pow_succ]
    push_cast [cast_sub (show 1 ≤ 2 * 2 ^ c by omega)]
    ring

/-! ## Rounding to the grid -/

/-- `n` is the number of the grid point nearest to `q`, the even one of two. -/
structure RoundsTo (c : ℕ) (q : ℚ) (n : ℕ) : Prop where
  le : 2 * q ≤ grid c n + grid c (n + 1)
  tie_le : 2 * q = grid c n + grid c (n + 1) → n % 2 = 0
  ge : ∀ k, n = k + 1 → (grid c k : ℚ) + grid c n ≤ 2 * q
  tie_ge : ∀ k, n = k + 1 → (grid c k : ℚ) + grid c n = 2 * q → n % 2 = 0

theorem RoundsTo.not_lt (h : RoundsTo c q n) (h' : RoundsTo c q n') : ¬ n < n' := by
  intro hlt
  obtain ⟨k, rfl⟩ : ∃ k, n' = k + 1 := ⟨n' - 1, by omega⟩
  have hge := h'.ge k rfl
  have hle := h.le
  rcases lt_or_ge n k with hk | hk
  · have h1 : (grid c n : ℚ) < grid c k := by exact_mod_cast grid_strictMono c hk
    have h2 : (grid c (n + 1) : ℚ) < grid c (k + 1) := by
      exact_mod_cast grid_strictMono c (show n + 1 < k + 1 by omega)
    linarith
  · -- two neighbours, so a tie, and both cannot be even
    obtain rfl : k = n := by omega
    have hn := h.tie_le (by linarith)
    have hn' := h'.tie_ge k rfl (by linarith)
    omega

theorem RoundsTo.unique (h : RoundsTo c q n) (h' : RoundsTo c q n') : n = n' := by
  have := h.not_lt h'
  have := h'.not_lt h
  omega

theorem binade_parity (hc : 1 ≤ c) (e m : ℕ) : (e * 2 ^ c + m) % 2 = m % 2 := by
  obtain ⟨d, rfl⟩ : ∃ d, c = d + 1 := ⟨c - 1, by omega⟩
  have : e * 2 ^ (d + 1) = 2 * (e * 2 ^ d) := by ring
  omega

/-- The nearest multiple of the last place is the nearest number, also where the rounding carries
into the next binade. -/
theorem roundsTo_of_nearest (hc : 1 ≤ c) (hnear : NearestEven m q)
    (he : e = 0 ∨ (2 ^ c : ℕ) ≤ q) (hlt : q ≤ (2 * 2 ^ c : ℕ)) :
    RoundsTo c (q * 2 ^ e) (e * 2 ^ c + m) := by
  have hpow : (0 : ℚ) < 2 ^ e := by positivity
  have hparity := binade_parity hc e m
  have hge := hnear.ge
  have hle := hnear.le
  have hm : m ≤ 2 * 2 ^ c := by
    have : (2 * m : ℚ) ≤ 2 * (2 * 2 ^ c : ℕ) + 1 := by linarith
    have : 2 * m ≤ 2 * (2 * 2 ^ c) + 1 := by exact_mod_cast this
    omega
  have hem : e = 0 ∨ 2 ^ c ≤ m := by
    refine he.imp id fun h => ?_
    have : (2 * (2 ^ c : ℕ) : ℚ) ≤ 2 * m + 1 := by linarith
    have : 2 * 2 ^ c ≤ 2 * m + 1 := by exact_mod_cast this
    omega
  have hgrid : (grid c (e * 2 ^ c + m) : ℚ) = m * 2 ^ e := by
    rw [grid_add hem hm]
    push_cast
    ring
  -- the upper neighbour, which is farther away at the end of the binade
  have hnext : (m + 1 : ℚ) * 2 ^ e ≤ grid c (e * 2 ^ c + m + 1) ∧
      (m < 2 * 2 ^ c → (grid c (e * 2 ^ c + m + 1) : ℚ) = (m + 1) * 2 ^ e) := by
    have hstep := grid_lt_succ c (e * 2 ^ c + m)
    rcases lt_or_ge m (2 * 2 ^ c) with hlt' | hge'
    · have hsucc : (grid c (e * 2 ^ c + m + 1) : ℚ) = (m + 1) * 2 ^ e := by
        rw [grid_succ hem hlt']
        push_cast
        rw [hgrid]
        ring
      exact ⟨hsucc.ge, fun _ => hsucc⟩
    · refine ⟨?_, fun h => by omega⟩
      have hm2 : m = 2 * 2 ^ c := by omega
      have hP : 1 ≤ 2 ^ c := Nat.two_pow_pos c
      have hsucc : grid c (e * 2 ^ c + m + 1) = (2 ^ c + 1) * 2 ^ (e + 1) := by
        rw [hm2, show e * 2 ^ c + 2 * 2 ^ c + 1 = (e + 1) * 2 ^ c + (2 ^ c + 1) by ring]
        exact grid_add (.inr (by omega)) (by omega)
      rw [hsucc, hm2]
      push_cast
      rw [pow_succ]
      have : (0 : ℚ) ≤ 2 ^ e := hpow.le
      nlinarith
  have hprev : ∀ k, e * 2 ^ c + m = k + 1 → (grid c k : ℚ) = (m - 1) * 2 ^ e ∨
      (grid c k : ℚ) + grid c (e * 2 ^ c + m) < 2 * (q * 2 ^ e) := by
    intro k hk
    refine (grid_pred hem hm hk).imp id ?_
    rintro ⟨hmP, he0, hk'⟩
    have hq : (m : ℚ) ≤ q := by
      rcases he with h | h
      · omega
      · rw [hmP]
        exact h
    rw [hgrid, hk']
    nlinarith [mul_le_mul_of_nonneg_right hq hpow.le]
  refine ⟨?_, fun htie => ?_, fun k hk => ?_, fun k hk htie => ?_⟩
  · rw [hgrid]
    have := mul_le_mul_of_nonneg_right hle hpow.le
    linarith [hnext.1]
  · rw [hparity]
    rcases lt_or_ge m (2 * 2 ^ c) with hlt' | hge'
    · rw [hgrid, hnext.2 hlt'] at htie
      refine hnear.tie (.inr ?_)
      have : (2 * q - (2 * m + 1)) * 2 ^ e = 0 := by linarith
      rcases mul_eq_zero.mp this with h | h
      · linarith
      · exact absurd h hpow.ne'
    · have : m = 2 * 2 ^ c := by omega
      omega
  · have := mul_le_mul_of_nonneg_right hge hpow.le
    rcases hprev k hk with hk' | hk'
    · rw [hgrid, hk']
      linarith
    · exact hk'.le
  · rw [hparity]
    rcases hprev k hk with hk' | hk'
    · rw [hgrid, hk'] at htie
      refine hnear.tie (.inl ?_)
      have : (2 * q - (2 * m - 1)) * 2 ^ e = 0 := by linarith
      rcases mul_eq_zero.mp this with h | h
      · linarith
      · exact absurd h hpow.ne'
    · exact absurd htie hk'.ne

theorem roundsTo_zero (hc : 1 ≤ c) : RoundsTo c 0 0 := by
  have hnear : NearestEven 0 0 := by exact_mod_cast nearestEven_self 0
  have h := roundsTo_of_nearest (e := 0) hc hnear (.inl rfl) (cast_nonneg _)
  simpa using h

theorem roundsTo_of_close (hlo : 2 ^ c ≤ m) (hhi : m < 2 * 2 ^ c)
    (hbelow : (m : ℚ) - 1 / 4 < q) (habove : q < m + 1 / 4) :
    RoundsTo c (q * 2 ^ e) (e * 2 ^ c + m) := by
  have hpow : (0 : ℚ) < 2 ^ e := by positivity
  have hgrid : (grid c (e * 2 ^ c + m) : ℚ) = m * 2 ^ e := by
    rw [grid_add (.inr hlo) (by omega)]
    push_cast
    ring
  have hnext : 2 * (q * 2 ^ e) < grid c (e * 2 ^ c + m) + grid c (e * 2 ^ c + m + 1) := by
    rw [grid_succ (.inr hlo) hhi]
    push_cast
    rw [hgrid]
    nlinarith [mul_lt_mul_of_pos_right habove hpow]
  have hprev : ∀ k, e * 2 ^ c + m = k + 1 →
      (grid c k : ℚ) + grid c (e * 2 ^ c + m) < 2 * (q * 2 ^ e) := by
    intro k hk
    rw [hgrid]
    rcases grid_pred (.inr hlo) (by omega) hk with hk' | ⟨_, _, hk'⟩
    · rw [hk']
      nlinarith [mul_lt_mul_of_pos_right hbelow hpow]
    · rw [hk']
      nlinarith [mul_lt_mul_of_pos_right hbelow hpow]
  exact ⟨hnext.le, fun h => absurd h hnext.ne, fun k hk => (hprev k hk).le,
    fun k hk h => absurd h (hprev k hk).ne⟩

end Rounding
