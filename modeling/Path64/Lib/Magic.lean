import Mathlib.Tactic.Linarith
import Mathlib.Tactic.Ring

/-! # Division by multiplication

A quotient `x / d` by a constant is the high part of a product
`x * m`, for a multiplier `m` with `m * d = P + e` and a small error
`e`. How large the error may be depends on `x`: on the distance from
`x` to the next multiple of `d`. -/

namespace Magic

open Nat

variable {m d P e x N : Nat}

/-! ## The quotient -/

/-- The error of `x` stays below the next quotient. -/
def Fits (d P e x : Nat) : Prop := x * e < (d - x % d) * P

theorem mul_mul_eq (hm : m * d = P + e) : x * m * d = x * P + x * e := by
  rw [mul_assoc, hm, mul_add]

theorem quot_mul (hd : 0 < d) : x / d * d + x % d = x ∧ x % d < d := by
  refine ⟨?_, mod_lt x hd⟩
  rw [mul_comm]
  exact div_add_mod x d

section

variable (hd : 0 < d) (hm : m * d = P + e)
include hd hm

theorem quot_le : x / d * P ≤ x * m := by
  obtain ⟨hq, -⟩ := quot_mul (x := x) hd
  have hmul := mul_mul_eq (x := x) hm
  have hle : x / d * P * d ≤ x * m * d := by
    calc x / d * P * d = x / d * d * P := by ring
      _ ≤ x * P := mul_le_mul_right P (by omega)
      _ ≤ x * m * d := by omega
  exact le_of_mul_le_mul_right hle hd

theorem lt_quot_succ (hx : Fits d P e x) : x * m < (x / d + 1) * P:= by
  obtain ⟨hq, hr⟩ := quot_mul (x := x) hd
  have hmul := mul_mul_eq (x := x) hm
  have hsucc : (x / d + 1) * P * d = (x + (d - x % d)) * P := by
    have : (x / d + 1) * d = x + (d - x % d) := by
      rw [add_mul]
      omega
    rw [← this]
    ring
  have hlt : x * m * d < (x / d + 1) * P * d := by
    rw [hmul, hsucc, Nat.add_mul]
    exact Nat.add_lt_add_left hx _
  exact Nat.lt_of_mul_lt_mul_right hlt

theorem div_eq (hx : Fits d P e x) : x * m / P = x / d:= by
  have hhi := lt_quot_succ hd hm hx
  have hP : 0 < P := by
    rcases Nat.eq_zero_or_pos P with rfl | h
    · simp at hhi
    · exact h
  exact Nat.div_eq_of_lt_le (quot_le hd hm) hhi

/-- Below 0 the high part is one below the quotient when the error is not 0. -/
theorem neg_div_eq (he : 0 < e) (hx : 0 < x)
    (hhi : x * m ≤ (x / d + 1) * P) : (-(x : Int) * m) / P = -(x / d : Nat) - 1 := by
  have hlo : x / d * P < x * m := by
    obtain ⟨hq, -⟩ := quot_mul (x := x) hd
    have hmul := mul_mul_eq (x := x) hm
    have hpos : 0 < x * e := mul_pos hx he
    have hlt : x / d * P * d < x * m * d := by
      calc x / d * P * d = x / d * d * P := by ring
        _ ≤ x * P := mul_le_mul_right P (by omega)
        _ < x * m * d := by omega
    exact Nat.lt_of_mul_lt_mul_right hlt
  have hP : 0 < P := by
    rcases Nat.eq_zero_or_pos P with rfl | h
    · omega
    · exact h
  have hlo' : ((x / d : Nat) : Int) * P < x * m := by exact_mod_cast hlo
  have hhi' : (x : Int) * m ≤ ((x / d : Nat) + 1) * P := by exact_mod_cast hhi
  have hP' : (0 : Int) < P := by exact_mod_cast hP
  refine le_antisymm ?_ ?_
  · refine Int.le_sub_one_of_lt (Int.ediv_lt_of_lt_mul hP' ?_)
    linarith
  · refine Int.le_ediv_of_mul_le hP' ?_
    linarith

theorem tdiv_eq (he : 0 < e) (X : Int) (hpos : 0 ≤ X → Fits d P e X.natAbs)
    (hneg : X < 0 → X.natAbs * m ≤ (X.natAbs / d + 1) * P) :
    X * m / P + (if X < 0 then 1 else 0) = X.tdiv d := by
  rcases lt_or_ge X 0 with hX | hX
  · obtain ⟨x, hx, rfl⟩ : ∃ x : Nat, 0 < x ∧ X = -(x : Int) := ⟨X.natAbs, by omega, by omega⟩
    have habs : (-(x : Int)).natAbs = x := by omega
    rw [habs] at hneg
    rw [if_pos hX, neg_div_eq hd hm he hx (hneg hX), Int.neg_tdiv, Int.ofNat_tdiv]
    omega
  · obtain ⟨x, rfl⟩ : ∃ x : Nat, X = x := ⟨X.toNat, by omega⟩
    have hq := div_eq hd hm (hpos hX)
    rw [Int.natAbs_natCast] at hq
    rw [if_neg (by omega), add_zero, ← Int.ofNat_tdiv, ← hq]
    push_cast
    rfl

end

/-! ## Small errors -/

theorem fits_of_lt (hd : 0 < d) (hx : x * e < P) : Fits d P e x := by
  have hr := mod_lt x hd
  calc x * e < P := hx
    _ = 1 * P := (one_mul P).symm
    _ ≤ (d - x % d) * P := mul_le_mul_right P (by omega)

/-- An error that is small against the largest multiple of `d` up to `N`. -/
theorem fits_of_multiple (hP : 0 < P) (hdN : d ≤ N) (hd : 0 < d)
    (he : e * (N - N % d) ≤ P) (hx : x < N ∨ x = N ∧ N % d + 1 < d) : Fits d P e x := by
  obtain ⟨hN, hNr⟩ := quot_mul (x := N) hd
  obtain ⟨hq, hr⟩ := quot_mul (x := x) hd
  have hquot : 1 ≤ N / d := div_pos hdN hd
  have hw : N - N % d = N / d * d := by omega
  have hdw : d ≤ N / d * d := Nat.le_mul_of_pos_left d hquot
  rw [hw] at he
  -- the dividend is less than the distance times the multiple
  have hlt : x < (d - x % d) * (N / d * d) := by
    by_cases hbelow : x < N / d * d
    · exact lt_of_lt_of_le hbelow (Nat.le_mul_of_pos_left _ (by omega))
    · have hdiv : x / d = N / d := by
        apply Nat.div_eq_of_lt_le
        · omega
        · rw [Nat.add_mul]
          omega
      have htwo : 2 ≤ d - x % d := by
        rw [hdiv] at hq
        omega
      have := mul_le_mul_right (N / d * d) htwo
      omega
  rcases Nat.eq_zero_or_pos e with rfl | hepos
  · unfold Fits
    rw [mul_zero]
    exact mul_pos (by omega) hP
  · calc x * e < (d - x % d) * (N / d * d) * e := mul_lt_mul_of_pos_right hlt hepos
      _ = (d - x % d) * (e * (N / d * d)) := by ring
      _ ≤ (d - x % d) * P := mul_le_mul_left _ he

/-- The bound as a dividend, an even factor of `P`: a multiplier is a whole number. -/
theorem top_le {c : Nat} (hd : 1 < d) (hdN : d ≤ N) (heven : N % 2 = 0) (hc : 0 < c)
    (hcd : c ≤ 2 * d) (hm : m * d = N * c + e) (he : e * (N - N % d) ≤ N * c) :
    N * m ≤ (N / d + 1) * (N * c) := by
  have hdpos : 0 < d := by omega
  obtain ⟨hN, hNr⟩ := quot_mul (x := N) hdpos
  have hquot : 1 ≤ N / d := div_pos hdN hdpos
  by_cases hlast : N % d + 1 < d
  · have hP : 0 < N * c := mul_pos (by omega) hc
    exact (lt_quot_succ hdpos hm (fits_of_multiple hP hdN hdpos he (.inr ⟨rfl, hlast⟩))).le
  · -- the next number is a multiple of `d`
    have hrem : N % d = d - 1 := by omega
    have hnext : (N / d + 1) * d = N + 1 := by
      rw [add_mul]
      omega
    have hw : N - N % d = N / d * d := by omega
    rw [hw] at he
    have hle : m ≤ (N / d + 1) * c := by
      by_contra hgt
      have hbig : ((N / d + 1) * c + 1) * d ≤ m * d := mul_le_mul_right d (by omega)
      have hexp : ((N / d + 1) * c + 1) * d = N * c + (c + d) := by
        calc ((N / d + 1) * c + 1) * d = (N / d + 1) * d * c + d := by ring
          _ = N * c + (c + d) := by rw [hnext]; ring
      have hprod : (c + d) * (N / d * d) ≤ N * c :=
        le_trans (mul_le_mul_right _ (by omega)) he
      have hNc : N * c = N / d * d * c + (d - 1) * c := by
        rw [← add_mul]
        congr 1
        omega
      have hdw : d * (N / d * d) ≤ (d - 1) * c := by
        have : (c + d) * (N / d * d) = N / d * d * c + d * (N / d * d) := by ring
        omega
      have hdc : (d - 1) * c ≤ (d - 1) * (2 * d) := mul_le_mul_left _ hcd
      have hsmall : N / d * d ≤ 2 * (d - 1) := by
        have : d * (N / d * d) ≤ d * (2 * (d - 1)) := by
          calc d * (N / d * d) ≤ (d - 1) * (2 * d) := le_trans hdw hdc
            _ = d * (2 * (d - 1)) := by ring
        exact le_of_mul_le_mul_left this hdpos
      have hone : N / d = 1 := by
        have : N / d * d < 2 * d := by omega
        have := lt_of_mul_lt_mul_right this
        omega
      rw [hone] at hN
      omega
    calc N * m ≤ N * ((N / d + 1) * c) := mul_le_mul_left N hle
      _ = (N / d + 1) * (N * c) := by ring

/-! ## Multipliers of one bit more than a word -/

/-- The subtract, shift and add that replace an addition with a carry. -/
theorem average {h : Nat} (hle : h ≤ x) : h + (x - h) / 2 = (x + h) / 2 := by omega

/-- The high part of a product with a multiplier above the word `W`. -/
theorem add_high {W : Nat} (hW : 0 < W) : x + x * m / W = x * (W + m) / W := by
  rw [mul_add, mul_comm x W, mul_add_div hW]

/-! ## Rounding up -/

theorem ceil_eq (hd : 0 < d) (hP : 0 < P) : (P - 1) / d + 1 = (P + d - 1) / d := by
  rw [show P + d - 1 = P - 1 + d by omega, add_div_right _ hd]

theorem ceil_error (hd : 0 < d) (hP : 0 < P) : ∃ e, ((P - 1) / d + 1) * d = P + e ∧ e < d:= by
  obtain ⟨hq, hr⟩ := quot_mul (x := P - 1) hd
  refine ⟨d - 1 - (P - 1) % d, ?_, by omega⟩
  rw [add_mul]
  omega

theorem below_ceil (hP : 0 < P) {c : Nat} (hc : c ≤ (P - 1) / d) : d * c / P = 0 := by
  have hle : d * c ≤ P - 1 :=
    le_trans (mul_le_mul_left d hc) (mul_div_le (P - 1) d)
  exact div_eq_of_lt (by omega)

end Magic
