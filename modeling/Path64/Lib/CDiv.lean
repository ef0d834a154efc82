import Mathlib.Tactic.Linarith

/-! # Division of C integers

C's `/` and `%` truncate towards zero (`Int.tdiv`, `Int.tmod`). Code
that wants the floor tests the sign and the remainder first; the
lemmas below say that each of the usual spellings is the floor. -/

namespace CDiv

variable {a c : Int}

/-- Truncated division of a negative number, not even, is one above the floor. -/
theorem tdiv_of_neg (ha : 0 < a) (hc : ¬ (0 ≤ c ∨ c.tmod a = 0)) : c.tdiv a = c / a + 1:= by
  have hnd : ¬ a ∣ c := fun h => hc (.inr (Int.dvd_iff_tmod_eq_zero.mp h))
  have hneg : ¬ 0 ≤ c := fun h => hc (.inl h)
  rw [Int.tdiv_eq_ediv, if_neg (by tauto), Int.sign_eq_one_of_pos ha]

theorem tdiv_of_nonneg_or_dvd (hc : 0 ≤ c ∨ c.tmod a = 0) : c.tdiv a = c / a := by
  rcases hc with hc | hc
  · exact Int.tdiv_eq_ediv_of_nonneg hc
  · exact Int.tdiv_eq_ediv_of_dvd (Int.dvd_iff_tmod_eq_zero.mpr hc)

theorem floor_neg_tdiv (ha : 0 < a) :
    (if 0 ≤ c ∨ c.tmod a = 0 then c.tdiv a else -((-c).tdiv a) - 1) = c / a := by
  split
  · next h => exact tdiv_of_nonneg_or_dvd h
  · next h => rw [Int.neg_tdiv, tdiv_of_neg ha h]; omega

theorem floor_tdiv_sub_one (ha : 0 < a) :
    (if 0 < c ∨ c.tmod a = 0 then c.tdiv a else c.tdiv a - 1) = c / a := by
  split
  · next h => exact tdiv_of_nonneg_or_dvd (h.imp le_of_lt id)
  · next h =>
    have hc : ¬ (0 ≤ c ∨ c.tmod a = 0) := by
      rintro (h0 | h0)
      · have hzero : c = 0 := by omega
        exact h (.inr (by rw [hzero, Int.zero_tmod]))
      · exact h (.inr h0)
    rw [tdiv_of_neg ha hc]; omega

end CDiv
