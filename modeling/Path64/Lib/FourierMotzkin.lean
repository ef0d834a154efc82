import Mathlib.Algebra.Order.Field.Basic
import Mathlib.Data.Finset.Max
import Mathlib.Tactic.Linarith

/-! # Eliminating one variable from linear inequalities

A finite family of inequalities `a r * v <= u r` in one variable over an
ordered field has a solution just when its rows without the variable
hold and each positive row agrees with each negative one. -/

namespace FourierMotzkin

/-- Finitely many lower bounds that lie below finitely many upper ones. -/
theorem exists_between_of_le {K : Type*} [LinearOrder K] [Nonempty K] (lower upper : Finset K)
    (h : ∀ l ∈ lower, ∀ u ∈ upper, l ≤ u) : ∃ v, (∀ l ∈ lower, l ≤ v) ∧ ∀ u ∈ upper, v ≤ u:= by
  rcases lower.eq_empty_or_nonempty with rfl | hne
  · rcases upper.eq_empty_or_nonempty with rfl | hne'
    · exact ⟨Classical.arbitrary K, by simp, by simp⟩
    · exact ⟨upper.min' hne', by simp, fun u hu => upper.min'_le u hu⟩
  · exact ⟨lower.max' hne, fun l hl => lower.le_max' l hl,
      fun u hu => h _ (lower.max'_mem hne) u hu⟩

variable {K : Type*} [Field K] [LinearOrder K] [IsStrictOrderedRing K]

theorem le_of_combination {ap am up um : K} (hp : 0 < ap) (hm : am < 0)
    (h : 0 ≤ ap * um - am * up) : um / am ≤ up / ap := by
  rw [div_le_iff_of_neg hm, div_mul_eq_mul_div, div_le_iff₀ hp]
  linarith

/-- The elimination of the variable from `a r * v <= u r`, `r < n`. -/
theorem exists_value_iff (n : Nat) (a u : Nat → K) : (∃ v, ∀ r < n, a r * v ≤ u r) ↔
      (∀ r < n, a r = 0 → 0 ≤ u r) ∧
      ∀ p < n, ∀ m < n, 0 < a p → a m < 0 → 0 ≤ a p * u m - a m * u p := by
  constructor
  · rintro ⟨v, hv⟩
    refine ⟨fun r hr h0 => ?_, fun p hp m hm hpos hneg => ?_⟩
    · have := hv r hr
      rwa [h0, zero_mul] at this
    · have h1 := mul_le_mul_of_nonneg_left (hv m hm) hpos.le
      have h2 := mul_le_mul_of_nonpos_left (hv p hp) hneg.le
      linarith [mul_left_comm (a p) (a m) v]
  · rintro ⟨hzero, hcomb⟩
    obtain ⟨v, hlo, hhi⟩ := exists_between_of_le
      (((Finset.range n).filter (fun m => a m < 0)).image (fun m => u m / a m))
      (((Finset.range n).filter (fun p => 0 < a p)).image (fun p => u p / a p))
      (by
        intro l hl h hh
        obtain ⟨m, hm, rfl⟩ := Finset.mem_image.mp hl
        obtain ⟨p, hp, rfl⟩ := Finset.mem_image.mp hh
        rw [Finset.mem_filter, Finset.mem_range] at hm hp
        exact le_of_combination hp.2 hm.2 (hcomb p hp.1 m hm.1 hp.2 hm.2))
    refine ⟨v, fun r hr => ?_⟩
    rcases lt_trichotomy (a r) 0 with hneg | hnull | hpos
    · have hle := hlo (u r / a r) (Finset.mem_image_of_mem (fun m => u m / a m)
        (Finset.mem_filter.mpr ⟨Finset.mem_range.mpr hr, hneg⟩))
      rw [div_le_iff_of_neg hneg] at hle
      linarith
    · rw [hnull, zero_mul]
      exact hzero r hr hnull
    · have hle := hhi (u r / a r) (Finset.mem_image_of_mem (fun p => u p / a p)
        (Finset.mem_filter.mpr ⟨Finset.mem_range.mpr hr, hpos⟩))
      rw [le_div_iff₀ hpos] at hle
      linarith

end FourierMotzkin
