import Mathlib.Data.List.Basic

/-! # Blocks cut off a line

A dispenser hands out blocks of indices from 0 upwards, each starting
where the last one ended. However long the blocks are, they are
disjoint and leave no gap. -/

namespace Tiling

/-- The blocks, latest first, cut `0 .. m - 1` into non-empty pieces. -/
inductive Tiles : Int → List (Int × Int) → Prop
  | nil : Tiles 0 []
  | cons {m len : Int} {bs : List (Int × Int)} :
      Tiles m bs → 0 < len → Tiles (m + len) ((m, m + len) :: bs)

variable {m : Int} {bs : List (Int × Int)}

theorem Tiles.bounds (h : Tiles m bs) : 0 ≤ m ∧ ∀ b ∈ bs, 0 ≤ b.1 ∧ b.1 < b.2 ∧ b.2 ≤ m := by
  induction h with
  | nil => exact ⟨by omega, fun b hb => absurd hb List.not_mem_nil⟩
  | cons _ hlen ih =>
    obtain ⟨hm, hall⟩ := ih
    refine ⟨by omega, fun b hb => ?_⟩
    rcases List.mem_cons.mp hb with rfl | hb
    · exact ⟨hm, by dsimp only; omega, by dsimp only; omega⟩
    · have := hall b hb
      omega

theorem Tiles.pairwise (h : Tiles m bs) : bs.Pairwise (fun b b' => b.2 ≤ b'.1 ∨ b'.2 ≤ b.1):= by
  induction h with
  | nil => exact List.Pairwise.nil
  | cons hprev _ ih =>
    exact List.pairwise_cons.mpr ⟨fun b hb => .inr (hprev.bounds.2 b hb).2.2, ih⟩

theorem Tiles.cover (h : Tiles m bs) {k : Int} (h0 : 0 ≤ k) (hk : k < m) :
    ∃ b ∈ bs, b.1 ≤ k ∧ k < b.2 := by
  induction h with
  | nil => omega
  | @cons m len bs _ _ ih =>
    by_cases hlt : k < m
    · obtain ⟨b, hb, hin⟩ := ih hlt
      exact ⟨b, List.mem_cons_of_mem _ hb, hin⟩
    · exact ⟨(m, m + len), List.mem_cons_self, by dsimp only; omega, hk⟩

end Tiling
