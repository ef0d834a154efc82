import Mathlib.Data.Real.Basic
import Path64.Lib.FieldRow
import Path64.Soe.SubInEqual

/-! # The two simple-redundancy tests

`Simple_Redundant` and `Is_Simple_Redundant` find out whether one row
is a multiple of the other, and which of the two is tighter. They are
near-copies, and the second reports a tie as 2. -/

namespace Soe

open LinearRow Loop

/-! ## Model -/

/-- `Simple_Redundant`; its column loop is that of `Is_Simple_Redundant`. -/
def simpleRedundant (ar : Arith) (row1 row2 : Nat → Int) (row1c row2c : Int)
    (minVar cols : Nat) : Nat :=
  match forFrom (multipleStep ar row1 row2) (cols - minVar) minVar none with
  | .error _ => 0
  | .ok m =>
    let n := (m.getD (1, 1)).1
    let d := (m.getD (1, 1)).2
    if abs64 ar row1c > int32Max then 0
    else if abs64 ar row2c > int32Max then 0
    else if n = d then (if row1c < row2c then 2 else if row2c < row1c then 1 else 3)
    else if ar.i64 (d * row1c) < ar.i64 (n * row2c) then 2
    else if ar.i64 (d * row1c) > ar.i64 (n * row2c) then 1
    else 3

/-! ## The column loop -/

variable {k : Nat}

section columns
variable {row1 row2 : Nat → Int} {minVar cols : Nat}

/-- Column `k` is the first in use; `row1 k * row2` is `row2 k * row1` below `j`. -/
structure MultipleAt (row1 row2 : Nat → Int) (minVar j k : Nat) : Prop where
  lo : minVar ≤ k
  hi : k < j
  first : ∀ c, minVar ≤ c → c < k → row1 c = 0 ∧ row2 c = 0
  sign : 0 < row1 k * row2 k
  mult : ∀ c, minVar ≤ c → c < j → row1 k * row2 c = row2 k * row1 c

/-- What the loop knows after the columns below `j`. -/
def MultipleInv (row1 row2 : Nat → Int) (minVar j : Nat) : Option (Int × Int) → Prop
  | none => ∀ c, minVar ≤ c → c < j → row1 c = 0 ∧ row2 c = 0
  | some (n, d) => ∃ k, MultipleAt row1 row2 minVar j k ∧ n = row1 k ∧ d = row2 k

theorem mul_pos_of_same_sign {a b : Int} (ha : a ≠ 0) (hb : b ≠ 0)
    (h : ¬ decide (a < 0) ≠ decide (b < 0)) : 0 < a * b := by
  have hiff : a < 0 ↔ b < 0 := decide_eq_decide.mp (not_not.mp h)
  rcases lt_or_gt_of_ne ha with hneg | hpos
  · exact mul_pos_of_neg_of_neg hneg (hiff.mp hneg)
  · exact mul_pos hpos (by omega)

/-- One column of the comparison: the rows seen so far are multiples of each other, or the scan
stops. -/
theorem multipleStep_inv {j : Nat} {m : Option (Int × Int)} (hj : minVar ≤ j)
    (h : MultipleInv row1 row2 minVar j m) :
    Outcome (fun _ => True) (MultipleInv row1 row2 minVar (j + 1))
      (multipleStep .exact row1 row2 j m) := by
  -- a column in which the rows agree with the multiple extends what is known
  have hext : (∀ n d, m = some (n, d) → n * row2 j = d * row1 j) →
      (m = none → row1 j = 0 ∧ row2 j = 0) → MultipleInv row1 row2 minVar (j + 1) m := by
    intro hsome hnone
    cases m with
    | none =>
      intro c hlo hhi
      rcases Nat.lt_succ_iff_lt_or_eq.mp hhi with hlt | rfl
      · exact h c hlo hlt
      · exact hnone rfl
    | some p =>
      obtain ⟨n, d⟩ := p
      obtain ⟨k, hk, rfl, rfl⟩ := h
      refine ⟨k, ⟨hk.lo, by have := hk.hi; omega, hk.first, hk.sign, ?_⟩, rfl, rfl⟩
      intro c hlo hhi
      rcases Nat.lt_succ_iff_lt_or_eq.mp hhi with hlt | rfl
      · exact hk.mult c hlo hlt
      · exact hsome _ _ rfl
  unfold multipleStep
  by_cases h1 : row1 j = 0
  · rw [if_pos h1]
    by_cases h2 : row2 j = 0
    · rw [if_neg (by omega)]
      exact hext (fun n d _ => by rw [h1, h2, mul_zero, mul_zero]) (fun _ => ⟨h1, h2⟩)
    · rw [if_pos h2]
      trivial
  · rw [if_neg h1]
    by_cases h2 : row2 j = 0
    · rw [if_pos h2]
      trivial
    · rw [if_neg h2]
      cases m with
      | none =>
        simp only
        split
        · trivial
        · next hsign =>
          refine ⟨j, ⟨hj, by omega, h, mul_pos_of_same_sign h1 h2 hsign, ?_⟩, rfl, rfl⟩
          intro c hlo hhi
          rcases Nat.lt_succ_iff_lt_or_eq.mp hhi with hlt | rfl
          · obtain ⟨z1, z2⟩ := h c hlo hlt
            rw [z1, z2, mul_zero, mul_zero]
          · exact mul_comm _ _
      | some p =>
        obtain ⟨n, d⟩ := p
        dsimp only
        by_cases hmult : Arith.exact.i64 (n * row2 j) = Arith.exact.i64 (d * row1 j)
        · rw [if_neg (not_not.mpr hmult)]
          refine hext (fun n' d' heq => ?_) (fun heq => by cases heq)
          cases heq
          exact hmult
        · rw [if_pos hmult]
          trivial

theorem multipleLoop_inv (row1 row2 : Nat → Int) (minVar cols : Nat) :
    Outcome (fun _ => True) (MultipleInv row1 row2 minVar (minVar + (cols - minVar)))
      (forFrom (multipleStep .exact row1 row2) (cols - minVar) minVar none) :=
  forFrom_outcome (MultipleInv row1 row2 minVar) _ _ _ (fun _ _ hlo _ h => multipleStep_inv hlo h)
    (fun _ h1 h2 => absurd h2 (Nat.not_lt.mpr h1))

theorem multipleLoop_some (hk : MultipleAt row1 row2 minVar cols k) :
    forFrom (multipleStep .exact row1 row2) (cols - minVar) minVar none
      = .ok (some (row1 k, row2 k)) := by
  have hne : row1 k ≠ 0 ∧ row2 k ≠ 0 := by
    constructor
    · intro h0
      have := hk.sign
      rw [h0, zero_mul] at this
      omega
    · intro h0
      have := hk.sign
      rw [h0, mul_zero] at this
      omega
  have hlo := hk.lo
  have hhi := hk.hi
  have hloop := forFrom_outcome (f := multipleStep .exact row1 row2) (Q := fun _ => False)
    (fun j m => m = if j ≤ k then none else some (row1 k, row2 k)) (cols - minVar) minVar none
    (by
      intro j m hj hjc hm
      have hmult := hk.mult j hj (by omega)
      subst hm
      unfold multipleStep
      rcases Nat.lt_trichotomy j k with hlt | rfl | hgt
      · -- before the first coefficient that is not zero
        obtain ⟨z1, z2⟩ := hk.first j hj hlt
        rw [if_pos z1, if_neg (not_not.mpr z2), if_pos hlt.le]
        show none = if j + 1 ≤ k then none else some (row1 k, row2 k)
        rw [if_pos (show j + 1 ≤ k by omega)]
      · have hsame : ¬ decide (row1 j < 0) ≠ decide (row2 j < 0) := by
          have hsign := hk.sign
          rw [not_not]
          refine decide_eq_decide.mpr ⟨fun h => ?_, fun h => ?_⟩
          · by_contra hge
            have := mul_nonpos_of_nonpos_of_nonneg h.le (not_lt.mp hge)
            omega
          · by_contra hge
            have := mul_nonpos_of_nonneg_of_nonpos (not_lt.mp hge) h.le
            omega
        rw [if_neg hne.1, if_neg hne.2, if_pos (le_refl j)]
        simp only
        rw [if_neg hsame]
        show some (row1 j, row2 j) = if j + 1 ≤ j then none else some (row1 j, row2 j)
        rw [if_neg (show ¬ j + 1 ≤ j by omega)]
      · rw [if_neg (show ¬ j ≤ k by omega)]
        have hgoal : (some (row1 k, row2 k) : Option (Int × Int))
            = if j + 1 ≤ k then none else some (row1 k, row2 k) := by
          rw [if_neg (show ¬ j + 1 ≤ k by omega)]
        by_cases z1 : row1 j = 0
        · have z2 : row2 j = 0 := by
            rw [z1, mul_zero] at hmult
            exact (mul_eq_zero.mp hmult).resolve_left hne.1
          rw [if_pos z1, if_neg (not_not.mpr z2)]
          exact hgoal
        · have z2 : row2 j ≠ 0 := by
            intro z2
            rw [z2, mul_zero] at hmult
            exact z1 ((mul_eq_zero.mp hmult.symm).resolve_left hne.2)
          rw [if_neg z1, if_neg z2]
          dsimp only
          rw [if_neg (not_not.mpr
            (show Arith.exact.i64 (row1 k * row2 j) = Arith.exact.i64 (row2 k * row1 j) from hmult))]
          exact hgoal)
    (by rw [if_pos hlo])
  obtain ⟨m, hres, hm⟩ := hloop.exists_ok
  rw [hres, hm, if_neg (by omega)]

end columns

/-! ## The verdicts -/

section verdicts
variable {row1 row2 : Nat → Int} {row1c row2c : Int} {minVar cols : Nat}
variable {K : Type*} [Field K] [LinearOrder K] [IsStrictOrderedRing K]

theorem MultipleAt.symm {j k : Nat} (h : MultipleAt row1 row2 minVar j k) :
    MultipleAt row2 row1 minVar j k :=
  ⟨h.lo, h.hi, fun c h1 h2 => (h.first c h1 h2).symm, by rw [mul_comm]; exact h.sign,
    fun c h1 h2 => (h.mult c h1 h2).symm⟩

theorem MultipleAt.implies (h : MultipleAt row1 row2 minVar cols k) (row1c row2c : Int)
    (htight : 0 < row2 k ∧ row2 k * row1c ≤ row1 k * row2c ∨
      row2 k < 0 ∧ row1 k * row2c ≤ row2 k * row1c) (x : Nat → K)
    (hx : Below minVar cols row1 row1c x) : Below minVar cols row2 row2c x :=
  hx.of_multiple h.sign h.mult htight

theorem MultipleAt.implied (h : MultipleAt row1 row2 minVar cols k) (row1c row2c : Int)
    (htight : 0 < row2 k ∧ row1 k * row2c ≤ row2 k * row1c ∨
      row2 k < 0 ∧ row2 k * row1c ≤ row1 k * row2c) (x : Nat → K)
    (hx : Below minVar cols row2 row2c x) : Below minVar cols row1 row1c x := by
  refine hx.of_multiple h.symm.sign h.symm.mult ?_
  have hsign := h.sign
  rcases htight with ⟨hpos, hle⟩ | ⟨hneg, hle⟩
  · exact .inl ⟨pos_of_mul_pos_left hsign hpos.le, hle⟩
  · refine .inr ⟨?_, hle⟩
    by_contra hge
    have := mul_nonpos_of_nonneg_of_nonpos (not_lt.mp hge) hneg.le
    omega

/-- The verdicts of the two functions are right over the reals, and agree. -/
structure VerdictsRight (row1 row2 : Nat → Int) (row1c row2c : Int) (minVar cols v v' : Nat) :
    Prop where
  first : v = 1 ∨ v' = 1 → ∀ x : Nat → ℝ,
    Below minVar cols row2 row2c x → Below minVar cols row1 row1c x
  second : v = 2 ∨ v' = 2 → ∀ x : Nat → ℝ,
    Below minVar cols row1 row1c x → Below minVar cols row2 row2c x
  tie : v = 3 → ∀ x : Nat → ℝ,
    Below minVar cols row1 row1c x ↔ Below minVar cols row2 row2c x
  agree : v' = if v = 3 then 2 else v

/-- The two products compare as they do when they are cut to 64 bits. -/
def SameOrder (u v : Int) : Prop :=
  (Arith.machine.i64 u < Arith.machine.i64 v ↔ u < v) ∧
    (Arith.machine.i64 v < Arith.machine.i64 u ↔ v < u)

/-- The rows are multiples by a factor other than 1, and they begin negatively and are not equivalent,
or begin positively and the products with the constants compare otherwise in 64 bits. -/
def Misjudged (row1 row2 : Nat → Int) (row1c row2c : Int) (minVar cols : Nat) : Prop :=
  ∃ k, MultipleAt row1 row2 minVar cols k ∧ row1 k ≠ row2 k ∧
    (row2 k < 0 ∧ row2 k * row1c ≠ row1 k * row2c ∨
      0 < row2 k ∧ ¬ SameOrder (row2 k * row1c) (row1 k * row2c))

theorem verdictsRight_zero : VerdictsRight row1 row2 row1c row2c minVar cols 0 0 :=
  ⟨fun h => by omega, fun h => by omega, fun h => by omega, by simp⟩

theorem verdictsRight_null (hnull : ∀ c, minVar ≤ c → c < cols → row1 c = 0 ∧ row2 c = 0) :
    VerdictsRight row1 row2 row1c row2c minVar cols
      (if row1c < row2c then 2 else if row2c < row1c then 1 else 3)
      (if row1c ≤ row2c then 2 else 1) := by
  have hbelow : ∀ x : Nat → ℝ, (Below minVar cols row1 row1c x ↔ 0 ≤ row1c) ∧
      (Below minVar cols row2 row2c x ↔ 0 ≤ row2c) := by
    intro x
    unfold Below
    rw [value_eq_zero fun j h1 h2 => (hnull j h1 h2).1, value_eq_zero fun j h1 h2 => (hnull j h1 h2).2]
    exact ⟨by exact_mod_cast Iff.rfl, by exact_mod_cast Iff.rfl⟩
  refine ⟨fun hv x => ?_, fun hv x => ?_, fun hv x => ?_, ?_⟩
  · rw [(hbelow x).1, (hbelow x).2]
    split_ifs at hv <;> omega
  · rw [(hbelow x).1, (hbelow x).2]
    split_ifs at hv <;> omega
  · rw [(hbelow x).1, (hbelow x).2]
    split_ifs at hv <;> omega
  · split_ifs <;> first | rfl | omega

theorem verdictsRight_same (h : MultipleAt row1 row2 minVar cols k)
    (heq : row1 k = row2 k) : VerdictsRight row1 row2 row1c row2c minVar cols
      (if row1c < row2c then 2 else if row2c < row1c then 1 else 3)
      (if row1c ≤ row2c then 2 else 1) := by
  have hne : row2 k ≠ 0 := fun h0 => by
    have := h.sign
    rw [h0, mul_zero] at this
    omega
  have hle : row1c ≤ row2c → ∀ x : Nat → ℝ,
      Below minVar cols row1 row1c x → Below minVar cols row2 row2c x := by
    intro hc x
    refine h.implies _ _ ?_ x
    rw [heq]
    rcases lt_or_gt_of_ne hne with hneg | hpos
    · exact .inr ⟨hneg, mul_le_mul_of_nonpos_left hc hneg.le⟩
    · exact .inl ⟨hpos, mul_le_mul_of_nonneg_left hc (le_of_lt hpos)⟩
  have hge : row2c ≤ row1c → ∀ x : Nat → ℝ,
      Below minVar cols row2 row2c x → Below minVar cols row1 row1c x := by
    intro hc x
    refine h.implied _ _ ?_ x
    rw [heq]
    rcases lt_or_gt_of_ne hne with hneg | hpos
    · exact .inr ⟨hneg, mul_le_mul_of_nonpos_left hc hneg.le⟩
    · exact .inl ⟨hpos, mul_le_mul_of_nonneg_left hc (le_of_lt hpos)⟩
  refine ⟨fun hv => hge ?_, fun hv => hle ?_, fun hv x => ⟨hle ?_ x, hge ?_ x⟩, ?_⟩
  · split_ifs at hv <;> omega
  · split_ifs at hv <;> omega
  · split_ifs at hv <;> omega
  · split_ifs at hv <;> omega
  · split_ifs <;> first | rfl | omega

/-- A point on the edge of the second row shows which of the two is tighter. -/
theorem MultipleAt.le_of_implied (h : MultipleAt row1 row2 minVar cols k)
    (himp : ∀ x : Nat → ℝ, Below minVar cols row2 row2c x → Below minVar cols row1 row1c x) :
    (0 < row2 k → row1 k * row2c ≤ row2 k * row1c) ∧
      (row2 k < 0 → row2 k * row1c ≤ row1 k * row2c) := by
  have hvalue : ∀ (row : Nat → Int) (v : ℝ),
      value minVar cols row (Function.update 0 k v) = row k * v := fun row v => by
    rw [value_update row 0 v h.lo h.hi]
    simp [value]
  have hedge : (row2 k : ℝ) ≠ 0 → row1 k * (row2c / row2 k : ℝ) ≤ row1c := fun hne => by
    have hx := himp (Function.update 0 k (row2c / row2 k))
      (by unfold Below; rw [hvalue, mul_div_cancel₀ _ hne])
    unfold Below at hx
    rwa [hvalue] at hx
  constructor
  · intro hpos
    have hpos' : (0 : ℝ) < row2 k := by exact_mod_cast hpos
    have hx := hedge hpos'.ne'
    rw [← mul_div_assoc, div_le_iff₀ hpos', mul_comm (row1c : ℝ)] at hx
    exact_mod_cast hx
  · intro hneg
    have hneg' : (row2 k : ℝ) < 0 := by exact_mod_cast hneg
    have hx := hedge hneg'.ne
    rw [← mul_div_assoc, div_le_iff_of_neg hneg', mul_comm (row1c : ℝ)] at hx
    exact_mod_cast hx

/-- Where one row is a multiple of the other, the wrapped products have to compare as the true ones
do. -/
theorem verdictsRight_multiple (h : MultipleAt row1 row2 minVar cols k) :
    VerdictsRight row1 row2 row1c row2c minVar cols
      (if Arith.machine.i64 (row2 k * row1c) < Arith.machine.i64 (row1 k * row2c) then 2
        else if Arith.machine.i64 (row2 k * row1c) > Arith.machine.i64 (row1 k * row2c) then 1 else 3)
      (if (row2 k > 0 ∧ Arith.machine.i64 (row2 k * row1c) ≤ Arith.machine.i64 (row1 k * row2c)) ∨
          (row2 k < 0 ∧ Arith.machine.i64 (row2 k * row1c) ≥ Arith.machine.i64 (row1 k * row2c))
        then 2 else 1) ↔
      ¬ (row2 k < 0 ∧ row2 k * row1c ≠ row1 k * row2c ∨
        0 < row2 k ∧ ¬ SameOrder (row2 k * row1c) (row1 k * row2c)) := by
  have hne : row2 k ≠ 0 := fun h0 => by
    have := h.sign
    rw [h0, mul_zero] at this
    omega
  have hsign : (0 < row2 k → 0 < row1 k) ∧ (row2 k < 0 → row1 k < 0) :=
    ⟨fun hpos => pos_of_mul_pos_left h.sign hpos.le, fun hneg => by
      by_contra hge
      have := mul_nonpos_of_nonneg_of_nonpos (not_lt.mp hge) hneg.le
      have := h.sign
      omega⟩
  have himplies := h.implies (K := ℝ) row1c row2c
  have himplied := h.implied (K := ℝ) row1c row2c
  have hfirst : _ → (0 < row2 k → row1 k * row2c ≤ row2 k * row1c) ∧
      (row2 k < 0 → row2 k * row1c ≤ row1 k * row2c) := h.le_of_implied
  have hsecond : _ → (0 < row1 k → row2 k * row1c ≤ row1 k * row2c) ∧
      (row1 k < 0 → row1 k * row2c ≤ row2 k * row1c) := h.symm.le_of_implied
  have hcut : row2 k * row1c = row1 k * row2c →
      Arith.machine.i64 (row2 k * row1c) = Arith.machine.i64 (row1 k * row2c) :=
    fun heq => by rw [heq]
  unfold SameOrder
  generalize row2 k * row1c = u at *
  generalize row1 k * row2c = v at *
  generalize Arith.machine.i64 u = cu at *
  generalize Arith.machine.i64 v = cv at *
  constructor
  · -- a wrong order of the products gives a wrong verdict
    rintro ⟨hone, htwo, htie, hagree⟩ hbad
    rcases lt_trichotomy cu cv with hlt | rfl | hgt
    · rw [if_pos hlt] at htwo hagree
      have hle := hsecond (htwo (.inl rfl))
      split_ifs at hagree <;> omega
    · rw [if_neg (lt_irrefl cu), if_neg (lt_irrefl cu)] at htie
      have hle := hfirst fun x => (htie rfl x).mpr
      have hge := hsecond fun x => (htie rfl x).mp
      omega
    · rw [if_neg (not_lt.mpr hgt.le), if_pos hgt] at hone hagree
      have hle := hfirst (hone (.inl rfl))
      split_ifs at hagree <;> omega
  · -- the right order gives the right one
    intro hok
    refine ⟨fun hv => himplied ?_, fun hv => himplies ?_,
      fun hv x => ⟨himplies ?_ x, himplied ?_ x⟩, ?_⟩
    · split_ifs at hv <;> omega
    · split_ifs at hv <;> omega
    · split_ifs at hv <;> omega
    · split_ifs at hv <;> omega
    · split_ifs <;> first | rfl | omega

end verdicts

/-! ## In machine arithmetic -/

section machine
variable {row1 row2 : Nat → Int} {row1c row2c : Int} {minVar cols : Nat}

theorem multipleLoop_machine (h1 : ∀ j, Fits32 (row1 j)) (h2 : ∀ j, Fits32 (row2 j)) :
    forFrom (multipleStep .machine row1 row2) (cols - minVar) minVar none
      = forFrom (multipleStep .exact row1 row2) (cols - minVar) minVar none := by
  refine forFrom_congr (fun _ m => ∀ n d, m = some (n, d) → Fits32 n ∧ Fits32 d) _ _ _ ?_
    (fun n d h => by cases h)
  intro j m _ _ hm
  cases m with
  | none =>
    refine ⟨rfl, ?_⟩
    unfold multipleStep
    split_ifs
    · trivial
    · exact hm
    · trivial
    · trivial
    · intro n d heq
      cases heq
      exact ⟨h1 j, h2 j⟩
  | some p =>
    obtain ⟨n, d⟩ := p
    obtain ⟨hn, hd⟩ := hm n d rfl
    have hprod1 := machine_i64 (product_fits hn (h2 j) (h2 j)).1
    have hprod2 := machine_i64 (product_fits hd (h1 j) (h1 j)).1
    refine ⟨?_, ?_⟩
    · unfold multipleStep
      simp only [hprod1, hprod2]
      rfl
    · unfold multipleStep
      dsimp only
      split_ifs
      · trivial
      · exact hm
      · trivial
      · trivial
      · exact hm

end machine

/-- **The two simple-redundancy tests.** Over the reals their verdicts on rows with 32-bit
coefficients are right and agree, except on rows that are misjudged. -/
theorem simpleRedundant_right_iff (row1 row2 : Nat → Int) (row1c row2c : Int) (minVar cols : Nat)
    (h1 : ∀ j, Fits32 (row1 j)) (h2 : ∀ j, Fits32 (row2 j)) :
    VerdictsRight row1 row2 row1c row2c minVar cols
      (simpleRedundant .machine row1 row2 row1c row2c minVar cols)
      (isSimpleRedundant .machine row1 row2 row1c row2c minVar cols) ↔
      ¬ Misjudged row1 row2 row1c row2c minVar cols := by
  have hinv := multipleLoop_inv row1 row2 minVar cols
  have hsome : ∀ k, MultipleAt row1 row2 minVar cols k →
      forFrom (multipleStep .exact row1 row2) (cols - minVar) minVar none
        = .ok (some (row1 k, row2 k)) := fun k hk => multipleLoop_some hk
  unfold simpleRedundant isSimpleRedundant
  rw [multipleLoop_machine h1 h2]
  generalize forFrom (multipleStep .exact row1 row2) (cols - minVar) minVar none = r at *
  rcases r with _ | m
  · -- not multiples of each other
    refine iff_of_true verdictsRight_zero ?_
    rintro ⟨k, hk, _⟩
    cases hsome k hk
  · -- the range checks never fire
    simp only [if_neg (not_lt.mpr (abs64_machine_le _))]
    rcases m with _ | ⟨n, d⟩
    · simp only [Option.getD_none, if_true]
      refine iff_of_true (verdictsRight_null fun c h1 h2 => hinv c h1 (by omega)) ?_
      rintro ⟨k, hk, _⟩
      cases hsome k hk
    · obtain ⟨k, hk, rfl, rfl⟩ := hinv
      have hcols : minVar + (cols - minVar) = cols := by
        have := hk.lo
        have := hk.hi
        omega
      rw [hcols] at hk
      simp only [Option.getD_some]
      -- the column is determined up to its entries
      have hmis : Misjudged row1 row2 row1c row2c minVar cols ↔ row1 k ≠ row2 k ∧
          (row2 k < 0 ∧ row2 k * row1c ≠ row1 k * row2c ∨
            0 < row2 k ∧ ¬ SameOrder (row2 k * row1c) (row1 k * row2c)) := by
        constructor
        · rintro ⟨k', hk', hrest⟩
          have heq := hsome k' hk'
          simp only [Except.ok.injEq, Option.some.injEq, Prod.mk.injEq] at heq
          rw [heq.1, heq.2]
          exact hrest
        · exact fun hrest => ⟨k, hk, hrest⟩
      rw [hmis]
      by_cases hnd : row1 k = row2 k
      · simp only [if_pos hnd]
        exact iff_of_true (verdictsRight_same hk hnd) fun hc => hc.1 hnd
      · simp only [if_neg hnd]
        refine Iff.trans (verdictsRight_multiple hk) ?_
        exact ⟨fun h hc => h hc.2, fun h hc => h ⟨hnd, hc⟩⟩

theorem simpleRedundant_right_double : VerdictsRight (fun _ => 1) (fun _ => 2) 4 6 0 1 1 1:= by
  refine (simpleRedundant_right_iff (fun _ => 1) (fun _ => 2) 4 6 0 1 (fun _ => by decide)
    (fun _ => by decide)).mpr ?_
  rintro ⟨_, _, -, ⟨hneg, _⟩ | ⟨_, hnot⟩⟩
  · exact absurd hneg (show ¬ (2 : Int) < 0 by decide)
  · exact hnot (show SameOrder (2 * 4) (1 * 6) from ⟨by decide, by decide⟩)

/-- `-x <= 4` and `-2 x <= 6`: the second row is tighter, but `Simple_Redundant` calls it redundant.
-/
theorem simpleRedundant_flips : ¬ VerdictsRight (fun _ => -1) (fun _ => -2) 4 6 0 1
      (simpleRedundant .machine (fun _ => -1) (fun _ => -2) 4 6 0 1)
      (isSimpleRedundant .machine (fun _ => -1) (fun _ => -2) 4 6 0 1) := by
  rw [show simpleRedundant .machine (fun _ => -1) (fun _ => -2) 4 6 0 1 = 2 by decide,
    show isSimpleRedundant .machine (fun _ => -1) (fun _ => -2) 4 6 0 1 = 1 by decide]
  intro h
  exact absurd h.agree (by decide)

end Soe
