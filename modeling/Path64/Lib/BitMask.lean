import Mathlib.Data.BitVec
import Mathlib.Tactic.Ring

/-! # Sets of bits

A machine word read as a set of bit positions, the relation "these two
words agree on the bits of this set", and the way the arithmetic and
bitwise operations carry that relation from their operands to their
result. -/

namespace BitMask

open BitVec

variable {w : Nat} {m n a b c d : BitVec w}

/-! ## Inclusion and agreement -/

/-- Every bit of `m` is a bit of `n`. -/
def Sub (m n : BitVec w) : Prop :=
  ∀ i, m.getLsbD i = true → n.getLsbD i = true

/-- `a` and `b` have the same bits at the positions of `m`. -/
def AgreeOn (m a b : BitVec w) : Prop :=
  ∀ i, m.getLsbD i = true → a.getLsbD i = b.getLsbD i

theorem Sub.refl (m : BitVec w) : Sub m m := fun _ h => h

variable {k : BitVec w}

theorem Sub.trans (h₁ : Sub m n) (h₂ : Sub n k) : Sub m k :=
  fun i h => h₂ i (h₁ i h)

theorem sub_or_left (m n : BitVec w) : Sub m (m ||| n) := by
  intro i h
  simp [h]

theorem sub_or_right (m n : BitVec w) : Sub n (m ||| n) := by
  intro i h
  simp [h]

theorem or_sub (h₁ : Sub m k) (h₂ : Sub n k) : Sub (m ||| n) k := by
  intro i h
  rw [getLsbD_or, Bool.or_eq_true] at h
  rcases h with h | h
  · exact h₁ i h
  · exact h₂ i h

theorem and_sub_left (m n : BitVec w) : Sub (m &&& n) m := by
  intro i h
  rw [getLsbD_and, Bool.and_eq_true] at h
  exact h.1

theorem and_sub_right (m n : BitVec w) : Sub (m &&& n) n := by
  intro i h
  rw [getLsbD_and, Bool.and_eq_true] at h
  exact h.2

theorem zero_sub (n : BitVec w) : Sub 0 n := by
  intro i h
  simp at h

theorem sub_iff_or_eq : Sub m n ↔ m ||| n = n := by
  constructor
  · intro h
    apply eq_of_getLsbD_eq
    intro i _
    rw [getLsbD_or]
    cases hm : m.getLsbD i with
    | false => simp
    | true => simp [h i hm]
  · intro h
    rw [← h]
    exact sub_or_left m n

theorem sub_iff_and_not_eq_zero : Sub m n ↔ m &&& ~~~n = 0 := by
  constructor
  · intro h
    apply eq_of_getLsbD_eq
    intro i hi
    cases hm : m.getLsbD i with
    | false => simp [hm]
    | true => simp [hm, h i hm]
  · intro h i hm
    have hbit : (m &&& ~~~n).getLsbD i = false := by simp [h]
    have hi : i < w := lt_of_getLsbD hm
    simpa [hm, hi] using hbit

theorem eq_zero_iff : m = 0 ↔ ∀ i, m.getLsbD i = false := by
  constructor
  · intro h i
    simp [h]
  · intro h
    apply eq_of_getLsbD_eq
    intro i _
    simp [h i]

theorem ne_zero_iff : m ≠ 0 ↔ ∃ i, m.getLsbD i = true := by
  rw [Ne, eq_zero_iff, not_forall]
  simp only [Bool.not_eq_false]

theorem AgreeOn.refl (m a : BitVec w) : AgreeOn m a a := fun _ _ => rfl

theorem AgreeOn.trans (h₁ : AgreeOn m a b) (h₂ : AgreeOn m b c) : AgreeOn m a c :=
  fun i hi => (h₁ i hi).trans (h₂ i hi)

theorem AgreeOn.mono (h : AgreeOn n a b) (hs : Sub m n) : AgreeOn m a b :=
  fun i hi => h i (hs i hi)

theorem agreeOn_zero (a b : BitVec w) : AgreeOn 0 a b := by
  intro i h
  simp at h

theorem AgreeOn.eq_and (h : AgreeOn m a b) : a &&& m = b &&& m := by
  apply eq_of_getLsbD_eq
  intro i _
  rw [getLsbD_and, getLsbD_and]
  cases hm : m.getLsbD i with
  | false => simp
  | true => simp [h i hm]

theorem agreeOn_iff_xor : AgreeOn m a b ↔ (a ^^^ b) &&& m = 0 := by
  rw [eq_zero_iff]
  constructor
  · intro h i
    cases hm : m.getLsbD i with
    | false => simp [hm]
    | true => simp [h i hm]
  · intro h i hm
    have hbit := h i
    rw [getLsbD_and, getLsbD_xor, hm, Bool.and_true] at hbit
    simpa using hbit

instance (m a b : BitVec w) : Decidable (AgreeOn m a b) :=
  decidable_of_iff _ agreeOn_iff_xor.symm

/-! ## Additive transformers -/

/-- A transformer of sets that distributes over union. -/
def Additive (f : BitVec w → BitVec w) : Prop :=
  ∀ m n, f (m ||| n) = f m ||| f n

theorem Additive.mono {f : BitVec w → BitVec w} (hf : Additive f) (h : Sub m n) :
    Sub (f m) (f n) := by
  rw [sub_iff_or_eq] at h ⊢
  rw [← hf, h]

theorem additive_id : Additive (fun m : BitVec w => m) := fun _ _ => rfl

theorem additive_const (c : BitVec w) : Additive (fun _ => c) := by
  intro m n
  simp

theorem Additive.and {f : BitVec w → BitVec w} (hf : Additive f) (c : BitVec w) :
    Additive (fun m => f m &&& c) := by
  intro m n
  simp only [hf m n]
  apply eq_of_getLsbD_eq
  intro i _
  simp only [getLsbD_and, getLsbD_or, Bool.and_or_distrib_right]

theorem Additive.or {f g : BitVec w → BitVec w} (hf : Additive f) (hg : Additive g) :
    Additive (fun m => f m ||| g m) := by
  intro m n
  simp only [hf m n, hg m n]
  apply eq_of_getLsbD_eq
  intro i _
  simp only [getLsbD_or]
  cases (f m).getLsbD i <;> cases (g m).getLsbD i <;> simp

section

variable {f : BitVec w → BitVec w} (hf : Additive f)
include hf

theorem Additive.shiftLeft (k : Nat) : Additive (fun m => f m <<< k):= by
  intro m n
  simp only [hf m n]
  apply eq_of_getLsbD_eq
  intro i _
  simp only [getLsbD_or, getLsbD_shiftLeft, Bool.and_or_distrib_left]

theorem Additive.ushiftRight (k : Nat) : Additive (fun m => f m >>> k):= by
  intro m n
  simp only [hf m n]
  apply eq_of_getLsbD_eq
  intro i _
  simp only [getLsbD_or, getLsbD_ushiftRight]

theorem Additive.guard (c : BitVec w) : Additive (fun m => if f m ≠ 0 then c else 0) := by
  intro m n
  have hor : f m ||| f n = 0 ↔ f m = 0 ∧ f n = 0 := by
    simp only [eq_zero_iff, getLsbD_or, Bool.or_eq_false_iff]
    exact forall_and
  simp only [hf m n, Ne, hor]
  by_cases hm : f m = 0 <;> by_cases hn : f n = 0 <;> simp only [hm, hn] <;> simp

end

theorem Additive.comp {f g : BitVec w → BitVec w} (hf : Additive f) (hg : Additive g) :
    Additive (fun m => f (g m)) := by
  intro m n
  simp only [hg m n, hf (g m) (g n)]

/-! ## Everything below the highest bit -/

/-- `f` gathers the bits of `m` above each position at distances that are multiples of `k`. -/
def Gathers (k : Nat) (m f : BitVec w) : Prop :=
  ∀ i, f.getLsbD i = true ↔ ∃ j, m.getLsbD (i + k * j) = true

theorem gathers_width (m : BitVec w) : Gathers w m m := by
  intro i
  constructor
  · intro h
    exact ⟨0, by simpa using h⟩
  · rintro ⟨j, hj⟩
    have hlt := lt_of_getLsbD hj
    have hj0 : j = 0 := by
      by_contra hne
      have : w * 1 ≤ w * j := Nat.mul_le_mul_left w (by omega)
      omega
    simpa [hj0] using hj

theorem Gathers.halve {k : Nat} {f : BitVec w} (h : Gathers (2 * k) m f) :
    Gathers k m (f ||| f >>> k) := by
  intro i
  rw [getLsbD_or, getLsbD_ushiftRight, Bool.or_eq_true, h i, h (k + i)]
  constructor
  · rintro (⟨j, hj⟩ | ⟨j, hj⟩)
    · exact ⟨2 * j, by rw [show i + k * (2 * j) = i + 2 * k * j by ring]; exact hj⟩
    · exact ⟨2 * j + 1, by rw [show i + k * (2 * j + 1) = k + i + 2 * k * j by ring]; exact hj⟩
  · rintro ⟨j, hj⟩
    rcases Nat.even_or_odd' j with ⟨l, rfl | rfl⟩
    · exact .inl ⟨l, by rw [show i + 2 * k * l = i + k * (2 * l) by ring]; exact hj⟩
    · exact .inr ⟨l, by rw [show k + i + 2 * k * l = i + k * (2 * l + 1) by ring]; exact hj⟩

theorem gathers_one_iff {f : BitVec w} (h : Gathers 1 m f) (i : Nat) :
    f.getLsbD i = true ↔ ∃ j, i ≤ j ∧ m.getLsbD j = true := by
  rw [h i]
  constructor
  · rintro ⟨j, hj⟩
    exact ⟨i + 1 * j, by omega, hj⟩
  · rintro ⟨j, hij, hj⟩
    exact ⟨j - i, by rw [show i + 1 * (j - i) = j by omega]; exact hj⟩

/-! ## Operations -/

theorem AgreeOn.not (h : AgreeOn m a b) : AgreeOn m (~~~a) (~~~b) := by
  intro i hi
  simp [h i hi]

section

variable (h₁ : AgreeOn m a b) (h₂ : AgreeOn m c d)
include h₁ h₂

theorem AgreeOn.xor : AgreeOn m (a ^^^ c) (b ^^^ d):= by
  intro i hi
  simp [h₁ i hi, h₂ i hi]

theorem AgreeOn.and : AgreeOn m (a &&& c) (b &&& d):= by
  intro i hi
  simp [h₁ i hi, h₂ i hi]

theorem AgreeOn.or : AgreeOn m (a ||| c) (b ||| d):= by
  intro i hi
  simp [h₁ i hi, h₂ i hi]

end

/-- Where an operand of a conjunction is known, the other one matters only at the ones. -/
theorem AgreeOn.and_known (h₁ : AgreeOn (m &&& k) a b)
    (h₂ : AgreeOn m k d) : AgreeOn m (a &&& k) (b &&& d) := by
  intro i hi
  rw [getLsbD_and, getLsbD_and, ← h₂ i hi]
  cases hk : k.getLsbD i with
  | false => simp
  | true => rw [h₁ i (by simp [hi, hk])]

/-- Where an operand of a disjunction is known, the other one matters only at the zeros. -/
theorem AgreeOn.or_known (h₁ : AgreeOn (m &&& ~~~k) a b)
    (h₂ : AgreeOn m k d) : AgreeOn m (a ||| k) (b ||| d) := by
  intro i hi
  have hlt : i < w := lt_of_getLsbD hi
  rw [getLsbD_or, getLsbD_or, ← h₂ i hi]
  cases hk : k.getLsbD i with
  | true => simp
  | false =>
    have hmem : (m &&& ~~~k).getLsbD i = true := by
      rw [getLsbD_and, getLsbD_not, hi, hk, decide_eq_true hlt]
      rfl
    rw [h₁ i hmem]

/-- Words that agree up to bit `i` have the same low part. -/
theorem setWidth_eq_of_agree {i : Nat} (h : ∀ j, j ≤ i → a.getLsbD j = b.getLsbD j) :
    a.setWidth (i + 1) = b.setWidth (i + 1) := by
  apply eq_of_getLsbD_eq
  intro j hj
  rw [getLsbD_setWidth, getLsbD_setWidth, h j (by omega)]

theorem getLsbD_eq_setWidth (a : BitVec w) (i : Nat) :
    a.getLsbD i = (a.setWidth (i + 1)).getLsbD i := by
  rw [getLsbD_setWidth]
  simp

/-- `f` holds, with each bit of `m`, all the bits below it. -/
def DownClosed (m f : BitVec w) : Prop :=
  ∀ i j, m.getLsbD i = true → j ≤ i → f.getLsbD j = true

section

variable (f : BitVec w) (hf : DownClosed m f)
include f hf

theorem agreeOn_add (h₁ : AgreeOn f a b) (h₂ : AgreeOn f c d) : AgreeOn m (a + c) (b + d):= by
  intro i hi
  have hlt : i + 1 ≤ w := lt_of_getLsbD hi
  rw [getLsbD_eq_setWidth (a + c), getLsbD_eq_setWidth (b + d),
    setWidth_add _ _ hlt, setWidth_add _ _ hlt,
    setWidth_eq_of_agree (fun j hj => h₁ j (hf i j hi hj)),
    setWidth_eq_of_agree (fun j hj => h₂ j (hf i j hi hj))]

theorem agreeOn_mul (h₁ : AgreeOn f a b) (h₂ : AgreeOn f c d) : AgreeOn m (a * c) (b * d):= by
  intro i hi
  have hlt : i + 1 ≤ w := lt_of_getLsbD hi
  rw [getLsbD_eq_setWidth (a * c), getLsbD_eq_setWidth (b * d),
    setWidth_mul _ _ hlt, setWidth_mul _ _ hlt,
    setWidth_eq_of_agree (fun j hj => h₁ j (hf i j hi hj)),
    setWidth_eq_of_agree (fun j hj => h₂ j (hf i j hi hj))]

theorem agreeOn_neg (h : AgreeOn f a b) : AgreeOn m (-a) (-b):= by
  rw [neg_eq_not_add, neg_eq_not_add]
  exact agreeOn_add f hf h.not (AgreeOn.refl f 1#w)

theorem agreeOn_sub (h₁ : AgreeOn f a b) (h₂ : AgreeOn f c d) : AgreeOn m (a - c) (b - d):= by
  rw [sub_eq_add_neg, sub_eq_add_neg, neg_eq_not_add,
    neg_eq_not_add, ← add_assoc, ← add_assoc]
  intro i hi
  have hlt : i + 1 ≤ w := lt_of_getLsbD hi
  rw [getLsbD_eq_setWidth (a + ~~~c + 1#w), getLsbD_eq_setWidth (b + ~~~d + 1#w)]
  simp only [setWidth_add _ _ hlt]
  rw [setWidth_eq_of_agree (fun j hj => h₁ j (hf i j hi hj)),
    setWidth_eq_of_agree (fun j hj => h₂.not j (hf i j hi hj))]

end

end BitMask
