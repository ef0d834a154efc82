import Mathlib.Data.List.Basic

/-! # Byte-addressed memory

Memory as a function from addresses to cells, with stores and loads of
strings of cells. Consecutive stores are one store of the concatenation,
so code that writes a record field by field is described by the bytes
it leaves behind. The cells are bytes, and 32-bit words are little
endian, from Section 2 on. -/

namespace ByteMem

variable {α : Type}

/-! ## Cells -/

/-- Memory with the cells `bs` from address `a` on. -/
def store (m : Nat → α) (a : Nat) (bs : List α) : Nat → α := fun x =>
  if h : a ≤ x ∧ x < a + bs.length then bs[x - a] else m x

/-- The `n` cells from address `a` on. -/
def load (m : Nat → α) (a n : Nat) : List α := (List.range n).map fun i => m (a + i)

/-- The memory holds `bs` from address `a` on. -/
def Holds (m : Nat → α) (a : Nat) (bs : List α) : Prop :=
  ∀ i (h : i < bs.length), m (a + i) = bs[i]

variable {m : Nat → α} {a b : Nat} {bs cs : List α}

@[simp] theorem load_length (m : Nat → α) (a n : Nat) : (load m a n).length = n := by
  simp [load]

@[simp] theorem store_nil (m : Nat → α) (a : Nat) : store m a [] = m := by
  funext x
  unfold store
  rw [dif_neg (by simp only [List.length_nil]; omega)]

theorem store_outside {x : Nat} (h : x < a ∨ a + bs.length ≤ x) : store m a bs x = m x := by
  unfold store
  rw [dif_neg (by omega)]

theorem store_inside {x : Nat} (h1 : a ≤ x) (h2 : x < a + bs.length) :
    store m a bs x = bs[x - a] := by
  unfold store
  rw [dif_pos ⟨h1, h2⟩]

theorem holds_store (m : Nat → α) (a : Nat) (bs : List α) : Holds (store m a bs) a bs := by
  intro i hi
  rw [store_inside (by omega) (by omega)]
  congr 1
  omega

theorem store_load (m : Nat → α) (a n : Nat) : store m a (load m a n) = m := by
  funext x
  by_cases hx : a ≤ x ∧ x < a + (load m a n).length
  · rw [store_inside hx.1 hx.2]
    simp only [load, List.getElem_map, List.getElem_range]
    congr 1
    omega
  · exact store_outside (by omega)

theorem load_add (m : Nat → α) (a i j : Nat) :
    load m a (i + j) = load m a i ++ load m (a + i) j := by
  unfold load
  rw [List.range_add, List.map_append, List.map_map]
  congr 1
  apply List.map_congr_left
  intro d _
  simp only [Function.comp, Nat.add_assoc]

theorem store_append : store (store m a bs) (a + bs.length) cs = store m a (bs ++ cs) := by
  funext x
  by_cases hx : x < a ∨ a + (bs ++ cs).length ≤ x
  · rw [store_outside hx, List.length_append] at *
    rw [store_outside (by omega), store_outside (by omega)]
  · rw [store_inside (show a ≤ x by omega) (by omega)]
    by_cases hb : x < a + bs.length
    · rw [store_outside (.inl hb), store_inside (by omega) hb,
        List.getElem_append_left (by omega)]
    · rw [List.length_append] at hx
      rw [store_inside (by omega) (by omega), List.getElem_append_right (by omega)]
      congr 1
      omega

theorem store_before : store (store m (a + bs.length) cs) a bs = store m a (bs ++ cs):= by
  rw [← store_append]
  funext x
  by_cases hb : a ≤ x ∧ x < a + bs.length
  · rw [store_inside hb.1 hb.2, store_outside (.inl hb.2), store_inside hb.1 hb.2]
  · rw [store_outside (a := a) (by omega)]
    unfold store
    by_cases hc : a + bs.length ≤ x ∧ x < a + bs.length + cs.length
    · rw [dif_pos hc, dif_pos hc]
    · rw [dif_neg hc, dif_neg hc, dif_neg hb]

theorem holds_append : Holds m a (bs ++ cs) ↔ Holds m a bs ∧ Holds m (a + bs.length) cs := by
  constructor
  · intro h
    refine ⟨fun i hi => ?_, fun i hi => ?_⟩
    · rw [h i (by rw [List.length_append]; omega), List.getElem_append_left hi]
    · have := h (bs.length + i) (by rw [List.length_append]; omega)
      rw [List.getElem_append_right (by omega)] at this
      rw [Nat.add_assoc, this]
      congr 1
      omega
  · rintro ⟨hb, hc⟩ i hi
    rw [List.length_append] at hi
    by_cases h : i < bs.length
    · rw [hb i h, List.getElem_append_left h]
    · have := hc (i - bs.length) (by omega)
      rw [List.getElem_append_right (by omega), ← this]
      congr 1
      omega

theorem Holds.load (h : Holds m a bs) : load m a bs.length = bs := by
  apply List.ext_getElem (by simp)
  intro i h1 h2
  simp [ByteMem.load, h i h2]

theorem Holds.store_of_disjoint (h : Holds m a bs)
    (hd : b + cs.length ≤ a ∨ a + bs.length ≤ b) : Holds (store m b cs) a bs := by
  intro i hi
  rw [store_outside (by omega)]
  exact h i hi

/-! ## Bytes and words -/

abbrev Byte := BitVec 8

abbrev Mem := Nat → Byte

/-- The bytes of a word, the least significant first. -/
def le32 (v : BitVec 32) : List Byte :=
  [v.extractLsb' 0 8, v.extractLsb' 8 8, v.extractLsb' 16 8, v.extractLsb' 24 8]

/-- `*(INT32 *)a = v`. -/
def store32 (m : Mem) (a : Nat) (v : BitVec 32) : Mem := store m a (le32 v)

/-- `*(INT32 *)a`. -/
def load32 (m : Mem) (a : Nat) : BitVec 32 := m (a + 3) ++ m (a + 2) ++ m (a + 1) ++ m a

@[simp] theorem le32_length (v : BitVec 32) : (le32 v).length = 4 := rfl

theorem Holds.load32 {m : Mem} {v : BitVec 32} (h : Holds m a (le32 v)) : load32 m a = v := by
  have h0 : m a = v.extractLsb' 0 8 := h 0 (by simp)
  have h1 : m (a + 1) = v.extractLsb' 8 8 := h 1 (by simp)
  have h2 : m (a + 2) = v.extractLsb' 16 8 := h 2 (by simp)
  have h3 : m (a + 3) = v.extractLsb' 24 8 := h 3 (by simp)
  unfold ByteMem.load32
  rw [h0, h1, h2, h3]
  apply BitVec.eq_of_getLsbD_eq
  intro i hi
  simp only [BitVec.getLsbD_append, BitVec.getLsbD_extractLsb']
  by_cases hi8 : i < 8
  · simp [hi8]
  · by_cases hi16 : i < 16
    · simp [hi8, show i - 8 < 8 by omega, show 8 + (i - 8) = i by omega]
    · by_cases hi24 : i < 24
      · simp [hi8, show ¬ i - 8 < 8 by omega, show i - 8 - 8 < 8 by omega,
          show 16 + (i - 8 - 8) = i by omega]
      · simp [hi8, show ¬ i - 8 < 8 by omega, show ¬ i - 8 - 8 < 8 by omega,
          show i - 8 - 8 - 8 < 8 by omega, show 24 + (i - 8 - 8 - 8) = i by omega]

end ByteMem
