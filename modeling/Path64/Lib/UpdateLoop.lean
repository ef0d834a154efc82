import Mathlib.Data.List.Basic

/-! # Updating a range of an array in place

`for (i = lo; i < hi; ++i) a[i] = f(i, a[i])`, where the new value may
itself come from checked reads of other arrays. An access outside the
array is an error. -/

namespace UpdateLoop

variable {α : Type}

/-- `a[i] = f(i, a[i])`. -/
def updAt (f : Nat → α → Option α) (a : List α) (i : Nat) : Option (List α) :=
  a[i]?.bind fun x => (f i x).map fun y => a.set i y

/-- `for (i = lo; i < hi; ++i) a[i] = f(i, a[i])`. -/
def updRange (lo hi : Nat) (f : Nat → α → Option α) (a : List α) : Option (List α) :=
  (List.range' lo (hi - lo)).foldlM (updAt f) a

variable {f : Nat → α → Option α} {g : Nat → α → α}

variable {a : List α} {i hi : Nat}

theorem updAt_eq (hi : i < a.length) (hf : ∀ x, f i x = some (g i x)) :
    updAt f a i = some (a.set i (g i a[i])) := by
  simp [updAt, List.getElem?_eq_getElem hi, hf]

theorem updAt_length {b : List α} (h : updAt f a i = some b) : b.length = a.length:= by
  obtain ⟨x, _, hx⟩ := Option.bind_eq_some_iff.mp h
  obtain ⟨y, _, rfl⟩ := Option.map_eq_some_iff.mp hx
  exact List.length_set

/-- The `n` entries from `lo` on are updated, all others keep their value. -/
theorem foldlM_updAt (n : Nat) : ∀ (lo : Nat) (a : List α), lo + n ≤ a.length →
    (∀ i, lo ≤ i → i < lo + n → ∀ x, f i x = some (g i x)) →
    ∃ b, (List.range' lo n).foldlM (updAt f) a = some b ∧ b.length = a.length ∧
      ∀ i, b[i]? = if lo ≤ i ∧ i < lo + n then a[i]?.map (g i) else a[i]? := by
  induction n with
  | zero =>
    intro lo a _ _
    refine ⟨a, rfl, rfl, fun i => ?_⟩
    rw [if_neg (by omega)]
  | succ n ih =>
    intro lo a hlen hf
    have hlo : lo < a.length := by omega
    have hstep := updAt_eq hlo (hf lo (Nat.le_refl _) (by omega))
    -- the rest of the loop starts from the array with entry `lo` rewritten
    obtain ⟨b, hb, hblen, hval⟩ := ih (lo + 1) (a.set lo (g lo a[lo]))
      (by rw [List.length_set]; omega) (fun i h1 h2 => hf i (by omega) (by omega))
    refine ⟨b, ?_, by rw [hblen, List.length_set], fun i => ?_⟩
    · rw [List.range'_succ, List.foldlM_cons, hstep]
      exact hb
    · rw [hval i]
      by_cases hi : i = lo
      · subst hi
        rw [if_neg (by omega), if_pos (by omega), List.getElem?_set_self hlo,
          List.getElem?_eq_getElem hlo]
        rfl
      · rw [List.getElem?_set_ne (fun h => hi h.symm)]
        have hiff : (lo + 1 ≤ i ∧ i < lo + 1 + n) ↔ (lo ≤ i ∧ i < lo + (n + 1)) := by omega
        simp only [hiff]

/-- The loop over a range inside the array: each entry from its old value. -/
theorem updRange_spec {lo : Nat} (hlen : hi ≤ a.length) (hlo : lo ≤ hi)
    (hf : ∀ i, lo ≤ i → i < hi → ∀ x, f i x = some (g i x)) :
    ∃ b, updRange lo hi f a = some b ∧ b.length = a.length ∧
      ∀ i, b[i]? = if lo ≤ i ∧ i < hi then a[i]?.map (g i) else a[i]? := by
  have hhi : lo + (hi - lo) = hi := by omega
  obtain ⟨b, hb, hblen, hval⟩ := foldlM_updAt (hi - lo) lo a (by omega)
    (fun i h1 h2 => hf i h1 (by omega))
  exact ⟨b, hb, hblen, fun i => by rw [hval i, hhi]⟩

theorem foldlM_updAt_none : ∀ (l : List Nat) (a : List α), i ∈ l →
    (a.length ≤ i ∨ ∀ x, f i x = none) → l.foldlM (updAt f) a = none := by
  intro l
  induction l with
  | nil => intro a hi; cases hi
  | cons j l ih =>
    intro a hi hbad
    rw [List.foldlM_cons]
    cases hstep : updAt f a j with
    | none => rfl
    | some b =>
      have hlen := updAt_length hstep
      rcases List.mem_cons.mp hi with rfl | hl
      · obtain ⟨x, hx, hy⟩ := Option.bind_eq_some_iff.mp hstep
        rcases hbad with hout | hnone
        · rw [List.getElem?_eq_none hout] at hx
          cases hx
        · rw [hnone x] at hy
          cases hy
      · exact ih b hl (by rw [hlen]; exact hbad)

theorem updRange_none {lo : Nat} (h1 : lo ≤ i) (h2 : i < hi)
    (hbad : a.length ≤ i ∨ ∀ x, f i x = none) : updRange lo hi f a = none := by
  apply foldlM_updAt_none _ a _ hbad
  rw [List.mem_range'_1]
  omega

end UpdateLoop
