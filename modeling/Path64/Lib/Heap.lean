import Mathlib.Algebra.BigOperators.Intervals

/-! # Binary heaps with a hole

A heap in the positions `1` to `n` of a vector: the parent of `i` is `i / 2`.
While an element is sifted there is a hole in the heap, and the element is
not in the vector yet. What is known of the order then depends on the
direction in which the hole moves. -/

namespace Heap

open Function Finset

variable {α : Type} (lt : α → α → Prop)

/-! ## Order -/

/-- No element precedes its parent. -/
def Ordered (v : Nat → α) (n : Nat) : Prop :=
  ∀ i, 2 ≤ i → i ≤ n → ¬ lt (v i) (v (i / 2))

/-- No element precedes its parent, of those that are not next to the hole. -/
def OrderedExcept (v : Nat → α) (n hole : Nat) : Prop :=
  ∀ i, 2 ≤ i → i ≤ n → i ≠ hole → i / 2 ≠ hole → ¬ lt (v i) (v (i / 2))

/-- The children of the hole do not precede its parent. -/
def Bridged (v : Nat → α) (n hole : Nat) : Prop :=
  2 ≤ hole → ∀ c ≤ n, c / 2 = hole → ¬ lt (v c) (v (hole / 2))

/-- The hole may be filled with `e`, or moved up. -/
structure UpHole (v : Nat → α) (n hole : Nat) (e : α) : Prop where
  except : OrderedExcept lt v n hole
  bridged : Bridged lt v n hole
  below : ∀ c ≤ n, c / 2 = hole → ¬ lt (v c) e

/-- The hole may be filled with `e`, or moved down. -/
structure DownHole (v : Nat → α) (n hole : Nat) (e : α) : Prop where
  except : OrderedExcept lt v n hole
  bridged : Bridged lt v n hole
  above : 2 ≤ hole → ¬ lt e (v (hole / 2))

variable {a b e : α} {v : Nat → α} {n hole : Nat}

section Order

variable {lt} [IsStrictWeakOrder α lt]

theorem not_lt_trans {c : α} (hab : ¬ lt a b) (hbc : ¬ lt b c) : ¬ lt a c := by
  intro hac
  have hba : ¬ lt b a := fun h => hbc (IsTrans.trans b a c h hac)
  have hcb : ¬ lt c b := fun h => hab (IsTrans.trans a c b hac h)
  exact (IsStrictWeakOrder.incomp_trans a b c ⟨hab, hba⟩ ⟨hbc, hcb⟩).1 hac

theorem not_lt_of_lt (h : lt a b) : ¬ lt b a :=
  fun h' => irrefl (r := lt) a (IsTrans.trans a b a h h')

theorem Ordered.top (h : Ordered lt v n) : ∀ i, 1 ≤ i → i ≤ n → ¬ lt (v i) (v 1) := by
  intro i
  induction i using Nat.strong_induction_on with
  | _ i ih =>
    intro hi hn
    by_cases h1 : i = 1
    · subst h1
      exact irrefl (r := lt) (v 1)
    · have hparent := ih (i / 2) (by omega) (by omega) (by omega)
      exact not_lt_trans (h i (by omega) hn) hparent

/-! ## Moving the hole up -/

/-- The hole moves up: the parent comes down, and only the new hole may be out of order. -/
theorem UpHole.move (h : UpHole lt v n hole e)
    (h2 : 2 ≤ hole) (hn : hole ≤ n) (hlt : lt e (v (hole / 2))) :
    UpHole lt (update v hole (v (hole / 2))) n (hole / 2) e := by
  have hne : hole / 2 ≠ hole := by omega
  -- the grandparent does not have to wait for the hole
  have hup : 2 ≤ hole / 2 → ¬ lt (v (hole / 2)) (v (hole / 2 / 2)) := fun h4 =>
    h.except (hole / 2) h4 (by omega) hne (by omega)
  have hchild : ∀ c ≤ n, c / 2 = hole / 2 → c ≠ hole → ¬ lt (v c) (v (hole / 2)) := by
    intro c hc hpc hch
    have := h.except c (by omega) hc hch (by omega)
    rwa [hpc] at this
  constructor
  · intro i hi hin hip hpi
    by_cases hih : i = hole
    · exact absurd (by rw [hih]) hpi
    · rw [update_of_ne hih]
      by_cases hph : i / 2 = hole
      · rw [hph, update_self]
        exact h.bridged h2 i hin hph
      · rw [update_of_ne hph]
        exact h.except i hi hin hih hph
  · intro h4 c hc hpc
    rw [update_of_ne (by omega : hole / 2 / 2 ≠ hole)]
    by_cases hch : c = hole
    · rw [hch, update_self]
      exact hup h4
    · rw [update_of_ne hch]
      exact not_lt_trans (hchild c hc hpc hch) (hup h4)
  · intro c hc hpc
    by_cases hch : c = hole
    · rw [hch, update_self]
      exact not_lt_of_lt hlt
    · rw [update_of_ne hch]
      exact not_lt_trans (hchild c hc hpc hch) (not_lt_of_lt hlt)

omit [IsStrictWeakOrder α lt] in
theorem UpHole.fill (h : UpHole lt v n hole e)
    (hstop : 2 ≤ hole → ¬ lt e (v (hole / 2))) : Ordered lt (update v hole e) n := by
  intro i hi hin
  by_cases hih : i = hole
  · rw [hih, update_self, update_of_ne (by omega : hole / 2 ≠ hole)]
    exact hstop (by omega)
  · rw [update_of_ne hih]
    by_cases hph : i / 2 = hole
    · rw [hph, update_self]
      exact h.below i hin hph
    · rw [update_of_ne hph]
      exact h.except i hi hin hih hph

/-! ## Moving the hole down -/

theorem DownHole.move {c : Nat} (h : DownHole lt v n hole e)
    (h1 : 1 ≤ hole) (hc : c ≤ n) (hpc : c / 2 = hole) (hlt : lt (v c) e)
    (hbest : ∀ c' ≤ n, c' / 2 = hole → ¬ lt (v c') (v c)) :
    DownHole lt (update v hole (v c)) n c e := by
  have hch : c ≠ hole := by omega
  constructor
  · intro i hi hin hic hpi
    by_cases hih : i = hole
    · rw [hih, update_self, update_of_ne (by omega : hole / 2 ≠ hole)]
      exact h.bridged (by omega) c hc hpc
    · rw [update_of_ne hih]
      by_cases hph : i / 2 = hole
      · rw [hph, update_self]
        exact hbest i hin hph
      · rw [update_of_ne hph]
        exact h.except i hi hin hih hph
  · intro h2 d hd hpd
    rw [hpc, update_self, update_of_ne (by omega : d ≠ hole)]
    have := h.except d (by omega) hd (by omega) (by omega)
    rwa [hpd] at this
  · intro _
    rw [hpc, update_self]
    exact not_lt_of_lt hlt

omit [IsStrictWeakOrder α lt] in
theorem DownHole.fill {v : Nat → α} {n hole : Nat} {e : α} (h : DownHole lt v n hole e)
    (hstop : ∀ c ≤ n, c / 2 = hole → ¬ lt (v c) e) : Ordered lt (update v hole e) n :=
  UpHole.fill ⟨h.except, h.bridged, hstop⟩ h.above

end Order

/-! ## What the heap holds -/

/-- The elements in the positions `1` to `n`. -/
def contents (v : Nat → α) (n : Nat) : Multiset α := ∑ i ∈ Icc 1 n, {v i}

theorem mem_contents : a ∈ contents v n ↔ ∃ i, 1 ≤ i ∧ i ≤ n ∧ v i = a := by
  unfold contents
  rw [Multiset.mem_sum]
  constructor
  · rintro ⟨i, hi, ha⟩
    exact ⟨i, (mem_Icc.mp hi).1, (mem_Icc.mp hi).2, (Multiset.mem_singleton.mp ha).symm⟩
  · rintro ⟨i, h1, hn, rfl⟩
    exact ⟨i, mem_Icc.mpr ⟨h1, hn⟩, Multiset.mem_singleton_self _⟩

theorem contents_eq_map (v : Nat → α) (n : Nat) : contents v n = (Icc 1 n).val.map v := by
  have h := Multiset.sum_map_singleton ((Icc 1 n).val.map v)
  rwa [Multiset.map_map] at h

theorem eq_of_nodup (h : (contents v n).Nodup) {i j : Nat} (hi : 1 ≤ i)
    (hin : i ≤ n) (hj : 1 ≤ j) (hjn : j ≤ n) (hv : v i = v j) : i = j := by
  rw [contents_eq_map] at h
  exact Multiset.inj_on_of_nodup_map h i (mem_Icc.mpr ⟨hi, hin⟩) j (mem_Icc.mpr ⟨hj, hjn⟩) hv

theorem contents_congr {w : Nat → α} (h : ∀ i, 1 ≤ i → i ≤ n → v i = w i) :
    contents v n = contents w n :=
  sum_congr rfl fun i hi => by rw [h i (mem_Icc.mp hi).1 (mem_Icc.mp hi).2]

@[simp] theorem contents_zero (v : Nat → α) : contents v 0 = 0 := rfl

theorem contents_succ (v : Nat → α) (n : Nat) : contents v (n + 1) = v (n + 1) ::ₘ contents v n:= by
  unfold contents
  rw [sum_Icc_succ_top (by omega), add_comm, Multiset.singleton_add]

theorem contents_move {p : Nat} (hh : 1 ≤ hole) (hn : hole ≤ n)
    (hp : 1 ≤ p) (hpn : p ≤ n) (hne : p ≠ hole) : contents (update (update v hole (v p)) p e) n =
      contents (update v hole e) n := by
  unfold contents
  refine sum_equiv (Equiv.swap hole p) (fun i => ?_) (fun i _ => ?_)
  · by_cases hih : i = hole
    · simp [hih, Equiv.swap_apply_left, hh, hn, hp, hpn]
    · by_cases hip : i = p
      · simp [hip, Equiv.swap_apply_right, hh, hn, hp, hpn]
      · rw [Equiv.swap_apply_of_ne_of_ne hih hip]
  · by_cases hip : i = p
    · simp [hip, Equiv.swap_apply_right]
    · by_cases hih : i = hole
      · simp [hih, Equiv.swap_apply_left, hne.symm, hne]
      · rw [Equiv.swap_apply_of_ne_of_ne hih hip, update_of_ne hip,
          update_of_ne hih, update_of_ne hih]

theorem contents_update (hh : 1 ≤ hole) (hn : hole ≤ n) (e : α) :
    v hole ::ₘ contents (update v hole e) n = e ::ₘ contents v n := by
  have hmem : hole ∈ Icc 1 n := mem_Icc.mpr ⟨hh, hn⟩
  unfold contents
  rw [← add_sum_erase _ _ hmem, ← add_sum_erase (Icc 1 n) (fun i => ({v i} : Multiset α)) hmem,
    update_self]
  have hrest : ∑ i ∈ (Icc 1 n).erase hole, ({update v hole e i} : Multiset α) =
      ∑ i ∈ (Icc 1 n).erase hole, {v i} :=
    sum_congr rfl fun i hi => by rw [update_of_ne (ne_of_mem_erase hi)]
  rw [hrest, Multiset.singleton_add, Multiset.singleton_add, Multiset.cons_swap]

end Heap
