import Mathlib.Algebra.Order.BigOperators.Group.Finset

/-! # Sweeping until nothing changes

A table has an entry for each index. A sweep recomputes the entries of a
list of indices in place, one after the other, each from the table as it
then is; sweeps are repeated until one of them changes nothing. -/

namespace Sweep

open Function

variable {ι α : Type} [DecidableEq ι] [DecidableEq α]

/-- Recompute one entry; the flag is set when it changes. -/
def visit (f : (ι → α) → ι → α) (s : (ι → α) × Bool) (i : ι) : (ι → α) × Bool :=
  if f s.1 i = s.1 i then s else (update s.1 i (f s.1 i), true)

def sweep (f : (ι → α) → ι → α) (is : List ι) (m : ι → α) : (ι → α) × Bool :=
  is.foldl (visit f) (m, false)

/-- `do { sweep } while (changed)`, at most `fuel` times. -/
def untilStable (f : (ι → α) → ι → α) (is : List ι) : Nat → (ι → α) → Option (ι → α)
  | 0, _ => none
  | fuel + 1, m =>
    if (sweep f is m).2 then untilStable f is fuel (sweep f is m).1
    else some (sweep f is m).1

section Rules

variable {f : (ι → α) → ι → α} {is : List ι} {Inv : (ι → α) → Prop}

theorem visit_foldl_inv (hstep : ∀ m, ∀ i ∈ is, Inv m → Inv (update m i (f m i))) :
    ∀ s : (ι → α) × Bool, Inv s.1 → Inv (is.foldl (visit f) s).1 := by
  induction is with
  | nil => exact fun s hs => hs
  | cons i is ih =>
    intro s hs
    rw [List.foldl_cons]
    refine ih (fun m j hj => hstep m j (List.mem_cons_of_mem _ hj)) _ ?_
    unfold visit
    split
    · exact hs
    · exact hstep s.1 i List.mem_cons_self hs

theorem sweep_inv (hstep : ∀ m, ∀ i ∈ is, Inv m → Inv (update m i (f m i))) {m : ι → α}
    (hm : Inv m) : Inv (sweep f is m).1 :=
  visit_foldl_inv hstep (m, false) hm

theorem visit_foldl_flag (s : (ι → α) × Bool) (hs : s.2 = true) :
    (is.foldl (visit f) s).2 = true := by
  induction is generalizing s with
  | nil => exact hs
  | cons i is ih =>
    rw [List.foldl_cons]
    refine ih _ ?_
    unfold visit
    split
    · exact hs
    · rfl

/-- A sweep that changes nothing finds every entry as it recomputes it. -/
theorem sweep_stable {m : ι → α} (h : (sweep f is m).2 = false) :
    (sweep f is m).1 = m ∧ ∀ i ∈ is, f m i = m i := by
  unfold sweep at h ⊢
  induction is with
  | nil => exact ⟨rfl, fun i hi => by cases hi⟩
  | cons i is ih =>
    rw [List.foldl_cons] at h ⊢
    by_cases heq : f m i = m i
    · have hvisit : visit f (m, false) i = (m, false) := if_pos heq
      rw [hvisit] at h ⊢
      obtain ⟨hsame, hall⟩ := ih h
      refine ⟨hsame, fun j hj => ?_⟩
      rcases List.mem_cons.mp hj with rfl | hj
      · exact heq
      · exact hall j hj
    · have hvisit : visit f (m, false) i = (update m i (f m i), true) := if_neg heq
      rw [hvisit, visit_foldl_flag _ rfl] at h
      cases h

theorem untilStable_spec (hstep : ∀ m, ∀ i ∈ is, Inv m → Inv (update m i (f m i))) {fuel : Nat} :
    ∀ {m m' : ι → α}, Inv m → untilStable f is fuel m = some m' →
      Inv m' ∧ ∀ i ∈ is, f m' i = m' i := by
  induction fuel with
  | zero =>
    intro m m' _ h
    cases h
  | succ fuel ih =>
    intro m m' hm h
    unfold untilStable at h
    split at h
    · exact ih (sweep_inv hstep hm) h
    · rename_i hflag
      obtain ⟨hsame, hall⟩ := sweep_stable (Bool.not_eq_true _ ▸ hflag)
      rw [hsame] at h
      cases h
      exact ⟨hm, hall⟩

theorem untilStable_mono {fuel : Nat} : ∀ {k : Nat} {m m' : ι → α},
    untilStable f is fuel m = some m' → fuel ≤ k → untilStable f is k m = some m' := by
  induction fuel with
  | zero =>
    intro k m m' h _
    cases h
  | succ fuel ih =>
    intro k m m' h hk
    obtain ⟨k, rfl⟩ : ∃ j, k = j + 1 := ⟨k - 1, by omega⟩
    unfold untilStable at h ⊢
    split at h
    · rename_i hflag
      rw [if_pos hflag]
      exact ih h (by omega)
    · rename_i hflag
      rw [if_neg hflag]
      exact h

section

variable (μ : (ι → α) → Nat)
  (hstep : ∀ m, ∀ i ∈ is, Inv m → f m i ≠ m i → Inv (update m i (f m i)) ∧ μ (update m i (f m i)) < μ m)
include μ hstep

theorem visit_foldl_measure (s : (ι → α) × Bool) (hs : Inv s.1) :
    Inv (is.foldl (visit f) s).1 ∧ μ (is.foldl (visit f) s).1 ≤ μ s.1 ∧
      (s.2 = false → (is.foldl (visit f) s).2 = true → μ (is.foldl (visit f) s).1 < μ s.1) := by
  induction is generalizing s with
  | nil => exact ⟨hs, le_refl _, fun h1 h2 => by simp [h1] at h2⟩
  | cons i is ih =>
    rw [List.foldl_cons]
    have hrest := fun m j hj => hstep m j (List.mem_cons_of_mem i hj)
    unfold visit
    split
    · exact ih hrest s hs
    · rename_i hne
      obtain ⟨hinv, hlt⟩ := hstep s.1 i List.mem_cons_self hs hne
      obtain ⟨hinv', hle, -⟩ := ih hrest (update s.1 i (f s.1 i), true) hinv
      exact ⟨hinv', le_trans hle hlt.le, fun _ _ => lt_of_le_of_lt hle hlt⟩

theorem untilStable_isSome
    {fuel : Nat} : ∀ {m : ι → α}, Inv m → μ m < fuel → ∃ m', untilStable f is fuel m = some m' := by
  induction fuel with
  | zero =>
    intro m _ h
    omega
  | succ fuel ih =>
    intro m hm h
    unfold untilStable
    split
    · rename_i hflag
      obtain ⟨hinv, -, hlt⟩ := visit_foldl_measure μ hstep (m, false) hm
      have hless : μ (sweep f is m).1 < μ m := hlt rfl hflag
      exact ih hinv (by omega)
    · exact ⟨_, rfl⟩

end

end Rules

/-! ## Tables of sets -/

section Sets

variable {β : Type} [DecidableEq β]

omit [DecidableEq β] in
theorem sum_card_update_lt {is : Finset ι} {m : ι → Finset β} {i : ι} {s : Finset β} (hi : i ∈ is)
    (h : s ⊂ m i) : ∑ j ∈ is, (update m i s j).card < ∑ j ∈ is, (m j).card := by
  refine Finset.sum_lt_sum (fun j _ => ?_) ⟨i, hi, ?_⟩
  · by_cases hj : j = i
    · subst hj
      rw [update_self]
      exact (Finset.card_lt_card h).le
    · rw [update_of_ne hj]
  · rw [update_self]
    exact Finset.card_lt_card h

section

variable {f : (ι → Finset β) → ι → Finset β} {l : List ι} {Inv : (ι → Finset β) → Prop}

theorem untilStable_shrink (hstep : ∀ m, ∀ i ∈ l, Inv m → f m i ⊆ m i ∧ Inv (update m i (f m i)))
    {m : ι → Finset β} (hm : Inv m) :
    ∃ N, ∀ fuel ≥ N, ∃ m', untilStable f l fuel m = some m' ∧ Inv m' ∧ ∀ i ∈ l, f m' i = m' i := by
  refine ⟨(∑ j ∈ l.toFinset, (m j).card) + 1, fun fuel hfuel => ?_⟩
  obtain ⟨m', hm'⟩ := untilStable_isSome (f := f) (fun m => ∑ j ∈ l.toFinset, (m j).card)
    (fun m i hi hinv hne => ⟨(hstep m i hi hinv).2, sum_card_update_lt (List.mem_toFinset.mpr hi)
      ((hstep m i hi hinv).1.ssubset_of_ne hne)⟩) hm (show _ < fuel by omega)
  exact ⟨m', hm', untilStable_spec (fun m i hi hinv => (hstep m i hi hinv).2) hm hm'⟩

theorem untilStable_grow (U : Finset β)
    (hstep : ∀ m, ∀ i ∈ l, Inv m → m i ⊆ f m i ∧ f m i ⊆ U ∧ Inv (update m i (f m i)))
    {m : ι → Finset β} (hm : Inv m) :
    ∃ N, ∀ fuel ≥ N, ∃ m', untilStable f l fuel m = some m' ∧ Inv m' ∧ ∀ i ∈ l, f m' i = m' i := by
  have hmeasure : ∀ m, ∀ i ∈ l, Inv m → f m i ≠ m i → Inv (update m i (f m i)) ∧
      ∑ j ∈ l.toFinset, (U \ update m i (f m i) j).card
        < ∑ j ∈ l.toFinset, (U \ m j).card := by
    intro m i hi hinv hne
    obtain ⟨hsub, hU, hinv'⟩ := hstep m i hi hinv
    refine ⟨hinv', ?_⟩
    have hcomp : ∀ j, U \ update m i (f m i) j = update (fun j => U \ m j) i (U \ f m i) j := by
      intro j
      by_cases hj : j = i
      · subst hj
        rw [update_self, update_self]
      · rw [update_of_ne hj, update_of_ne hj]
    simp only [hcomp]
    -- what the set gains, its complement loses
    obtain ⟨b, hb, hb'⟩ := Finset.exists_of_ssubset (hsub.ssubset_of_ne (Ne.symm hne))
    refine sum_card_update_lt (List.mem_toFinset.mpr hi)
      ((Finset.ssubset_iff_of_subset (Finset.sdiff_subset_sdiff (subset_refl U) hsub)).mpr
        ⟨b, Finset.mem_sdiff.mpr ⟨hU hb, hb'⟩, fun hmem => (Finset.mem_sdiff.mp hmem).2 hb⟩)
  refine ⟨(∑ j ∈ l.toFinset, (U \ m j).card) + 1, fun fuel hfuel => ?_⟩
  obtain ⟨m', hm'⟩ := untilStable_isSome (f := f) (fun m => ∑ j ∈ l.toFinset, (U \ m j).card)
    hmeasure hm (show _ < fuel by omega)
  exact ⟨m', hm', untilStable_spec (fun m i hi hinv => (hstep m i hi hinv).2.2) hm hm'⟩

end

end Sets

end Sweep
