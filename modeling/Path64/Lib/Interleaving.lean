import Mathlib.Order.Basic

/-! # Runs of a step relation

Several parties take atomic steps in any order; `Run step k s t` says
that `k` such steps lead from `s` to `t`. The two rules are the
invariant rule and the bound that a decreasing measure puts on the
length of a run. -/

namespace Interleaving

variable {σ : Type} {step : σ → σ → Prop}

/-- `k` steps lead from the first state to the second. -/
inductive Run (step : σ → σ → Prop) : Nat → σ → σ → Prop
  | refl (s : σ) : Run step 0 s s
  | tail {k : Nat} {s t t' : σ} : Run step k s t → step t t' → Run step (k + 1) s t'

/-- What holds at the start and is kept by every step holds at the end. -/
theorem Run.inv {Inv : σ → Prop} (hstep : ∀ t t', Inv t → step t t' → Inv t')
    {k : Nat} {s t : σ} (hrun : Run step k s t) (hs : Inv s) : Inv t := by
  induction hrun with
  | refl => exact hs
  | tail _ h ih => exact hstep _ _ (ih hs) h

theorem Run.length_le {Inv : σ → Prop} (μ : σ → Nat)
    (hstep : ∀ t t', Inv t → step t t' → Inv t' ∧ μ t' < μ t)
    {k : Nat} {s t : σ} (hrun : Run step k s t) (hs : Inv s) : k + μ t ≤ μ s := by
  induction hrun with
  | refl => exact Nat.le_of_eq (Nat.zero_add _)
  | tail hprev h ih =>
    have hinv := hprev.inv (fun t t' ht hst => (hstep t t' ht hst).1) hs
    have hlt := (hstep _ _ hinv h).2
    have := ih hs
    omega

theorem Run.of_foldlM {ι : Type} {next : ι → σ → Option σ}
    (hnext : ∀ i s t, next i s = some t → step s t) {s0 : σ} (is : List ι) :
    ∀ {k : Nat} {s t : σ}, Run step k s0 s → is.foldlM (fun s i => next i s) s = some t →
      Run step (k + is.length) s0 t := by
  induction is with
  | nil =>
    intro k s t hrun h
    cases h
    exact hrun
  | cons i is ih =>
    intro k s t hrun h
    rw [List.foldlM_cons, Option.bind_eq_bind, Option.bind_eq_some_iff] at h
    obtain ⟨s1, hstep, hrest⟩ := h
    rw [List.length_cons, ← Nat.add_assoc, Nat.add_right_comm]
    exact ih (.tail hrun (hnext i s s1 hstep)) hrest

theorem forall_update {ι β : Type} [DecidableEq ι] {C : ι → β → Prop} {f : ι → β} {i : ι} {b : β}
    (hi : C i b) (hothers : ∀ j, j ≠ i → C j (f j)) (j : ι) : C j (Function.update f i b j) := by
  by_cases hj : j = i
  · subst hj
    rwa [Function.update_self]
  · rw [Function.update_of_ne hj]
    exact hothers j hj

end Interleaving
