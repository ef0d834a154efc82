import Mathlib.Algebra.BigOperators.Fin
import Mathlib.Algebra.Order.BigOperators.Group.Finset
import Mathlib.Tactic.Ring

/-! # Counting parties

Sums over all parties of what each contributes, when one of them takes a
step. -/

namespace Counting

variable {ι β : Type} [Fintype ι] [DecidableEq ι]

theorem sum_update (f : β → Int) (P : ι → β) (i : ι) (b : β) :
    ∑ j, f (Function.update P i b j) = ∑ j, f (P j) - f (P i) + f b := by
  have hcongr : ∀ j ∈ Finset.univ.erase i, f (Function.update P i b j) = f (P j) := by
    intro j hj
    rw [Function.update_of_ne (Finset.ne_of_mem_erase hj)]
  rw [← Finset.add_sum_erase _ (fun j => f (Function.update P i b j)) (Finset.mem_univ i),
    ← Finset.add_sum_erase _ (fun j => f (P j)) (Finset.mem_univ i), Finset.sum_congr rfl hcongr,
    Function.update_self]
  ring

omit [DecidableEq ι] in
theorem le_sum {f : β → Int} {P : ι → β} (hf : ∀ j, 0 ≤ f (P j)) (i : ι) : f (P i) ≤ ∑ j, f (P j):=
  Finset.single_le_sum (f := fun j => f (P j)) (fun j _ => hf j) (Finset.mem_univ i)

end Counting
