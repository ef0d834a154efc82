import Mathlib.Tactic.TypeStar

/-! # Flagged computations

A computation that goes on whatever happens, and remembers whether every
step that it took met its condition. The rules below are the usual rules
for postconditions, with "all steps met their conditions" in the place of
termination: a postcondition is claimed only of a computation whose flag
is still up. -/

/-- A result, with the flag that all conditions were met on the way to it. -/
structure Flagged (α : Type*) where
  val : α
  ok : Bool

namespace Flagged

instance : Monad Flagged where
  pure a := ⟨a, true⟩
  bind m f := ⟨(f m.val).val, m.ok && (f m.val).ok⟩

/-- Take the flag down unless the condition holds. -/
def check (b : Bool) : Flagged Unit := ⟨(), b⟩

/-- The postcondition `P` holds of the result if the flag is up. -/
def Post {α : Type*} (m : Flagged α) (P : α → Prop) : Prop := m.ok = true → P m.val

variable {α β : Type} {m : Flagged α} {P Q : α → Prop}

theorem post_pure {a : α} (h : P a) : Post (pure a) P := fun _ => h

theorem post_bind {f : α → Flagged β} {R : β → Prop} (hm : Post m P)
    (hf : ∀ a, P a → Post (f a) R) : Post (m >>= f) R := by
  intro hok
  obtain ⟨h1, h2⟩ := Bool.and_eq_true_iff.mp hok
  exact hf m.val (hm h1) h2

theorem post_map {f : α → β} {R : β → Prop} (hm : Post m fun a => R (f a)) : Post (f <$> m) R:=
  post_bind hm fun _ h => post_pure h

theorem post_check {b : Bool} {f : Unit → Flagged β} {R : β → Prop}
    (h : b = true → Post (f ()) R) : Post (check b >>= f) R := by
  intro hok
  obtain ⟨h1, h2⟩ := Bool.and_eq_true_iff.mp hok
  exact h h1 h2

end Flagged
