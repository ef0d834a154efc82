import Mathlib.Data.List.Nodup

/-! # Segments of a chain

A link from each point to the next makes chains; a segment is the list of
the points from one on, up to another that is not part of it. A chain that
is read up to a stop point has no point twice. -/

namespace Segments

variable {α : Type} {next next' : α → α} {a b c x y stop : α} {l l₁ l₂ : List α}

/-- The points from `a` on along the links, up to `b`. -/
def Seg (next : α → α) : α → List α → α → Prop
  | a, [], b => a = b
  | a, x :: l, b => a = x ∧ Seg next (next x) l b

@[simp] theorem seg_nil : Seg next a [] b ↔ a = b := Iff.rfl

@[simp] theorem seg_cons : Seg next a (x :: l) b ↔ a = x ∧ Seg next (next x) l b := Iff.rfl

theorem seg_append : Seg next a (l₁ ++ l₂) c ↔ ∃ b, Seg next a l₁ b ∧ Seg next b l₂ c := by
  induction l₁ generalizing a with
  | nil => simp
  | cons x l₁ ih =>
    simp only [List.cons_append, seg_cons, ih]
    constructor
    · rintro ⟨ha, b, h1, h2⟩
      exact ⟨b, ⟨ha, h1⟩, h2⟩
    · rintro ⟨b, ⟨ha, h1⟩, h2⟩
      exact ⟨ha, b, h1, h2⟩

theorem seg_split : Seg next a (l₁ ++ x :: l₂) c ↔ Seg next a l₁ x ∧ Seg next (next x) l₂ c := by
  rw [seg_append]
  constructor
  · rintro ⟨b, h1, rfl, h2⟩
    exact ⟨h1, h2⟩
  · rintro ⟨h1, h2⟩
    exact ⟨x, h1, rfl, h2⟩

theorem Seg.congr (h : Seg next a l b) (hnext : ∀ x ∈ l, next' x = next x) : Seg next' a l b := by
  induction l generalizing a with
  | nil => exact h
  | cons x l ih =>
    obtain ⟨ha, h⟩ := h
    refine ⟨ha, ?_⟩
    rw [hnext x List.mem_cons_self]
    exact ih h fun y hy => hnext y (List.mem_cons_of_mem x hy)

theorem Seg.head (h : Seg next a l b) (hne : l ≠ []) : a ∈ l := by
  cases l with
  | nil => exact absurd rfl hne
  | cons x l => exact h.1 ▸ List.mem_cons_self

theorem Seg.eq_cons (h : Seg next a l b) (hab : a ≠ b) :
    ∃ l', l = a :: l' ∧ Seg next (next a) l' b := by
  cases l with
  | nil => exact absurd h hab
  | cons x l =>
    obtain ⟨rfl, h⟩ := h
    exact ⟨l, rfl, h⟩

theorem Seg.unique (h : Seg next a l₁ stop) (h' : Seg next a l₂ stop) (h1 : stop ∉ l₁)
    (h2 : stop ∉ l₂) : l₁ = l₂ := by
  induction l₁ generalizing a l₂ with
  | nil =>
    cases l₂ with
    | nil => rfl
    | cons x l₂ =>
      obtain rfl : a = stop := h
      exact absurd (h'.head (List.cons_ne_nil _ _)) h2
  | cons x l₁ ih =>
    obtain ⟨rfl, h⟩ := h
    have ha : a ≠ stop := fun heq => h1 (heq ▸ List.mem_cons_self)
    obtain ⟨l, rfl, hrest⟩ := h'.eq_cons ha
    rw [ih h hrest (fun hmem => h1 (List.mem_cons_of_mem _ hmem))
      fun hmem => h2 (List.mem_cons_of_mem _ hmem)]

theorem Seg.nodup (h : Seg next a l stop) (hl : stop ∉ l) : l.Nodup := by
  induction l generalizing a with
  | nil => exact List.nodup_nil
  | cons x l ih =>
    obtain ⟨rfl, h⟩ := h
    have hl' : stop ∉ l := fun hmem => hl (List.mem_cons_of_mem _ hmem)
    refine List.nodup_cons.mpr ⟨fun hmem => ?_, ih h hl'⟩
    obtain ⟨l₁, l₂, rfl⟩ := List.append_of_mem hmem
    obtain ⟨-, h2⟩ := seg_split.mp h
    have hl2 : stop ∉ l₂ := fun hin => hl' (List.mem_append_right _ (List.mem_cons_of_mem _ hin))
    have hlen := congrArg List.length (h.unique h2 hl' hl2)
    simp only [List.length_append, List.length_cons] at hlen
    omega

theorem Seg.next_mem (h : Seg next a l b) (hx : x ∈ l) : next x ∈ l ∨ next x = b := by
  obtain ⟨l₁, l₂, rfl⟩ := List.append_of_mem hx
  obtain ⟨-, h2⟩ := seg_split.mp h
  cases l₂ with
  | nil => exact .inr h2
  | cons y l₂ => exact .inl (by simp [h2.1])

theorem Seg.exists_prev (h : Seg next a l b) (hx : x ∈ l) (hax : a ≠ x) :
    ∃ l₁ p l₂, l = l₁ ++ p :: x :: l₂ ∧ next p = x := by
  induction l generalizing a with
  | nil => cases hx
  | cons y l ih =>
    obtain ⟨rfl, h⟩ := h
    have hxl := (List.mem_cons.mp hx).resolve_left (Ne.symm hax)
    by_cases hnext : next a = x
    · cases l with
      | nil => cases hxl
      | cons z l =>
        obtain ⟨rfl, -⟩ := h
        exact ⟨[], a, l, by rw [hnext]; rfl, hnext⟩
    · obtain ⟨l₁, p, l₂, rfl, hp⟩ := ih h hxl hnext
      exact ⟨a :: l₁, p, l₂, rfl, hp⟩

end Segments
