import Mathlib.Algebra.Group.Basic
import Mathlib.Data.List.Basic

/-! # Walks with costs

A walk has at least one edge; the list holds the nodes between its ends.
Costs are added up along a walk, and compared by an order that addition
respects. -/

namespace Walks

open List

variable {V C : Type} [AddCommMonoid C] {edge : V → V → C → Prop}

inductive Walk (edge : V → V → C → Prop) : V → List V → V → C → Prop
  | arc {a b : V} {c : C} : edge a b c → Walk edge a [] b c
  | cons {a x b : V} {vs : List V} {c d : C} :
      edge a x c → Walk edge x vs b d → Walk edge a (x :: vs) b (c + d)

/-- No node twice, except that the ends may be the same. -/
def Simple (a : V) (vs : List V) (b : V) : Prop := vs.Nodup ∧ a ∉ vs ∧ b ∉ vs

variable {a b k : V} {d c e : C} {us vs ws : List V} {S : V → Prop}

theorem Walk.append {d : V} {c' : C} (h : Walk edge a us b c)
    (h' : Walk edge b vs d c') : Walk edge a (us ++ b :: vs) d (c + c') := by
  induction h with
  | arc he => exact .cons he h'
  | cons he _ ih =>
    rw [add_assoc]
    exact .cons he (ih h')

theorem Walk.split {v : V} (h : Walk edge a (us ++ v :: ws) b c) :
    ∃ c1 c2, Walk edge a us v c1 ∧ Walk edge v ws b c2 ∧ c = c1 + c2 := by
  induction us generalizing a c with
  | nil =>
    cases h with
    | cons he hrest => exact ⟨_, _, .arc he, hrest, rfl⟩
  | cons u us ih =>
    cases h with
    | cons he hrest =>
      obtain ⟨c1, c2, h1, h2, rfl⟩ := ih hrest
      exact ⟨_, c2, .cons he h1, h2, (add_assoc _ _ _).symm⟩

theorem Walk.map {V' : Type} {edge' : V' → V' → C → Prop} {f : V → V'} {a b : V} {vs : List V}
    {c : C} (h : Walk edge a vs b c)
    (hf : ∀ x ∈ a :: vs, ∀ y ∈ b :: vs, ∀ c, edge x y c → edge' (f x) (f y) c) :
    Walk edge' (f a) (vs.map f) (f b) c := by
  induction h with
  | arc he => exact .arc (hf _ mem_cons_self _ mem_cons_self _ he)
  | cons he _ ih =>
    refine .cons (hf _ mem_cons_self _ (by simp) _ he) (ih fun x hx y hy => ?_)
    refine hf x (mem_cons_of_mem _ hx) y ?_
    rcases mem_cons.mp hy with rfl | hy
    · exact mem_cons_self
    · exact mem_cons_of_mem _ (mem_cons_of_mem _ hy)

/-! ## Orders on costs -/

/-- A preorder that addition respects; `le c d` says that `d` is as good. -/
structure CostOrder (le : C → C → Prop) : Prop where
  refl : ∀ c, le c c
  trans : ∀ {c d e}, le c d → le d e → le c e
  add : ∀ {c d c' d'}, le c d → le c' d' → le (c + c') (d + d')

section Order

variable {le : C → C → Prop}

theorem CostOrder.add_round (h : CostOrder le) (hc : le c d) (he : le e 0) : le (c + e) d := by
  have hsum := h.add hc he
  rwa [add_zero] at hsum

theorem CostOrder.round_add (h : CostOrder le) (hc : le c d) (he : le e 0) : le (e + c) d := by
  rw [add_comm]
  exact h.add_round hc he

/-- A walk through `S` and `k` is no better than one through `S`, or two that meet at `k`, if round
trips gain nothing. -/
theorem Walk.eliminate (hle : CostOrder le)
    (hk : ∀ vs c, Walk edge k vs k c → (∀ v ∈ vs, S v) → le c 0)
    (h : Walk edge a vs b c) (hvs : ∀ v ∈ vs, S v ∨ v = k) :
    (∃ us d, Walk edge a us b d ∧ (∀ v ∈ us, S v) ∧ le c d) ∨
      ∃ us d ws e, Walk edge a us k d ∧ (∀ v ∈ us, S v) ∧ Walk edge k ws b e ∧
        (∀ v ∈ ws, S v) ∧ le c (d + e) := by
  induction h with
  | arc he => exact .inl ⟨[], _, .arc he, fun v hv => (by cases hv), hle.refl _⟩
  | cons he _ ih =>
    rename_i x b vs c1 c2 _
    have hx := hvs x mem_cons_self
    have hcons : ∀ us : List V, S x → (∀ v ∈ us, S v) → ∀ v ∈ x :: us, S v := by
      intro us hxS hus v hv
      rcases mem_cons.mp hv with rfl | hv
      · exact hxS
      · exact hus v hv
    rcases ih fun v hv => hvs v (mem_cons_of_mem x hv) with
      ⟨us, d, hwalk, hus, hcd⟩ | ⟨us, d, ws, e, hwalk, hus, hwalk', hws, hcd⟩
    · rcases hx with hxS | rfl
      · exact .inl ⟨x :: us, _, .cons he hwalk, hcons us hxS hus, hle.add (hle.refl _) hcd⟩
      · exact .inr ⟨[], _, us, d, .arc he, fun v hv => (by cases hv), hwalk, hus,
          hle.add (hle.refl _) hcd⟩
    · rcases hx with hxS | rfl
      · refine .inr ⟨x :: us, _, ws, e, .cons he hwalk, hcons us hxS hus, hwalk', hws, ?_⟩
        rw [add_assoc]
        exact hle.add (hle.refl _) hcd
      · -- a round trip from `k` is left out
        refine .inr ⟨[], _, ws, e, .arc he, fun v hv => (by cases hv), hwalk', hws,
          hle.add (hle.refl _) (hle.trans hcd ?_)⟩
        exact hle.round_add (hle.refl e) (hk us d hwalk hus)

/-- A walk that is not simple is as good without a round trip; or two simple walks meet at `k`,
outside `S`. -/
theorem Walk.shortcut (hle : CostOrder le) (hkS : ¬ S k)
    (hround : ∀ v us c ws d, S v → Walk edge v us k c → (∀ u ∈ us, S u) → Walk edge k ws v d →
      (∀ w ∈ ws, S w) → le (c + d) 0) (ha : a ≠ k) (hb : b ≠ k)
    (h : Walk edge a us k c) (hus : ∀ u ∈ us, S u) (hsimple : Simple a us k)
    (h' : Walk edge k ws b d) (hws : ∀ w ∈ ws, S w) (hsimple' : Simple k ws b) :
    Simple a (us ++ k :: ws) b ∨ ∃ vs e, Walk edge a vs b e ∧ (∀ v ∈ vs, S v) ∧ le (c + d) e:= by
  obtain ⟨hnd, haus, -⟩ := hsimple
  obtain ⟨hnd', -, hbws⟩ := hsimple'
  have hkus : k ∉ us := fun hmem => hkS (hus k hmem)
  have hkws : k ∉ ws := fun hmem => hkS (hws k hmem)
  have hsub : ∀ {x : V} {xs ys zs : List V}, (∀ v ∈ xs, S v) → xs = ys ++ x :: zs →
      S x ∧ (∀ v ∈ ys, S v) ∧ ∀ v ∈ zs, S v := by
    rintro x _ ys zs hxs rfl
    exact ⟨hxs x (by simp), fun v hv => hxs v (by simp [hv]), fun v hv => hxs v (by simp [hv])⟩
  by_cases hshare : ∃ v ∈ us, v ∈ ws
  · -- a node on both sides
    right
    obtain ⟨v, hv, hv'⟩ := hshare
    obtain ⟨u1, u2, hu⟩ := append_of_mem hv
    obtain ⟨w1, w2, hw⟩ := append_of_mem hv'
    obtain ⟨hvS, hu1, hu2⟩ := hsub hus hu
    obtain ⟨-, hw1, hw2⟩ := hsub hws hw
    subst hu hw
    obtain ⟨c1, c2, h1, h2, rfl⟩ := h.split
    obtain ⟨d1, d2, h1', h2', rfl⟩ := h'.split
    refine ⟨_, _, h1.append h2', ?_, ?_⟩
    · intro x hx
      rcases mem_append.mp hx with hx | hx
      · exact hu1 x hx
      · rcases mem_cons.mp hx with rfl | hx
        · exact hvS
        · exact hw2 x hx
    · rw [add_comm d1 d2, add_add_add_comm]
      exact hle.add_round (hle.refl _) (hround v u2 c2 w1 d1 hvS h2 hu2 h1' hw1)
  by_cases haws : a ∈ ws
  · -- the walk comes back to its start
    right
    obtain ⟨w1, w2, hw⟩ := append_of_mem haws
    obtain ⟨haS, hw1, hw2⟩ := hsub hws hw
    subst hw
    obtain ⟨d1, d2, h1', h2', rfl⟩ := h'.split
    refine ⟨w2, d2, h2', hw2, ?_⟩
    rw [← add_assoc]
    exact hle.round_add (hle.refl _) (hround a us c w1 d1 haS h hus h1' hw1)
  by_cases hbus : b ∈ us
  · right
    obtain ⟨u1, u2, hu⟩ := append_of_mem hbus
    obtain ⟨hbS, hu1, hu2⟩ := hsub hus hu
    subst hu
    obtain ⟨c1, c2, h1, h2, rfl⟩ := h.split
    refine ⟨u1, c1, h1, hu1, ?_⟩
    rw [add_assoc]
    exact hle.add_round (hle.refl _) (hround b u2 c2 ws d hbS h2 hu2 h' hws)
  left
  -- no node twice: the walk is simple
  refine ⟨?_, ?_, ?_⟩
  · refine nodup_append.mpr ⟨hnd, nodup_cons.mpr ⟨hkws, hnd'⟩, fun x hx y hy heq => ?_⟩
    subst heq
    rcases mem_cons.mp hy with rfl | hy
    · exact hkus hx
    · exact hshare ⟨x, hx, hy⟩
  · rw [mem_append, mem_cons]
    rintro (hmem | rfl | hmem)
    · exact haus hmem
    · exact ha rfl
    · exact haws hmem
  · rw [mem_append, mem_cons]
    rintro (hmem | rfl | hmem)
    · exact hbus hmem
    · exact hb rfl
    · exact hbws hmem

end Order

end Walks
