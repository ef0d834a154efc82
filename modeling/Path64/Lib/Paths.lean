import Mathlib.Logic.Relation
import Mathlib.Data.List.Basic

/-! # Paths and dominators

A path is the list of the nodes that it passes, the last one first. -/

namespace Paths

open List

variable {V : Type} {edge : V → V → Prop}

/-- A path from `a`. -/
inductive Path (edge : V → V → Prop) (a : V) : V → List V → Prop
  | single : Path edge a a [a]
  | snoc {b c : V} {p : List V} : Path edge a b p → edge b c → Path edge a c (c :: p)

def Reaches (edge : V → V → Prop) (a b : V) : Prop := ∃ p, Path edge a b p

/-- `x` is on every path from an entry to `b`. -/
def Dominates (edge : V → V → Prop) (entry : V → Prop) (x b : V) : Prop :=
  ∀ e p, entry e → Path edge e b p → x ∈ p

variable {p q : List V}

theorem Path.last_mem {a b : V} (h : Path edge a b p) : b ∈ p := by
  cases h with
  | single => exact mem_singleton_self a
  | snoc _ _ => exact mem_cons_self

theorem Path.first_mem {a b : V} (h : Path edge a b p) : a ∈ p := by
  induction h with
  | single => exact mem_singleton_self a
  | snoc _ _ ih => exact mem_cons_of_mem _ ih

theorem Reaches.refl (a : V) : Reaches edge a a := ⟨[a], .single⟩

theorem Reaches.snoc {a b c : V} (h : Reaches edge a b) (he : edge b c) : Reaches edge a c := by
  obtain ⟨p, hp⟩ := h
  exact ⟨c :: p, hp.snoc he⟩

theorem Path.append {a b c : V} (hp : Path edge a b p) (hq : Path edge b c q) :
    ∃ r, Path edge a c r ∧ ∀ x, x ∈ r ↔ x ∈ p ∨ x ∈ q := by
  induction hq with
  | single =>
    refine ⟨p, hp, fun x => ⟨.inl, ?_⟩⟩
    rintro (hx | hx)
    · exact hx
    · rw [mem_singleton.mp hx]
      exact hp.last_mem
  | snoc _ he ih =>
    obtain ⟨r, hr, hmem⟩ := ih
    refine ⟨_, hr.snoc he, fun x => ?_⟩
    rw [mem_cons, mem_cons, hmem]
    constructor
    · rintro (hx | hx | hx)
      · exact .inr (.inl hx)
      · exact .inl hx
      · exact .inr (.inr hx)
    · rintro (hx | hx | hx)
      · exact .inr (.inl hx)
      · exact .inl hx
      · exact .inr (.inr hx)

theorem Reaches.trans {a b c : V} (h : Reaches edge a b) (h' : Reaches edge b c) :
    Reaches edge a c := by
  obtain ⟨p, hp⟩ := h
  obtain ⟨q, hq⟩ := h'
  obtain ⟨r, hr, -⟩ := hp.append hq
  exact ⟨r, hr⟩

theorem Reaches.head {a b c : V} (he : edge a b) (h : Reaches edge b c) : Reaches edge a c :=
  ((Reaches.refl a).snoc he).trans h

theorem Path.head_cases {a b : V} (h : Path edge a b p) :
    a = b ∧ p = [a] ∨ ∃ c q, edge a c ∧ Path edge c b q ∧ p = q ++ [a] := by
  induction h with
  | single => exact .inl ⟨rfl, rfl⟩
  | snoc hp he ih =>
    rename_i b c p
    rcases ih with ⟨rfl, rfl⟩ | ⟨d, q, hd, hq, rfl⟩
    · exact .inr ⟨c, [c], he, .single, rfl⟩
    · exact .inr ⟨d, c :: q, hd, hq.snoc he, rfl⟩

theorem Path.head_induction {b : V} {C : V → List V → Prop} (hlast : C b [b])
    (hstep : ∀ a c q, edge a c → Path edge c b q → C c q → C a (q ++ [a])) {a : V}
    (h : Path edge a b p) : C a p := by
  induction hn : p.length generalizing a p with
  | zero =>
    cases h <;> simp at hn
  | succ n ih =>
    rcases h.head_cases with ⟨rfl, rfl⟩ | ⟨c, q, he, hq, rfl⟩
    · exact hlast
    · refine hstep a c q he hq (ih hq ?_)
      simpa using hn

theorem Path.split {a b x : V} {r : List V} (h : Path edge a b (q ++ x :: r)) :
    Path edge x b (q ++ [x]) ∧ Path edge a x (x :: r) := by
  induction q generalizing b with
  | nil =>
    rw [nil_append] at h ⊢
    have hb : b = x := by cases h <;> rfl
    subst hb
    exact ⟨.single, h⟩
  | cons y q ih =>
    rw [cons_append] at h ⊢
    generalize hl : q ++ x :: r = l at h
    cases h with
    | single => cases q <;> cases hl
    | snoc hp he =>
      subst hl
      exact ⟨(ih hp).1.snoc he, (ih hp).2⟩

theorem Path.last_visit [DecidableEq V] {a b x : V} (h : Path edge a b p)
    (hx : x ∈ p) : ∃ q, Path edge x b (q ++ [x]) ∧ x ∉ q ∧ ∀ y ∈ q, y ∈ p := by
  obtain ⟨q, r, rfl, hq⟩ := eq_append_cons_of_mem hx
  exact ⟨q, h.split.1, hq, fun y hy => mem_append_left _ hy⟩

theorem Path.first_visit [DecidableEq V] {a b x : V} (h : Path edge a b p)
    (hx : x ∈ p) : ∃ r, Path edge a x (x :: r) ∧ x ∉ r ∧ ∀ y ∈ r, y ∈ p := by
  obtain ⟨r, q, hr, hnot⟩ := eq_append_cons_of_mem (mem_reverse.mpr hx)
  have hp : p = q.reverse ++ x :: r.reverse := by
    rw [← reverse_reverse p, hr]
    simp
  rw [hp] at h
  refine ⟨r.reverse, h.split.2, fun hmem => hnot (mem_reverse.mp hmem), fun y hy => ?_⟩
  rw [hp]
  exact mem_append_right _ (mem_cons_of_mem x hy)

/-! ## Dominators -/

section Dominators

variable {entry : V → Prop} {a b c x y : V}

theorem Dominates.refl (b : V) : Dominates edge entry b b := fun _ _ _ hp => hp.last_mem

/-- A path to `b` that misses a dominator of `b` starts below it. -/
theorem Dominates.of_path (h : Dominates edge entry x b) (hp : Path edge a b p)
    (hx : x ∉ p) : Dominates edge entry x a := by
  intro e q he hq
  obtain ⟨r, hr, hmem⟩ := hq.append hp
  exact ((hmem x).mp (h e r he hr)).resolve_right hx

variable [DecidableEq V]

theorem Dominates.trans (h : Dominates edge entry x y) (h' : Dominates edge entry y b) :
    Dominates edge entry x b := by
  intro e p he hp
  obtain ⟨r, hr, -, hsub⟩ := hp.first_visit (h' e p he hp)
  rcases mem_cons.mp (h e _ he hr) with rfl | hx
  · exact h' e p he hp
  · exact hsub x hx

theorem Dominates.antisymm (h : Dominates edge entry x y) (h' : Dominates edge entry y x)
    (hy : ∃ e, entry e ∧ Reaches edge e y) : x = y := by
  obtain ⟨e, he, p, hp⟩ := hy
  obtain ⟨r, hr, hnot, -⟩ := hp.first_visit hp.last_mem
  rcases mem_cons.mp (h e _ he hr) with hx | hx
  · exact hx
  · -- before the first visit of `y` there would be one of `x`
    cases hr with
    | single => cases hx
    | snoc hr' _ =>
      obtain ⟨q, hq, -, hsub⟩ := hr'.first_visit hx
      rcases mem_cons.mp (h' e _ he hq) with hy | hy
      · exact hy.symm
      · exact absurd (hsub y hy) hnot

theorem Dominates.total (hx : Dominates edge entry x b) (hy : Dominates edge entry y b)
    (hb : ∃ e, entry e ∧ Reaches edge e b) :
    Dominates edge entry x y ∨ Dominates edge entry y x := by
  obtain ⟨e, he, p, hp⟩ := hb
  obtain ⟨q, hq, hxq, -⟩ := hp.last_visit (hx e p he hp)
  by_cases hyq : y ∈ q
  · -- from `y` on, `x` is not passed any more
    left
    obtain ⟨r, s, rfl, -⟩ := eq_append_cons_of_mem hyq
    rw [append_assoc, cons_append] at hq
    refine hx.of_path hq.split.1 fun hmem => hxq ?_
    rcases mem_append.mp hmem with hmem | hmem
    · exact mem_append_left _ hmem
    · rw [mem_singleton.mp hmem]
      exact hyq
  · by_cases hxy : y = x
    · exact .inl (hxy ▸ Dominates.refl y)
    · refine .inr (hy.of_path hq fun hmem => ?_)
      rcases mem_append.mp hmem with hmem | hmem
      · exact hyq hmem
      · exact hxy (mem_singleton.mp hmem)

/-- Between a block and a dominator of it, nothing above the dominator need be passed. -/
theorem Dominates.path_below (hx : Dominates edge entry x b) (hc : Dominates edge entry c x)
    (hne : c ≠ x) (hb : ∃ e, entry e ∧ Reaches edge e b) : ∃ p, Path edge x b p ∧ c ∉ p:= by
  obtain ⟨e, he, p, hp⟩ := hb
  have hxp := hx e p he hp
  obtain ⟨q, hq, hxq, -⟩ := hp.last_visit hxp
  refine ⟨_, hq, fun hmem => ?_⟩
  rcases mem_append.mp hmem with hmem | hmem
  · obtain ⟨r, s, rfl, -⟩ := eq_append_cons_of_mem hmem
    rw [append_assoc, cons_append] at hq
    have hxc : Dominates edge entry x c := by
      refine hx.of_path hq.split.1 fun hx' => hxq ?_
      rcases mem_append.mp hx' with hx' | hx'
      · exact mem_append_left _ hx'
      · rw [mem_singleton.mp hx']
        exact hmem
    obtain ⟨r', hr', -⟩ := hp.first_visit hxp
    exact hne (hc.antisymm hxc ⟨e, he, _, hr'⟩)
  · exact hne (mem_singleton.mp hmem)

end Dominators

end Paths
