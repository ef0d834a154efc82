import Path64.Lib.Paths
import Mathlib.Data.Finset.Sort

/-! # Dominance frontiers

`CFG::Compute_dom_frontier` goes bottom-up over the dominator tree;
`CFG::Compute_control_dependence` does the same over the edges that are
turned around, with the post-dominator tree. -/

namespace Opt

open Paths

/-! ## Model -/

/-- What blocks (`BB_NODE`) know of each other. -/
structure Cfg where
  entryBb : Nat
  exitBb : Nat
  lastBbId : Nat
  succ : Nat → List Nat
  pred : Nat → List Nat
  idom : Nat → Option Nat
  ipdom : Nat → Option Nat
  domBbs : Nat → List Nat
  pdomBbs : Nat → List Nat
  pred_iff : ∀ x y, y ∈ pred x ↔ x ∈ succ y
  id_le : ∀ x y, y ∈ succ x → x ≤ lastBbId ∧ y ≤ lastBbId
  entry_succ : ∃ b ∈ succ entryBb, b ≠ entryBb

/-- `if ( idomy != bbx ) dfx->Union1D( bby )` for every block of a list. -/
def unionNotIdom (idom : Nat → Option Nat) (x : Nat) (dfx : Finset Nat) (bbs : List Nat) :
    Finset Nat :=
  bbs.foldl (fun dfx y => if idom y ≠ some x then insert y dfx else dfx) dfx

/-- The recursion over a tree of blocks; no block is among its own children. -/
def frontier (next : Nat → List Nat) (idom : Nat → Option Nat) (domBbs : Nat → List Nat) :
    Nat → (Nat → Finset Nat) → Nat → Option (Nat → Finset Nat)
  | 0, _, _ => none
  | fuel + 1, df, x => do
    let df ← (domBbs x).foldlM (frontier next idom domBbs fuel) df
    let dfx := unionNotIdom idom x ∅ (next x)
    let dfx := (domBbs x).foldl (fun dfx z => unionNotIdom idom x dfx (df z).sort) dfx
    some (Function.update df x dfx)

/-- `Dom_compute_dom_frontier` -/
def Cfg.domComputeDomFrontier (cfg : Cfg) : Nat → (Nat → Finset Nat) → Nat →
    Option (Nat → Finset Nat) :=
  frontier cfg.succ cfg.idom cfg.domBbs

/-- `Dom_compute_rcfg_dom_frontier` -/
def Cfg.domComputeRcfgDomFrontier (cfg : Cfg) : Nat → (Nat → Finset Nat) → Nat →
    Option (Nat → Finset Nat) :=
  frontier cfg.pred cfg.ipdom cfg.pdomBbs

/-- `CFG::Compute_dom_frontier`; there is no result where the assertion fails. -/
def Cfg.computeDomFrontier (cfg : Cfg) (fuel : Nat) (df : Nat → Finset Nat) :
    Option (Nat → Finset Nat) :=
  if cfg.domBbs cfg.entryBb = [] then none else cfg.domComputeDomFrontier fuel df cfg.entryBb

/-- `CFG::Compute_control_dependence` -/
def Cfg.computeControlDependence (cfg : Cfg) (fuel : Nat) (df : Nat → Finset Nat) :
    Option (Nat → Finset Nat) :=
  if cfg.domBbs cfg.entryBb = [] then none else cfg.domComputeRcfgDomFrontier fuel df cfg.exitBb

/-! ## Frontiers and trees of dominators -/

section Abstract

variable (edge : Nat → Nat → Prop) (root : Nat)

/-- `x` dominates the block `y`, which can be reached from the root. -/
def Dom (x y : Nat) : Prop := Reaches edge root y ∧ Dominates edge (· = root) x y

/-- `x` dominates a predecessor of `y`, and does not strictly dominate `y`. -/
def InFrontier (x y : Nat) : Prop :=
  (∃ p, Dom edge root x p ∧ edge p y) ∧ ¬ (Dom edge root x y ∧ x ≠ y)

/-- The root has no immediate dominator, any other block the closest strict one. -/
structure DomTree (idom : Nat → Option Nat) (domBbs : Nat → List Nat) : Prop where
  root_none : idom root = none
  idom_some : ∀ y, Reaches edge root y → y ≠ root → ∃ x, idom y = some x ∧ x ≠ y ∧
    Dom edge root x y ∧ ∀ c, c ≠ y → Dom edge root c y → Dom edge root c x
  mem_bbs : ∀ x, Reaches edge root x → ∀ y, y ∈ domBbs x ↔ Reaches edge root y ∧ idom y = some x

variable {edge root} {x y z p : Nat}

theorem Dom.reaches_left (h : Dom edge root x y) : Reaches edge root x := by
  obtain ⟨⟨q, hq⟩, hx⟩ := h
  obtain ⟨r, hr, -⟩ := hq.first_visit (hx root q rfl hq)
  exact ⟨_, hr⟩

theorem Dom.refl (h : Reaches edge root x) : Dom edge root x x := ⟨h, Dominates.refl x⟩

theorem Dom.trans (h : Dom edge root x y) (h' : Dom edge root y z) : Dom edge root x z :=
  ⟨h'.1, h.2.trans h'.2⟩

theorem Dom.antisymm (h : Dom edge root x y) (h' : Dom edge root y x) : x = y :=
  h.2.antisymm h'.2 ⟨root, rfl, h.1⟩

theorem Dom.total (h : Dom edge root x z) (h' : Dom edge root y z) :
    Dom edge root x y ∨ Dom edge root y x :=
  (h.2.total h'.2 ⟨root, rfl, h.1⟩).imp (⟨h'.reaches_left, ·⟩) (⟨h.reaches_left, ·⟩)

theorem Dom.of_edge (h : Dom edge root x y) (hne : x ≠ y) (hp : Reaches edge root p)
    (he : edge p y) : Dom edge root x p := by
  refine ⟨hp, fun e q hroot hq => ?_⟩
  exact (List.mem_cons.mp (h.2 e _ hroot (hq.snoc he))).resolve_left hne

theorem Dom.root_eq (h : Dom edge root x root) : x = root :=
  List.mem_singleton.mp (h.2 root _ rfl .single)

namespace DomTree

variable {idom : Nat → Option Nat} {domBbs : Nat → List Nat}
  (ht : DomTree edge root idom domBbs)
include ht

theorem exists_idom (h : Dom edge root x y) (hne : x ≠ y) : ∃ w, idom y = some w ∧ w ≠ y ∧
    Dom edge root w y ∧ Dom edge root x w := by
  have hroot : y ≠ root := by
    rintro rfl
    exact hne h.root_eq
  obtain ⟨w, hw, hwy, hdom, hall⟩ := ht.idom_some y h.1 hroot
  exact ⟨w, hw, hwy, hdom, hall x hne h⟩

theorem idom_spec (hy : Reaches edge root y) (h : idom y = some x) :
    x ≠ y ∧ Dom edge root x y ∧ ∀ c, c ≠ y → Dom edge root c y → Dom edge root c x := by
  have hroot : y ≠ root := by
    rintro rfl
    rw [ht.root_none] at h
    cases h
  obtain ⟨w, hw, hspec⟩ := ht.idom_some y hy hroot
  rw [h, Option.some.injEq] at hw
  exact hw ▸ hspec

end DomTree

/-! ## The frontier of a block from those of its children -/

/-- The blocks that a block dominates. -/
noncomputable def below (edge : Nat → Nat → Prop) (root n x : Nat) : Finset Nat :=
  open Classical in (Finset.range (n + 1)).filter (Dom edge root x)

variable {n : Nat}

theorem mem_below (hid : ∀ a b, edge a b → a ≤ n ∧ b ≤ n) (hroot : root ≤ n) :
    y ∈ below edge root n x ↔ Dom edge root x y := by
  classical
  rw [below, Finset.mem_filter, Finset.mem_range, and_iff_right_iff_imp]
  intro h
  obtain ⟨⟨q, hq⟩, -⟩ := h
  cases hq with
  | single => omega
  | snoc _ he => exact Nat.lt_succ_of_le (hid _ _ he).2

theorem card_below_lt (hid : ∀ a b, edge a b → a ≤ n ∧ b ≤ n) (hroot : root ≤ n)
    (h : Dom edge root x y) (hne : x ≠ y) :
    (below edge root n y).card < (below edge root n x).card := by
  refine Finset.card_lt_card ⟨fun b hb => ?_, fun hsub => ?_⟩
  · rw [mem_below hid hroot] at hb ⊢
    exact h.trans hb
  · have hx := hsub ((mem_below hid hroot).mpr (Dom.refl h.reaches_left))
    exact hne (h.antisymm ((mem_below hid hroot).mp hx))

namespace DomTree

variable {idom : Nat → Option Nat} {domBbs : Nat → List Nat}
  (ht : DomTree edge root idom domBbs)
include ht

theorem exists_child {p : Nat} (hid : ∀ a b, edge a b → a ≤ n ∧ b ≤ n) (hroot : root ≤ n)
    (h : Dom edge root x p) (hne : x ≠ p) : ∃ z ∈ domBbs x, Dom edge root z p := by
  obtain ⟨w, hw, hwp, hdom, hxw⟩ := ht.exists_idom h hne
  by_cases hx : x = w
  · subst hx
    exact ⟨p, (ht.mem_bbs x h.reaches_left p).mpr ⟨h.1, hw⟩, Dom.refl h.1⟩
  · have := card_below_lt hid hroot hxw hx
    have := card_below_lt hid hroot hdom hwp
    obtain ⟨z, hz, hzw⟩ := exists_child hid hroot hxw hx
    exact ⟨z, hz, hzw.trans hdom⟩
termination_by (below edge root n x).card - (below edge root n p).card

/-- The frontier of a block: its own successors and the frontiers of its children, less what it
dominates. -/
theorem inFrontier_iff (hid : ∀ a b, edge a b → a ≤ n ∧ b ≤ n) (hroot : root ≤ n)
    (hx : Reaches edge root x) : InFrontier edge root x y ↔
      (edge x y ∨ ∃ z ∈ domBbs x, InFrontier edge root z y) ∧ idom y ≠ some x := by
  constructor
  · rintro ⟨⟨p, hp, he⟩, hnot⟩
    have hy : Reaches edge root y := hp.1.snoc he
    refine ⟨?_, fun hi => hnot ?_⟩
    · by_cases hxp : x = p
      · exact .inl (hxp ▸ he)
      · obtain ⟨z, hz, hzp⟩ := ht.exists_child hid hroot hp hxp
        refine .inr ⟨z, hz, ⟨p, hzp, he⟩, fun ⟨hzy, hne⟩ => hnot ?_⟩
        obtain ⟨hzr, hiz⟩ := (ht.mem_bbs x hx z).mp hz
        obtain ⟨hxz, hdom, -⟩ := ht.idom_spec hzr hiz
        refine ⟨hdom.trans hzy, ?_⟩
        rintro rfl
        exact hxz (hdom.antisymm hzy)
    · obtain ⟨hne, hdom, -⟩ := ht.idom_spec hy hi
      exact ⟨hdom, hne⟩
  · rintro ⟨hor, hni⟩
    rcases hor with he | ⟨z, hz, ⟨p, hp, he⟩, hnz⟩
    · refine ⟨⟨x, Dom.refl hx, he⟩, fun ⟨hxy, hne⟩ => ?_⟩
      obtain ⟨w, hw, hwy, hdom, hxw⟩ := ht.exists_idom hxy hne
      -- the immediate dominator of `y` dominates the predecessor `x` too
      have hwx := hdom.of_edge hwy hx he
      rw [hw, hxw.antisymm hwx] at hni
      exact hni rfl
    · obtain ⟨hzr, hiz⟩ := (ht.mem_bbs x hx z).mp hz
      obtain ⟨hxz, hdom, hall⟩ := ht.idom_spec hzr hiz
      refine ⟨⟨p, hdom.trans hp, he⟩, fun ⟨hxy, hne⟩ => ?_⟩
      obtain ⟨w, hw, hwy, hdomw, hxw⟩ := ht.exists_idom hxy hne
      have hwp := hdomw.of_edge hwy hp.1 he
      rcases hp.total hwp with hzw | hwz
      · -- `z` dominates `y`, hence is `y`
        refine hnz ⟨hzw.trans hdomw, ?_⟩
        rintro rfl
        exact hni hiz
      · by_cases hwz' : w = z
        · exact hnz ⟨hwz' ▸ hdomw, hwz' ▸ hwy⟩
        · rw [hw, hxw.antisymm (hall w hwz' hwz)] at hni
          exact hni rfl

end DomTree

end Abstract

/-! ## The recursion -/

variable {dfx : Finset Nat} {bbs : List Nat}

theorem mem_unionNotIdom {idom : Nat → Option Nat} {x y : Nat} :
    y ∈ unionNotIdom idom x dfx bbs ↔ y ∈ dfx ∨ y ∈ bbs ∧ idom y ≠ some x := by
  induction bbs generalizing dfx with
  | nil => simp [unionNotIdom]
  | cons b bbs ih =>
    rw [unionNotIdom, List.foldl_cons, ← unionNotIdom, ih, List.mem_cons]
    by_cases hb : idom b ≠ some x
    · rw [if_pos hb, Finset.mem_insert]
      constructor
      · rintro ((rfl | hy) | hy)
        · exact .inr ⟨.inl rfl, hb⟩
        · exact .inl hy
        · exact .inr ⟨.inr hy.1, hy.2⟩
      · rintro (hy | ⟨rfl | hy, hi⟩)
        · exact .inl (.inr hy)
        · exact .inl (.inl rfl)
        · exact .inr ⟨hy, hi⟩
    · rw [if_neg hb]
      constructor
      · rintro (hy | hy)
        · exact .inl hy
        · exact .inr ⟨.inr hy.1, hy.2⟩
      · rintro (hy | ⟨rfl | hy, hi⟩)
        · exact .inl hy
        · exact absurd hi hb
        · exact .inr ⟨hy, hi⟩

theorem mem_unionChildren {idom : Nat → Option Nat} {x y : Nat} {df : Nat → Finset Nat}
    :
    y ∈ bbs.foldl (fun dfx z => unionNotIdom idom x dfx (df z).sort) dfx ↔
      y ∈ dfx ∨ (∃ z ∈ bbs, y ∈ df z) ∧ idom y ≠ some x := by
  induction bbs generalizing dfx with
  | nil => simp
  | cons b bbs ih =>
    rw [List.foldl_cons, ih, mem_unionNotIdom, Finset.mem_sort, List.exists_mem_cons_iff, or_assoc,
      ← or_and_right]

section Recursion

variable {edge : Nat → Nat → Prop} {root n : Nat} {next : Nat → List Nat}
  {idom : Nat → Option Nat} {domBbs : Nat → List Nat}

/-- The set of `x` is its frontier. -/
def Exact (edge : Nat → Nat → Prop) (root : Nat) (df : Nat → Finset Nat) (x : Nat) : Prop :=
  ∀ y, y ∈ df x ↔ InFrontier edge root x y

theorem foldlM_frontier {f : (Nat → Finset Nat) → Nat → Option (Nat → Finset Nat)}
    (hf : ∀ z ∈ bbs, ∀ df, ∃ df', f df z = some df' ∧
      (∀ b, Dom edge root z b → Exact edge root df' b) ∧
      ∀ b, Exact edge root df b → Exact edge root df' b) (df : Nat → Finset Nat) :
    ∃ df', bbs.foldlM f df = some df' ∧
      (∀ z ∈ bbs, ∀ b, Dom edge root z b → Exact edge root df' b) ∧
      ∀ b, Exact edge root df b → Exact edge root df' b := by
  induction bbs generalizing df with
  | nil => exact ⟨df, rfl, fun z hz => (List.not_mem_nil hz).elim, fun b hb => hb⟩
  | cons z bbs ih =>
    obtain ⟨df1, h1, hnew1, hold1⟩ := hf z List.mem_cons_self df
    obtain ⟨df2, h2, hnew2, hold2⟩ := ih (fun z hz => hf z (List.mem_cons_of_mem _ hz)) df1
    refine ⟨df2, by rw [List.foldlM_cons, h1]; exact h2, ?_, fun b hb => hold2 b (hold1 b hb)⟩
    rintro z' hz' b hb
    rcases List.mem_cons.mp hz' with rfl | hz'
    · exact hold2 b (hnew1 b hb)
    · exact hnew2 z' hz' b hb

/-- By induction on the fuel, which the blocks below `x` in the dominator tree bound. -/
theorem frontier_spec (ht : DomTree edge root idom domBbs) (hnext : ∀ x y, y ∈ next x ↔ edge x y)
    (hid : ∀ a b, edge a b → a ≤ n ∧ b ≤ n) (hroot : root ≤ n) (fuel x : Nat)
    (hx : Reaches edge root x) (hfuel : (below edge root n x).card ≤ fuel)
    (df : Nat → Finset Nat) : ∃ df', frontier next idom domBbs fuel df x = some df' ∧
      (∀ b, Dom edge root x b → Exact edge root df' b) ∧
      ∀ b, Exact edge root df b → Exact edge root df' b := by
  induction fuel generalizing x df with
  | zero =>
    have hmem := (mem_below hid hroot).mpr (Dom.refl hx)
    rw [Finset.card_eq_zero.mp (Nat.le_zero.mp hfuel)] at hmem
    cases hmem
  | succ fuel ih =>
    have hchild : ∀ z ∈ domBbs x, ∀ df, ∃ df', frontier next idom domBbs fuel df z = some df' ∧
        (∀ b, Dom edge root z b → Exact edge root df' b) ∧
        ∀ b, Exact edge root df b → Exact edge root df' b := by
      intro z hz df
      obtain ⟨hzr, hiz⟩ := (ht.mem_bbs x hx z).mp hz
      obtain ⟨hxz, hdom, -⟩ := ht.idom_spec hzr hiz
      have := card_below_lt hid hroot hdom hxz
      exact ih z hzr (by omega) df
    obtain ⟨df1, h1, hnew, hold⟩ := foldlM_frontier hchild df
    refine ⟨_, by rw [frontier, h1]; rfl, ?_⟩
    -- the set of `x` itself, from those of the children
    have hself : ∀ y, y ∈ (domBbs x).foldl (fun dfx z => unionNotIdom idom x dfx (df1 z).sort)
        (unionNotIdom idom x ∅ (next x)) ↔ InFrontier edge root x y := by
      intro y
      rw [mem_unionChildren, mem_unionNotIdom, ht.inFrontier_iff hid hroot hx, hnext, or_and_right]
      have hz : (∃ z ∈ domBbs x, y ∈ df1 z) ↔ ∃ z ∈ domBbs x, InFrontier edge root z y := by
        refine exists_congr fun z => and_congr_right fun hz => ?_
        exact hnew z hz z (Dom.refl ((ht.mem_bbs x hx z).mp hz).1) y
      rw [hz]
      simp
    refine ⟨fun b hb => ?_, fun b hb => ?_⟩
    · by_cases hbx : b = x
      · subst hbx
        rw [Exact, Function.update_self]
        exact hself
      · obtain ⟨z, hz, hzb⟩ := ht.exists_child hid hroot hb (Ne.symm hbx)
        rw [Exact, Function.update_of_ne hbx]
        exact hnew z hz b hzb
    · by_cases hbx : b = x
      · subst hbx
        rw [Exact, Function.update_self]
        exact hself
      · rw [Exact, Function.update_of_ne hbx]
        exact hold b hb

theorem frontier_root (ht : DomTree edge root idom domBbs) (hnext : ∀ x y, y ∈ next x ↔ edge x y)
    (hid : ∀ a b, edge a b → a ≤ n ∧ b ≤ n) (hroot : root ≤ n) (fuel : Nat) (hfuel : n < fuel)
    (df : Nat → Finset Nat) : ∃ df', frontier next idom domBbs fuel df root = some df' ∧
      ∀ x, Reaches edge root x → ∀ y, y ∈ df' x ↔ InFrontier edge root x y := by
  classical
  have hcard : (below edge root n root).card ≤ fuel := by
    have := Finset.card_filter_le (Finset.range (n + 1)) (Dom edge root root)
    rw [Finset.card_range] at this
    exact this.trans hfuel
  obtain ⟨df', h, hnew, -⟩ := frontier_spec ht hnext hid hroot fuel root (Reaches.refl root) hcard df
  exact ⟨df', h, fun x hx => hnew x ⟨hx, fun e p he hp => he ▸ hp.first_mem⟩⟩

end Recursion

/-! ## Both graphs -/

/-- The edges of the flow graph, and the same turned around. -/
def Cfg.edge (cfg : Cfg) (x y : Nat) : Prop := y ∈ cfg.succ x

def Cfg.redge (cfg : Cfg) (x y : Nat) : Prop := cfg.edge y x

def Cfg.HasDomTree (cfg : Cfg) : Prop := DomTree cfg.edge cfg.entryBb cfg.idom cfg.domBbs

def Cfg.HasPdomTree (cfg : Cfg) : Prop := DomTree cfg.redge cfg.exitBb cfg.ipdom cfg.pdomBbs

theorem Cfg.domBbs_ne_nil (cfg : Cfg) (ht : cfg.HasDomTree) : cfg.domBbs cfg.entryBb ≠ [] := by
  obtain ⟨b, hb, hne⟩ := cfg.entry_succ
  have hdom : Dom cfg.edge cfg.entryBb cfg.entryBb b :=
    ⟨(Reaches.refl _).snoc hb, fun e p he hp => he ▸ hp.first_mem⟩
  obtain ⟨z, hz, -⟩ := ht.exists_child (n := cfg.lastBbId) cfg.id_le (cfg.id_le _ _ hb).1 hdom
    (Ne.symm hne)
  exact List.ne_nil_of_mem hz

/-- With trees that are right, both functions give every block its frontier. -/
theorem Cfg.computeFrontiers (cfg : Cfg) (ht : cfg.HasDomTree) (fuel : Nat)
    (hfuel : max cfg.lastBbId cfg.exitBb < fuel) (df : Nat → Finset Nat) :
    (∃ df', cfg.computeDomFrontier fuel df = some df' ∧ ∀ x, Reaches cfg.edge cfg.entryBb x →
        ∀ y, y ∈ df' x ↔ InFrontier cfg.edge cfg.entryBb x y) ∧
    (cfg.HasPdomTree → ∃ df', cfg.computeControlDependence fuel df = some df' ∧
      ∀ x, Reaches cfg.redge cfg.exitBb x →
        ∀ y, y ∈ df' x ↔ InFrontier cfg.redge cfg.exitBb x y) := by
  have hne := cfg.domBbs_ne_nil ht
  obtain ⟨b, hb, -⟩ := cfg.entry_succ
  constructor
  · rw [computeDomFrontier, if_neg hne]
    exact frontier_root ht (fun _ _ => Iff.rfl) cfg.id_le (cfg.id_le _ _ hb).1 fuel (by omega) df
  · intro hpt
    rw [computeControlDependence, if_neg hne]
    refine frontier_root (n := max cfg.lastBbId cfg.exitBb) hpt cfg.pred_iff (fun x y h => ?_)
      (le_max_right _ _) fuel hfuel df
    have := cfg.id_le y x h
    omega

/-- Two blocks that go on to each other. -/
def pairCfg : Cfg where
  entryBb := 0
  exitBb := 1
  lastBbId := 1
  succ b := if b = 0 then [1] else if b = 1 then [0] else []
  pred b := if b = 0 then [1] else if b = 1 then [0] else []
  idom b := if b = 1 then some 0 else none
  ipdom b := if b = 0 then some 1 else none
  domBbs b := if b = 0 then [1] else []
  pdomBbs b := if b = 1 then [0] else []
  pred_iff x y := by grind
  id_le x y h := by grind
  entry_succ := ⟨1, by simp, by simp⟩

theorem pair_domTree {edge : Nat → Nat → Prop} {a b : Nat} (hab : a ≠ b)
    (hedge : ∀ x y, edge x y ↔ x = a ∧ y = b ∨ x = b ∧ y = a) :
    DomTree edge a (fun y => if y = b then some a else none)
      (fun x => if x = a then [b] else []) := by
  have hb : Reaches edge a b := (Reaches.refl a).snoc ((hedge a b).mpr (.inl ⟨rfl, rfl⟩))
  have hreach : ∀ y, Reaches edge a y → y = a ∨ y = b := by
    rintro y ⟨p, hp⟩
    cases hp with
    | single => exact .inl rfl
    | snoc _ he => exact ((hedge _ _).mp he).elim (fun h => .inr h.2) (fun h => .inl h.2)
  refine ⟨if_neg hab, fun y hy hya => ?_, fun x hx y => ?_⟩
  · obtain rfl := (hreach y hy).resolve_left hya
    refine ⟨a, if_pos rfl, hab, ⟨hy, fun e p he hp => he ▸ hp.first_mem⟩, fun c hc hdom => ?_⟩
    rw [(hreach c hdom.reaches_left).resolve_right hc]
    exact Dom.refl (Reaches.refl a)
  · rcases hreach x hx with rfl | rfl
    · grind
    · grind

theorem Cfg.computeFrontiers_pair : (∃ df', pairCfg.computeDomFrontier 2 (fun _ => ∅) = some df' ∧
      ∀ x, Reaches pairCfg.edge 0 x → ∀ y, y ∈ df' x ↔ InFrontier pairCfg.edge 0 x y) ∧
    ∃ df', pairCfg.computeControlDependence 2 (fun _ => ∅) = some df' ∧
      ∀ x, Reaches pairCfg.redge 1 x → ∀ y, y ∈ df' x ↔ InFrontier pairCfg.redge 1 x y := by
  have ht : pairCfg.HasDomTree := pair_domTree (by decide) fun x y => by
    simp only [Cfg.edge, pairCfg]
    grind
  have hpt : pairCfg.HasPdomTree := pair_domTree (by decide) fun x y => by
    simp only [Cfg.redge, Cfg.edge, pairCfg]
    grind
  obtain ⟨h, h'⟩ := pairCfg.computeFrontiers ht 2 (by decide) (fun _ => ∅)
  exact ⟨h, h' hpt⟩

end Opt
