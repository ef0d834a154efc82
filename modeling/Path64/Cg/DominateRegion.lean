import Path64.Cg.Dominate
import Mathlib.Data.Fintype.Pigeonhole
import Mathlib.Data.Set.Finite.Basic

/-! # Dominators of a region and of a set of blocks

`BB_REGION_Calculate_Dominators` trims the sets of the blocks of a region,
starting from the border; its last sweep stops before the first block.
`BB_SET_Calculate_Dominators` lets the sets of the members of a set grow
from the members alone. -/

namespace Cg

open Paths Sweep
open Function (update update_self update_of_ne)

/-! ## Model -/

/-- The neighbours of the blocks, which have the ids from 1 to `puBBCount`. -/
structure Blocks where
  puBBCount : Nat
  preds : Nat → List Nat
  succs : Nat → List Nat

/-- `BB_SET_Universe(PU_BB_Count+2)`. -/
def Blocks.universe (g : Blocks) : Finset Nat := Finset.range (g.puBBCount + 2)

/-- The set of a block of the region before the sweeps. -/
def initRegionSet (g : Blocks) (nbrs : Nat → List Nat) (bbs : List Nat) (border : Nat → Finset Nat)
    (b : Nat) : Finset Nat :=
  if b ∈ bbs then if nbrs b = [] then {b} else g.universe else border b

/-- The body of the loops over a region. -/
def trimSet (nbrs : Nat → List Nat) (m : Nat → Finset Nat) (b : Nat) : Finset Nat :=
  match nbrs b with
  | [] => m b
  | ns => insert b (ns.foldl (fun isect p => isect ∩ m p) (m b))

/-- The blocks that `do { bb = region_bbs[i--]; ... } while (i > 0)` visits. -/
def backward : List Nat → List Nat
  | [b] => [b]
  | bbs => bbs.tail.reverse

/-- `BB_REGION_Calculate_Dominators`; `dom` and `pdom` are the sets at the border. -/
def regionCalculateDominators (g : Blocks) (bbs : List Nat) (dom pdom : Nat → Finset Nat)
    (fuel : Nat) : Option ((Nat → Finset Nat) × (Nat → Finset Nat)) := do
  let dom ← untilStable (trimSet g.preds) bbs fuel (initRegionSet g g.preds bbs dom)
  let pdom ← untilStable (trimSet g.succs) (backward bbs) fuel (initRegionSet g g.succs bbs pdom)
  some (dom, pdom)

/-- What a member of the set has in common with the neighbours; the flag is `first_time`. -/
def meetSets (bbset : List Nat) (m : Nat → Finset Nat) (s : Finset Nat × Bool) (p : Nat) :
    Finset Nat × Bool :=
  if p ∈ bbset then if s.2 then (m p, false) else (s.1 ∩ m p, false) else (∅, false)

/-- The body of the loops over a set. -/
def growSet (nbrs : Nat → List Nat) (bbset : List Nat) (m : Nat → Finset Nat) (b : Nat) :
    Finset Nat :=
  match nbrs b with
  | [] => m b
  | ns => (ns.foldl (meetSets bbset m) (∅, true)).1 ∪ m b

/-- One of the two halves of `BB_SET_Calculate_Dominators`. -/
def growSets (nbrs : Nat → List Nat) (bbset : List Nat) (fuel : Nat) (m : Nat → Finset Nat) :
    Option (Nat → Finset Nat) :=
  untilStable (growSet nbrs bbset) bbset fuel fun b => if b ∈ bbset then {b} else m b

/-- `BB_SET_Calculate_Dominators`. -/
def setCalculateDominators (g : Blocks) (bbset : List Nat) (computeDom computePdom : Bool)
    (dom pdom : Nat → Finset Nat) (fuel : Nat) :
    Option ((Nat → Finset Nat) × (Nat → Finset Nat)) := do
  let dom ← if computeDom then growSets g.preds bbset fuel dom else some dom
  let pdom ← if computePdom then growSets g.succs bbset fuel pdom else some pdom
  some (dom, pdom)

/-! ## The sets of a region -/

/-- The set is that of the block and of what all its neighbours have. -/
def Solves (nbrs : Nat → List Nat) (m : Nat → Finset Nat) (b : Nat) : Prop :=
  ∀ x, x ∈ m b ↔ x = b ∨ nbrs b ≠ [] ∧ ∀ p ∈ nbrs b, x ∈ m p

/-- A region, with sets of blocks at its border. -/
structure IsRegion (g : Blocks) (bbs : List Nat) (dom pdom : Nat → Finset Nat) : Prop where
  nonempty : bbs ≠ []
  nodup : bbs.Nodup
  range : ∀ b ∈ bbs, 1 ≤ b ∧ b ≤ g.puBBCount
  dom : ∀ b ∈ bbs, ∀ p ∈ g.preds b, p ∉ bbs → ∀ x ∈ dom p, 1 ≤ x ∧ x ≤ g.puBBCount
  pdom : ∀ b ∈ bbs, ∀ s ∈ g.succs b, s ∉ bbs → ∀ x ∈ pdom s, 1 ≤ x ∧ x ≤ g.puBBCount

/-- An edge that leaves a block of the region. -/
def RegionEdge (nbrs : Nat → List Nat) (bbs : List Nat) (b c : Nat) : Prop := b ∈ bbs ∧ c ∈ nbrs b

/-- From a successor of the first of several blocks a path past it leaves the region or ends at an
exit. -/
def Escapes (g : Blocks) (bbs : List Nat) : Prop :=
  ∃ b₀ b₁ rest, bbs = b₀ :: b₁ :: rest ∧ ∃ s ∈ g.succs b₀, ∃ c p,
    Path (RegionEdge g.succs bbs) s c p ∧ b₀ ∉ p ∧ (c ∉ bbs ∨ g.succs c = [])

/-- The sets contain what they must, and those at the border stay. -/
structure TrimInv (nbrs : Nat → List Nat) (bbs : List Nat) (border m : Nat → Finset Nat) :
    Prop where
  self : ∀ b ∈ bbs, b ∈ m b
  below : ∀ b ∈ bbs, nbrs b ≠ [] → ∀ x, (∀ p ∈ nbrs b, x ∈ m p) → x ∈ m b
  none : ∀ b ∈ bbs, nbrs b = [] → m b = {b}
  border : ∀ b, b ∉ bbs → m b = border b

section region
variable {g : Blocks} {nbrs : Nat → List Nat} {bbs : List Nat} {border m : Nat → Finset Nat}
  {b x : Nat}

theorem mem_trimSet (hself : b ∈ m b) :
    x ∈ trimSet nbrs m b ↔ x ∈ m b ∧ (x = b ∨ ∀ p ∈ nbrs b, x ∈ m p) := by
  unfold trimSet
  split
  · rename_i hnil
    simp [hnil]
  · rw [Finset.mem_insert, mem_foldl_inter]
    constructor
    · rintro (rfl | ⟨hx, hall⟩)
      · exact ⟨hself, .inl rfl⟩
      · exact ⟨hx, .inr hall⟩
    · rintro ⟨hx, rfl | hall⟩
      · exact .inl rfl
      · exact .inr ⟨hx, hall⟩

theorem trimInv_init (hrange : ∀ b ∈ bbs, 1 ≤ b ∧ b ≤ g.puBBCount)
    (hborder : ∀ b ∈ bbs, ∀ p ∈ nbrs b, p ∉ bbs → ∀ x ∈ border p, 1 ≤ x ∧ x ≤ g.puBBCount) :
    TrimInv nbrs bbs border (initRegionSet g nbrs bbs border) := by
  unfold initRegionSet Blocks.universe
  refine ⟨fun b hb => ?_, fun b hb hne x hx => ?_, fun b hb hnil => ?_, fun b hb => if_neg hb⟩
  · have := hrange b hb
    rw [if_pos hb]
    split
    · exact Finset.mem_singleton_self b
    · exact Finset.mem_range.mpr (by omega)
  · rw [if_pos hb, if_neg hne]
    obtain ⟨p, hp⟩ := List.exists_mem_of_ne_nil _ hne
    have hxp := hx p hp
    by_cases hpb : p ∈ bbs
    · have := hrange p hpb
      rw [if_pos hpb] at hxp
      split at hxp
      · rw [Finset.mem_singleton.mp hxp]
        exact Finset.mem_range.mpr (by omega)
      · exact hxp
    · rw [if_neg hpb] at hxp
      have := hborder b hb p hp hpb x hxp
      exact Finset.mem_range.mpr (by omega)
  · rw [if_pos hb, if_pos hnil]

/-- The step of the sweep over a region: a set only shrinks and stays above the true one. -/
theorem TrimInv.trim (h : TrimInv nbrs bbs border m) (hb : b ∈ bbs) :
    trimSet nbrs m b ⊆ m b ∧ TrimInv nbrs bbs border (update m b (trimSet nbrs m b)) := by
  have hmem : ∀ x, x ∈ trimSet nbrs m b ↔ _ := fun x => mem_trimSet (h.self b hb)
  have hsub : trimSet nbrs m b ⊆ m b := fun x hx => ((hmem x).mp hx).1
  have hall : ∀ c, update m b (trimSet nbrs m b) c ⊆ m c := by
    intro c
    by_cases hcb : c = b
    · subst hcb
      rwa [update_self]
    · rw [update_of_ne hcb]
  refine ⟨hsub, fun c hc => ?_, fun c hc hne x hx => ?_, fun c hc hnil => ?_, fun c hc => ?_⟩
  · by_cases hcb : c = b
    · subst hcb
      rw [update_self, hmem]
      exact ⟨h.self c hc, .inl rfl⟩
    · rw [update_of_ne hcb]
      exact h.self c hc
  · have hx' : ∀ p ∈ nbrs c, x ∈ m p := fun p hp => hall p (hx p hp)
    by_cases hcb : c = b
    · subst hcb
      rw [update_self, hmem]
      exact ⟨h.below c hc hne x hx', .inr hx'⟩
    · rw [update_of_ne hcb]
      exact h.below c hc hne x hx'
  · by_cases hcb : c = b
    · subst hcb
      rw [update_self, trimSet, hnil]
      exact h.none c hc hnil
    · rw [update_of_ne hcb]
      exact h.none c hc hnil
  · rw [update_of_ne (by rintro rfl; exact hc hb)]
    exact h.border c hc

theorem TrimInv.solves (h : TrimInv nbrs bbs border m) (hb : b ∈ bbs)
    (hstable : trimSet nbrs m b = m b) : Solves nbrs m b := by
  intro x
  constructor
  · intro hx
    rw [← hstable, mem_trimSet (h.self b hb)] at hx
    by_cases hnil : nbrs b = []
    · rw [h.none b hb hnil] at hx
      exact .inl (Finset.mem_singleton.mp hx.1)
    · exact hx.2.imp_right fun hall => ⟨hnil, hall⟩
  · rintro (rfl | ⟨hne, hall⟩)
    · exact h.self x hb
    · exact h.below b hb hne x hall

/-- The sets that are never trimmed: that of the first block, and those from which no path escapes.
-/
structure Universal (g : Blocks) (bbs : List Nat) (b₀ : Nat) (m : Nat → Finset Nat) : Prop where
  first : m b₀ = g.universe
  rest : ∀ s ∈ g.succs b₀, ∀ c p, Path (RegionEdge g.succs bbs) s c p → b₀ ∉ p →
    m c = g.universe

theorem Universal.trim {b0 : Nat} (h : Universal g bbs b0 m) (hb : b ∈ bbs) (hne : b ≠ b0)
    (hU : b ∈ g.universe) : Universal g bbs b0 (update m b (trimSet g.succs m b)) := by
  refine ⟨?_, fun s hs c p hp hp0 => ?_⟩
  · rw [update_of_ne hne.symm]
    exact h.first
  · have hmc := h.rest s hs c p hp hp0
    by_cases hcb : c = b
    · subst hcb
      rw [update_self]
      ext x
      rw [mem_trimSet (hmc ▸ hU), hmc]
      refine ⟨fun hx => hx.1, fun hx => ⟨hx, .inr fun t ht => ?_⟩⟩
      by_cases ht0 : t = b0
      · rw [ht0, h.first]
        exact hx
      · have hpt : b0 ∉ t :: p := fun hmem => (List.mem_cons.mp hmem).elim (ht0 ∘ Eq.symm) hp0
        rw [h.rest s hs t (t :: p) (hp.snoc ⟨hb, ht⟩) hpt]
        exact hx
    · rw [update_of_ne hcb]
      exact hmc

theorem TrimInv.zero_not_mem (h : TrimInv g.succs bbs border m)
    (hrange : ∀ b ∈ bbs, 1 ≤ b ∧ b ≤ g.puBBCount)
    (hborder : ∀ b ∈ bbs, ∀ p ∈ g.succs b, p ∉ bbs → ∀ x ∈ border p, 1 ≤ x ∧ x ≤ g.puBBCount)
    {b0 : Nat} (hstable : ∀ b ∈ bbs, b ≠ b0 → trimSet g.succs m b = m b) {c s : Nat} {p : List Nat}
    (hp : Path (RegionEdge g.succs bbs) s c p) (hp0 : b0 ∉ p) (hend : c ∉ bbs ∨ g.succs c = [])
    (hs : ∃ b ∈ bbs, s ∈ g.succs b) : 0 ∉ m s := by
  refine Path.head_induction
    (C := fun a q => b0 ∉ q → (∃ b ∈ bbs, a ∈ g.succs b) → 0 ∉ m a) ?_ ?_ hp hp0 hs
  · rintro - ⟨b, hb, hcb⟩ hmem
    by_cases hc : c ∈ bbs
    · rw [h.none c hc (hend.resolve_left (not_not.mpr hc))] at hmem
      have := hrange c hc
      have := Finset.mem_singleton.mp hmem
      omega
    · rw [h.border c hc] at hmem
      have := hborder b hb c hcb hc 0 hmem
      omega
  · rintro a t q ⟨ha, hat⟩ - ih hq - hmem
    rw [List.mem_append, not_or, List.mem_singleton] at hq
    rw [← hstable a ha (Ne.symm hq.2), mem_trimSet (h.self a ha)] at hmem
    have := hrange a ha
    rcases hmem.2 with rfl | hall
    · omega
    · exact ih hq.1 ⟨a, ha, hat⟩ (hall t hat)

end region

theorem mem_backward {bbs : List Nat} {b : Nat} (h : b ∈ backward bbs) : b ∈ bbs := by
  unfold backward at h
  split at h
  · exact h
  · exact List.mem_of_mem_tail (List.mem_reverse.mp h)

/-- The first of several blocks keeps the universe. -/
structure SkipInv (g : Blocks) (bbs : List Nat) (pdom m : Nat → Finset Nat) : Prop
    extends TrimInv g.succs bbs pdom m where
  skipped : ∀ b₀ b₁ rest, bbs = b₀ :: b₁ :: rest → g.succs b₀ ≠ [] →
    m b₀ = g.universe ∧ (¬ Escapes g bbs → Universal g bbs b₀ m)

section skip
variable {g : Blocks} {bbs : List Nat} {dom pdom m : Nat → Finset Nat} {b : Nat}

theorem IsRegion.mem_universe (hr : IsRegion g bbs dom pdom) (hb : b ∈ bbs) : b ∈ g.universe := by
  have := hr.range b hb
  exact Finset.mem_range.mpr (by omega)

theorem skipInv_init (hr : IsRegion g bbs dom pdom) :
    SkipInv g bbs pdom (initRegionSet g g.succs bbs pdom) := by
  refine ⟨trimInv_init hr.range hr.pdom, fun b0 b1 rest heq hne => ?_⟩
  have hmem : b0 ∈ bbs := heq ▸ List.mem_cons_self
  have huni : initRegionSet g g.succs bbs pdom b0 = g.universe := by
    rw [initRegionSet, if_pos hmem, if_neg hne]
  refine ⟨huni, fun hesc => ⟨huni, fun s hs c p hp hp0 => ?_⟩⟩
  have hc : ¬ (c ∉ bbs ∨ g.succs c = []) := fun hend =>
    hesc ⟨b0, b1, rest, heq, s, hs, c, p, hp, hp0, hend⟩
  rw [not_or, not_not] at hc
  rw [initRegionSet, if_pos hc.1, if_neg hc.2]

theorem SkipInv.trim (hr : IsRegion g bbs dom pdom) (h : SkipInv g bbs pdom m)
    (hb : b ∈ backward bbs) :
    trimSet g.succs m b ⊆ m b ∧ SkipInv g bbs pdom (update m b (trimSet g.succs m b)) := by
  have hbb := mem_backward hb
  obtain ⟨hsub, hinv⟩ := h.toTrimInv.trim hbb
  refine ⟨hsub, hinv, fun b0 b1 rest heq hne => ?_⟩
  obtain ⟨huni, hrest⟩ := h.skipped b0 b1 rest heq hne
  have hb0 : b ≠ b0 := by
    rintro rfl
    subst heq
    exact (List.nodup_cons.mp hr.nodup).1 (List.mem_reverse.mp hb)
  refine ⟨?_, fun hesc => (hrest hesc).trim hbb hb0 (hr.mem_universe hbb)⟩
  rw [update_of_ne hb0.symm]
  exact huni

theorem SkipInv.first_solves (hr : IsRegion g bbs dom pdom) (h : SkipInv g bbs pdom m)
    {b1 : Nat} {rest : List Nat} (heq : bbs = b :: b1 :: rest) (hesc : ¬ Escapes g bbs) :
    Solves g.succs m b := by
  have hb : b ∈ bbs := heq ▸ List.mem_cons_self
  by_cases hnil : g.succs b = []
  · refine h.toTrimInv.solves hb ?_
    rw [trimSet, hnil]
  · obtain ⟨huni, hrest⟩ := h.skipped b b1 rest heq hnil
    intro x
    rw [huni]
    constructor
    · refine fun hx => .inr ⟨hnil, fun s hs => ?_⟩
      by_cases hsb : s = b
      · rw [hsb, huni]
        exact hx
      · rw [(hrest hesc).rest s hs s [s] .single
          (fun hmem => hsb (List.mem_singleton.mp hmem).symm)]
        exact hx
    · rintro (rfl | ⟨hne, hall⟩)
      · exact hr.mem_universe hb
      · rw [← huni]
        exact h.below b hb hne x hall

end skip

/-- The sets of a region end up as solutions, unless the first block is skipped and a path escapes
past it. -/
theorem regionDominators_iff (g : Blocks) (bbs : List Nat) (dom pdom : Nat → Finset Nat)
    (hr : IsRegion g bbs dom pdom) : ∃ N, ∀ fuel ≥ N, ∃ dom' pdom',
      regionCalculateDominators g bbs dom pdom fuel = some (dom', pdom') ∧
      ((∀ b ∈ bbs, Solves g.preds dom' b ∧ Solves g.succs pdom' b) ↔ ¬ Escapes g bbs) := by
  obtain ⟨N1, h1⟩ := untilStable_shrink (l := bbs) (fun _ _ hb hinv => TrimInv.trim hinv hb)
    (trimInv_init (g := g) hr.range hr.dom)
  obtain ⟨N2, h2⟩ := untilStable_shrink (l := backward bbs)
    (fun _ _ hb hinv => SkipInv.trim hr hinv hb) (skipInv_init hr)
  refine ⟨N1 + N2, fun fuel hfuel => ?_⟩
  obtain ⟨dom', hdom, hinv1, hst1⟩ := h1 fuel (by omega)
  obtain ⟨pdom', hpdom, hinv2, hst2⟩ := h2 fuel (by omega)
  refine ⟨dom', pdom', ?_, ?_⟩
  · unfold regionCalculateDominators
    rw [hdom, hpdom]
    rfl
  have hdomSolves : ∀ b ∈ bbs, Solves g.preds dom' b := fun b hb => hinv1.solves hb (hst1 b hb)
  match bbs with
  | [] => exact absurd rfl hr.nonempty
  | [b] =>
    refine iff_of_true (fun c hc => ⟨hdomSolves c hc, hinv2.solves hc (hst2 c hc)⟩) ?_
    rintro ⟨_, _, _, h, -⟩
    cases h
  | b0 :: b1 :: rest =>
    have hlater : ∀ b ∈ b0 :: b1 :: rest, b ≠ b0 → trimSet g.succs pdom' b = pdom' b :=
      fun b hb hne => hst2 b (List.mem_reverse.mpr ((List.mem_cons.mp hb).resolve_left hne))
    constructor
    · rintro hsolves ⟨_, _, _, heq, s, hs, c, p, hp, hp0, hend⟩
      cases heq
      obtain ⟨huni, -⟩ := hinv2.skipped b0 b1 rest rfl (List.ne_nil_of_mem hs)
      have hzero : 0 ∉ pdom' s := hinv2.toTrimInv.zero_not_mem hr.range hr.pdom hlater hp hp0 hend
        ⟨b0, List.mem_cons_self, hs⟩
      have hmem := ((hsolves b0 List.mem_cons_self).2 0).mp
        (huni ▸ Finset.mem_range.mpr (Nat.succ_pos _))
      have := hr.range b0 List.mem_cons_self
      rcases hmem with heq | ⟨-, hall⟩
      · omega
      · exact hzero (hall s hs)
    · intro hesc b hb
      refine ⟨hdomSolves b hb, ?_⟩
      by_cases hbb : b = b0
      · subst hbb
        exact hinv2.first_solves hr rfl hesc
      · exact hinv2.solves hb (hlater b hb hbb)

/-- Blocks 1 and 2 make a loop, entered from 4 and left to 3. -/
def loopBlocks : Blocks where
  puBBCount := 4
  preds b := if b = 1 then [4, 2] else if b = 2 then [1] else if b = 3 then [2] else []
  succs b := if b = 1 then [2] else if b = 2 then [1, 3] else if b = 4 then [1] else []

theorem regionDominators_pair : ∃ N, ∀ fuel ≥ N, ∃ dom' pdom',
    regionCalculateDominators loopBlocks [3, 1, 2] (fun _ => {4}) (fun _ => ∅) fuel =
      some (dom', pdom') ∧
    ∀ b ∈ [3, 1, 2], Solves loopBlocks.preds dom' b ∧ Solves loopBlocks.succs pdom' b := by
  obtain ⟨N, hN⟩ := regionDominators_iff loopBlocks [3, 1, 2] (fun _ => {4}) (fun _ => ∅)
    ⟨by decide, by decide, by decide, by decide, by decide⟩
  refine ⟨N, fun fuel hfuel => ?_⟩
  obtain ⟨dom', pdom', hrun, hiff⟩ := hN fuel hfuel
  refine ⟨dom', pdom', hrun, hiff.mpr ?_⟩
  -- the first block is the exit
  rintro ⟨_, _, _, heq, s, hs, -⟩
  cases heq
  exact absurd (show s ∈ [] from hs) List.not_mem_nil

/-- Block 1 with the only successor 2 keeps the universe. -/
theorem regionDominators_skip : ¬ ∀ (g : Blocks) (bbs : List Nat) (dom pdom : Nat → Finset Nat),
    IsRegion g bbs dom pdom → ∀ fuel dom' pdom',
      regionCalculateDominators g bbs dom pdom fuel = some (dom', pdom') →
        ∀ b ∈ bbs, Solves g.preds dom' b ∧ Solves g.succs pdom' b := by
  intro hall
  have h := hall ⟨2, fun b => if b = 2 then [1] else [], fun b => if b = 1 then [2] else []⟩ [1, 2]
    (fun _ => ∅) (fun _ => ∅) ⟨by decide, by decide, by decide, by decide, by decide⟩ 3 _ _ rfl 1
    (by decide)
  exact absurd ((h.2 0).mp (by decide)) (by decide)

/-! ## The sets of a set of blocks -/

/-- An edge between two members. -/
def SetEdge (nbrs : Nat → List Nat) (bbset : List Nat) (p b : Nat) : Prop :=
  p ∈ bbset ∧ b ∈ bbset ∧ p ∈ nbrs b

/-- A member with a neighbour outside, or with none. -/
def IsStart (nbrs : Nat → List Nat) (bbset : List Nat) (e : Nat) : Prop :=
  e ∈ bbset ∧ (nbrs e = [] ∨ ∃ p ∈ nbrs e, p ∉ bbset)

/-- The set of every member is that of the members on all paths to it. -/
def ExactSets (nbrs : Nat → List Nat) (bbset : List Nat) (m : Nat → Finset Nat) : Prop :=
  ∀ b ∈ bbset, ∀ x, x ∈ m b ↔ x ∈ bbset ∧ Dominates (SetEdge nbrs bbset) (IsStart nbrs bbset) x b

/-- No member can be reached, past another one that is on all paths to it, from a cycle. -/
def NoCyclePast (nbrs : Nat → List Nat) (bbset : List Nat) : Prop :=
  ∀ b ∈ bbset, ∀ x ∈ bbset, x ≠ b → Dominates (SetEdge nbrs bbset) (IsStart nbrs bbset) x b →
    ∀ c c' p q, SetEdge nbrs bbset c' c → Path (SetEdge nbrs bbset) c c' p → x ∉ p →
      Path (SetEdge nbrs bbset) c b q → x ∈ q

/-- The sets hold dominators only, and none missing in a set of members with such a neighbour each.
-/
structure GrowInv (nbrs : Nat → List Nat) (bbset : List Nat) (m : Nat → Finset Nat) : Prop where
  self : ∀ b ∈ bbset, b ∈ m b
  sound : ∀ b ∈ bbset, ∀ x ∈ m b,
    x ∈ bbset ∧ Dominates (SetEdge nbrs bbset) (IsStart nbrs bbset) x b
  least : ∀ (x : Nat) (A : Nat → Prop), (∀ y, A y → y ∈ bbset ∧ y ≠ x ∧ ∃ p ∈ nbrs y, A p) →
    ∀ y, A y → x ∉ m y

section grow
variable {nbrs : Nat → List Nat} {bbset : List Nat} {m : Nat → Finset Nat} {b x : Nat}

theorem mem_foldl_meet (ns : List Nat) : ∀ s : Finset Nat,
    x ∈ (ns.foldl (meetSets bbset m) (s, false)).1 ↔ x ∈ s ∧ ∀ p ∈ ns, p ∈ bbset ∧ x ∈ m p := by
  induction ns with
  | nil => simp
  | cons p ns ih =>
    intro s
    rw [List.foldl_cons, meetSets]
    by_cases hp : p ∈ bbset
    · simp [hp, ih, and_assoc]
    · simp [hp, ih]

theorem mem_growSet : x ∈ growSet nbrs bbset m b ↔
      x ∈ m b ∨ nbrs b ≠ [] ∧ ∀ p ∈ nbrs b, p ∈ bbset ∧ x ∈ m p := by
  unfold growSet
  cases nbrs b with
  | nil => simp
  | cons p ns =>
    simp only
    rw [Finset.mem_union, List.foldl_cons, meetSets, or_comm]
    by_cases hp : p ∈ bbset
    · simp [hp, mem_foldl_meet]
    · simp [hp, mem_foldl_meet]

theorem growInv_init (m : Nat → Finset Nat) :
    GrowInv nbrs bbset fun b => if b ∈ bbset then {b} else m b := by
  refine ⟨fun b hb => ?_, fun b hb x hx => ?_, fun x A hA y hy => ?_⟩
  · rw [if_pos hb]
    exact Finset.mem_singleton_self b
  · rw [if_pos hb] at hx
    rw [Finset.mem_singleton.mp hx]
    exact ⟨hb, .refl b⟩
  · rw [if_pos (hA y hy).1]
    exact fun hx => (hA y hy).2.1 (Finset.mem_singleton.mp hx).symm

/-- The step of the sweep that starts from singletons: a set only grows and stays within the true
dominators. -/
theorem GrowInv.grow (h : GrowInv nbrs bbset m) (hb : b ∈ bbset) :
    m b ⊆ growSet nbrs bbset m b ∧ growSet nbrs bbset m b ⊆ bbset.toFinset ∧
      GrowInv nbrs bbset (update m b (growSet nbrs bbset m b)) := by
  have hsub : m b ⊆ growSet nbrs bbset m b := fun x hx => mem_growSet.mpr (.inl hx)
  have hsound : ∀ x ∈ growSet nbrs bbset m b,
      x ∈ bbset ∧ Dominates (SetEdge nbrs bbset) (IsStart nbrs bbset) x b := by
    intro x hx
    rcases mem_growSet.mp hx with hx | ⟨hne, hall⟩
    · exact h.sound b hb x hx
    · obtain ⟨p, hp⟩ := List.exists_mem_of_ne_nil _ hne
      refine ⟨(h.sound p (hall p hp).1 x (hall p hp).2).1, fun e q he hq => ?_⟩
      cases hq with
      | single =>
        -- the block is no start, its neighbours are members
        rcases he.2 with hnil | ⟨p, hp, hout⟩
        · exact absurd hnil hne
        · exact absurd (hall p hp).1 hout
      | snoc hq hedge =>
        have hmem := hall _ hedge.2.2
        exact List.mem_cons_of_mem _ ((h.sound _ hmem.1 x hmem.2).2 e _ he hq)
  refine ⟨hsub, fun x hx => List.mem_toFinset.mpr (hsound x hx).1, fun c hc => ?_,
    fun c hc => ?_, fun x A hA y hy => ?_⟩
  · by_cases hcb : c = b
    · subst hcb
      rw [update_self]
      exact hsub (h.self c hc)
    · rw [update_of_ne hcb]
      exact h.self c hc
  · by_cases hcb : c = b
    · subst hcb
      rwa [update_self]
    · rw [update_of_ne hcb]
      exact h.sound c hc
  · by_cases hyb : y = b
    · subst hyb
      rw [update_self, mem_growSet, not_or]
      obtain ⟨-, -, p, hp, hAp⟩ := hA y hy
      exact ⟨h.least x A hA y hy, fun hall => h.least x A hA p hAp (hall.2 p hp).2⟩
    · rw [update_of_ne hyb]
      exact h.least x A hA y hy

theorem cycle_of_preds {edge : Nat → Nat → Prop} {A : Nat → Prop} (s : List Nat)
    (hA : ∀ y, A y → y ∈ s ∧ ∃ p, edge p y ∧ A p) (hx : ¬ A x) (hb : A b) :
    ∃ c c' p q, edge c' c ∧ Path edge c c' p ∧ x ∉ p ∧ Path edge c b q ∧ x ∉ q := by
  choose f hf using fun y hy => (hA y hy).2
  let back : {y // A y} → {y // A y} := fun y => ⟨f y.1 y.2, (hf y.1 y.2).2⟩
  have hpath : ∀ (k : Nat) (y : {y // A y}), ∃ p, Path edge (back^[k] y).1 y.1 p ∧ x ∉ p := by
    intro k
    induction k with
    | zero =>
      exact fun y => ⟨_, .single, fun hmem => hx (List.mem_singleton.mp hmem ▸ y.2)⟩
    | succ k ih =>
      intro y
      obtain ⟨p, hp, hxp⟩ := ih (back y)
      refine ⟨y.1 :: p, hp.snoc (hf y.1 y.2).1, fun hmem => ?_⟩
      exact (List.mem_cons.mp hmem).elim (fun heq => hx (heq ▸ y.2)) hxp
  have hfin : Finite {y // A y} :=
    Set.Finite.subset s.toFinset.finite_toSet fun y hy => List.mem_toFinset.mpr (hA y hy).1
  obtain ⟨i, j, hne, heq⟩ := Finite.exists_ne_map_eq_of_infinite fun k : Nat => back^[k] ⟨b, hb⟩
  wlog hij : i < j generalizing i j
  · exact this j i hne.symm heq.symm (by omega)
  obtain ⟨k, rfl⟩ : ∃ k, j = (k + 1) + i := ⟨j - i - 1, by omega⟩
  obtain ⟨q, hq, hxq⟩ := hpath i ⟨b, hb⟩
  obtain ⟨p, hp, hxp⟩ := hpath k (back (back^[i] ⟨b, hb⟩))
  simp only [Function.iterate_add_apply, Function.iterate_succ_apply] at heq
  rw [← heq] at hp
  exact ⟨_, _, p, q, (hf _ (back^[i] ⟨b, hb⟩).2).1, hp, hxp, hq, hxq⟩

/-- Where the growing sweep has come to rest it is exact just when no cycle can be entered past a
block. -/
theorem GrowInv.exact_iff (h : GrowInv nbrs bbset m)
    (hstable : ∀ b ∈ bbset, growSet nbrs bbset m b = m b) :
    ExactSets nbrs bbset m ↔ NoCyclePast nbrs bbset := by
  constructor
  · intro hexact b hb x hx hne hdom c c' p q hedge hp hxp hq
    by_contra hxq
    -- the members that the cycle reaches past `x`
    refine h.least x (fun y => ∃ r, Path (SetEdge nbrs bbset) c y r ∧ x ∉ r) ?_ b ⟨q, hq, hxq⟩
      ((hexact b hb x).mpr ⟨hx, hdom⟩)
    rintro y ⟨r, hr, hxr⟩
    have hyx : y ≠ x := fun heq => hxr (heq ▸ hr.last_mem)
    cases hr with
    | single => exact ⟨hedge.2.1, hyx, c', hedge.2.2, p, hp, hxp⟩
    | snoc hr' he =>
      exact ⟨he.2.1, hyx, _, he.2.2, _, hr', fun hmem => hxr (List.mem_cons_of_mem _ hmem)⟩
  · intro hno b hb x
    refine ⟨h.sound b hb x, fun ⟨hx, hdom⟩ => by_contra fun hmiss => ?_⟩
    have hback : ∀ y, (y ∈ bbset ∧ Dominates (SetEdge nbrs bbset) (IsStart nbrs bbset) x y ∧
        x ∉ m y) → ∃ p, SetEdge nbrs bbset p y ∧ p ∈ bbset ∧
          Dominates (SetEdge nbrs bbset) (IsStart nbrs bbset) x p ∧ x ∉ m p := by
      rintro y ⟨hy, hdom, hmiss⟩
      have hyx : x ≠ y := by
        rintro rfl
        exact hmiss (h.self x hy)
      have hstart : ¬ IsStart nbrs bbset y := fun he =>
        hyx (List.mem_singleton.mp (hdom y [y] he .single))
      have hin : nbrs y ≠ [] ∧ ∀ p ∈ nbrs y, p ∈ bbset := by
        refine ⟨fun hnil => hstart ⟨hy, .inl hnil⟩, fun p hp => ?_⟩
        by_contra hout
        exact hstart ⟨hy, .inr ⟨p, hp, hout⟩⟩
      rw [← hstable y hy, mem_growSet, not_or, not_and] at hmiss
      obtain ⟨p, hp, hxp⟩ : ∃ p ∈ nbrs y, x ∉ m p := by
        by_contra hall
        push Not at hall
        exact hmiss.2 hin.1 fun p hp => ⟨hin.2 p hp, hall p hp⟩
      have hedge : SetEdge nbrs bbset p y := ⟨hin.2 p hp, hy, hp⟩
      refine ⟨p, hedge, hin.2 p hp, fun e q he hq => ?_, hxp⟩
      exact (List.mem_cons.mp (hdom e _ he (hq.snoc hedge))).resolve_left hyx
    have hxx : ¬ (x ∈ bbset ∧ Dominates (SetEdge nbrs bbset) (IsStart nbrs bbset) x x ∧
        x ∉ m x) := fun hx' => hx'.2.2 (h.self x hx)
    obtain ⟨c, c', p, q, hedge, hp, hxp, hq, hxq⟩ :=
      cycle_of_preds bbset (fun y hy => ⟨hy.1, hback y hy⟩) hxx ⟨hb, hdom, hmiss⟩
    refine hxq (hno b hb x hx ?_ hdom c c' p q hedge hp hxp hq)
    rintro rfl
    exact hmiss (h.self x hb)

theorem growSets_spec (nbrs : Nat → List Nat) (bbset : List Nat) (m : Nat → Finset Nat) :
    ∃ N, ∀ fuel ≥ N, ∃ m', growSets nbrs bbset fuel m = some m' ∧
      (ExactSets nbrs bbset m' ↔ NoCyclePast nbrs bbset) := by
  obtain ⟨N, h⟩ := untilStable_grow (l := bbset) bbset.toFinset
    (fun _ _ hb (hinv : GrowInv nbrs _ _) => hinv.grow hb) (growInv_init m)
  refine ⟨N, fun fuel hfuel => ?_⟩
  obtain ⟨m', hm', hinv, hstable⟩ := h fuel hfuel
  exact ⟨m', hm', hinv.exact_iff hstable⟩

end grow

/-- The sets of dominators and of post-dominators of a set of blocks are exact if no cycle gets in
the way. -/
theorem setDominators_iff (g : Blocks) (bbset : List Nat) (computeDom computePdom : Bool)
    (dom pdom : Nat → Finset Nat) : ∃ N, ∀ fuel ≥ N, ∃ dom' pdom',
      setCalculateDominators g bbset computeDom computePdom dom pdom fuel = some (dom', pdom') ∧
      (computeDom = true → (ExactSets g.preds bbset dom' ↔ NoCyclePast g.preds bbset)) ∧
      (computePdom = true → (ExactSets g.succs bbset pdom' ↔ NoCyclePast g.succs bbset)) := by
  obtain ⟨N1, h1⟩ := growSets_spec g.preds bbset dom
  obtain ⟨N2, h2⟩ := growSets_spec g.succs bbset pdom
  refine ⟨N1 + N2, fun fuel hfuel => ?_⟩
  obtain ⟨m1, hm1, hiff1⟩ := h1 fuel (by omega)
  obtain ⟨m2, hm2, hiff2⟩ := h2 fuel (by omega)
  unfold setCalculateDominators
  refine ⟨if computeDom then m1 else dom, if computePdom then m2 else pdom, ?_, ?_, ?_⟩
  · rw [hm1, hm2]
    cases computeDom <;> cases computePdom <;> rfl
  · rintro rfl
    exact hiff1
  · rintro rfl
    exact hiff2

/-- Block 1 leads to the cycle of 2 and 3, and is on all paths to it. -/
theorem setDominators_cycle : ¬ ∀ (g : Blocks) (bbset : List Nat) (dom pdom : Nat → Finset Nat)
    (fuel : Nat) (dom' pdom' : Nat → Finset Nat),
      setCalculateDominators g bbset true true dom pdom fuel = some (dom', pdom') →
        ExactSets g.preds bbset dom' ∧ ExactSets g.succs bbset pdom' := by
  intro hall
  have h := (hall ⟨3, fun b => if b = 2 then [1, 3] else if b = 3 then [2] else [],
    fun b => if b = 1 then [2] else if b = 2 then [3] else if b = 3 then [2] else []⟩ [1, 2, 3]
    (fun _ => ∅) (fun _ => ∅) 4 _ _ rfl).1
  refine absurd ((h 2 (by decide) 1).mpr ⟨by decide, fun e p he hp => ?_⟩) (by decide)
  have hall' : ∀ b q, Path (SetEdge (fun b => if b = 2 then [1, 3] else if b = 3 then [2] else [])
      [1, 2, 3]) e b q → 1 ∈ q := by
    intro b q hq
    induction hq with
    | single =>
      obtain ⟨hmem, hstart⟩ := he
      simp only [List.mem_cons, List.not_mem_nil, or_false] at hmem
      rcases hmem with rfl | rfl | rfl
      · exact List.mem_singleton_self 1
      · revert hstart
        decide
      · revert hstart
        decide
    | snoc _ _ ih => exact List.mem_cons_of_mem _ ih
  exact hall' 2 p hp

end Cg
