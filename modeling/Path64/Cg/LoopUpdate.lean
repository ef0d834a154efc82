import Path64.Cg.FindLoops

/-! # Blocks that enter and leave loops

`LOOP_DESCR_Add_BB` and `LOOP_DESCR_Delete_BB` change the sets of a loop
and of those around it. The next loop around is looked for by nest levels
and containment of the sets as they are, so that a loop without blocks is
contained in any other one. -/

namespace Cg

open List Function Paths

/-! ## Model -/

/-- The loops by their places in the list, and `LOOP_DESCR_map`. -/
structure LoopForest where
  count : Nat
  bbset : Nat → Finset Nat
  nestlevel : Nat → Nat
  map : Nat → Option Nat

/-- What `LOOP_DESCR_Detect_Loops` leaves. -/
def LoopForest.ofList (loops : List LoopDescr) (map : Nat → Option Nat) : LoopForest where
  count := loops.length
  bbset i := (loops[i]?.map LoopDescr.bbset).getD ∅
  nestlevel i := (loops[i]?.map LoopDescr.nestlevel).getD 0
  map := map

section Model

variable (f : LoopForest)

/-- `LOOP_DESCR_Next_Enclosing_Loop`, with the sets as they are. -/
def LoopForest.nextEnclosingLoop (bbset : Nat → Finset Nat) (loop : Nat) : Option Nat :=
  if 1 < f.nestlevel loop then
    (range' (loop + 1) (f.count - (loop + 1))).find? fun enclosing =>
      decide (f.nestlevel enclosing < f.nestlevel loop) && decide (bbset loop ⊆ bbset enclosing)
  else none

/-- `LOOP_DESCR_Add_BB_Helper` -/
def LoopForest.addBBHelper (bb : Nat) : Nat → Nat → (Nat → Finset Nat) → Option (Nat → Finset Nat)
  | 0, _, _ => none
  | fuel + 1, loop, s =>
    (match f.nextEnclosingLoop s loop with
      | none => some s
      | some l => addBBHelper bb fuel l s).map fun s => update s loop (insert bb (s loop))

/-- The loop of `LOOP_DESCR_Delete_BB`. -/
def LoopForest.deleteLoop (bb : Nat) : Nat → Nat → (Nat → Finset Nat) → Option (Nat → Finset Nat)
  | 0, _, _ => none
  | fuel + 1, loop, s =>
    let s := update s loop ((s loop).erase bb)
    match f.nextEnclosingLoop s loop with
    | none => some s
    | some l => deleteLoop bb fuel l s

/-- `LOOP_DESCR_Add_BB`; an assertion that fails ends the run. -/
def LoopForest.addBB (loop bb : Nat) : Option LoopForest :=
  if f.map bb = none then
    (f.addBBHelper bb f.count loop f.bbset).map fun s =>
      { f with bbset := s, map := update f.map bb (some loop) }
  else none

/-- `LOOP_DESCR_Delete_BB` -/
def LoopForest.deleteBB (loop bb : Nat) : Option LoopForest :=
  if bb ∈ f.bbset loop ∧ f.map bb = some loop then
    (f.deleteLoop bb f.count loop f.bbset).map fun s =>
      { f with bbset := s, map := update f.map bb none }
  else none

end Model

inductive LoopOp
  | add (loop bb : Nat)
  | delete (loop bb : Nat)

/-- The block is in no loop, or the loop is its innermost one. -/
def LoopOp.Allowed (f : LoopForest) : LoopOp → Prop
  | .add loop bb => loop < f.count ∧ f.map bb = none
  | .delete loop bb => loop < f.count ∧ bb ∈ f.bbset loop ∧ f.map bb = some loop

def LoopForest.step (f : LoopForest) : LoopOp → Option LoopForest
  | .add loop bb => f.addBB loop bb
  | .delete loop bb => f.deleteBB loop bb

/-- The block is not the last one of a loop inside another one. -/
def LoopOp.Leaves (f : LoopForest) : LoopOp → Prop
  | .add _ _ => True
  | .delete loop bb => 1 < f.nestlevel loop → f.bbset loop ≠ {bb}

/-- The forests that operations lead to, each of which meets a condition. -/
inductive LoopRun (Cond : LoopForest → LoopOp → Prop) (f₀ : LoopForest) : LoopForest → Prop
  | start : LoopRun Cond f₀ f₀
  | step {f f' : LoopForest} {op : LoopOp} : LoopRun Cond f₀ f → op.Allowed f → Cond f op →
      f.step op = some f' → LoopRun Cond f₀ f'

/-- The map leads to the smallest loop, and loops that were nested still are. -/
structure Consistent (f₀ f : LoopForest) : Prop where
  smallest : ∀ b i, f.map b = some i → i < f.count ∧ b ∈ f.bbset i ∧
    ∀ j < f.count, b ∈ f.bbset j → f.bbset i ⊆ f.bbset j
  none : ∀ b, f.map b = none → ∀ j < f.count, b ∉ f.bbset j
  nested : ∀ i < f₀.count, ∀ j < f₀.count, f₀.bbset i ⊂ f₀.bbset j → f.bbset i ⊆ f.bbset j

/-- Two loops are nested, or have no block in common. -/
def LoopForest.Laminar (f : LoopForest) : Prop :=
  ∀ i < f.count, ∀ j < f.count, f.bbset i ⊆ f.bbset j ∨ f.bbset j ⊆ f.bbset i ∨
    Disjoint (f.bbset i) (f.bbset j)

/-! ## The nesting of the loops -/

variable {i j loop bb : Nat} {s : Nat → Finset Nat} {f0 f' : LoopForest}

section Nesting

variable {n : Nat} {level : Nat → Nat} {N : Nat → Nat → Prop}

/-- `N i j` is that loop `i` is inside loop `j`. -/
structure Nesting (n : Nat) (level : Nat → Nat) (N : Nat → Nat → Prop) : Prop where
  lt : ∀ {i j}, N i j → i < j ∧ j < n ∧ level j < level i
  trans : ∀ {i j k}, N i j → N j k → N i k
  chain : ∀ {i j k}, N i j → N i k → j = k ∨ N j k ∨ N k j
  outer : ∀ {i}, i < n → 1 < level i → ∃ j, N i j
  inner : ∀ {i j}, N i j → 1 < level i

/-- The sets follow the nesting. -/
structure NestedSets (n : Nat) (N : Nat → Nat → Prop) (s : Nat → Finset Nat) : Prop where
  mono : ∀ i j, N i j → s i ⊆ s j
  disjoint : ∀ i < n, ∀ j < n, i ≠ j → ¬ N i j → ¬ N j i → Disjoint (s i) (s j)

/-- `j` is the loop or one around it. -/
def Upto (N : Nat → Nat → Prop) (i j : Nat) : Prop := j = i ∨ N i j

theorem upto_step (hup : ∀ k, N i k ↔ Upto N j k) (k : Nat) :
    Upto N i k ↔ k = i ∨ Upto N j k := or_congr_right (hup k)

theorem Nesting.not_upto (h : Nesting n level N) (hij : N i j) : ¬ Upto N j i := by
  have := (h.lt hij).1
  rintro (rfl | hji)
  · omega
  · have := (h.lt hji).1
    omega

/-- While no inner loop is empty, the first loop that contains the set is the one directly around
it. -/
theorem nextEnclosingLoop_spec {f : LoopForest} (h : Nesting f.count f.nestlevel N)
    (hi : i < f.count) (hdis : ∀ j < f.count, i ≠ j → ¬ N i j → ¬ N j i → Disjoint (s i) (s j))
    (hsub : ∀ j, N i j → s i ⊆ s j) (hne : 1 < f.nestlevel i → s i ≠ ∅) :
    (f.nextEnclosingLoop s i = none ∧ ∀ k, ¬ N i k) ∨
      ∃ j, f.nextEnclosingLoop s i = some j ∧ N i j ∧ ∀ k, N i k ↔ Upto N j k := by
  unfold LoopForest.nextEnclosingLoop
  by_cases hlevel : 1 < f.nestlevel i
  · rw [if_pos hlevel]
    right
    have hgood : ∀ k, N i k → (decide (f.nestlevel k < f.nestlevel i) && decide (s i ⊆ s k)) = true :=
      fun k hk => by simp [(h.lt hk).2.2, hsub k hk]
    cases hfind : (range' (i + 1) (f.count - (i + 1))).find? fun enclosing =>
        decide (f.nestlevel enclosing < f.nestlevel i) && decide (s i ⊆ s enclosing) with
    | none =>
      obtain ⟨k, hk⟩ := h.outer hi hlevel
      obtain ⟨hik, hkn, -⟩ := h.lt hk
      have := find?_range'_eq_none.mp hfind k hik (by omega)
      rw [hgood k hk] at this
      cases this
    | some j =>
      obtain ⟨hj, hmem, hfirst⟩ := find?_range'_eq_some.mp hfind
      rw [mem_range'_1] at hmem
      rw [Bool.and_eq_true, decide_eq_true_iff, decide_eq_true_iff] at hj
      have hij : N i j := by
        by_contra hnot
        -- a block of the loop is in the other one too
        obtain ⟨b, hb⟩ := Finset.nonempty_iff_ne_empty.mpr (hne hlevel)
        refine Finset.disjoint_left.mp (hdis j (by omega) (by omega) hnot fun hji => ?_) hb (hj.2 hb)
        have := (h.lt hji).1
        omega
      refine ⟨j, rfl, hij, fun k => ⟨fun hk => ?_, fun hk => ?_⟩⟩
      · rcases h.chain hk hij with rfl | hkj | hjk
        · exact .inl rfl
        · have := hfirst k (h.lt hk).1 (h.lt hkj).1
          rw [hgood k hk] at this
          cases this
        · exact .inr hjk
      · rcases hk with rfl | hk
        · exact hij
        · exact h.trans hij hk
  · rw [if_neg hlevel]
    exact .inl ⟨rfl, fun k hk => hlevel (h.inner hk)⟩

variable {f : LoopForest} (h : Nesting f.count f.nestlevel N)
include h

open Classical in
theorem addBBHelper_spec (hs : NestedSets f.count N s) (bb fuel i : Nat)
    (hi : i < f.count) (hfuel : f.count - i ≤ fuel) (hne : 1 < f.nestlevel i → s i ≠ ∅) :
    f.addBBHelper bb fuel i s = some fun j => if Upto N i j then insert bb (s j) else s j := by
  induction fuel generalizing i with
  | zero => omega
  | succ fuel ih =>
    unfold LoopForest.addBBHelper
    rcases nextEnclosingLoop_spec h hi (fun j hj => hs.disjoint i hi j hj) (hs.mono i) hne with
      ⟨hnone, htop⟩ | ⟨j, hj, hij, hup⟩
    · rw [hnone]
      simp only [Option.map_some, Option.some.injEq]
      funext k
      by_cases hk : k = i
      · simp [Upto, hk]
      · simp [Upto, hk, htop k]
    · obtain ⟨hlt, hjn, -⟩ := h.lt hij
      have hjne : 1 < f.nestlevel j → s j ≠ ∅ := fun _ hempty =>
        hne (h.inner hij) (Finset.subset_empty.mp (hempty ▸ hs.mono i j hij))
      rw [hj]
      simp only [ih j hjn (by omega) hjne, Option.map_some, Option.some.injEq]
      funext k
      rw [upto_step hup k]
      by_cases hk : k = i
      · subst hk
        simp [h.not_upto hij]
      · simp [hk]

open Classical in
/-- Deleting a block from a loop reaches every loop around it; by induction on the loops still
ahead. -/
theorem deleteLoop_spec (bb fuel i : Nat) (hi : i < f.count) (hfuel : f.count - i ≤ fuel)
    (hmono : ∀ j k, Upto N i j → N j k → s j ⊆ s k)
    (hdis : ∀ j < f.count, ∀ k < f.count, j ≠ k → ¬ N j k → ¬ N k j → Disjoint (s j) (s k))
    (hne : 1 < f.nestlevel i → (s i).erase bb ≠ ∅) :
    f.deleteLoop bb fuel i s = some fun j => if Upto N i j then (s j).erase bb else s j := by
  induction fuel generalizing i s with
  | zero => omega
  | succ fuel ih =>
    unfold LoopForest.deleteLoop
    have hle : ∀ k, update s i ((s i).erase bb) k ⊆ s k := fun k => by
      by_cases hk : k = i
      · subst hk
        simpa using Finset.erase_subset bb (s k)
      · simp [hk]
    have hdis' : ∀ j < f.count, ∀ k < f.count, j ≠ k → ¬ N j k → ¬ N k j →
        Disjoint (update s i ((s i).erase bb) j) (update s i ((s i).erase bb) k) :=
      fun j hj k hk hjk h1 h2 => (hdis j hj k hk hjk h1 h2).mono (hle j) (hle k)
    have hother : ∀ k, N i k → update s i ((s i).erase bb) k = s k := fun k hk =>
      update_of_ne (h.lt hk).1.ne' _ _
    rcases nextEnclosingLoop_spec h hi (s := update s i ((s i).erase bb)) (hdis' i hi)
        (fun j hj => by rw [hother j hj]; exact (hle i).trans (hmono i j (.inl rfl) hj))
        (by rwa [update_self]) with ⟨hnone, htop⟩ | ⟨j, hj, hij, hup⟩
    · simp only [hnone, Option.some.injEq]
      funext k
      by_cases hk : k = i
      · simp [Upto, hk]
      · simp [Upto, hk, htop k]
    · obtain ⟨hlt, hjn, -⟩ := h.lt hij
      have hjne : 1 < f.nestlevel j → (update s i ((s i).erase bb) j).erase bb ≠ ∅ := by
        intro _ hempty
        rw [hother j hij] at hempty
        refine hne (h.inner hij) (Finset.subset_empty.mp (hempty ▸ ?_))
        exact Finset.erase_subset_erase bb (hmono i j (.inl rfl) hij)
      have hmono' : ∀ a k, Upto N j a → N a k →
          update s i ((s i).erase bb) a ⊆ update s i ((s i).erase bb) k := by
        intro a k ha hak
        have hia := (hup a).mpr ha
        rw [hother a hia, hother k (h.trans hia hak)]
        exact hmono a k (.inr hia) hak
      simp only [hj, ih j hjn (by omega) hmono' hdis' hjne, Option.some.injEq]
      funext k
      rw [upto_step hup k]
      by_cases hk : k = i
      · subst hk
        simp [h.not_upto hij]
      · simp [hk]

/-! ## Runs -/

/-- What holds of the loops of the starting forest as they change. -/
structure UpdateInv (f₀ f : LoopForest) (N : Nat → Nat → Prop) : Prop where
  count : f.count = f₀.count
  level : f.nestlevel = f₀.nestlevel
  follows : NestedSets f.count N f.bbset
  nonempty : ∀ i < f.count, 1 < f.nestlevel i → f.bbset i ≠ ∅
  mapSome : ∀ b i, f.map b = some i → i < f.count ∧ b ∈ f.bbset i ∧
    ∀ j < f.count, b ∈ f.bbset j → Upto N i j
  mapNone : ∀ b, f.map b = none → ∀ j < f.count, b ∉ f.bbset j

omit h in
theorem UpdateInv.consistent (hinv : UpdateInv f0 f N)
    (hN : ∀ i < f0.count, ∀ j < f0.count, f0.bbset i ⊂ f0.bbset j → N i j) : Consistent f0 f := by
  refine ⟨fun b i hb => ?_, hinv.mapNone, fun i hi j hj hij => hinv.follows.mono i j (hN i hi j hj hij)⟩
  obtain ⟨hi, hmem, hall⟩ := hinv.mapSome b i hb
  refine ⟨hi, hmem, fun j hj hbj => ?_⟩
  rcases hall j hj hbj with rfl | hij
  · exact Finset.Subset.refl _
  · exact hinv.follows.mono i j hij

omit h in
/-- Adding a block to a loop and those around it keeps the loops nested. -/
theorem UpdateInv.add (h : Nesting f.count f.nestlevel N)
    (hinv : UpdateInv f0 f N) (hloop : loop < f.count) (hfree : f.map bb = none)
    (hstep : f.addBB loop bb = some f') : UpdateInv f0 f' N := by
  classical
  have hout := hinv.mapNone bb hfree
  have hmono := hinv.follows.mono
  simp only [LoopForest.addBB, if_pos hfree, addBBHelper_spec h hinv.follows bb f.count loop hloop
    (by omega) (hinv.nonempty loop hloop), Option.map_some, Option.some.injEq] at hstep
  subst hstep
  refine ⟨hinv.count, hinv.level, ⟨fun i j hij => ?_, fun i hi j hj hne h1 h2 => ?_⟩,
    fun i hi hlevel => ?_, fun b i hb => ?_, fun b hb j hj hmem => ?_⟩
  · -- inside: both loops get the block, or the outer one alone
    by_cases hup : Upto N loop i
    · have hup' : Upto N loop j := .inr (hup.elim (fun heq => heq ▸ hij) fun hl => h.trans hl hij)
      simp only [if_pos hup, if_pos hup']
      exact Finset.insert_subset_insert bb (hmono i j hij)
    · simp only [if_neg hup]
      split
      · exact (hmono i j hij).trans (Finset.subset_insert bb _)
      · exact hmono i j hij
  · -- apart: the block was in no loop, and only one of the two gets it
    have hdis := hinv.follows.disjoint i hi j hj hne h1 h2
    by_cases hi' : Upto N loop i
    · have hj' : ¬ Upto N loop j := by
        rintro (rfl | hj')
        · exact hi'.elim hne h2
        · rcases hi' with rfl | hi'
          · exact h1 hj'
          · exact (h.chain hi' hj').elim hne fun hor => hor.elim h1 h2
      simp only [if_pos hi', if_neg hj']
      exact Finset.disjoint_insert_left.mpr ⟨hout j hj, hdis⟩
    · simp only [if_neg hi']
      split
      · exact Finset.disjoint_insert_right.mpr ⟨hout i hi, hdis⟩
      · exact hdis
  · dsimp only
    split
    · exact Finset.insert_ne_empty bb _
    · exact hinv.nonempty i hi hlevel
  · dsimp only at hb
    by_cases hbb : b = bb
    · subst hbb
      rw [update_self, Option.some.injEq] at hb
      subst hb
      refine ⟨hloop, by simp [Upto], fun j hj hmem => ?_⟩
      by_contra hup
      simp only [if_neg hup] at hmem
      exact hout j hj hmem
    · rw [update_of_ne hbb] at hb
      obtain ⟨hi, hmem, hall⟩ := hinv.mapSome b i hb
      refine ⟨hi, ?_, fun j hj hmem' => hall j hj ?_⟩
      · dsimp only
        split
        · exact Finset.mem_insert_of_mem hmem
        · exact hmem
      · dsimp only at hmem'
        split at hmem'
        · exact Finset.mem_of_mem_insert_of_ne hmem' hbb
        · exact hmem'
  · dsimp only at hb
    by_cases hbb : b = bb
    · subst hbb
      rw [update_self] at hb
      cases hb
    · rw [update_of_ne hbb] at hb
      dsimp only at hmem
      split at hmem
      · exact hinv.mapNone b hb j hj (Finset.mem_of_mem_insert_of_ne hmem hbb)
      · exact hinv.mapNone b hb j hj hmem

omit h in
/-- A loop inside another one keeps a block. -/
theorem UpdateInv.erase_ne_empty (hinv : UpdateInv f0 f N) (hloop : loop < f.count)
    (hleaves : LoopOp.Leaves f (.delete loop bb)) (hlevel : 1 < f.nestlevel loop) :
    (f.bbset loop).erase bb ≠ ∅ := fun hempty => by
  rcases (Finset.erase_eq_empty_iff _ _).mp hempty with h0 | h1
  · exact hinv.nonempty loop hloop hlevel h0
  · exact hleaves hlevel h1

omit h in
/-- Deleting a block that leaves no inner loop empty keeps the loops nested. -/
theorem UpdateInv.delete (h : Nesting f.count f.nestlevel N)
    (hinv : UpdateInv f0 f N) (hmap : f.map bb = some loop)
    (hleaves : 1 < f.nestlevel loop → f.bbset loop ≠ {bb})
    (hstep : f.deleteBB loop bb = some f') : UpdateInv f0 f' N := by
  classical
  obtain ⟨hloop, hmem, hall⟩ := hinv.mapSome bb loop hmap
  have hmono := hinv.follows.mono
  have hne := hinv.erase_ne_empty hloop hleaves
  simp only [LoopForest.deleteBB, if_pos (And.intro hmem hmap), deleteLoop_spec h bb f.count loop hloop
    (by omega) (fun j k _ => hmono j k) hinv.follows.disjoint hne, Option.map_some,
    Option.some.injEq] at hstep
  subst hstep
  -- the other loops do not have the block
  have hset : ∀ j < f.count, (if Upto N loop j then (f.bbset j).erase bb else f.bbset j)
      = (f.bbset j).erase bb := by
    intro j hj
    split
    · rfl
    · rename_i hup
      exact (Finset.erase_eq_of_notMem fun hbj => hup (hall j hj hbj)).symm
  refine ⟨hinv.count, hinv.level, ⟨fun i j hij => ?_, fun i hi j hj hne h1 h2 => ?_⟩,
    fun i hi hlevel => ?_, fun b i hb => ?_, fun b hb j hj hmem => ?_⟩
  · obtain ⟨hlt, hj, -⟩ := h.lt hij
    simp only [hset i (hlt.trans hj), hset j hj]
    exact Finset.erase_subset_erase bb (hmono i j hij)
  · simp only [hset i hi, hset j hj]
    exact (hinv.follows.disjoint i hi j hj hne h1 h2).mono (Finset.erase_subset _ _)
      (Finset.erase_subset _ _)
  · simp only [hset i hi]
    intro hempty
    rcases (Finset.erase_eq_empty_iff _ _).mp hempty with h0 | h1
    · exact hinv.nonempty i hi hlevel h0
    · -- the loop of the block is inside this one, hence has no other block either
      rcases hall i hi (h1 ▸ Finset.mem_singleton_self bb) with rfl | hup
      · exact hne hlevel hempty
      · refine hne (h.inner hup) (Finset.subset_empty.mp (hempty ▸ ?_))
        exact Finset.erase_subset_erase bb (hmono loop i hup)
  · dsimp only at hb
    by_cases hbb : b = bb
    · subst hbb
      rw [update_self] at hb
      cases hb
    · rw [update_of_ne hbb] at hb
      obtain ⟨hi, hbi, hall'⟩ := hinv.mapSome b i hb
      refine ⟨hi, ?_, fun j hj hbj => hall' j hj ?_⟩
      · simp only [hset i hi]
        exact Finset.mem_erase.mpr ⟨hbb, hbi⟩
      · simp only [hset j hj] at hbj
        exact (Finset.mem_erase.mp hbj).2
  · dsimp only at hb
    simp only [hset j hj, Finset.mem_erase] at hmem
    rw [update_of_ne hmem.1] at hb
    exact hinv.mapNone b hb j hj hmem.2

omit h in
theorem UpdateInv.step_returns (h : Nesting f.count f.nestlevel N) (hinv : UpdateInv f0 f N)
    {op : LoopOp} (hop : op.Allowed f) (hleaves : op.Leaves f) : ∃ f', f.step op = some f' := by
  cases op with
  | add loop bb =>
    have hset := addBBHelper_spec h hinv.follows bb f.count loop hop.1 (by omega)
      (hinv.nonempty loop hop.1)
    exact ⟨_, (if_pos hop.2).trans (congrArg (Option.map _) hset)⟩
  | delete loop bb =>
    have hset := deleteLoop_spec h bb f.count loop hop.1 (by omega)
      (fun j k _ => hinv.follows.mono j k) hinv.follows.disjoint (hinv.erase_ne_empty hop.1 hleaves)
    exact ⟨_, (if_pos hop.2).trans (congrArg (Option.map _) hset)⟩

omit h in
theorem LoopRun.updateInv (h : Nesting f0.count f0.nestlevel N)
    (hstart : UpdateInv f0 f0 N) (hrun : LoopRun (fun f op => op.Leaves f) f0 f) :
    UpdateInv f0 f N := by
  induction hrun with
  | start => exact hstart
  | @step f f' op _ hop hleaves hstep ih =>
    have h' : Nesting f.count f.nestlevel N := by rwa [ih.count, ih.level]
    cases op with
    | add loop bb => exact ih.add h' hop.1 hop.2 hstep
    | delete loop bb => exact ih.delete h' hop.2.2 hleaves hstep

end Nesting

/-! ## The loops that are detected -/

namespace LoopGraph

variable {g : LoopGraph} {E : Nat → Nat → Prop} {ls : List LoopDescr} {map : Nat → Option Nat}

/-- Loop `i` is inside loop `j`. -/
def Inside (f : LoopForest) (i j : Nat) : Prop :=
  i < f.count ∧ j < f.count ∧ f.bbset i ⊂ f.bbset j

theorem ofList_get (hi : i < ls.length) : (LoopForest.ofList ls map).bbset i = ls[i].bbset ∧
      (LoopForest.ofList ls map).nestlevel i = ls[i].nestlevel := by
  simp [LoopForest.ofList, hi]

section Detected

variable (h : LoopList g E ls)
include h

theorem LoopList.inside (hi : i < ls.length) (hj : j < ls.length) (hne : i ≠ j)
    (hsub : ls[i].bbset ⊆ ls[j].bbset) : ls[i].bbset ⊂ ls[j].bbset := by
  refine hsub.ssubset_of_ne fun heq => ?_
  have hout : ∀ {a b : Nat} (ha : a < ls.length) (hb : b < ls.length), a < b →
      ls[a].bbset ≠ ls[b].bbset := fun ha hb hlt hab =>
    pairwise_iff_getElem.mp h.ordered _ _ ha hb hlt (hab ▸ (h.isLoop (getElem_mem hb)).head_mem)
  exact (Nat.lt_or_gt_of_ne hne).elim (fun hlt => hout hi hj hlt heq)
    fun hlt => hout hj hi hlt heq.symm

variable (hlevel : ∀ l ∈ ls, l.nestlevel = 1 + ls.countP fun l' => l.bbset ⊂ l'.bbset)
  (hlam : (LoopForest.ofList ls map).Laminar)
include hlam

theorem LoopList.disjoint (hi : i < ls.length) (hj : j < ls.length) (hne : i ≠ j) :
    ls[i].bbset ⊂ ls[j].bbset ∨ ls[j].bbset ⊂ ls[i].bbset ∨ Disjoint ls[i].bbset ls[j].bbset := by
  have hcases := hlam i hi j hj
  rw [(ofList_get hi).1, (ofList_get hj).1] at hcases
  exact hcases.imp (h.inside hi hj hne) (Or.imp_left (h.inside hj hi hne.symm))

include hlevel

theorem LoopList.nesting : Nesting (LoopForest.ofList ls map).count
    (LoopForest.ofList ls map).nestlevel (Inside (LoopForest.ofList ls map)) := by
  have hlt : ∀ {i j}, Inside (LoopForest.ofList ls map) i j → i < j ∧ j < ls.length ∧
      (LoopForest.ofList ls map).nestlevel j < (LoopForest.ofList ls map).nestlevel i := by
    rintro i j ⟨hi, hj, hij⟩
    rw [(ofList_get hi).1, (ofList_get hj).1] at hij
    rw [(ofList_get hi).2, (ofList_get hj).2]
    exact ⟨h.lt_of_ssubset hi hj hij, hj, level_lt hlevel (getElem_mem hi) (getElem_mem hj) hij⟩
  refine ⟨hlt, fun hij hjk => ⟨hij.1, hjk.2.1, hij.2.2.trans hjk.2.2⟩, ?_, fun {i} hi hone => ?_, ?_⟩
  · rintro i j k ⟨hi, hj, hij⟩ ⟨-, hk, hik⟩
    by_cases hjk : j = k
    · exact .inl hjk
    rw [(ofList_get hi).1, (ofList_get hj).1] at hij
    rw [(ofList_get hi).1, (ofList_get hk).1] at hik
    have hhead := (h.isLoop (getElem_mem hi)).head_mem
    rcases h.disjoint hlam hj hk hjk with h1 | h2 | h3
    · exact .inr (.inl ⟨hj, hk, by rwa [(ofList_get hj).1, (ofList_get hk).1]⟩)
    · exact .inr (.inr ⟨hk, hj, by rwa [(ofList_get hj).1, (ofList_get hk).1]⟩)
    · exact absurd (hik.1 hhead) (Finset.disjoint_left.mp h3 (hij.1 hhead))
  · have hi' : i < ls.length := hi
    rw [(ofList_get hi').2, hlevel _ (getElem_mem hi')] at hone
    have hpos : 0 < ls.countP fun l' => ls[i].bbset ⊂ l'.bbset := by omega
    obtain ⟨l', hl', hsub⟩ := countP_pos_iff.mp hpos
    obtain ⟨j, hj, rfl⟩ := getElem_of_mem hl'
    exact ⟨j, hi, hj, by rw [(ofList_get hi').1, (ofList_get hj).1]; exact of_decide_eq_true hsub⟩
  · intro i j hij
    have := (hlt hij).2.2
    rw [(ofList_get hij.2.1).2, hlevel _ (getElem_mem hij.2.1)] at this
    omega

omit hlevel in
/-- What `detectLoops` leaves satisfies the invariant of the updates. -/
theorem LoopList.updateInv (hmap : map = setLoopMap ls 0 fun _ => none) :
    UpdateInv (LoopForest.ofList ls map) (LoopForest.ofList ls map)
      (Inside (LoopForest.ofList ls map)) := by
  refine ⟨rfl, rfl, ⟨fun i j hij => hij.2.2.1, fun i hi j hj hne h1 h2 => ?_⟩, fun i hi _ => ?_,
    fun b i hb => ?_, fun b hb j hj => ?_⟩
  · by_contra hdis
    rw [(ofList_get hi).1, (ofList_get hj).1] at hdis
    rcases h.disjoint hlam hi hj hne with hij | hji | hor
    · exact h1 ⟨hi, hj, by rwa [(ofList_get hi).1, (ofList_get hj).1]⟩
    · exact h2 ⟨hj, hi, by rwa [(ofList_get hi).1, (ofList_get hj).1]⟩
    · exact hdis hor
  · rw [(ofList_get hi).1]
    exact Finset.ne_empty_of_mem (h.isLoop (getElem_mem hi)).head_mem
  · have hspec := (@setLoopMap_spec ls b 0 fun _ => none).2 rfl
    rw [← hmap, show map b = some i from hb] at hspec
    obtain ⟨pre, l, post, hsplit, hi, hbl, hpre⟩ := hspec
    have hilt : i < ls.length := by
      rw [hsplit, length_append, length_cons]
      omega
    have hl : ls[i] = l := by simp [hsplit, hi]
    refine ⟨hilt, by rwa [(ofList_get hilt).1, hl], fun j hj hbj => ?_⟩
    rw [(ofList_get hj).1] at hbj
    by_cases hij : j = i
    · exact .inl hij
    rcases h.disjoint hlam hilt hj (Ne.symm hij) with h1 | h2 | h3
    · exact .inr ⟨hilt, hj, by rwa [(ofList_get hilt).1, (ofList_get hj).1]⟩
    · -- what is inside the loop comes before it, and does not have the block
      have hlt := h.lt_of_ssubset hj hilt h2
      have hjpre : ls[j] ∈ pre := by
        simp only [hsplit, getElem_append_left (show j < pre.length by omega)]
        exact getElem_mem _
      exact absurd hbj (hpre _ hjpre)
    · exact absurd hbj (Finset.disjoint_left.mp h3 (hl ▸ hbl))
  · have hspec := (@setLoopMap_spec ls b 0 fun _ => none).2 rfl
    rw [← hmap, show map b = none from hb] at hspec
    rw [(ofList_get hj).1]
    exact hspec _ (getElem_mem hj)

end Detected

/-- The loops stay consistent as long as no loop inside another one loses its last block, and each
operation that leaves it one returns. -/
theorem loopUpdates_consistent (g : LoopGraph) (dom : Nat → Finset Nat)
    (hdom : ∀ b, g.Reachable b → ∀ x, x ∈ dom b ↔ g.Dom x b) :
    ∀ fuel ≥ g.bbs.toFinset.card, ∃ loops map, g.detectLoops dom fuel = some (loops, map) ∧
      ((LoopForest.ofList loops map).Laminar →
        ∀ f, LoopRun (fun f op => op.Leaves f) (.ofList loops map) f →
          Consistent (.ofList loops map) f ∧
          ∀ op : LoopOp, op.Allowed f → op.Leaves f → ∃ f', f.step op = some f') := by
  intro fuel hfuel
  obtain ⟨ls, hrun, h, hlevel⟩ := detectLoops_list g dom hdom hfuel
  refine ⟨ls, _, hrun, fun hlam f hf => ?_⟩
  have hnest := h.nesting hlevel hlam
  have hinv := hf.updateInv hnest (h.updateInv hlam rfl)
  refine ⟨hinv.consistent fun i hi j hj hij => ⟨hi, hj, hij⟩, fun op hop hleaves =>
    hinv.step_returns ?_ hop hleaves⟩
  rwa [hinv.count, hinv.level]

/-- The loops `2 → 2` and `3 → 3`, of which the first one is inside `1 → 2 → 4 → 1`. -/
def threeLoops : LoopGraph where
  puBBCount := 4
  bbs := [1, 2, 3, 4]
  preds b := if b = 1 then [4] else if b = 2 then [1, 2] else if b = 3 then [3, 4]
    else if b = 4 then [2] else []
  succs b := if b = 1 then [2] else if b = 2 then [2, 4] else if b = 3 then [3]
    else if b = 4 then [1, 3] else []
  entry b := b == 1
  exit _ := false
  range := by decide
  preds_mem := by decide
  succs_mem := by decide
  edges := by decide
  regionEntry := none
  entryHead := [1]
  hasNonlocalGotoTarget := false
  bbEntry b := b == 1
  hasNonLocalLabel _ := false
  regionEntry_mem := fun _ h => by cases h
  entryHead_mem := by decide

def threeDom (b : Nat) : Finset Nat :=
  if b = 1 then {1} else if b = 2 then {1, 2} else if b = 4 then {1, 2, 4} else {1, 2, 3, 4}

theorem threeDom_exact (b : Nat) (hb : threeLoops.Reachable b) (x : Nat) :
    x ∈ threeDom b ↔ threeLoops.Dom x b := by
  have h1 : Path threeLoops.Edge 1 1 [1] := .single
  have h2 : Path threeLoops.Edge 1 2 [2, 1] := h1.snoc ⟨by decide, by decide⟩
  have h4 : Path threeLoops.Edge 1 4 [4, 2, 1] := h2.snoc ⟨by decide, by decide⟩
  have h3 : Path threeLoops.Edge 1 3 [3, 4, 2, 1] := h4.snoc ⟨by decide, by decide⟩
  refine dom_exact_of_paths (S := [1, 2, 3, 4]) (by decide) (by decide) (fun b hb => ?_) b hb x
  simp only [mem_cons, not_mem_nil, or_false] at hb
  rcases hb with rfl | rfl | rfl | rfl
  · exact ⟨1, by decide, _, h1, by decide⟩
  · exact ⟨1, by decide, _, h2, by decide⟩
  · exact ⟨1, by decide, _, h3, by decide⟩
  · exact ⟨1, by decide, _, h4, by decide⟩

def threeForest : LoopForest :=
  match threeLoops.detectLoops threeDom 4 with
  | some (loops, map) => .ofList loops map
  | none => .ofList [] fun _ => none

/-- Block 1 moves from the outer loop into `2 → 2`. -/
theorem loopUpdates_consistent_while : ∃ f₁ f,
    threeForest.step (.delete 2 1) = some f₁ ∧ f₁.step (.add 0 1) = some f ∧
      f.map 1 = some 0 ∧ Consistent threeForest f ∧ ∃ f', f.step (.delete 0 2) = some f' := by
  obtain ⟨loops, map, hrun, hall⟩ :=
    loopUpdates_consistent threeLoops threeDom threeDom_exact 4 (by decide)
  have hforest : LoopForest.ofList loops map = threeForest := by
    unfold threeForest
    rw [hrun]
  rw [hforest] at hall
  have hlaminar : threeForest.Laminar := by
    unfold LoopForest.Laminar
    decide
  obtain ⟨f₁, h₁⟩ : ∃ f₁, threeForest.step (.delete 2 1) = some f₁ := ⟨_, rfl⟩
  have hdelete : LoopOp.Allowed threeForest (.delete 2 1) ∧
      LoopOp.Leaves threeForest (.delete 2 1) := by
    unfold LoopOp.Allowed LoopOp.Leaves
    decide
  obtain ⟨f, h₂⟩ : ∃ f, f₁.step (.add 0 1) = some f := by
    cases h₁
    exact ⟨_, rfl⟩
  have hadd : LoopOp.Allowed f₁ (.add 0 1) := by
    cases h₁
    unfold LoopOp.Allowed
    decide
  have hmore : LoopOp.Allowed f (.delete 0 2) ∧ LoopOp.Leaves f (.delete 0 2) ∧ f.map 1 = some 0 := by
    cases h₁
    cases h₂
    unfold LoopOp.Allowed LoopOp.Leaves
    decide
  obtain ⟨hconsistent, hstep⟩ := hall hlaminar f
    (.step (.step .start hdelete.1 hdelete.2 h₁) hadd trivial h₂)
  exact ⟨f₁, f, h₁, h₂, hmore.2.2, hconsistent, hstep _ hmore.1 hmore.2.1⟩

/-- The forest after the first loop loses its block. -/
def emptiedForest : LoopForest :=
  match threeForest.step (.delete 0 2) with
  | some f => f
  | none => threeForest

/-- The inner loop loses its only block, and `3 → 3` is taken for the loop around it. -/
theorem loopUpdates_emptied :
    (∀ b, threeLoops.Reachable b → ∀ x, x ∈ threeDom b ↔ threeLoops.Dom x b) ∧
      (threeLoops.detectLoops threeDom 4).map (fun r => LoopForest.ofList r.1 r.2)
        = some threeForest ∧ threeForest.Laminar ∧
      ¬ ∀ f, LoopRun (fun _ _ => True) threeForest f → Consistent threeForest f := by
  have hlaminar : threeForest.Laminar := by
    unfold LoopForest.Laminar
    decide
  refine ⟨threeDom_exact, rfl, hlaminar, fun hall => ?_⟩
  have hop : LoopOp.Allowed threeForest (.delete 0 2) := by
    unfold LoopOp.Allowed
    decide
  have h := hall emptiedForest (.step .start hop trivial rfl)
  exact h.none 2 (by decide) 2 (by decide) (by decide)

end LoopGraph

end Cg
