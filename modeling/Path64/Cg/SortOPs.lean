import Mathlib.Data.List.Basic

/-! # Reordering the ops of a cycle

`SWP_OP_VECTOR::Sort_OPs_Within_Cycles` gets the ops sorted by the cycle of
the kernel. A window of three ops goes over the vector; from the verdicts
of `Can_Swap_OPs` on its pairs it keeps the first op, moves the second one
before it, or the third one before both. -/

namespace Cg.Swp

open List

/-! ## Model -/

/-- An op of the vector, with `_scycle` and `_omega`; a `TN` is a number. -/
structure SwpOp where
  results : List Nat
  opnds : List Nat
  startCycle : Int
  omega : Nat → Int

/-- `SWP_REORDER_OPS`. -/
inductive ReorderOPs
  | no | maybeNo | maybe | maybeYes | yes
deriving DecidableEq

/-- `<= SWP_REORDER_OPS_MAYBE`. -/
def ReorderOPs.leMaybe : ReorderOPs → Bool
  | no | maybeNo | maybe => true
  | maybeYes | yes => false

/-- The loop over the operands; `none` where an omega of 0 ends the function. -/
def scanOpnds (sop : SwpOp) (resTN : Nat) (other : ReorderOPs) :
    List (Nat × Nat) → ReorderOPs → Option ReorderOPs
  | [], result => some result
  | (tn, opr) :: rest, result =>
    if tn = resTN then
      if sop.omega opr = 0 then none else scanOpnds sop resTN other rest other
    else scanOpnds sop resTN other rest result

/-- The loop over the results of the other op. -/
def scanResults (sop : SwpOp) (other : ReorderOPs) :
    List Nat → ReorderOPs → Option ReorderOPs
  | [], result => some result
  | res :: rest, result =>
    match scanOpnds sop res other sop.opnds.zipIdx result with
    | none => none
    | some result => scanResults sop other rest result

def canSwapOPs (sop1 sop2 : SwpOp) : ReorderOPs :=
  match scanResults sop2 .maybeYes sop1.results .maybe with
  | none => .no
  | some result =>
    match scanResults sop1 .maybeNo sop2.results result with
    | none => .yes
    | some result => result

/-- The verdicts on the third op of the window; `NO` where it is not in the cycle. -/
def canSwapThird (sop0 sop1 : SwpOp) : List SwpOp → ReorderOPs × ReorderOPs
  | [] => (.no, .no)
  | sop2 :: _ =>
    if sop1.startCycle ≥ sop2.startCycle then (canSwapOPs sop0 sop2, canSwapOPs sop1 sop2)
    else (.no, .no)

/-- One step of the window: the op that is left behind, and the ops ahead. -/
def window (sop0 sop1 : SwpOp) (rest : List SwpOp) : SwpOp × List SwpOp :=
  if sop0.startCycle < sop1.startCycle then (sop0, sop1 :: rest)
  else
    let swap01 := canSwapOPs sop0 sop1
    let swap02 := (canSwapThird sop0 sop1 rest).1
    let swap12 := (canSwapThird sop0 sop1 rest).2
    if (swap01.leMaybe ∧ swap02.leMaybe) ∨ (swap01 = .no ∧ swap12 = .no) then
      (sop0, sop1 :: rest)
    else if swap02 = .no ∨ swap12 = .no ∨ (swap02.leMaybe ∧ swap12.leMaybe) then
      (sop1, sop0 :: rest)
    else
      match rest with
      | [] => (sop0, [sop1])
      | sop2 :: rest => (sop2, sop0 :: sop1 :: rest)

/-- The loop over the window; the count is that of the ops. -/
def sweep : Nat → List SwpOp → List SwpOp
  | n + 1, sop0 :: sop1 :: rest =>
    (window sop0 sop1 rest).1 :: sweep n (window sop0 sop1 rest).2
  | _, ops => ops

/-- The vector; `delimited` tells that `_start` and `_stop` are its first and last op. -/
structure OpVector where
  ops : List SwpOp
  delimited : Bool

namespace OpVector

/-- What stands before, in and behind the range that is sorted. -/
def parts (v : OpVector) : List SwpOp × List SwpOp × List SwpOp :=
  if v.delimited then (v.ops.take 1, v.ops.tail.dropLast, v.ops.tail.getLast?.toList)
  else ([], v.ops, [])

def sortOPsWithinCycles (v : OpVector) : OpVector :=
  { v with ops := v.parts.1 ++ (sweep v.parts.2.1.length v.parts.2.1 ++ v.parts.2.2) }

theorem parts_append (v : OpVector) : v.parts.1 ++ (v.parts.2.1 ++ v.parts.2.2) = v.ops := by
  unfold parts
  split
  · cases v.ops with
    | nil => rfl
    | cons sop rest =>
      obtain rfl | ⟨init, last, rfl⟩ := eq_nil_or_concat rest <;> simp
  · simp

end OpVector

/-! ## What may be moved -/

/-- `use` reads a result of `df` of the same iteration. -/
def Depends (df use : SwpOp) : Prop :=
  ∃ tn ∈ df.results, ∃ opr, use.opnds[opr]? = some tn ∧ use.omega opr = 0

/-- Sorted by the modulo cycle. -/
def ByCycles (ops : List SwpOp) : Prop := ops.Pairwise fun s t => s.startCycle ≤ t.startCycle

/-- The same ops, each place with an op of the cycle it had, no use before its definition. -/
structure Reorders (ops ops' : List SwpOp) : Prop where
  perm : ops' ~ ops
  cycles : ops'.map (·.startCycle) = ops.map (·.startCycle)
  depends : ∀ df use, Depends df use → [df, use] <+ ops → [df, use] <+ ops'

variable {s t u : SwpOp} {ops ops' ops'' : List SwpOp}

theorem ByCycles.of_cycles (h : ops'.map (·.startCycle) = ops.map (·.startCycle))
    (hs : ByCycles ops) : ByCycles ops' := by
  have hmap : (ops.map (·.startCycle)).Pairwise (· ≤ ·) := pairwise_map.mpr hs
  exact pairwise_map.mp (h ▸ hmap)

namespace Reorders

theorem refl (ops : List SwpOp) : Reorders ops ops := ⟨.refl _, rfl, fun _ _ _ h => h⟩

theorem trans (h : Reorders ops ops') (h' : Reorders ops' ops'') : Reorders ops ops'' :=
  ⟨h'.perm.trans h.perm, h'.cycles.trans h.cycles,
    fun df use hdep hsub => h'.depends df use hdep (h.depends df use hdep hsub)⟩

theorem cons (h : Reorders ops ops') (s : SwpOp) : Reorders (s :: ops) (s :: ops') where
  perm := h.perm.cons s
  cycles := by simp only [map_cons, h.cycles]
  depends df use hdep hsub := by
    cases hsub with
    | cons _ hsub => exact (h.depends df use hdep hsub).cons s
    | cons_cons _ hsub =>
      exact (singleton_sublist.mpr (h.perm.mem_iff.mpr (singleton_sublist.mp hsub))).cons_cons s

theorem append_left (h : Reorders ops ops') : ∀ l, Reorders (l ++ ops) (l ++ ops')
  | [] => h
  | s :: l => (append_left h l).cons s

theorem append_right (h : Reorders ops ops') (l : List SwpOp) :
    Reorders (ops ++ l) (ops' ++ l) where
  perm := h.perm.append_right l
  cycles := by simp only [map_append, h.cycles]
  depends df use hdep hsub := by
    obtain ⟨l1, l2, hcat, h1, h2⟩ := sublist_append_iff.mp hsub
    match l1, hcat with
    | [], hcat => exact hcat ▸ h2.trans (sublist_append_right _ _)
    | [_], hcat =>
      obtain ⟨rfl, rfl⟩ := cons.inj hcat
      exact (singleton_sublist.mpr (h.perm.mem_iff.mpr (singleton_sublist.mp h1))).append h2
    | [_, _], hcat =>
      cases hcat
      exact (h.depends df use hdep h1).trans (sublist_append_left _ _)

theorem swap (hcyc : s.startCycle = t.startCycle) (hdep : ¬ Depends s t) (ops : List SwpOp) :
    Reorders (s :: t :: ops) (t :: s :: ops) where
  perm := .swap s t ops
  cycles := by simp only [map_cons, hcyc]
  depends df use h hsub := by
    cases hsub with
    | cons _ hsub =>
      cases hsub with
      | cons _ hsub => exact (hsub.cons s).cons t
      | cons_cons _ hsub => exact (hsub.cons s).cons_cons t
    | cons_cons _ hsub =>
      cases hsub with
      | cons _ hsub => exact (hsub.cons_cons s).cons t
      | cons_cons _ hsub => exact absurd h hdep

end Reorders

/-! ## The verdicts -/

theorem scanOpnds_eq_none {sop : SwpOp} {resTN opr : Nat} {other : ReorderOPs}
    (h0 : sop.omega opr = 0) : ∀ {l : List (Nat × Nat)} (result : ReorderOPs),
    (resTN, opr) ∈ l → scanOpnds sop resTN other l result = none
  | (tn, i) :: l, result, hmem => by
    unfold scanOpnds
    cases hmem with
    | head => simp only [h0, if_true]
    | tail _ hmem =>
      split
      · split
        · rfl
        · exact scanOpnds_eq_none h0 other hmem
      · exact scanOpnds_eq_none h0 result hmem

theorem scanResults_eq_none {sop : SwpOp} {tn opr : Nat} {other : ReorderOPs}
    (hopr : sop.opnds[opr]? = some tn) (h0 : sop.omega opr = 0) :
    ∀ {results : List Nat} (result : ReorderOPs), tn ∈ results →
      scanResults sop other results result = none
  | res :: results, result, hmem => by
    unfold scanResults
    cases hmem with
    | head =>
      rw [scanOpnds_eq_none h0 result (mk_mem_zipIdx_iff_getElem?.mpr hopr)]
    | tail _ hmem =>
      split
      · rfl
      · exact scanResults_eq_none hopr h0 _ hmem

theorem canSwapOPs_eq_no (h : Depends s t) : canSwapOPs s t = .no := by
  obtain ⟨tn, htn, opr, hopr, h0⟩ := h
  simp only [canSwapOPs, scanResults_eq_none hopr h0 .maybe htn]

/-! ## The sweep -/

theorem canSwapThird_cases (h : (canSwapThird s t ops).1 ≠ .no) : ∃ u rest, ops = u :: rest ∧
    t.startCycle ≥ u.startCycle ∧ canSwapThird s t ops = (canSwapOPs s u, canSwapOPs t u) := by
  cases ops with
  | nil => exact absurd rfl h
  | cons u rest =>
    by_cases hcyc : t.startCycle ≥ u.startCycle
    · exact ⟨u, rest, rfl, hcyc, if_pos hcyc⟩
    · exact absurd (congrArg Prod.fst (if_neg hcyc)) h

theorem window_reorders (hs : ByCycles (s :: t :: ops)) :
    Reorders (s :: t :: ops) ((window s t ops).1 :: (window s t ops).2) := by
  obtain ⟨hst, htail⟩ := pairwise_cons.mp hs
  have hle := hst t (.head _)
  unfold window
  split
  · exact .refl _
  · next hlt =>
    have hcyc : s.startCycle = t.startCycle := Int.le_antisymm hle (Int.not_lt.mp hlt)
    simp only
    split
    · exact .refl _
    · next hkeep =>
      obtain ⟨h12, h01⟩ := not_or.mp hkeep
      split
      · next hmove =>
        refine .swap hcyc (fun hdep => ?_) ops
        -- a `NO` on the pair leaves only the third op to be moved
        have hno := canSwapOPs_eq_no hdep
        simp only [hno, ReorderOPs.leMaybe, true_and] at h12 h01 hmove
        obtain h02 | h12' | ⟨h02, -⟩ := hmove
        · exact h12 (h02 ▸ rfl)
        · exact h01 h12'
        · exact h12 h02
      · next hthird =>
        obtain ⟨h02, hrest⟩ := not_or.mp hthird
        obtain ⟨u, rest, rfl, htu, heq⟩ := canSwapThird_cases h02
        rw [heq] at h02 hrest
        have hcyc' : t.startCycle = u.startCycle :=
          Int.le_antisymm ((pairwise_cons.mp htail).1 u (.head _)) htu
        have hsu : ¬ Depends s u := fun hdep => h02 (canSwapOPs_eq_no hdep)
        have htu' : ¬ Depends t u := fun hdep => hrest (.inl (canSwapOPs_eq_no hdep))
        exact ((Reorders.swap hcyc' htu' rest).cons s).trans (.swap (hcyc.trans hcyc') hsu _)

theorem sweep_reorders : ∀ (n : Nat) {ops : List SwpOp}, ByCycles ops → Reorders ops (sweep n ops)
  | 0, ops, _ | _ + 1, [], _ | _ + 1, [_], _ => by exact .refl _
  | n + 1, s :: t :: ops, hs => by
    have hstep := window_reorders hs
    have hnext := (pairwise_cons.mp (hs.of_cycles hstep.cycles)).2
    exact hstep.trans ((sweep_reorders n hnext).cons _)

/-- The sorted range, or the whole vector, stays sorted, and no use comes
before a definition of its iteration that it followed. -/
theorem sortOPsWithinCycles_keeps (v : OpVector) (hs : ByCycles v.parts.2.1) :
    v.sortOPsWithinCycles.ops ~ v.ops ∧
      (ByCycles v.ops → ByCycles v.sortOPsWithinCycles.ops) ∧
      (∃ mid, v.sortOPsWithinCycles.ops = v.parts.1 ++ (mid ++ v.parts.2.2) ∧ ByCycles mid) ∧
      ∀ df use, Depends df use → [df, use] <+ v.ops →
        [df, use] <+ v.sortOPsWithinCycles.ops := by
  have hmid := sweep_reorders v.parts.2.1.length hs
  have hall := (hmid.append_right v.parts.2.2).append_left v.parts.1
  rw [v.parts_append] at hall
  exact ⟨hall.perm, .of_cycles hall.cycles, ⟨_, rfl, hs.of_cycles hmid.cycles⟩, hall.depends⟩

/-- A use, an op apart and the definition, all of one cycle. -/
def threeOps : OpVector :=
  ⟨[⟨[], [1], 0, fun _ => 0⟩, ⟨[2], [], 0, fun _ => 0⟩, ⟨[1], [], 0, fun _ => 0⟩], false⟩

example : threeOps.sortOPsWithinCycles.ops.map (·.results) = [[1], [], [2]] := rfl

theorem sortOPsWithinCycles_threeOps : ByCycles threeOps.parts.2.1 ∧
    threeOps.sortOPsWithinCycles.ops ~ threeOps.ops := by
  have hs : ByCycles threeOps.parts.2.1 := by
    simp only [threeOps, OpVector.parts, ByCycles, Bool.false_eq_true, if_false]
    simp
  exact ⟨hs, (sortOPsWithinCycles_keeps threeOps hs).1⟩

end Cg.Swp
