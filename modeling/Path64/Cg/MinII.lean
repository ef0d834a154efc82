import Mathlib.Data.Finset.Max
import Mathlib.Data.List.GetD
import Mathlib.Data.Rat.Floor
import Mathlib.Data.Set.Finite.Lattice
import Path64.Lib.Loop
import Path64.Lib.Walks

/-! # The minimum initiation interval

In a strongly connected component with several members Floyd's algorithm
collects the costs of paths, latency and iteration distance, and forgets
those that are no better than another one at the interval known so far,
which grows with every cycle that is found. The costs that are left are
recorded as arcs, whose fields are narrower than the costs: the arcs are
right if no cost that gets so far is too large for them. -/

namespace Cg

open Int List Function Walks

/-! ## Model -/

/-- An arc of the successor list of an op; `isPreBr` is `CG_DEP_PREBR`. -/
structure Arc where
  succ : Nat
  omega : BitVec 8
  latency : BitVec 16
  isPreBr : Bool
  isMem : Bool
  isDefinite : Bool

@[ext] structure Cost where
  latency : Int
  omega : Int
deriving DecidableEq

/-- A call of `CG_LOOP_Add_SCC_Arc`; `UINT8` and `INT16` are of natural size. -/
structure SccCall where
  ancestor : Nat
  descendent : Nat
  cost : Cost
deriving DecidableEq

/-- The `ARC` that it makes, of `mUINT8` and `mINT16`. -/
structure SccArc where
  ancestor : Nat
  descendent : Nat
  omega : BitVec 8
  latency : BitVec 16

def SccCall.arc (call : SccCall) : SccArc :=
  ⟨call.ancestor, call.descendent, BitVec.ofInt 8 call.cost.omega,
    BitVec.ofInt 16 call.cost.latency⟩

/-- The ops by numbers, with `CG_LOOP_SCC_Vec` as lists of members. -/
structure DepGraph where
  succs : Nat → List Arc
  sccs : List (List Nat)
  loh : Nat → Bool
  /-- `PROC_has_same_cycle_branch_shadow`. -/
  sameCycleBranchShadow : Bool

/-- The variables of the module, and the calls that have recorded an arc. -/
structure MinII where
  minII : Int
  recMinII : Int
  /-- `CG_LOOP_SCC_rec_mii`, by the place of the component. -/
  recMii : Nat → Int
  sccCalls : List SccCall

def MinII.sccArcs (s : MinII) : List SccArc := s.sccCalls.map SccCall.arc

/-- What stops the compiler. -/
inductive Fault
  | divideByZero

abbrev CostTable := Nat → Nat → List Cost

def CostTable.set (costs : CostTable) (i j : Nat) (cv : List Cost) : CostTable :=
  fun a b => if a = i ∧ b = j then cv else costs a b

instance : Add Cost := ⟨fun c d => ⟨c.latency + d.latency, c.omega + d.omega⟩⟩

instance : Zero Cost := ⟨⟨0, 0⟩⟩

/-- `Ceiling_Divide`; division is that of C. -/
def ceilingDivide (x y : Int) : Except Fault Int :=
  if y = 0 then .error .divideByZero else .ok ((x + y - 1).tdiv y)

namespace DepGraph

variable (g : DepGraph)

/-- `CGTARG_ARC_Sched_Latency`. -/
def schedLatency (arc : Arc) : Int :=
  if arc.isPreBr && g.sameCycleBranchShadow then 0 else arc.latency.toInt

def cost (arc : Arc) : Cost := ⟨g.schedLatency arc, arc.omega.toNat⟩

/-- The body of the loop over the arcs of `op`. -/
def directArc (id : Nat) (scc : List Nat) (op : Nat) (st : CostTable × MinII) (arc : Arc) :
    Except Fault (CostTable × MinII) :=
  if arc.succ ∈ scc then
    let i := scc.idxOf op
    let j := scc.idxOf arc.succ
    let costs := st.1.set i j (st.1 i j ++ [g.cost arc])
    if arc.succ = op then do
      let mii ← ceilingDivide (g.schedLatency arc) arc.omega.toNat
      let recMii := max (st.2.recMii id) mii
      .ok (costs, { st.2 with
        minII := max st.2.minII recMii, recMii := update st.2.recMii id recMii })
    else .ok (costs, st.2)
  else .ok st

/-- `Calculate_Component_Direct_Costs_And_Min_Recurrence_II`. -/
def directCosts (id : Nat) (scc : List Nat) (s : MinII) : Except Fault (CostTable × MinII) :=
  scc.foldlM (fun st op => (g.succs op).foldlM (g.directArc id scc op) st) (fun _ _ => [], s)

end DepGraph

def isMaxCost (omega latency : Int) (cv : List Cost) (minII : Int) (offset : Nat) : Bool :=
  (cv.drop offset).all fun c =>
    !(omega == c.omega && decide (latency ≤ c.latency)
      || decide (c.omega < omega) && decide (latency - c.latency ≤ (omega - c.omega) * minII))

/-- The first loop of `Add_Maximal_Costs`: sums that may be maximal go behind the costs of `cvij`.
-/
def addCosts (cvij cvik cvkj : List Cost) (minII : Int) : List Cost :=
  cvik.foldl (fun cv cpik => cvkj.foldl (fun cv cpkj =>
    let ikjomega := cpik.omega + cpkj.omega
    let ikjlatency := cpik.latency + cpkj.latency
    if isMaxCost ikjomega ikjlatency cv minII 0 then cv ++ [⟨ikjlatency, ikjomega⟩] else cv) cv) cvij

/-- The second loop, from the last index down; the vector is cut when it is over. -/
def deleteCosts (minII : Int) : Nat → List Cost × Nat → List Cost × Nat
  | 0, st => st
  | i + 1, (cv, cvijLength) =>
    let cpij := cv.getD i 0
    if isMaxCost cpij.omega cpij.latency cv minII (i + 1) then
      deleteCosts minII i (cv, cvijLength)
    else if i ≠ cvijLength - 1 then
      deleteCosts minII i (cv.set i (cv.getD (cvijLength - 1) 0), cvijLength - 1)
    else deleteCosts minII i (cv, cvijLength - 1)

/-- `Add_Maximal_Costs`: the new `cvij`. -/
def addMaximalCosts (cvij cvik cvkj : List Cost) (minII : Int) : List Cost :=
  let cv := addCosts cvij cvik cvkj minII
  let (cv', cvijLength) := deleteCosts minII cv.length (cv, cv.length)
  cv'.take cvijLength

def maximizeMinII (id : Nat) (s : MinII) (cv1 cv2 : List Cost) : Except Fault MinII := do
  let m ← cv1.foldlM (fun m c1 => cv2.foldlM (fun (m : Int × Int) c2 => do
    let pathMii ← ceilingDivide (c1.latency + c2.latency) (c1.omega + c2.omega)
    .ok (max m.1 pathMii, max m.2 pathMii)) m) (s.minII, s.recMii id)
  .ok { s with minII := m.1, recMinII := m.2, recMii := update s.recMii id m.2 }

/-- The body of the three loops of Floyd's algorithm. -/
def floydStep (id k i j : Nat) (st : CostTable × MinII) : Except Fault (CostTable × MinII) :=
  if i = j ∧ j = k then .ok st
  else do
    let costs := st.1.set i j (addMaximalCosts (st.1 i j) (st.1 i k) (st.1 k j) st.2.minII)
    let s ← maximizeMinII id st.2 (costs i j) (costs j i)
    .ok (costs, s)

def floyd (id n : Nat) (st : CostTable × MinII) : Except Fault (CostTable × MinII) :=
  Loop.forFrom (fun k => Loop.forFrom (fun i => Loop.forFrom (fun j => floydStep id k i j) n 0) n 0)
    n 0 st

/-- The last loops of `Calculate_Component_Max_Costs_And_Min_Recurrence_II`. -/
def addSccArcs (scc : List Nat) (costs : CostTable) (calls : List SccCall) : List SccCall :=
  scc.foldl (fun calls iop => scc.foldl (fun calls jop =>
    (costs (scc.idxOf iop) (scc.idxOf jop)).foldl (fun calls c => ⟨iop, jop, c⟩ :: calls) calls)
      calls) calls

namespace DepGraph

variable (g : DepGraph)

/-- `Calculate_Component_Max_Costs_And_Min_Recurrence_II`. -/
def componentMaxCosts (id : Nat) (scc : List Nat) (s : MinII) : Except Fault MinII := do
  let st ← g.directCosts id scc s
  let (costs, s) ← floyd id scc.length st
  .ok { s with sccCalls := addSccArcs scc costs s.sccCalls }

/-- `Calculate_Self_Recurrence_Min_II`. -/
def selfRecurrence (ignoreNonDefMemDeps : Bool) (id : Nat) (scc : List Nat) (s : MinII) :
    Except Fault MinII :=
  let self := scc.getD 0 0
  if g.loh self then .ok s
  else
    (g.succs self).foldlM (fun s arc =>
      if arc.succ = self ∧ (!ignoreNonDefMemDeps || !arc.isMem || arc.isDefinite) = true then do
        let mii ← ceilingDivide (g.schedLatency arc) arc.omega.toNat
        let recMii := max (s.recMii id) mii
        .ok { s with
          minII := max s.minII recMii
          recMinII := max s.recMinII recMii
          recMii := update s.recMii id recMii }
      else .ok s) s

/-- `CG_LOOP_Calculate_Min_Recurrence_II`. -/
def calculateMinRecurrenceII (ignoreNonDefMemDeps : Bool) (s : MinII) : Except Fault MinII :=
  g.sccs.zipIdx.foldlM (fun s (scc, id) =>
    let s := { s with recMii := update s.recMii id 0 }
    if 1 < scc.length then g.componentMaxCosts id scc s
    else g.selfRecurrence ignoreNonDefMemDeps id scc s) s

/-! ## Dependence paths -/

/-- A dependence from `a` to `b`. -/
def Dep (a b : Nat) (c : Cost) : Prop := ∃ arc ∈ g.succs a, arc.succ = b ∧ c = g.cost arc

end DepGraph

/-- What the least interval must be for a cost of a cycle. -/
def Cost.ii (c : Cost) : Int := ⌈(c.latency : ℚ) / c.omega⌉

@[simp] theorem add_latency (c d : Cost) : (c + d).latency = c.latency + d.latency := rfl

@[simp] theorem add_omega (c d : Cost) : (c + d).omega = c.omega + d.omega := rfl

@[simp] theorem zero_latency : (0 : Cost).latency = 0 := rfl

@[simp] theorem zero_omega : (0 : Cost).omega = 0 := rfl

instance : AddCommMonoid Cost where
  add_assoc a b c := by ext <;> simp [add_assoc]
  zero_add a := by ext <;> simp
  add_zero a := by ext <;> simp
  add_comm a b := by ext <;> simp [add_comm]
  nsmul := nsmulRec

/-- A loop with its strongly connected components. -/
structure LoopDeps extends DepGraph where
  nodup : sccs.flatten.Nodup
  nonempty : ∀ scc ∈ sccs, scc ≠ []
  body : ∀ a, ∀ arc ∈ succs a, a ∈ sccs.flatten
  conn : ∀ scc ∈ sccs, ∀ a ∈ scc, ∀ b ∈ scc, a ≠ b → ∃ vs c, Walk toDepGraph.Dep a vs b c
  maximal : ∀ scc ∈ sccs, ∀ a ∈ scc, ∀ b vs c vs' c', Walk toDepGraph.Dep a vs b c →
    Walk toDepGraph.Dep b vs' a c' → b ∈ scc

/-- The value of a path at an interval. -/
def Cost.value (c : Cost) (ii : Int) : Int := c.latency - ii * c.omega

def SccArc.value (arc : SccArc) (ii : Int) : Int := arc.latency.toInt - ii * arc.omega.toNat

/-- The fields of an arc hold a cost. -/
def Cost.Fits (c : Cost) : Prop := c.omega < 256 ∧ -32768 ≤ c.latency ∧ c.latency < 32768

/-! ## Vectors of costs -/

/-- `d` is as good as `c` at every interval from `m` on. -/
def Below (m : Int) (c d : Cost) : Prop :=
  d.omega ≤ c.omega ∧ c.latency - d.latency ≤ (c.omega - d.omega) * m

section Below

variable {m m' : Int} {c d : Cost}

theorem below_order (m : Int) : CostOrder (Below m) := by
  refine ⟨fun c => ⟨le_rfl, by simp⟩, ?_, ?_⟩
  · rintro c d e ⟨hω, hl⟩ ⟨hω', hl'⟩
    exact ⟨hω'.trans hω, by linarith⟩
  · rintro c d c' d' ⟨hω, hl⟩ ⟨hω', hl'⟩
    refine ⟨?_, ?_⟩
    · rw [add_omega, add_omega]
      exact add_le_add hω hω'
    · rw [add_omega, add_omega, add_latency, add_latency]
      linarith

theorem Below.mono (h : Below m c d) (hm : m ≤ m') : Below m' c d :=
  ⟨h.1, h.2.trans (mul_le_mul_of_nonneg_left hm (sub_nonneg.mpr h.1))⟩

theorem Below.value (h : Below m c d) (hm : m ≤ m') : c.value m' ≤ d.value m' := by
  have h' := (h.mono hm).2
  unfold Cost.value
  linarith

theorem below_zero (hω : 0 < c.omega) (hl : c.latency ≤ c.omega * m) : Below m c 0 :=
  ⟨by simpa using hω.le, by simpa using hl⟩

theorem isMaxCost_eq_false {cv : List Cost} {k : Nat} :
    isMaxCost c.omega c.latency cv m k = false ↔ ∃ d ∈ cv.drop k, Below m c d := by
  unfold isMaxCost
  rw [all_eq_false]
  refine exists_congr fun d => and_congr_right fun _ => ?_
  simp only [Bool.not_eq_true, Bool.not_eq_false', Bool.or_eq_true, Bool.and_eq_true, beq_iff_eq,
    decide_eq_true_eq]
  unfold Below
  constructor
  · rintro (⟨heq, hl⟩ | ⟨hlt, hl⟩)
    · rw [heq, sub_self, zero_mul]
      exact ⟨le_rfl, sub_nonpos.mpr hl⟩
    · exact ⟨hlt.le, hl⟩
  · rintro ⟨hω, hl⟩
    rcases hω.eq_or_lt with heq | hlt
    · rw [heq, sub_self, zero_mul] at hl
      exact .inl ⟨heq.symm, sub_nonpos.mp hl⟩
    · exact .inr ⟨hlt, hl⟩

end Below

/-- A vector longer by costs with `P`; those left out are no better than one in it. -/
structure Extends (m : Int) (P : Cost → Prop) (cv cv' : List Cost) : Prop where
  keep : ∀ x ∈ cv, x ∈ cv'
  new : ∀ y ∈ cv', y ∈ cv ∨ P y ∧ ∀ x ∈ cv, ¬ Below m y x
  cover : ∀ y, P y → ∃ z ∈ cv', Below m y z

theorem Extends.trans {m : Int} {P P' : Cost → Prop} {cv cv' cv'' : List Cost}
    (h : Extends m P cv cv') (h' : Extends m P' cv' cv'') :
    Extends m (fun y => P y ∨ P' y) cv cv'' := by
  refine ⟨fun x hx => h'.keep x (h.keep x hx), fun y hy => ?_, fun y hy => ?_⟩
  · rcases h'.new y hy with hy | ⟨hP, hnot⟩
    · exact (h.new y hy).imp id fun ⟨hP, hnot⟩ => ⟨.inl hP, hnot⟩
    · exact .inr ⟨.inr hP, fun x hx => hnot x (h.keep x hx)⟩
  · rcases hy with hy | hy
    · obtain ⟨z, hz, hle⟩ := h.cover y hy
      exact ⟨z, h'.keep z hz, hle⟩
    · exact h'.cover y hy

theorem foldl_extends {α : Type} {m : Int} {P : α → Cost → Prop} {f : List Cost → α → List Cost}
    (hf : ∀ a cv, Extends m (P a) cv (f cv a)) (l : List α) :
    ∀ cv, Extends m (fun y => ∃ a ∈ l, P a y) cv (l.foldl f cv) := by
  induction l with
  | nil =>
    intro cv
    exact ⟨fun x hx => hx, fun y hy => .inl hy, fun y ⟨a, ha, _⟩ => by cases ha⟩
  | cons a l ih =>
    intro cv
    have h := (hf a cv).trans (ih (f cv a))
    have hP : ∀ y, (P a y ∨ ∃ b ∈ l, P b y) ↔ ∃ b ∈ a :: l, P b y := fun y => by simp
    exact ⟨h.keep, fun y hy => (h.new y hy).imp id (And.imp_left (hP y).mp),
      fun y hy => h.cover y ((hP y).mpr hy)⟩

theorem addCosts_extends (cvij cvik cvkj : List Cost) (m : Int) :
    Extends m (fun y => ∃ c ∈ cvik, ∃ d ∈ cvkj, y = c + d) cvij (addCosts cvij cvik cvkj m) := by
  unfold addCosts
  refine foldl_extends (fun c cv => foldl_extends (P := fun d y => y = c + d) (fun d cv => ?_) _ cv)
    cvik cvij
  have hsum : (⟨c.latency + d.latency, c.omega + d.omega⟩ : Cost) = c + d := rfl
  simp only
  split
  · rename_i hmax
    refine ⟨fun x hx => mem_append_left _ hx, fun y hy => ?_, ?_⟩
    · rcases mem_append.mp hy with hy | hy
      · exact .inl hy
      · rw [mem_singleton.mp hy]
        refine .inr ⟨hsum, fun x hx hbelow => ?_⟩
        have hfalse := (isMaxCost_eq_false (k := 0)).mpr ⟨x, hx, hbelow⟩
        simp only [hmax] at hfalse
        cases hfalse
    · rintro y rfl
      exact ⟨_, mem_append_right _ (mem_singleton_self _), (below_order m).refl _⟩
  · rename_i hmax
    refine ⟨fun x hx => hx, fun y hy => .inl hy, ?_⟩
    rintro y rfl
    obtain ⟨z, hz, hbelow⟩ := (isMaxCost_eq_false (c := c + d)).mp (Bool.not_eq_true _ ▸ hmax)
    exact ⟨z, by simpa using hz, hbelow⟩

/-- The second loop below `i`: what has been passed lies between `i` and the length. -/
structure Deleting (m : Int) (cv₀ : List Cost) (i : Nat) (cv : List Cost) (len : Nat) : Prop where
  size : cv.length = cv₀.length
  le_len : i ≤ len
  len_le : len ≤ cv.length
  front : ∀ p < i, cv.getD p 0 = cv₀.getD p 0
  copies : ∀ p, i ≤ p → p < cv.length → ∃ q, i ≤ q ∧ q < len ∧ cv.getD p 0 = cv.getD q 0
  sub : ∀ p, i ≤ p → p < len → cv.getD p 0 ∈ cv₀
  cover : ∀ p, i ≤ p → p < cv₀.length →
    ∃ q, i ≤ q ∧ q < len ∧ Below m (cv₀.getD p 0) (cv.getD q 0)

theorem mem_getD {cv : List Cost} {p : Nat} (hp : p < cv.length) : cv.getD p 0 ∈ cv := by
  rw [getD_eq_getElem _ _ hp]
  exact getElem_mem hp

section

variable {m : Int} {cv₀ cv : List Cost} {i len : Nat} (h : Deleting m cv₀ (i + 1) cv len)
include h

theorem Deleting.keep : Deleting m cv₀ i cv len := by
  have hi : i < len := h.le_len
  have hfront := h.front i (Nat.lt_succ_self i)
  refine ⟨h.size, hi.le, h.len_le, fun p hp => h.front p (by omega), fun p hp hlt => ?_,
    fun p hp hlt => ?_, fun p hp hlt => ?_⟩
  · rcases hp.eq_or_lt with rfl | hp
    · exact ⟨i, le_rfl, hi, rfl⟩
    · obtain ⟨q, hq, hq', heq⟩ := h.copies p hp hlt
      exact ⟨q, by omega, hq', heq⟩
  · rcases hp.eq_or_lt with rfl | hp
    · rw [hfront]
      exact mem_getD (by have := h.size; have := h.len_le; omega)
    · exact h.sub p hp hlt
  · rcases hp.eq_or_lt with rfl | hp
    · exact ⟨i, le_rfl, hi, hfront ▸ (below_order m).refl _⟩
    · obtain ⟨q, hq, hq', hle⟩ := h.cover p hp hlt
      exact ⟨q, by omega, hq', hle⟩

/-- A cost that lies below another one is overwritten by the last: nothing maximal is lost. -/
theorem Deleting.delete (hmax : ∃ d ∈ cv.drop (i + 1), Below m (cv.getD i 0) d) :
    i ≠ len - 1 ∧ Deleting m cv₀ i (cv.set i (cv.getD (len - 1) 0)) (len - 1) := by
  obtain ⟨d, hd, hbelow⟩ := hmax
  obtain ⟨p, hp, rfl⟩ := getElem_of_mem hd
  rw [length_drop] at hp
  obtain ⟨q, hq, hq', heq⟩ := h.copies (i + 1 + p) (by omega) (by omega)
  rw [getElem_drop, ← getD_eq_getElem _ 0 (by omega), heq] at hbelow
  have hlen := h.len_le
  have hsize := h.size
  -- where a cost that has been passed is now
  have hset : ∀ r, (cv.set i (cv.getD (len - 1) 0)).getD r 0
      = if r = i then cv.getD (len - 1) 0 else cv.getD r 0 := by
    intro r
    rw [getD_eq_getElem?_getD, getElem?_set, getD_eq_getElem?_getD]
    by_cases hr : r = i
    · subst hr
      simp [show r < cv.length by omega]
    · simp [hr, Ne.symm hr]
  have hmoved : ∀ r, i + 1 ≤ r → r < len → ∃ r', i ≤ r' ∧ r' < len - 1 ∧
      cv.getD r 0 = (cv.set i (cv.getD (len - 1) 0)).getD r' 0 := by
    intro r hr hr'
    by_cases hlast : r = len - 1
    · exact ⟨i, le_rfl, by omega, by rw [hset, if_pos rfl, hlast]⟩
    · exact ⟨r, by omega, by omega, by rw [hset, if_neg (by omega)]⟩
  refine ⟨by omega, by rw [length_set, hsize], by omega, by rw [length_set]; omega,
    fun r hr => ?_, fun r hr hr' => ?_, fun r hr hr' => ?_, fun r hr hr' => ?_⟩
  · rw [hset, if_neg (by omega)]
    exact h.front r (by omega)
  · rw [length_set] at hr'
    rcases hr.eq_or_lt with rfl | hr
    · exact ⟨i, le_rfl, by omega, rfl⟩
    · obtain ⟨t, ht, ht', heq'⟩ := h.copies r hr hr'
      obtain ⟨t', h1, h2, h3⟩ := hmoved t ht ht'
      refine ⟨t', h1, h2, ?_⟩
      rw [hset, if_neg (by omega), heq', h3]
  · rw [hset]
    split
    · exact h.sub _ (by omega) (by omega)
    · exact h.sub r (by omega) (by omega)
  · rcases hr.eq_or_lt with rfl | hr
    · obtain ⟨t', h1, h2, h3⟩ := hmoved q hq hq'
      refine ⟨t', h1, h2, ?_⟩
      rw [← h.front i (Nat.lt_succ_self i), ← h3]
      exact hbelow
    · obtain ⟨t, ht, ht', hle⟩ := h.cover r hr hr'
      obtain ⟨t', h1, h2, h3⟩ := hmoved t ht ht'
      exact ⟨t', h1, h2, h3 ▸ hle⟩

end

theorem deleteCosts_spec {m : Int} {cv₀ : List Cost} : ∀ {i : Nat} {cv : List Cost} {len : Nat},
    Deleting m cv₀ i cv len →
      Deleting m cv₀ 0 (deleteCosts m i (cv, len)).1 (deleteCosts m i (cv, len)).2 := by
  intro i
  induction i with
  | zero => exact fun h => h
  | succ i ih =>
    intro cv len h
    unfold deleteCosts
    cases hmax : isMaxCost (cv.getD i 0).omega (cv.getD i 0).latency cv m (i + 1) with
    | true =>
      simp only [hmax, if_true]
      exact ih h.keep
    | false =>
      obtain ⟨hne, hdel⟩ := h.delete (isMaxCost_eq_false.mp hmax)
      simp only [hmax, Bool.false_eq_true, if_false, if_pos hne]
      exact ih hdel

/-- The maximal costs of a pair after one intermediate vertex: every old cost and every sum lies
below one that is kept. -/
theorem addMaximalCosts_spec (cvij cvik cvkj : List Cost) (m : Int) :
    (∀ y ∈ addMaximalCosts cvij cvik cvkj m, y ∈ cvij ∨
        (∃ c ∈ cvik, ∃ d ∈ cvkj, y = c + d) ∧ ∀ x ∈ cvij, ¬ Below m y x) ∧
      (∀ y, y ∈ cvij ∨ (∃ c ∈ cvik, ∃ d ∈ cvkj, y = c + d) →
        ∃ z ∈ addMaximalCosts cvij cvik cvkj m, Below m y z) := by
  have hext := addCosts_extends cvij cvik cvkj m
  unfold addMaximalCosts
  generalize addCosts cvij cvik cvkj m = cv at hext
  simp only
  have hstart : Deleting m cv cv.length cv cv.length :=
    ⟨rfl, le_rfl, le_rfl, fun _ _ => rfl, fun p hp hp' => by omega, fun p hp hp' => by omega,
      fun p hp hp' => by omega⟩
  have hend := deleteCosts_spec hstart
  revert hend
  generalize deleteCosts m cv.length (cv, cv.length) = st
  obtain ⟨cv', len⟩ := st
  intro hend
  have hmem : ∀ y, y ∈ cv'.take len ↔ ∃ q < len, cv'.getD q 0 = y := by
    intro y
    rw [mem_take_iff_getElem]
    have hlen : len ≤ cv'.length := hend.len_le
    constructor
    · rintro ⟨q, hq, rfl⟩
      exact ⟨q, by omega, getD_eq_getElem _ _ (by omega)⟩
    · rintro ⟨q, hq, rfl⟩
      exact ⟨q, by omega, (getD_eq_getElem _ _ (by omega)).symm⟩
  have hcover : ∀ x ∈ cv, ∃ z ∈ cv'.take len, Below m x z := by
    intro x hx
    obtain ⟨p, hp, rfl⟩ := getElem_of_mem hx
    obtain ⟨q, -, hq, hle⟩ := hend.cover p (Nat.zero_le _) hp
    rw [getD_eq_getElem _ _ hp] at hle
    exact ⟨_, (hmem _).mpr ⟨q, hq, rfl⟩, hle⟩
  refine ⟨fun y hy => ?_, fun y hy => ?_⟩
  · obtain ⟨q, hq, rfl⟩ := (hmem y).mp hy
    exact hext.new _ (hend.sub q (Nat.zero_le _) hq)
  · rcases hy with hy | hy
    · exact hcover y (hext.keep y hy)
    · obtain ⟨z, hz, hle⟩ := hext.cover y hy
      obtain ⟨z', hz', hle'⟩ := hcover z hz
      exact ⟨z', hz', (below_order m).trans hle hle'⟩

/-! ## The interval -/

theorem ceilingDivide_spec {x y : Int} (hy : 0 < y) :
    ∃ q, ceilingDivide x y = .ok q ∧ (0 < q → q = ⌈(x : ℚ) / y⌉) ∧
      ∀ m, 0 ≤ m → q ≤ m → x ≤ y * m := by
  refine ⟨(x + y - 1).tdiv y, if_neg hy.ne', ?_⟩
  rcases Int.lt_or_le (x + y - 1) 0 with hneg | hnonneg
  · -- rounded towards zero
    have hq : (x + y - 1).tdiv y ≤ 0 := by
      rw [← Int.neg_nonneg, ← Int.neg_tdiv]
      exact Int.tdiv_nonneg (by omega) hy.le
    refine ⟨fun hpos => absurd hq (not_le.mpr hpos), fun m hm _ => ?_⟩
    have := mul_nonneg hy.le hm
    omega
  · rw [tdiv_eq_ediv_of_nonneg hnonneg]
    have hle : y * ((x + y - 1) / y) ≤ x + y - 1 := mul_ediv_self_le hy.ne'
    have hlt : x + y - 1 < y * ((x + y - 1) / y) + y := lt_mul_ediv_self_add hy
    generalize (x + y - 1) / y = q at hle hlt
    have hyq : (0 : ℚ) < y := by exact_mod_cast hy
    refine ⟨fun _ => (ceil_eq_iff.mpr ⟨?_, ?_⟩).symm, fun m _ hqm => ?_⟩
    · rw [lt_div_iff₀ hyq]
      have : (q - 1) * y < x := by nlinarith
      exact_mod_cast this
    · rw [div_le_iff₀ hyq]
      have : x ≤ q * y := by nlinarith
      exact_mod_cast this
    · have := mul_le_mul_of_nonneg_left hqm hy.le
      omega

/-- The interval is where it started or that of a cycle, and enough for the component. -/
structure MiiOk (Cyc : Cost → Prop) (start mii recMii : Int) : Prop where
  ge : start ≤ mii
  src : mii = start ∨ ∃ c, Cyc c ∧ mii = c.ii
  rec_le : recMii ≤ mii

variable {s : MinII} {j : Nat}

section Intervals

variable {Cyc : Cost → Prop} {start mii recMii : Int}

theorem MiiOk.raise (h : MiiOk Cyc start mii recMii) (hstart : 0 ≤ start) {c : Cost} (hc : Cyc c)
    (hω : 0 < c.omega) :
    ∃ q, ceilingDivide c.latency c.omega = .ok q ∧ MiiOk Cyc start (max mii q) (max recMii q) ∧
      max mii (max recMii q) = max mii q ∧ c.latency ≤ c.omega * max mii q := by
  obtain ⟨q, hq, hceil, hle⟩ := ceilingDivide_spec (x := c.latency) hω
  have hmii := hstart.trans h.ge
  refine ⟨q, hq, ⟨h.ge.trans (le_max_left _ _), ?_, max_le_max_right q h.rec_le⟩, ?_,
    hle _ (hmii.trans (le_max_left _ _)) (le_max_right _ _)⟩
  · rcases le_total q mii with hqm | hqm
    · rw [max_eq_left hqm]
      exact h.src
    · rw [max_eq_right hqm]
      rcases hqm.eq_or_lt with rfl | hlt
      · exact h.src
      · exact .inr ⟨c, hc, hceil (by omega)⟩
  · rw [← max_assoc, max_eq_left h.rec_le]

/-- Closing two cost lists into cycles raises the bound to what those cycles need and no further. -/
theorem maximizeMinII_spec {id : Nat} {cv1 cv2 : List Cost}
    (h : MiiOk Cyc start s.minII (s.recMii id)) (hstart : 0 ≤ start)
    (hcyc : ∀ c ∈ cv1, ∀ d ∈ cv2, Cyc (c + d) ∧ 0 < (c + d).omega) :
    ∃ s', maximizeMinII id s cv1 cv2 = .ok s' ∧ MiiOk Cyc start s'.minII (s'.recMii id) ∧
      s.minII ≤ s'.minII ∧ s'.sccCalls = s.sccCalls ∧
      ∀ c ∈ cv1, ∀ d ∈ cv2, (c + d).latency ≤ (c + d).omega * s'.minII := by
  have hmono : ∀ {c d : Cost} {m m' : Int}, c ∈ cv1 → d ∈ cv2 → m ≤ m' →
      (c + d).latency ≤ (c + d).omega * m → (c + d).latency ≤ (c + d).omega * m' :=
    fun hc hd hm hle => hle.trans (mul_le_mul_of_nonneg_left hm (hcyc _ hc _ hd).2.le)
  have hinner : ∀ (c : Cost) (m : Int × Int), c ∈ cv1 → MiiOk Cyc start m.1 m.2 →
      Loop.Outcome (fun _ => False)
        (fun m' : Int × Int => MiiOk Cyc start m'.1 m'.2 ∧ m.1 ≤ m'.1 ∧
          ∀ d ∈ cv2.reverse ++ [], d ∈ cv2 ∧ (c + d).latency ≤ (c + d).omega * m'.1)
        (cv2.foldlM (fun (m : Int × Int) c2 => do
          let pathMii ← ceilingDivide (c.latency + c2.latency) (c.omega + c2.omega)
          .ok (max m.1 pathMii, max m.2 pathMii)) m) := by
    intro c m hc hm
    refine Loop.foldlM_outcome (J := fun done (m' : Int × Int) => MiiOk Cyc start m'.1 m'.2 ∧
      m.1 ≤ m'.1 ∧ ∀ d ∈ done, d ∈ cv2 ∧ (c + d).latency ≤ (c + d).omega * m'.1) [] ?_
      ⟨hm, le_rfl, fun d hd => by cases hd⟩
    rintro done d m' hd ⟨hm', hle, hdone⟩
    obtain ⟨hcd, hω⟩ := hcyc c hc d hd
    obtain ⟨q, hq, hraise, -, hl⟩ := hm'.raise hstart hcd hω
    rw [add_latency, add_omega] at hq
    simp only [hq]
    refine ⟨hraise, hle.trans (le_max_left _ _), fun x hx => ?_⟩
    rcases mem_cons.mp hx with rfl | hx
    · exact ⟨hd, hl⟩
    · exact ⟨(hdone x hx).1, hmono hc (hdone x hx).1 (le_max_left _ _) (hdone x hx).2⟩
  have houter := Loop.foldlM_outcome (l := cv1) (s := (s.minII, s.recMii id))
    (f := fun m c1 => cv2.foldlM (fun (m : Int × Int) c2 => do
      let pathMii ← ceilingDivide (c1.latency + c2.latency) (c1.omega + c2.omega)
      .ok (max m.1 pathMii, max m.2 pathMii)) m) (Q := fun _ => False)
    (J := fun done (m : Int × Int) => MiiOk Cyc start m.1 m.2 ∧ s.minII ≤ m.1 ∧
      ∀ c ∈ done, c ∈ cv1 ∧ ∀ d ∈ cv2, (c + d).latency ≤ (c + d).omega * m.1) [] ?_
    ⟨h, le_rfl, fun c hc => by cases hc⟩
  · obtain ⟨m, hm, hok, hle, hall⟩ := houter.exists_ok
    refine ⟨{ s with
        minII := m.1, recMinII := m.2, recMii := update s.recMii id m.2 },
      ?_, ?_, hle, rfl, fun c hc d hd => (hall c (by simpa using hc)).2 d hd⟩
    · unfold maximizeMinII
      rw [hm]
      rfl
    · simp only [update_self]
      exact hok
  · rintro done c m hc ⟨hm, hle, hdone⟩
    refine (hinner c m hc hm).imp fun m' ⟨hm', hle', hall⟩ => ⟨hm', hle.trans hle', fun x hx => ?_⟩
    rcases mem_cons.mp hx with rfl | hx
    · exact ⟨hc, fun d hd => (hall d (by simpa using hd)).2⟩
    · exact ⟨(hdone x hx).1, fun d hd => hmono (hdone x hx).1 hd hle' ((hdone x hx).2 d hd)⟩

end Intervals

/-! ## Floyd's algorithm -/

section Floyd

variable {E : Nat → Nat → Cost → Prop} {Cyc : Cost → Prop} {start : Int} {id n : Nat}
variable {calls : List SccCall}

/-- In round `k`, when the pairs in `Passed` have been passed. -/
structure FloydInv (E : Nat → Nat → Cost → Prop) (Cyc : Cost → Prop) (start : Int) (id : Nat)
    (calls : List SccCall) (k : Nat) (Passed : Nat → Nat → Prop) (st : CostTable × MinII) : Prop where
  mii : MiiOk Cyc start st.2.minII (st.2.recMii id)
  calls : st.2.sccCalls = calls
  /-- Every cost is that of a simple path. -/
  sound : ∀ a b, ∀ c ∈ st.1 a b, ∃ vs, Walk E a vs b c ∧ Simple a vs b ∧
    ∀ v ∈ vs, v < k ∨ v = k ∧ a ≠ k ∧ b ≠ k
  /-- No path through nodes before `k` is better than all costs. -/
  cover : ∀ a b vs c, Walk E a vs b c → (∀ v ∈ vs, v < k) →
    ∃ d ∈ st.1 a b, Below st.2.minII c d
  passed : ∀ a b, Passed a b → ∀ vs c, Walk E a vs b c → (∀ v ∈ vs, v < k ∨ v = k) →
    ∃ d ∈ st.1 a b, Below st.2.minII c d
  /-- The interval is long enough for the cycles that are known. -/
  self : ∀ a, ∀ d ∈ st.1 a a, d.latency ≤ d.omega * st.2.minII
  round : ∀ v us c ws d, v < k → Walk E v us k c → (∀ u ∈ us, u < k) → Walk E k ws v d →
    (∀ w ∈ ws, w < k) → Below st.2.minII (c + d) 0
  pairs : ∀ a b, Passed a b → Passed b a → ∀ c ∈ st.1 a b, ∀ d ∈ st.1 b a,
    (c + d).latency ≤ (c + d).omega * st.2.minII

variable {k : Nat} {Passed : Nat → Nat → Prop} {st : CostTable × MinII}

theorem FloydInv.congr (h : FloydInv E Cyc start id calls k Passed st) {Passed' : Nat → Nat → Prop}
    (heq : ∀ a b, Passed' a b ↔ Passed a b) : FloydInv E Cyc start id calls k Passed' st := by
  have : Passed = Passed' := funext fun a => funext fun b => propext (heq a b).symm
  rwa [← this]

variable (hcyc : ∀ a vs c, Walk E a vs a c → Cyc c ∧ 0 < c.omega)

include hcyc in
theorem FloydInv.trip (h : FloydInv E Cyc start id calls k Passed st) {vs : List Nat} {c : Cost}
    (hw : Walk E k vs k c) (hvs : ∀ v ∈ vs, v < k) : Below st.2.minII c 0 := by
  obtain ⟨d, hd, hle⟩ := h.cover k k vs c hw hvs
  obtain ⟨us, hd', -⟩ := h.sound k k d hd
  exact (below_order _).trans hle (below_zero (hcyc k us d hd').2 (h.self k d hd))

include hcyc in
theorem FloydInv.through (h : FloydInv E Cyc start id calls k Passed st) {a b : Nat}
    {vs : List Nat} {c : Cost} (hw : Walk E a vs b c) (hvs : ∀ v ∈ vs, v < k ∨ v = k) :
    (∃ d ∈ st.1 a b, Below st.2.minII c d) ∨
      ∃ d ∈ st.1 a k, ∃ e ∈ st.1 k b, Below st.2.minII c (d + e) := by
  have hle := below_order st.2.minII
  rcases hw.eliminate hle (S := fun v => v < k) (fun us c hw hus => h.trip hcyc hw hus) hvs with
    ⟨us, d, hwalk, hus, hcd⟩ | ⟨us, d, ws, e, hwalk, hus, hwalk', hws, hcd⟩
  · obtain ⟨d', hd', hle'⟩ := h.cover a b us d hwalk hus
    exact .inl ⟨d', hd', hle.trans hcd hle'⟩
  · obtain ⟨d', hd', hled⟩ := h.cover a k us d hwalk hus
    obtain ⟨e', he', hlee⟩ := h.cover k b ws e hwalk' hws
    exact .inr ⟨d', hd', e', he', hle.trans hcd (hle.add hled hlee)⟩

include hcyc in
theorem FloydInv.sum (h : FloydInv E Cyc start id calls k Passed st) {i : Nat} {c d : Cost}
    (hc : c ∈ st.1 i k) (hd : d ∈ st.1 k j) (hnot : ∀ x ∈ st.1 i j, ¬ Below st.2.minII (c + d) x) :
    ∃ vs, Walk E i vs j (c + d) ∧ Simple i vs j ∧ ∀ v ∈ vs, v < k ∨ v = k ∧ i ≠ k ∧ j ≠ k := by
  have hle := below_order st.2.minII
  obtain ⟨us, hwc, hsc, hus⟩ := h.sound i k c hc
  obtain ⟨ws, hwd, hsd, hws⟩ := h.sound k j d hd
  have hus' : ∀ u ∈ us, u < k := fun u hu => (hus u hu).resolve_right fun hor => hor.2.2 rfl
  have hws' : ∀ w ∈ ws, w < k := fun w hw => (hws w hw).resolve_right fun hor => hor.2.1 rfl
  have hik : i ≠ k := by
    rintro rfl
    exact hnot d hd (hle.round_add (hle.refl d) (h.trip hcyc hwc hus'))
  have hjk : j ≠ k := by
    rintro rfl
    exact hnot c hc (hle.add_round (hle.refl c) (h.trip hcyc hwd hws'))
  refine ⟨us ++ k :: ws, hwc.append hwd, ?_, fun v hv => ?_⟩
  · rcases Walk.shortcut hle (S := fun v => v < k) (lt_irrefl k)
      (fun v us c ws d hv => h.round v us c ws d hv) hik hjk hwc hus' hsc hwd hws' hsd with
      hsimple | ⟨vs, e, hwe, hvs, hcde⟩
    · exact hsimple
    · obtain ⟨x, hx, hex⟩ := h.cover i j vs e hwe hvs
      exact absurd (hle.trans hcde hex) (hnot x hx)
  · rcases mem_append.mp hv with hv | hv
    · exact .inl (hus' v hv)
    · rcases mem_cons.mp hv with rfl | hv
      · exact .inr ⟨rfl, hik, hjk⟩
      · exact .inl (hws' v hv)

theorem CostTable.set_self (costs : CostTable) (i j : Nat) (cv : List Cost) :
    costs.set i j cv i j = cv := if_pos ⟨rfl, rfl⟩

theorem CostTable.set_other (costs : CostTable) {i a b : Nat} (cv : List Cost)
    (h : ¬ (a = i ∧ b = j)) : costs.set i j cv a b = costs a b := if_neg h

include hcyc in
/-- One pair of the all-pairs loop: the costs kept are costs of walks through the vertices up to
`k`, and every such walk lies below one of them. -/
theorem FloydInv.step (h : FloydInv E Cyc start id calls k Passed st) (hstart : 0 ≤ start)
    (i j : Nat) : ∃ st', floydStep id k i j st = .ok st' ∧
      FloydInv E Cyc start id calls k (fun a b => Passed a b ∨ a = i ∧ b = j) st' := by
  have hle := below_order st.2.minII
  unfold floydStep
  by_cases hskip : i = j ∧ j = k
  · obtain ⟨rfl, rfl⟩ := hskip
    rw [if_pos ⟨rfl, rfl⟩]
    refine ⟨st, rfl, h.mii, h.calls, h.sound, h.cover, ?_, h.self, h.round, ?_⟩
    · rintro a b (hp | ⟨rfl, rfl⟩) vs c hw hvs
      · exact h.passed a b hp vs c hw hvs
      · rcases h.through hcyc hw hvs with hd | ⟨d, hd, e, he, hcde⟩
        · exact hd
        · obtain ⟨us, hwe, -⟩ := h.sound b b e he
          exact ⟨d, hd, hle.trans hcde (hle.add_round (hle.refl d)
            (below_zero (hcyc b us e hwe).2 (h.self b e he)))⟩
    · rintro a b hp hp' c hc d hd
      by_cases heq : a = i ∧ b = i
      · obtain ⟨rfl, rfl⟩ := heq
        have h1 := h.self b c hc
        have h2 := h.self b d hd
        rw [add_latency, add_omega]
        linarith
      · refine h.pairs a b (hp.resolve_right heq) (hp'.resolve_right fun heq' => heq ?_) c hc d hd
        exact ⟨heq'.2, heq'.1⟩
  · rw [if_neg hskip]
    obtain ⟨hnew, hcover⟩ := addMaximalCosts_spec (st.1 i j) (st.1 i k) (st.1 k j) st.2.minII
    generalize addMaximalCosts (st.1 i j) (st.1 i k) (st.1 k j) st.2.minII = cv at hnew hcover
    have hself := CostTable.set_self st.1 i j cv
    have hother := fun {a b : Nat} => CostTable.set_other st.1 (i := i) (j := j) (a := a) (b := b) cv
    generalize st.1.set i j cv = costs at hself hother
    have hsound : ∀ a b, ∀ c ∈ costs a b, ∃ vs, Walk E a vs b c ∧ Simple a vs b ∧
        ∀ v ∈ vs, v < k ∨ v = k ∧ a ≠ k ∧ b ≠ k := by
      intro a b c hc
      by_cases heq : a = i ∧ b = j
      · obtain ⟨rfl, rfl⟩ := heq
        rw [hself] at hc
        rcases hnew c hc with hold | ⟨⟨d, hd, e, he, rfl⟩, hnot⟩
        · exact h.sound a b c hold
        · exact h.sum hcyc hd he hnot
      · rw [hother heq] at hc
        exact h.sound a b c hc
    have hcycle : ∀ a b, ∀ c ∈ costs a b, ∀ d ∈ costs b a, Cyc (c + d) ∧ 0 < (c + d).omega := by
      intro a b c hc d hd
      obtain ⟨us, hwc, -⟩ := hsound a b c hc
      obtain ⟨ws, hwd, -⟩ := hsound b a d hd
      exact hcyc a _ _ (hwc.append hwd)
    obtain ⟨s', hs', hmii, hmono, harcs, hpairs⟩ :=
      maximizeMinII_spec h.mii hstart (hcycle i j)
    -- what was as good as a cost before is not lost
    have hkeep : ∀ a b x, (∃ d ∈ st.1 a b, Below st.2.minII x d) →
        ∃ d ∈ costs a b, Below s'.minII x d := by
      rintro a b x ⟨d, hd, hxd⟩
      by_cases heq : a = i ∧ b = j
      · obtain ⟨rfl, rfl⟩ := heq
        obtain ⟨z, hz, hdz⟩ := hcover d (.inl hd)
        rw [← hself] at hz
        exact ⟨z, hz, (hle.trans hxd hdz).mono hmono⟩
      · exact ⟨d, (hother heq).symm ▸ hd, hxd.mono hmono⟩
    have hgrow : ∀ x : Cost, 0 ≤ x.omega → x.latency ≤ x.omega * st.2.minII →
        x.latency ≤ x.omega * s'.minII :=
      fun x hω hl => hl.trans (mul_le_mul_of_nonneg_left hmono hω)
    refine ⟨(costs, s'), ?_, hmii, harcs.trans h.calls, hsound, ?_, ?_, ?_, ?_, ?_⟩
    · simp only [hs']
      rfl
    · exact fun a b vs c hw hvs => hkeep a b c (h.cover a b vs c hw hvs)
    · rintro a b (hp | ⟨rfl, rfl⟩) vs c hw hvs
      · exact hkeep a b c (h.passed a b hp vs c hw hvs)
      · rcases h.through hcyc hw hvs with hd | ⟨d, hd, e, he, hcde⟩
        · exact hkeep a b c hd
        · obtain ⟨z, hz, hdz⟩ := hcover (d + e) (.inr ⟨d, hd, e, he, rfl⟩)
          rw [← hself] at hz
          exact ⟨z, hz, (hle.trans hcde hdz).mono hmono⟩
    · intro a d (hd : d ∈ costs a a)
      by_cases heq : a = i ∧ a = j
      · obtain ⟨rfl, rfl⟩ := heq
        -- the cost twice is a pair
        have hpair := hpairs d hd d hd
        rw [add_latency, add_omega] at hpair
        linarith
      · rw [hother heq] at hd
        obtain ⟨us, hwd, -⟩ := h.sound a a d hd
        exact hgrow d (hcyc a us d hwd).2.le (h.self a d hd)
    · exact fun v us c ws d hv hw hus hw' hws => (h.round v us c ws d hv hw hus hw' hws).mono hmono
    · intro a b hp hp' c (hc : c ∈ costs a b) d (hd : d ∈ costs b a)
      by_cases heq : a = i ∧ b = j
      · obtain ⟨rfl, rfl⟩ := heq
        exact hpairs c hc d hd
      by_cases heq' : b = i ∧ a = j
      · obtain ⟨rfl, rfl⟩ := heq'
        rw [add_comm c d]
        exact hpairs d hd c hc
      · refine hgrow _ (hcycle a b c hc d hd).2.le ?_
        rw [hother heq] at hc
        rw [hother heq'] at hd
        exact h.pairs a b (hp.resolve_right heq) (hp'.resolve_right heq') c hc d hd

include hcyc in
theorem FloydInv.next (hbound : ∀ a b c, E a b c → a < n ∧ b < n)
    (h : FloydInv E Cyc start id calls k (fun a b => a < n ∧ b < n) st) :
    FloydInv E Cyc start id calls (k + 1) (fun _ _ => False) st := by
  have hends : ∀ {a b vs c}, Walk E a vs b c → a < n ∧ b < n := by
    intro a b vs c hw
    induction hw with
    | arc he => exact hbound _ _ _ he
    | cons he _ ih => exact ⟨(hbound _ _ _ he).1, ih.2⟩
  have hcover : ∀ a b vs c, Walk E a vs b c → (∀ v ∈ vs, v < k + 1) →
      ∃ d ∈ st.1 a b, Below st.2.minII c d :=
    fun a b vs c hw hvs => h.passed a b (hends hw) vs c hw fun v hv => by
      have := hvs v hv
      omega
  refine ⟨h.mii, h.calls, fun a b c hc => ?_, hcover, fun _ _ hf => hf.elim, h.self, ?_,
    fun _ _ hf => hf.elim⟩
  · obtain ⟨vs, hw, hs, hvs⟩ := h.sound a b c hc
    refine ⟨vs, hw, hs, fun v hv => .inl ?_⟩
    have := hvs v hv
    omega
  · intro v us c ws d _ hw hus hw' hws
    obtain ⟨x, hx, hcx⟩ := hcover v (k + 1) us c hw hus
    obtain ⟨y, hy, hdy⟩ := hcover (k + 1) v ws d hw' hws
    obtain ⟨us', hwx, -⟩ := h.sound v (k + 1) x hx
    obtain ⟨ws', hwy, -⟩ := h.sound (k + 1) v y hy
    exact (below_order _).trans ((below_order _).add hcx hdy)
      (below_zero (hcyc v _ _ (hwx.append hwy)).2 (h.pairs v (k + 1) (hends hw) (hends hw') x hx y hy))

include hcyc in
/-- All pivots in turn give the walks of the whole component. -/
theorem floyd_spec (hbound : ∀ a b c, E a b c → a < n ∧ b < n) (hstart : 0 ≤ start)
    (h : FloydInv E Cyc start id calls 0 (fun _ _ => False) st) :
    ∃ st', floyd id n st = .ok st' ∧ FloydInv E Cyc start id calls n (fun _ _ => False) st' := by
  have hrow : ∀ k i st, FloydInv E Cyc start id calls k (fun a b => a < n ∧ b < n ∧ a < i) st →
      i < n → Loop.Outcome (fun _ => False)
        (FloydInv E Cyc start id calls k fun a b => a < n ∧ b < n ∧ a < i + 1)
        (Loop.forFrom (fun j => floydStep id k i j) n 0 st) := by
    intro k i st hst hi
    have hloop := Loop.forFrom_outcome (f := fun j => floydStep id k i j) (Q := fun _ => False)
      (fun j => FloydInv E Cyc start id calls k
        fun a b => a < n ∧ b < n ∧ (a < i ∨ a = i ∧ b < j)) n 0 st ?_ ?_
    · refine hloop.imp fun st' hst' => hst'.congr fun a b => ?_
      omega
    · intro j t _ hj ht
      obtain ⟨t', ht', hinv⟩ := ht.step hcyc hstart i j
      simp only [ht', Loop.outcome_ok]
      refine hinv.congr fun a b => ?_
      omega
    · refine hst.congr fun a b => ?_
      omega
  have hround : ∀ k st, FloydInv E Cyc start id calls k (fun _ _ => False) st →
      Loop.Outcome (fun _ => False) (FloydInv E Cyc start id calls (k + 1) fun _ _ => False)
        (Loop.forFrom (fun i => Loop.forFrom (fun j => floydStep id k i j) n 0) n 0 st) := by
    intro k st hst
    have hloop := Loop.forFrom_outcome
      (f := fun i => Loop.forFrom (fun j => floydStep id k i j) n 0) (Q := fun _ => False)
      (fun i => FloydInv E Cyc start id calls k fun a b => a < n ∧ b < n ∧ a < i) n 0 st
      (fun i t _ hi ht => hrow k i t ht (by omega)) (hst.congr fun a b => by simp)
    refine hloop.imp fun st' hst' => FloydInv.next hcyc hbound (hst'.congr fun a b => ?_)
    omega
  have hloop := Loop.forFrom_outcome (f := fun k => Loop.forFrom
      (fun i => Loop.forFrom (fun j => floydStep id k i j) n 0) n 0) (Q := fun _ => False)
    (fun k => FloydInv E Cyc start id calls k fun _ _ => False) n 0 st
    (fun k t _ _ ht => hround k t ht) h
  rw [Nat.zero_add] at hloop
  exact hloop.exists_ok

end Floyd

/-! ## Components -/

namespace DepGraph

variable {g : DepGraph} {scc : List Nat}

/-- Dependences between members, by their places. -/
def MemberDep (g : DepGraph) (scc : List Nat) (a b : Nat) (c : Cost) : Prop :=
  ∃ x y, scc[a]? = some x ∧ scc[b]? = some y ∧ g.Dep x y c

/-- The cost of a cycle. -/
def Cycle (g : DepGraph) (c : Cost) : Prop := ∃ a vs, Walk g.Dep a vs a c

theorem getElem?_eq_some_iff_idxOf (hnd : scc.Nodup) {x a : Nat} (hx : x ∈ scc) :
    scc[a]? = some x ↔ a = scc.idxOf x := by
  have hlt := idxOf_lt_length_iff.mpr hx
  constructor
  · intro h
    obtain ⟨ha, hax⟩ := List.getElem?_eq_some_iff.mp h
    refine (@List.Nodup.getElem_inj_iff _ _ hnd _ ha _ hlt).mp ?_
    rw [hax, getElem_idxOf]
  · rintro rfl
    rw [getElem?_eq_getElem hlt, getElem_idxOf]

theorem directArc_spec {start : Int} {id op : Nat} {arc : Arc} {st : CostTable × MinII}
    (hpos : ∀ a vs c, Walk g.Dep a vs a c → 0 < c.omega) (hstart : 0 ≤ start) (hnd : scc.Nodup)
    (hop : op ∈ scc) (harc : arc ∈ g.succs op)
    (hmii : MiiOk g.Cycle start st.2.minII (st.2.recMii id))
    (hself : ∀ a, ∀ c ∈ st.1 a a, 0 < c.omega ∧ c.latency ≤ c.omega * st.2.minII) :
    ∃ st', g.directArc id scc op st arc = .ok st' ∧
      MiiOk g.Cycle start st'.2.minII (st'.2.recMii id) ∧
      (∀ a, ∀ c ∈ st'.1 a a, 0 < c.omega ∧ c.latency ≤ c.omega * st'.2.minII) ∧
      st'.2.sccCalls = st.2.sccCalls ∧ st.2.minII ≤ st'.2.minII ∧
      ∀ a b c, c ∈ st'.1 a b ↔ c ∈ st.1 a b ∨
        scc[a]? = some op ∧ scc[b]? = some arc.succ ∧ c = g.cost arc := by
  have hdep : g.Dep op arc.succ (g.cost arc) := ⟨arc, harc, rfl, rfl⟩
  unfold directArc
  by_cases hin : arc.succ ∈ scc
  · have hset : ∀ a b c, c ∈ st.1.set (scc.idxOf op) (scc.idxOf arc.succ)
            (st.1 (scc.idxOf op) (scc.idxOf arc.succ) ++ [g.cost arc]) a b ↔
          c ∈ st.1 a b ∨ scc[a]? = some op ∧ scc[b]? = some arc.succ ∧ c = g.cost arc := by
      intro a b c
      rw [getElem?_eq_some_iff_idxOf hnd hop, getElem?_eq_some_iff_idxOf hnd hin]
      by_cases heq : a = scc.idxOf op ∧ b = scc.idxOf arc.succ
      · obtain ⟨rfl, rfl⟩ := heq
        rw [CostTable.set_self]
        simp
      · rw [CostTable.set_other _ _ heq]
        simp only [← and_assoc]
        simp [heq]
    rw [if_pos hin]
    simp only
    by_cases hloop : arc.succ = op
    · rw [if_pos hloop]
      have hwalk : Walk g.Dep op [] op (g.cost arc) := by
        rw [hloop] at hdep
        exact .arc hdep
      have hω := hpos op [] _ hwalk
      obtain ⟨q, hq, hraise, hmax, hle⟩ := hmii.raise hstart ⟨op, [], hwalk⟩ hω
      have hq' : ceilingDivide (g.schedLatency arc) arc.omega.toNat = .ok q := hq
      simp only [hq']
      refine ⟨_, rfl, ?_, ?_, rfl, ?_, hset⟩
      · simp only [update_self, hmax]
        exact hraise
      · intro a c hc
        simp only [hmax]
        rcases (hset a a c).mp hc with hc | ⟨-, -, rfl⟩
        · obtain ⟨hω', hl⟩ := hself a c hc
          exact ⟨hω', hl.trans (mul_le_mul_of_nonneg_left (le_max_left _ _) hω'.le)⟩
        · exact ⟨hω, hle⟩
      · exact le_max_left _ _
    · rw [if_neg hloop]
      refine ⟨_, rfl, hmii, fun a c hc => ?_, rfl, le_rfl, hset⟩
      rcases (hset a a c).mp hc with hc | ⟨ha, ha', -⟩
      · exact hself a c hc
      · rw [ha] at ha'
        exact absurd (Option.some.inj ha').symm hloop
  · rw [if_neg hin]
    refine ⟨st, rfl, hmii, hself, rfl, le_rfl, fun a b c => ⟨.inl, fun hor => hor.resolve_right ?_⟩⟩
    rintro ⟨-, hb, -⟩
    exact hin (mem_of_getElem? hb)

/-- The table before the first pivot: one cost for each arc, self arcs closed at once. -/
theorem directCosts_spec {start : Int} {id : Nat}
    (hpos : ∀ a vs c, Walk g.Dep a vs a c → 0 < c.omega) (hstart : 0 ≤ start) (hnd : scc.Nodup)
    (hmii : MiiOk g.Cycle start s.minII (s.recMii id)) :
    ∃ st, g.directCosts id scc s = .ok st ∧ MiiOk g.Cycle start st.2.minII (st.2.recMii id) ∧
      (∀ a, ∀ c ∈ st.1 a a, 0 < c.omega ∧ c.latency ≤ c.omega * st.2.minII) ∧
      st.2.sccCalls = s.sccCalls ∧ s.minII ≤ st.2.minII ∧
      ∀ a b c, c ∈ st.1 a b ↔ g.MemberDep scc a b c := by
  have hinner : ∀ (op : Nat) (st : CostTable × MinII), op ∈ scc →
      MiiOk g.Cycle start st.2.minII (st.2.recMii id) →
      (∀ a, ∀ c ∈ st.1 a a, 0 < c.omega ∧ c.latency ≤ c.omega * st.2.minII) →
      Loop.Outcome (fun _ => False)
        (fun st' : CostTable × MinII => MiiOk g.Cycle start st'.2.minII (st'.2.recMii id) ∧
          (∀ a, ∀ c ∈ st'.1 a a, 0 < c.omega ∧ c.latency ≤ c.omega * st'.2.minII) ∧
          st'.2.sccCalls = st.2.sccCalls ∧ st.2.minII ≤ st'.2.minII ∧
          ∀ a b c, c ∈ st'.1 a b ↔ c ∈ st.1 a b ∨
            ∃ arc ∈ g.succs op, scc[a]? = some op ∧ scc[b]? = some arc.succ ∧ c = g.cost arc)
        ((g.succs op).foldlM (g.directArc id scc op) st) := by
    intro op st hop hmii hself
    refine Loop.foldlM_outcome_prefix (J := fun done (st' : CostTable × MinII) =>
      MiiOk g.Cycle start st'.2.minII (st'.2.recMii id) ∧
          (∀ a, ∀ c ∈ st'.1 a a, 0 < c.omega ∧ c.latency ≤ c.omega * st'.2.minII) ∧
          st'.2.sccCalls = st.2.sccCalls ∧ st.2.minII ≤ st'.2.minII ∧
          ∀ a b c, c ∈ st'.1 a b ↔ c ∈ st.1 a b ∨
            ∃ arc ∈ done, scc[a]? = some op ∧ scc[b]? = some arc.succ ∧ c = g.cost arc) ?_
      ⟨hmii, hself, rfl, le_rfl, fun a b c => by simp⟩
    rintro pre arc post t hsplit ⟨hmii, hself, harcs, hle, hmem⟩
    have harc : arc ∈ g.succs op := by
      rw [hsplit]
      simp
    obtain ⟨t', ht', hmii', hself', harcs', hle', hmem'⟩ :=
      directArc_spec hpos hstart hnd hop harc hmii hself
    rw [ht']
    refine ⟨hmii', hself', harcs'.trans harcs, hle.trans hle', fun a b c => ?_⟩
    rw [hmem', hmem]
    simp only [mem_append, mem_singleton]
    constructor
    · rintro ((hc | ⟨arc', h', heq⟩) | heq)
      · exact .inl hc
      · exact .inr ⟨arc', .inl h', heq⟩
      · exact .inr ⟨arc, .inr rfl, heq⟩
    · rintro (hc | ⟨arc', h' | rfl, heq⟩)
      · exact .inl (.inl hc)
      · exact .inl (.inr ⟨arc', h', heq⟩)
      · exact .inr heq
  -- the OPs of the component, by induction on those passed
  have houter := Loop.foldlM_outcome_prefix (l := scc) (s := ((fun _ _ => [] : CostTable), s))
    (f := fun st op => (g.succs op).foldlM (g.directArc id scc op) st) (Q := fun _ => False)
    (J := fun done (st : CostTable × MinII) =>
      MiiOk g.Cycle start st.2.minII (st.2.recMii id) ∧
        (∀ a, ∀ c ∈ st.1 a a, 0 < c.omega ∧ c.latency ≤ c.omega * st.2.minII) ∧
        st.2.sccCalls = s.sccCalls ∧ s.minII ≤ st.2.minII ∧
        ∀ a b c, c ∈ st.1 a b ↔ ∃ op ∈ done, ∃ arc ∈ g.succs op,
          scc[a]? = some op ∧ scc[b]? = some arc.succ ∧ c = g.cost arc) ?_
    ⟨hmii, fun a c hc => (by cases hc), rfl, le_rfl, fun a b c => by simp⟩
  · obtain ⟨st, hst, hmii', hself, harcs, hle, hmem⟩ := houter.exists_ok
    refine ⟨st, hst, hmii', hself, harcs, hle, fun a b c => ?_⟩
    rw [hmem]
    constructor
    · rintro ⟨op, -, arc, harc, ha, hb, rfl⟩
      exact ⟨op, arc.succ, ha, hb, arc, harc, rfl, rfl⟩
    · rintro ⟨x, y, ha, hb, arc, harc, rfl, rfl⟩
      exact ⟨x, mem_of_getElem? ha, arc, harc, ha, hb, rfl⟩
  · rintro pre op post t hsplit ⟨hmii, hself, harcs, hle, hmem⟩
    refine (hinner op t (by rw [hsplit]; simp) hmii hself).imp
      fun t' ⟨hmii', hself', harcs', hle', hmem'⟩ =>
        ⟨hmii', hself', harcs'.trans harcs, hle.trans hle', fun a b c => ?_⟩
    rw [hmem', hmem]
    simp only [mem_append, mem_singleton]
    constructor
    · rintro (⟨op', h', heq⟩ | heq)
      · exact ⟨op', .inl h', heq⟩
      · exact ⟨op, .inr rfl, heq⟩
    · rintro ⟨op', h' | rfl, heq⟩
      · exact .inl ⟨op', h', heq⟩
      · exact .inr heq

theorem memberDep_walk {a b : Nat} {vs : List Nat} {c : Cost}
    (h : Walk (g.MemberDep scc) a vs b c) :
    Walk g.Dep (scc.getD a 0) (vs.map fun v => scc.getD v 0) (scc.getD b 0) c := by
  refine h.map (f := fun v => scc.getD v 0) fun x _ y _ c ⟨x', y', hx, hy, hdep⟩ => ?_
  rwa [getD_eq_getElem?_getD, hx, getD_eq_getElem?_getD, hy]

theorem memberDep_bound {a b : Nat} {c : Cost} (h : g.MemberDep scc a b c) :
    a < scc.length ∧ b < scc.length := by
  obtain ⟨x, y, hx, hy, -⟩ := h
  exact ⟨(List.getElem?_eq_some_iff.mp hx).1, (List.getElem?_eq_some_iff.mp hy).1⟩

section

variable {a b : Nat} {vs : List Nat} {c : Cost}

theorem memberDep_bounds (h : Walk (g.MemberDep scc) a vs b c) :
    a < scc.length ∧ b < scc.length ∧ ∀ v ∈ vs, v < scc.length := by
  induction h with
  | arc he => exact ⟨(memberDep_bound he).1, (memberDep_bound he).2, fun v hv => by cases hv⟩
  | cons he _ ih =>
    refine ⟨(memberDep_bound he).1, ih.2.1, fun v hv => ?_⟩
    rcases mem_cons.mp hv with rfl | hv
    · exact ih.1
    · exact ih.2.2 v hv

theorem memberDep_simple (hnd : scc.Nodup)
    (h : Walk (g.MemberDep scc) a vs b c) (hs : Simple a vs b) :
    Simple (scc.getD a 0) (vs.map fun v => scc.getD v 0) (scc.getD b 0) := by
  obtain ⟨ha, hb, hvs⟩ := memberDep_bounds h
  obtain ⟨hn, hav, hbv⟩ := hs
  have hinj : ∀ {x y : Nat}, x < scc.length → y < scc.length →
      scc.getD x 0 = scc.getD y 0 → x = y := by
    intro x y hx hy heq
    rw [getD_eq_getElem _ _ hx, getD_eq_getElem _ _ hy] at heq
    exact hnd.getElem_inj_iff.mp heq
  have hnot : ∀ {x : Nat}, x < scc.length → x ∉ vs →
      scc.getD x 0 ∉ vs.map fun v => scc.getD v 0 := by
    intro x hx hxv hmem
    obtain ⟨v, hv, heq⟩ := mem_map.mp hmem
    exact hxv (hinj (hvs v hv) hx heq ▸ hv)
  exact ⟨List.Nodup.map_on (fun x hx y hy heq => hinj (hvs x hx) (hvs y hy) heq) hn,
    hnot ha hav, hnot hb hbv⟩

theorem walk_memberDep (hnd : scc.Nodup)
    (h : Walk g.Dep a vs b c) (ha : a ∈ scc) (hb : b ∈ scc) (hvs : ∀ v ∈ vs, v ∈ scc) :
    Walk (g.MemberDep scc) (scc.idxOf a) (vs.map fun v => scc.idxOf v) (scc.idxOf b) c := by
  refine h.map (f := fun v => scc.idxOf v) fun x hx y hy c hdep => ?_
  have hx' : x ∈ scc := by
    rcases mem_cons.mp hx with rfl | hx
    · exact ha
    · exact hvs x hx
  have hy' : y ∈ scc := by
    rcases mem_cons.mp hy with rfl | hy
    · exact hb
    · exact hvs y hy
  exact ⟨x, y, (getElem?_eq_some_iff_idxOf hnd hx').mpr rfl,
    (getElem?_eq_some_iff_idxOf hnd hy').mpr rfl, hdep⟩

end

end DepGraph

theorem mem_addSccArcs {scc : List Nat} {costs : CostTable} {calls : List SccCall}
    {call : SccCall} : call ∈ addSccArcs scc costs calls ↔ call ∈ calls ∨ ∃ i ∈ scc, ∃ j ∈ scc,
      ∃ c ∈ costs (scc.idxOf i) (scc.idxOf j), call = ⟨i, j, c⟩ := by
  have hfold : ∀ {α : Type} (f : List SccCall → α → List SccCall) (P : α → Prop) (l : List α),
      (∀ a calls, call ∈ f calls a ↔ call ∈ calls ∨ P a) →
      ∀ calls, call ∈ l.foldl f calls ↔ call ∈ calls ∨ ∃ a ∈ l, P a := by
    intro α f P l hf
    induction l with
    | nil => simp
    | cons a l ih =>
      intro calls
      rw [foldl_cons, ih, hf]
      simp [or_assoc]
  have hcosts : ∀ i j calls, call ∈ (costs (scc.idxOf i) (scc.idxOf j)).foldl
      (fun calls c => ⟨i, j, c⟩ :: calls) calls ↔
        call ∈ calls ∨ ∃ c ∈ costs (scc.idxOf i) (scc.idxOf j), call = ⟨i, j, c⟩ :=
    fun i j calls => hfold _ (fun c => call = ⟨i, j, c⟩) _
      (fun c calls => by rw [mem_cons, or_comm]) calls
  unfold addSccArcs
  refine hfold _ (fun i => ∃ j ∈ scc, ∃ c ∈ costs (scc.idxOf i) (scc.idxOf j), call = ⟨i, j, c⟩) _
    (fun i calls => ?_) calls
  exact hfold _ (fun j => ∃ c ∈ costs (scc.idxOf i) (scc.idxOf j), call = ⟨i, j, c⟩) _
    (fun j calls => hcosts i j calls) calls

namespace LoopDeps

variable {g : LoopDeps} {scc : List Nat}

theorem walk_mem (hscc : scc ∈ g.sccs) {a b : Nat} {vs : List Nat} {c : Cost} (ha : a ∈ scc)
    (hb : b ∈ scc) (h : Walk g.Dep a vs b c) : ∀ v ∈ vs, v ∈ scc := by
  intro v hv
  obtain ⟨us, ws, rfl⟩ := append_of_mem hv
  obtain ⟨c1, c2, h1, h2, -⟩ := h.split
  by_cases hab : b = a
  · subst hab
    exact g.maximal scc hscc b ha v us c1 ws c2 h1 h2
  · obtain ⟨xs, d, hback⟩ := g.conn scc hscc b hb a ha hab
    exact g.maximal scc hscc a ha v us c1 _ _ h1 (h2.append hback)

theorem nodup_scc (hscc : scc ∈ g.sccs) : scc.Nodup :=
  (nodup_flatten.mp g.nodup).1 scc hscc

/-- The costs that are passed on are those of simple paths, and no path is better from `m` on. -/
def Recorded (g : LoopDeps) (scc : List Nat) (m : Int) (calls : List SccCall) : Prop :=
  ∀ i ∈ scc, ∀ j ∈ scc,
    (∀ c, ⟨i, j, c⟩ ∈ calls → ∃ vs, Walk g.Dep i vs j c ∧ Simple i vs j) ∧
    ∀ vs c, Walk g.Dep i vs j c → ∃ d, ⟨i, j, d⟩ ∈ calls ∧ Below m c d

/-- A component of several OPs: after its all-pairs loop the bound covers all its cycles. -/
theorem componentMaxCosts_spec {id : Nat}
    (hpos : ∀ a vs c, Walk g.Dep a vs a c → 0 < c.omega) (hscc : scc ∈ g.sccs)
    (hstart : 0 ≤ s.minII) (hrec : s.recMii id ≤ s.minII)
    (hnew : ∀ call ∈ s.sccCalls, call.ancestor ∉ scc) : ∃ s', g.componentMaxCosts id scc s = .ok s' ∧
      MiiOk g.Cycle s.minII s'.minII (s'.recMii id) ∧ g.Recorded scc s'.minII s'.sccCalls ∧
      (∀ a ∈ scc, ∀ vs c, Walk g.Dep a vs a c → c.latency ≤ c.omega * s'.minII) ∧
      (∀ call : SccCall, call.ancestor ∉ scc → (call ∈ s'.sccCalls ↔ call ∈ s.sccCalls)) := by
  have hnd := g.nodup_scc hscc
  obtain ⟨st, hst, hmii, hself, harcs, hle, hmem⟩ :=
    DepGraph.directCosts_spec hpos hstart hnd ⟨le_rfl, .inl rfl, hrec⟩
  -- a closed walk within the component is a cycle of the graph
  have hcyc : ∀ a vs c, Walk (g.MemberDep scc) a vs a c → g.Cycle c ∧ 0 < c.omega := by
    intro a vs c hw
    have hw' := DepGraph.memberDep_walk hw
    exact ⟨⟨_, _, hw'⟩, hpos _ _ _ hw'⟩
  -- before the first pivot there are the arcs alone
  have hinit : FloydInv (g.MemberDep scc) g.Cycle s.minII id s.sccCalls 0 (fun _ _ => False) st := by
    refine ⟨hmii, harcs, fun a b c hc => ?_, fun a b vs c hw hvs => ?_, fun _ _ hf => hf.elim,
      fun a c hc => (hself a c hc).2, fun v _ _ _ _ hv => absurd hv (Nat.not_lt_zero v),
      fun _ _ hf => hf.elim⟩
    · exact ⟨[], .arc ((hmem a b c).mp hc),
        ⟨nodup_nil, not_mem_nil, not_mem_nil⟩, fun v hv => by cases hv⟩
    · cases hw with
      | arc he => exact ⟨c, (hmem a b c).mpr he, (below_order _).refl c⟩
      | cons _ _ => exact absurd (hvs _ mem_cons_self) (Nat.not_lt_zero _)
  obtain ⟨⟨costs, t⟩, ht, hinv⟩ :=
    floyd_spec hcyc (fun _ _ _ h => DepGraph.memberDep_bound h) hstart hinit
  -- every walk lies below one of the costs recorded
  have hcover : ∀ i ∈ scc, ∀ j ∈ scc, ∀ vs c, Walk g.Dep i vs j c →
      ∃ d ∈ costs (scc.idxOf i) (scc.idxOf j), Below t.minII c d := by
    intro i hi j hj vs c hw
    have hw' := DepGraph.walk_memberDep hnd hw hi hj (walk_mem hscc hi hj hw)
    exact hinv.cover _ _ _ _ hw' (DepGraph.memberDep_bounds hw').2.2
  have hcalls : ∀ {i j : Nat}, i ∈ scc → j ∈ scc → ∀ c : Cost,
      ⟨i, j, c⟩ ∈ addSccArcs scc costs t.sccCalls ↔ c ∈ costs (scc.idxOf i) (scc.idxOf j) := by
    intro i j hi hj c
    rw [mem_addSccArcs, show t.sccCalls = s.sccCalls from hinv.calls]
    constructor
    · rintro (hcall | ⟨i', hi', j', hj', c', hc, heq⟩)
      · exact absurd hi (hnew _ hcall)
      · cases heq
        exact hc
    · exact fun hc => .inr ⟨i, hi, j, hj, c, hc, rfl⟩
  refine ⟨{ t with sccCalls := addSccArcs scc costs t.sccCalls }, ?_, hinv.mii,
    fun i hi j hj => ⟨fun c hc => ?_, fun vs c hw => ?_⟩, fun a ha vs c hw => ?_,
    fun call hanc => ?_⟩
  · unfold DepGraph.componentMaxCosts
    simp only [hst]
    change (floyd id scc.length st >>= _) = _
    rw [ht]
    rfl
  · obtain ⟨vs, hw, hs, -⟩ := hinv.sound _ _ c ((hcalls hi hj c).mp hc)
    have hat : ∀ {x : Nat}, x ∈ scc → scc.getD (scc.idxOf x) 0 = x := by
      intro x hx
      rw [getD_eq_getElem _ _ (idxOf_lt_length_iff.mpr hx), getElem_idxOf]
    have hw' := DepGraph.memberDep_walk hw
    have hs' := DepGraph.memberDep_simple hnd hw hs
    rw [hat hi, hat hj] at hw' hs'
    exact ⟨_, hw', hs'⟩
  · obtain ⟨d, hd, hbelow⟩ := hcover i hi j hj vs c hw
    exact ⟨d, (hcalls hi hj d).mpr hd, hbelow⟩
  · obtain ⟨d, hd, hω, hl⟩ := hcover a ha a ha vs c hw
    have hd' := hinv.self _ d hd
    change c.latency ≤ c.omega * t.minII
    linarith
  · rw [mem_addSccArcs, show t.sccCalls = s.sccCalls from hinv.calls]
    refine ⟨fun hor => hor.resolve_right ?_, .inl⟩
    rintro ⟨i, hi, j, -, c, -, rfl⟩
    exact hanc hi

/-- A component of one OP: its self arcs are its cycles. -/
theorem selfRecurrence_spec {id self : Nat}
    (hpos : ∀ a vs c, Walk g.Dep a vs a c → 0 < c.omega) (hloh : ∀ op, g.loh op = false)
    (hscc : [self] ∈ g.sccs) (hstart : 0 ≤ s.minII) (hrec : s.recMii id ≤ s.minII) :
    ∃ s', g.selfRecurrence false id [self] s = .ok s' ∧
      MiiOk g.Cycle s.minII s'.minII (s'.recMii id) ∧ s'.sccCalls = s.sccCalls ∧
      ∀ vs c, Walk g.Dep self vs self c → c.latency ≤ c.omega * s'.minII := by
  unfold DepGraph.selfRecurrence
  simp only [getD_cons_zero, hloh, Bool.false_eq_true, if_false, Bool.not_false,
    Bool.true_or, and_true]
  have hloop := Loop.foldlM_outcome_prefix (l := g.succs self) (s := s) (Q := fun _ => False)
    (f := fun (s : MinII) arc =>
      if arc.succ = self then do
        let mii ← ceilingDivide (g.schedLatency arc) arc.omega.toNat
        let recMii := max (s.recMii id) mii
        .ok { s with
          minII := max s.minII recMii
          recMinII := max s.recMinII recMii
          recMii := update s.recMii id recMii }
      else .ok s)
    (J := fun done (t : MinII) => MiiOk g.Cycle s.minII t.minII (t.recMii id) ∧
      t.sccCalls = s.sccCalls ∧ ∀ arc ∈ done, arc.succ = self →
        0 < (g.cost arc).omega ∧ (g.cost arc).latency ≤ (g.cost arc).omega * t.minII) ?_
    ⟨⟨le_rfl, .inl rfl, hrec⟩, rfl, fun arc harc => by cases harc⟩
  · obtain ⟨t, ht, hmii, harcs, hall⟩ := hloop.exists_ok
    refine ⟨t, ht, hmii, harcs, fun vs c hw => ?_⟩
    -- all steps are arcs of the op to itself
    have hgen : ∀ {a b : Nat} {vs : List Nat} {c : Cost}, Walk g.Dep a vs b c → a = self →
        b = self → (∀ v ∈ vs, v = self) → c.latency ≤ c.omega * t.minII := by
      intro a b vs c hw
      induction hw with
      | arc he =>
        rintro rfl rfl _
        obtain ⟨arc, harc, hsucc, rfl⟩ := he
        exact (hall arc harc hsucc).2
      | cons he _ ih =>
        rintro rfl rfl hvs
        obtain ⟨arc, harc, hsucc, rfl⟩ := he
        have hx := hvs _ mem_cons_self
        have h1 := (hall arc harc (hsucc.trans hx)).2
        have h2 := ih hx rfl fun v hv => hvs v (mem_cons_of_mem _ hv)
        rw [add_latency, add_omega]
        linarith
    have hmem := walk_mem hscc (mem_singleton_self self) (mem_singleton_self self) hw
    exact hgen hw rfl rfl fun v hv => mem_singleton.mp (hmem v hv)
  · rintro pre arc post t hsplit ⟨hmii, harcs, hdone⟩
    have harc : arc ∈ g.succs self := by
      rw [hsplit]
      simp
    by_cases hsucc : arc.succ = self
    · simp only [hsucc, if_true]
      have hwalk : Walk g.Dep self [] self (g.cost arc) := .arc ⟨arc, harc, hsucc, rfl⟩
      have hω := hpos self [] _ hwalk
      obtain ⟨q, hq, hraise, hmax, hle⟩ := hmii.raise hstart ⟨self, [], hwalk⟩ hω
      have hq' : ceilingDivide (g.schedLatency arc) arc.omega.toNat = .ok q := hq
      simp only [hq']
      refine ⟨?_, harcs, fun arc' harc' hsucc' => ?_⟩
      · simp only [update_self, hmax]
        exact hraise
      · simp only [hmax]
        rcases mem_append.mp harc' with harc' | harc'
        · obtain ⟨hω', hl⟩ := hdone arc' harc' hsucc'
          exact ⟨hω', hl.trans (mul_le_mul_of_nonneg_left (le_max_left _ _) hω'.le)⟩
        · rw [mem_singleton.mp harc']
          exact ⟨hω, hle⟩
    · simp only [hsucc, if_false]
      refine ⟨hmii, harcs, fun arc' harc' hsucc' => ?_⟩
      rcases mem_append.mp harc' with harc' | harc'
      · exact hdone arc' harc' hsucc'
      · rw [mem_singleton.mp harc'] at hsucc'
        exact absurd hsucc' hsucc

theorem Recorded.mono {m m' : Int} {calls calls' : List SccCall} (h : g.Recorded scc m calls)
    (hm : m ≤ m')
    (hcalls : ∀ call : SccCall, call.ancestor ∈ scc → (call ∈ calls' ↔ call ∈ calls)) :
    g.Recorded scc m' calls' := by
  intro i hi j hj
  obtain ⟨hsimple, hcover⟩ := h i hi j hj
  refine ⟨fun c hc => hsimple c ((hcalls _ hi).mp hc), fun vs c hw => ?_⟩
  obtain ⟨d, hd, hbelow⟩ := hcover vs c hw
  exact ⟨d, (hcalls _ hi).mpr hd, hbelow.mono hm⟩

/-! ## The run over the components -/

/-- When the components in `done` have been gone through. -/
structure RunInv (g : LoopDeps) (start : Int) (done : List (List Nat)) (s : MinII) : Prop where
  ge : start ≤ s.minII
  src : s.minII = start ∨ ∃ c, g.Cycle c ∧ s.minII = c.ii
  cycles : ∀ scc ∈ done, ∀ a ∈ scc, ∀ vs c, Walk g.Dep a vs a c → c.latency ≤ c.omega * s.minII
  recorded : ∀ scc ∈ done, 1 < scc.length → g.Recorded scc s.minII s.sccCalls
  anc : ∀ call ∈ s.sccCalls, ∃ scc ∈ done, call.ancestor ∈ scc

theorem RunInv.next {start : Int} {done : List (List Nat)} {s' : MinII} {recMii : Int}
    (hpos : ∀ a vs c, Walk g.Dep a vs a c → 0 < c.omega) (h : g.RunInv start done s)
    (hdisj : ∀ scc' ∈ done, List.Disjoint scc' scc) (hmii : MiiOk g.Cycle s.minII s'.minII recMii)
    (hcycles : ∀ a ∈ scc, ∀ vs c, Walk g.Dep a vs a c → c.latency ≤ c.omega * s'.minII)
    (hrec : 1 < scc.length → g.Recorded scc s'.minII s'.sccCalls)
    (hcalls : ∀ call : SccCall, call.ancestor ∉ scc →
      (call ∈ s'.sccCalls ↔ call ∈ s.sccCalls)) :
    g.RunInv start (done ++ [scc]) s' := by
  refine ⟨h.ge.trans hmii.ge, ?_, fun scc' hscc' a ha vs c hw => ?_, fun scc' hscc' hlen => ?_,
    fun arc harc => ?_⟩
  · rcases hmii.src with heq | hcyc
    · rw [heq]
      exact h.src
    · exact .inr hcyc
  · rcases mem_append.mp hscc' with hold | hnew
    · exact (h.cycles scc' hold a ha vs c hw).trans
        (mul_le_mul_of_nonneg_left hmii.ge (hpos _ _ _ hw).le)
    · obtain rfl := mem_singleton.mp hnew
      exact hcycles a ha vs c hw
  · rcases mem_append.mp hscc' with hold | hnew
    · exact (h.recorded scc' hold hlen).mono hmii.ge fun arc hanc =>
        hcalls arc (hdisj scc' hold hanc)
    · obtain rfl := mem_singleton.mp hnew
      exact hrec hlen
  · by_cases hanc : arc.ancestor ∈ scc
    · exact ⟨scc, by simp, hanc⟩
    · obtain ⟨scc', hscc', hmem⟩ := h.anc arc ((hcalls arc hanc).mp harc)
      exact ⟨scc', by simp [hscc'], hmem⟩

/-- The loop over the components, by the run invariant: the bound covers the cycles of the
components passed. -/
theorem calculateMinRecurrenceII_runInv
    (hpos : ∀ a vs c, Walk g.Dep a vs a c → 0 < c.omega) (hloh : ∀ op, g.loh op = false)
    (hstart : 0 ≤ s.minII) (hempty : s.sccCalls = []) :
    ∃ s', g.calculateMinRecurrenceII false s = .ok s' ∧ g.RunInv s.minII g.sccs s' := by
  unfold DepGraph.calculateMinRecurrenceII
  have hrun := Loop.foldlM_outcome_prefix (l := g.sccs.zipIdx) (s := s) (Q := fun _ => False)
    (f := fun (s : MinII) (p : List Nat × Nat) =>
      let s := { s with recMii := update s.recMii p.2 0 }
      if 1 < p.1.length then g.componentMaxCosts p.2 p.1 s
      else g.selfRecurrence false p.2 p.1 s)
    (J := fun done t => g.RunInv s.minII (done.map Prod.fst) t) ?_ ?_
  · obtain ⟨s', hs', hinv⟩ := hrun.exists_ok
    rw [zipIdx_map_fst] at hinv
    exact ⟨s', hs', hinv⟩
  · rintro pre ⟨scc, id⟩ post t hsplit hinv
    have hsccs : g.sccs = pre.map Prod.fst ++ scc :: post.map Prod.fst := by
      have hmap := congrArg (map Prod.fst) hsplit
      simpa [zipIdx_map_fst] using hmap
    have hscc : scc ∈ g.sccs := by
      rw [hsccs]
      simp
    have hdisj : ∀ scc' ∈ pre.map Prod.fst, List.Disjoint scc' scc := by
      have hpair := (nodup_flatten.mp g.nodup).2
      rw [hsccs, pairwise_append] at hpair
      exact fun scc' hscc' => hpair.2.2 scc' hscc' scc mem_cons_self
    have ht : 0 ≤ t.minII := hstart.trans hinv.ge
    have hreset : update t.recMii id 0 id ≤ t.minII := by
      rwa [update_self]
    have hinv' : g.RunInv s.minII (pre.map Prod.fst) { t with recMii := update t.recMii id 0 } :=
      ⟨hinv.ge, hinv.src, hinv.cycles, hinv.recorded, hinv.anc⟩
    rw [map_append]
    simp only
    split
    · rename_i hlen
      have hnew : ∀ call ∈ t.sccCalls, call.ancestor ∉ scc := by
        intro arc harc hmem
        obtain ⟨scc', hscc', hanc⟩ := hinv.anc arc harc
        exact hdisj scc' hscc' hanc hmem
      obtain ⟨t', ht', hmii, hrec, hcycles, harcs⟩ := componentMaxCosts_spec
        (s := { t with recMii := update t.recMii id 0 }) hpos hscc ht hreset hnew
      rw [ht']
      exact hinv'.next hpos hdisj hmii hcycles (fun _ => hrec) harcs
    · rename_i hlen
      obtain ⟨self, rfl⟩ : ∃ self, scc = [self] := by
        have hpos := length_pos_iff.mpr (g.nonempty scc hscc)
        exact length_eq_one_iff.mp (by omega)
      obtain ⟨t', ht', hmii, harcs, hcycles⟩ := selfRecurrence_spec
        (s := { t with recMii := update t.recMii id 0 }) hpos hloh hscc ht hreset
      rw [ht']
      refine hinv'.next hpos hdisj hmii (fun a ha vs c hw => ?_) (fun h => absurd h hlen)
        fun arc _ => by rw [harcs]
      obtain rfl := mem_singleton.mp ha
      exact hcycles vs c hw
  · refine ⟨le_rfl, .inl rfl, fun scc hscc => (by cases hscc), fun scc hscc => (by cases hscc),
      fun arc harc => ?_⟩
    rw [hempty] at harc
    cases harc

theorem RunInv.isGreatest {start : Int}
    (hpos : ∀ a vs c, Walk g.Dep a vs a c → 0 < c.omega) (h : g.RunInv start g.sccs s) :
    IsGreatest ({start} ∪ {m | ∃ c, g.Cycle c ∧ m = c.ii}) s.minII := by
  refine ⟨h.src.imp id id, ?_⟩
  rintro m (rfl | ⟨c, ⟨a, vs, hw⟩, rfl⟩)
  · exact h.ge
  · have ha : a ∈ g.sccs.flatten := by
      cases hw with
      | arc he =>
        obtain ⟨arc, harc, -⟩ := he
        exact g.body a arc harc
      | cons he _ =>
        obtain ⟨arc, harc, -⟩ := he
        exact g.body a arc harc
    obtain ⟨scc, hscc, ha⟩ := mem_flatten.mp ha
    have hle := h.cycles scc hscc a ha vs c hw
    have hω : (0 : ℚ) < c.omega := by exact_mod_cast hpos a vs c hw
    unfold Cost.ii
    rw [ceil_le, div_le_iff₀ hω]
    have hle' : (c.latency : ℚ) ≤ c.omega * s.minII := by exact_mod_cast hle
    linarith

/-! ## The arcs that are recorded -/

/-- The arcs stand for all dependence paths at every interval from `minII` on. -/
def ArcsExact (g : LoopDeps) (s : MinII) : Prop :=
  ∀ scc ∈ g.sccs, 1 < scc.length → ∀ i ∈ scc, ∀ j ∈ scc, ∀ ii, s.minII ≤ ii → ∃ m,
    IsGreatest {v | ∃ arc ∈ s.sccArcs, arc.ancestor = i ∧ arc.descendent = j ∧
      v = arc.value ii} m ∧
    IsGreatest {v | ∃ vs c, Walk g.Dep i vs j c ∧ v = c.value ii} m

/-- No call has to record a cost that an arc does not hold. -/
def CallsFit (g : LoopDeps) (s : MinII) : Prop :=
  ∀ scc ∈ g.sccs, 1 < scc.length → ∀ i ∈ scc, ∀ j ∈ scc, ∀ c, ⟨i, j, c⟩ ∈ s.sccCalls → c.Fits

/-- No simple path inside a component has such a cost. -/
def PathsFit (g : LoopDeps) : Prop :=
  ∀ scc ∈ g.sccs, 1 < scc.length → ∀ i ∈ scc, ∀ j ∈ scc, ∀ vs c, Walk g.Dep i vs j c →
    Simple i vs j → c.Fits

/-- Of the costs that the calls for a pair get, the greatest is kept when they are narrowed. -/
def NarrowingExact (g : LoopDeps) (s : MinII) : Prop :=
  ∀ scc ∈ g.sccs, 1 < scc.length → ∀ i ∈ scc, ∀ j ∈ scc, ∀ ii, s.minII ≤ ii → ∃ m,
    IsGreatest {v | ∃ c, ⟨i, j, c⟩ ∈ s.sccCalls ∧ v = (SccCall.mk i j c).arc.value ii} m ∧
    IsGreatest {v | ∃ c, ⟨i, j, c⟩ ∈ s.sccCalls ∧ v = c.value ii} m

theorem walk_omega_nonneg {a b : Nat} {vs : List Nat} {c : Cost} (h : Walk g.Dep a vs b c) :
    0 ≤ c.omega := by
  induction h with
  | arc he =>
    obtain ⟨arc, -, -, rfl⟩ := he
    exact natCast_nonneg _
  | cons he _ ih =>
    obtain ⟨arc, -, -, rfl⟩ := he
    exact add_nonneg (natCast_nonneg _) ih

theorem exists_walk (hscc : scc ∈ g.sccs) (hlen : 1 < scc.length) {i : Nat} (hi : i ∈ scc)
    (hj : j ∈ scc) : ∃ vs c, Walk g.Dep i vs j c := by
  by_cases hij : i = j
  · subst hij
    obtain ⟨k, hk, hki⟩ : ∃ k ∈ scc, k ≠ i := by
      by_contra hall
      push Not at hall
      have hle := (g.nodup_scc hscc).length_le_of_subset
        fun k hk => mem_singleton.mpr (hall k hk)
      rw [length_singleton] at hle
      omega
    obtain ⟨vs, c, hw⟩ := g.conn scc hscc i hi k hk hki.symm
    obtain ⟨vs', c', hw'⟩ := g.conn scc hscc k hk i hi hki
    exact ⟨_, _, hw.append hw'⟩
  · exact g.conn scc hscc i hi j hj hij

section Calls

variable {start : Int} {i : Nat} (h : g.RunInv start g.sccs s)
include h

/-- A best call is a best path. -/
theorem RunInv.exists_best (hscc : scc ∈ g.sccs) (hlen : 1 < scc.length) (hi : i ∈ scc)
    (hj : j ∈ scc) {ii : Int} (hii : s.minII ≤ ii) : ∃ c,
      IsGreatest {v | ∃ c, ⟨i, j, c⟩ ∈ s.sccCalls ∧ v = c.value ii} (c.value ii) ∧
      IsGreatest {v | ∃ vs c, Walk g.Dep i vs j c ∧ v = c.value ii} (c.value ii) ∧
      ⟨i, j, c⟩ ∈ s.sccCalls := by
  obtain ⟨hsimple, hcover⟩ := h.recorded scc hscc hlen i hi j hj
  obtain ⟨vs, c0, hw⟩ := exists_walk hscc hlen hi hj
  obtain ⟨d0, hd0, -⟩ := hcover vs c0 hw
  obtain ⟨call, hcall, hmax⟩ :=
    (s.sccCalls.toFinset.filter fun call => call.ancestor = i ∧ call.descendent = j).exists_max_image
      (fun call => call.cost.value ii) ⟨⟨i, j, d0⟩, by simp [hd0]⟩
  obtain ⟨i', j', c⟩ := call
  rw [Finset.mem_filter, mem_toFinset] at hcall
  obtain ⟨hc, rfl, rfl⟩ := hcall
  have hbest : ∀ d, ⟨i', j', d⟩ ∈ s.sccCalls → d.value ii ≤ c.value ii := fun d hd =>
    hmax ⟨i', j', d⟩ (by simp [hd])
  obtain ⟨us, hus, -⟩ := hsimple c hc
  refine ⟨c, ⟨⟨c, hc, rfl⟩, ?_⟩, ⟨⟨us, c, hus, rfl⟩, ?_⟩, hc⟩
  · rintro v ⟨d, hd, rfl⟩
    exact hbest d hd
  · rintro v ⟨vs, d, hwd, rfl⟩
    obtain ⟨e, he, hbelow⟩ := hcover vs d hwd
    exact (hbelow.value hii).trans (hbest e he)

omit h in
theorem arcs_of_pair (ii : Int) : {v | ∃ arc ∈ s.sccArcs, arc.ancestor = i ∧ arc.descendent = j ∧
      v = arc.value ii} =
    {v | ∃ c, ⟨i, j, c⟩ ∈ s.sccCalls ∧ v = (SccCall.mk i j c).arc.value ii} := by
  ext v
  constructor
  · rintro ⟨arc, harc, rfl, rfl, rfl⟩
    obtain ⟨⟨i, j, c⟩, hcall, rfl⟩ := mem_map.mp harc
    exact ⟨c, hcall, rfl⟩
  · rintro ⟨c, hcall, rfl⟩
    exact ⟨_, mem_map_of_mem hcall, rfl, rfl, rfl⟩

/-- The paths are in the calls; what may be lost is lost in the fields of the arcs. -/
theorem RunInv.arcsExact_iff : g.ArcsExact s ↔ g.NarrowingExact s := by
  refine forall₄_congr fun scc hscc hlen i => forall₅_congr fun hi j hj ii hii => ?_
  obtain ⟨c, hcalls, hpaths, -⟩ := h.exists_best hscc hlen hi hj hii
  rw [arcs_of_pair]
  refine exists_congr fun m => and_congr_right fun _ => ⟨fun hm => ?_, fun hm => ?_⟩
  · rwa [hm.unique hpaths]
  · rwa [hm.unique hcalls]

omit h in
theorem value_arc {c : Cost} (hc : c.Fits) (hω : 0 ≤ c.omega) (ii : Int) :
    (SccCall.mk i j c).arc.value ii = c.value ii := by
  obtain ⟨hω', hlo, hhi⟩ := hc
  have hlatency : (BitVec.ofInt 16 c.latency).toInt = c.latency := by
    rw [BitVec.toInt_ofInt]
    exact bmod_eq_of_le (by omega) (by omega)
  have homega : ((BitVec.ofInt 8 c.omega).toNat : Int) = c.omega := by
    have hmod : c.omega % ((2 ^ 8 : Nat) : Int) = c.omega := emod_eq_of_lt hω (by norm_num; exact hω')
    rw [BitVec.toNat_ofInt, hmod]
    exact toNat_of_nonneg hω
  unfold SccArc.value SccCall.arc Cost.value
  rw [hlatency, homega]

theorem RunInv.narrowingExact (hfit : g.CallsFit s) : g.NarrowingExact s := by
  intro scc hscc hlen i hi j hj ii hii
  obtain ⟨c, hcalls, -⟩ := h.exists_best hscc hlen hi hj hii
  refine ⟨_, ?_, hcalls⟩
  convert hcalls using 1
  ext v
  refine exists_congr fun d => and_congr_right fun hd => ?_
  obtain ⟨vs, hw, -⟩ := (h.recorded scc hscc hlen i hi j hj).1 d hd
  rw [value_arc (hfit scc hscc hlen i hi j hj d hd) (walk_omega_nonneg hw)]

theorem RunInv.callsFit (hfit : g.PathsFit) : g.CallsFit s := by
  intro scc hscc hlen i hi j hj c hc
  obtain ⟨vs, hw, hsimple⟩ := (h.recorded scc hscc hlen i hi j hj).1 c hc
  exact hfit scc hscc hlen i hi j hj vs c hw hsimple

/-- Where all paths between two members are longer than an arc can say, the arcs are wrong. -/
theorem RunInv.not_arcsExact (hscc : scc ∈ g.sccs) (hlen : 1 < scc.length) (hi : i ∈ scc)
    (hj : j ∈ scc) (hlong : ∀ vs c, Walk g.Dep i vs j c → 256 ≤ c.omega) : ¬ g.ArcsExact s := by
  intro hexact
  obtain ⟨hsimple, -⟩ := h.recorded scc hscc hlen i hi j hj
  -- an interval at which the greatest latency loses against one iteration
  obtain ⟨L, hL⟩ : ∃ L : Int, ∀ call ∈ s.sccCalls, call.cost.latency ≤ L := by
    obtain ⟨L, hL⟩ := (s.sccCalls.map fun call => call.cost.latency).toFinset.bddAbove
    refine ⟨L, fun call hcall => hL ?_⟩
    rw [coe_toFinset]
    exact mem_map.mpr ⟨call, hcall, rfl⟩
  let ii := max (max s.minII 0) (L + 32768 + 1)
  have hs : s.minII ≤ ii := (le_max_left _ _).trans (le_max_left _ _)
  have hii : 0 ≤ ii := (le_max_right s.minII 0).trans (le_max_left _ _)
  have hiiL : L + 32768 + 1 ≤ ii := le_max_right _ _
  obtain ⟨m, harcs, hpaths⟩ := hexact scc hscc hlen i hi j hj ii hs
  obtain ⟨c, -, hgreatest, hc⟩ := h.exists_best hscc hlen hi hj hs
  obtain ⟨us, hw, -⟩ := hsimple c hc
  have hle := harcs.2 ⟨_, mem_map_of_mem hc, rfl, rfl, rfl⟩
  rw [hpaths.unique hgreatest] at hle
  generalize (SccCall.mk i j c).arc = arc at hle
  have hω : (arc.omega.toNat : Int) ≤ 255 := by
    have := arc.omega.isLt
    omega
  have hlat : -32768 ≤ arc.latency.toInt := by
    have := arc.latency.le_toInt
    simpa using this
  have hlong' := mul_le_mul_of_nonneg_left (hlong us c hw) hii
  have hω' := mul_le_mul_of_nonneg_left hω hii
  have hcL : c.latency ≤ L := hL _ hc
  unfold SccArc.value Cost.value at hle
  omega

end Calls

end LoopDeps

/-! ## Eight ops in a ring -/

/-- Every op depends on the one before it. -/
def ringGraph (omega : BitVec 8) (latency : BitVec 16) : DepGraph where
  succs a := if a < 8 then [⟨(a + 1) % 8, omega, latency, false, false, false⟩] else []
  sccs := [range 8]
  loh _ := false
  sameCycleBranchShadow := false

section Ring

variable {omega : BitVec 8} {latency : BitVec 16}

theorem ringGraph_dep {a b : Nat} {c : Cost} : (ringGraph omega latency).Dep a b c ↔
      a < 8 ∧ b = (a + 1) % 8 ∧ c = ⟨latency.toInt, omega.toNat⟩ := by
  unfold DepGraph.Dep ringGraph
  simp only
  split
  · rename_i ha
    simp only [mem_singleton, exists_eq_left, ha, true_and]
    exact and_congr_left' eq_comm
  · rename_i ha
    simp [ha]

theorem ringGraph_walk {a b : Nat} {vs : List Nat} {c : Cost}
    (h : Walk (ringGraph omega latency).Dep a vs b c) :
    a < 8 ∧ b = (a + vs.length + 1) % 8 ∧ (∀ v ∈ vs, v < 8) ∧
      c = ⟨(vs.length + 1) * latency.toInt, (vs.length + 1) * omega.toNat⟩ := by
  induction h with
  | arc he =>
    obtain ⟨ha, hb, rfl⟩ := ringGraph_dep.mp he
    exact ⟨ha, hb, fun v hv => (by cases hv), by simp⟩
  | cons he _ ih =>
    obtain ⟨ha, rfl, rfl⟩ := ringGraph_dep.mp he
    obtain ⟨hx, hb, hvs, rfl⟩ := ih
    refine ⟨ha, ?_, fun v hv => ?_, ?_⟩
    · rw [length_cons]
      omega
    · rcases mem_cons.mp hv with rfl | hv
      · exact hx
      · exact hvs v hv
    · ext
      · simp only [add_latency, length_cons, Nat.cast_add, Nat.cast_one]
        ring
      · simp only [add_omega, length_cons, Nat.cast_add, Nat.cast_one]
        ring

theorem ringGraph_exists_walk {a : Nat} (ha : a < 8) (n : Nat) :
    ∃ vs c, Walk (ringGraph omega latency).Dep a vs ((a + n + 1) % 8) c := by
  induction n generalizing a with
  | zero => exact ⟨[], _, .arc (ringGraph_dep.mpr ⟨ha, rfl, rfl⟩)⟩
  | succ n ih =>
    obtain ⟨vs, c, hw⟩ := ih (a := (a + 1) % 8) (Nat.mod_lt _ (by norm_num))
    rw [show ((a + 1) % 8 + n + 1) % 8 = (a + (n + 1) + 1) % 8 by omega] at hw
    exact ⟨_, _, .cons (ringGraph_dep.mpr ⟨ha, rfl, rfl⟩) hw⟩

def ring (omega : BitVec 8) (latency : BitVec 16) : LoopDeps where
  toDepGraph := ringGraph omega latency
  nodup := by simp [ringGraph, nodup_range]
  nonempty := by simp [ringGraph]
  body := by
    intro a arc harc
    by_cases ha : a < 8
    · simp [ringGraph, ha]
    · simp [ringGraph, ha] at harc
  conn := by
    intro scc hscc a ha b hb _
    obtain rfl : scc = List.range 8 := mem_singleton.mp hscc
    rw [mem_range] at ha hb
    obtain ⟨vs, c, hw⟩ := ringGraph_exists_walk ha (b + 7 - a)
    rw [show (a + (b + 7 - a) + 1) % 8 = b by omega] at hw
    exact ⟨vs, c, hw⟩
  maximal := by
    intro scc hscc a _ b vs c _ _ hw _
    obtain rfl : scc = List.range 8 := mem_singleton.mp hscc
    obtain ⟨-, rfl, -⟩ := ringGraph_walk hw
    exact mem_range.mpr (Nat.mod_lt _ (by norm_num))

theorem ring_pos (homega : 0 < omega.toNat) {a : Nat} {vs : List Nat} {c : Cost}
    (hw : Walk (ring omega latency).Dep a vs a c) : 0 < c.omega := by
  obtain ⟨-, -, -, rfl⟩ := ringGraph_walk hw
  exact mul_pos (by positivity) (by exact_mod_cast homega)

/-- The variables at the start. -/
def MinII.init (minII : Int) : MinII := ⟨minII, 0, fun _ => 0, []⟩

end Ring

end Cg
