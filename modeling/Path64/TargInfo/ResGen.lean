import Mathlib.Algebra.BigOperators.Group.List.Basic
import Mathlib.Data.BitVec
import Mathlib.Data.List.Flatten
import Mathlib.Data.Prod.Lex
import Path64.Lib.Fields
import Path64.Lib.Loop

/-! # The generator of the reservation words

`si_gen` gives each resource a field of one word, the reserved count below
an overuse bit, and writes the requirement of an instruction group as one
word for each cycle, once for the straight schedule and once folded for
each II that is too short for it. -/

namespace TargInfo

open List Fields

/-! ## Model -/

/-- `RES`; the identifier of a resource is its place in a list. -/
structure Res where
  count : Nat
  count_pos : 0 < count
  count_lt : count < 2 ^ 31

/-- `RES::Calculate_Field_Width`, for the bits below the second argument. -/
def calculateFieldWidth (count : Nat) : Nat → Nat
  | 0 => 0
  | i + 1 => if count.testBit i then i + 2 else calculateFieldWidth count i

def Res.fieldWidth (r : Res) : Nat := calculateFieldWidth r.count 32

structure ResWord where
  bitInx : Nat
  initializer : BitVec 64
  overuseMask : BitVec 64

/-- `RES_WORD::Allocate_Field`: the bit comes second. `count + 1` is an `int` in the source, which
only a count of `2 ^ 31 - 1` would overflow. -/
def ResWord.allocateField (rw : ResWord) (width count : Nat) : Option (ResWord × Nat) :=
  let newInx := rw.bitInx + width
  if 64 ≤ newInx then none
  else some
    ({  bitInx := newInx
        initializer := rw.initializer |||
          ((1 : BitVec 64) <<< (width - 1) - BitVec.ofNat 64 (count + 1)) <<< rw.bitInx
        overuseMask := rw.overuseMask ||| ((1 : BitVec 64) <<< (width - 1)) <<< rw.bitInx },
      rw.bitInx)

/-- `RES::Calculate_Fields` on one word; `none` when it takes a second one. -/
def calculateFields (res : List Res) : Option (ResWord × List Nat) :=
  res.foldlM (fun st r =>
    (st.1.allocateField r.fieldWidth r.count).map fun p => (p.1, st.2 ++ [p.2])) (⟨0, 0, 0⟩, [])

/-- `RES_REQ`: the map `cycle_res_count`, in the order of its keys. -/
structure ResReq where
  maxResCycle : Int
  cycleResCount : List ((Int × Nat) × Nat)

def ResReq.empty : ResReq := ⟨-1, []⟩

/-- The order of `CYCLE_RES`. -/
def cycleResLt (a b : Int × Nat) : Bool := a.1 < b.1 || a.1 == b.1 && a.2 < b.2

def getCount (m : List ((Int × Nat) × Nat)) (cr : Int × Nat) : Nat :=
  match m with
  | [] => 0
  | (k, n) :: m => if k = cr then n else getCount m cr

/-- One more for a key. -/
def increment (m : List ((Int × Nat) × Nat)) (cr : Int × Nat) : List ((Int × Nat) × Nat) :=
  match m with
  | [] => [(cr, 1)]
  | (k, n) :: m =>
    if cycleResLt cr k then (cr, 1) :: (k, n) :: m
    else if k = cr then (k, n + 1) :: m
    else (k, n) :: increment m cr

section
-- derives the equations
attribute [local simp] ResWord.allocateField increment
end

/-- A cycle as the `short` of `CYCLE_RES`. -/
def shortCycle (cycle : Int) : Int := (BitVec.ofInt 16 cycle).toInt

def resCount (res : List Res) (id : Nat) : Nat := (res[id]?.map Res.count).getD 0

/-- `RES_REQ::Add_Resource`; `none` when it is refused. -/
def ResReq.addResource (res : List Res) (rq : ResReq) (p : Nat × Int) : Option ResReq :=
  let maxResCycle := if rq.maxResCycle < p.2 then p.2 else rq.maxResCycle
  let cr := (shortCycle p.2, p.1)
  if resCount res p.1 ≤ getCount rq.cycleResCount cr then none
  else some ⟨maxResCycle, increment rq.cycleResCount cr⟩

/-- The resources that an instruction group asks for, with their cycles. -/
abbrev Group := List (Nat × Nat)

/-- The requirement of a group. -/
def Group.resReq (res : List Res) (g : Group) : Option ResReq :=
  (g.map fun p => (p.1, (p.2 : Int))).foldlM (ResReq.addResource res) .empty

def mod (i j : Int) : Int :=
  if j = 0 then i
  else
    let rem := i.tmod j
    if rem = 0 then 0
    else if decide (i < 0) ≠ decide (j < 0) then j + rem
    else rem

/-- `RES_REQ::Compute_II_RES_REQ`; `none` stands for `false`. -/
def ResReq.computeIIResReq (res : List Res) (rq : ResReq) (ii : Int) : Option ResReq :=
  rq.cycleResCount.foldlM (fun iiResReq (k, count) =>
    (replicate count (k.2, mod k.1 ii)).foldlM (ResReq.addResource res) iiResReq) .empty

/-- `SI_RR`: the number of words, and the words. -/
abbrev Rr := List (BitVec 64)

/-- `SI_RR_Length`. -/
def rrLength (req : Rr) : Nat := (req.getD 0 0).toNat

/-- `SI_RR_Cycle_RRW`. -/
def rrCycleRRW (req : Rr) (cycle : Nat) : BitVec 64 := req.getD (cycle + 1) 0

/-- `res_vec[cycle] += count << shift`; `none` when the cycle is no index. -/
def addToVec (shiftCount : List Nat) (resVec : List (BitVec 64)) (e : (Int × Nat) × Nat) :
    Option (List (BitVec 64)) :=
  if 0 ≤ e.1.1 ∧ e.1.1.toNat < resVec.length then
    some (resVec.modify e.1.1.toNat fun x =>
      x + BitVec.ofNat 64 e.2 <<< shiftCount.getD e.1.2 0)
  else none

def ResReq.output (shiftCount : List Nat) (rq : ResReq) : Option Rr :=
  (rq.cycleResCount.foldlM (addToVec shiftCount)
    (replicate (rq.maxResCycle + 1).toNat (0 : BitVec 64))).map
      (BitVec.ofInt 64 (rq.maxResCycle + 1) :: ·)

/-- What is generated for an instruction group; a bad II has no `SI_RR`. -/
structure Si where
  rr : Rr
  iiInfoSize : Nat
  iiRr : List (Option Rr)
  badIIs : Nat → BitVec 64

/-- `SI_BAD_II_SET_MemberP`; `bitnum` is unsigned. -/
def memberP (badIIs : Nat → BitVec 64) (i : Nat) : Bool :=
  if i = 0 ∨ 127 < i - 1 then false
  else badIIs ((i - 1) / 64) &&& (1 : BitVec 64) <<< ((i - 1) % 64) != 0

/-- `TSI_II_Resource_Requirement`; `none` for a null pointer. -/
def tsiIIResourceRequirement (info : Si) (ii : Nat) : Option Rr :=
  if info.iiInfoSize < ii then some info.rr else (info.iiRr[ii - 1]?).join

/-- The two words of `bad_iis`; `none` when the bit is in neither. -/
def setBadII (badIIs : Nat → BitVec 64) (i : Nat) : Option (Nat → BitVec 64) :=
  if i / 64 < 2 then
    some (Function.update badIIs (i / 64) (badIIs (i / 64) ||| (1 : BitVec 64) <<< (i % 64)))
  else none

/-- `INSTRUCTION_GROUP::Output_II_Info`: the vector of requirements and the bad IIs. -/
def outputIIInfo (res : List Res) (shiftCount : List Nat) (rq : ResReq) :
    Option (List (Option Rr) × (Nat → BitVec 64)) :=
  if rq.maxResCycle ≤ 0 then some ([], fun _ => 0)
  else do
    let iiRr ← (range rq.maxResCycle.toNat).mapM fun (i : Nat) =>
      match rq.computeIIResReq res ((i : Int) + 1) with
      | none => some none
      | some iiResReq => (iiResReq.output shiftCount).map some
    let canDo := fun i => ((iiRr[i]?).join).isSome
    let greatestBadII := (range rq.maxResCycle.toNat).foldl
      (fun b i => if canDo i then b else i) 0
    let badIIs ← (range (greatestBadII + 1)).foldlM
      (fun bad i => if canDo i then some bad else setBadII bad i) (fun _ => 0)
    some (iiRr, badIIs)

/-- `INSTRUCTION_GROUP::Output`, for a group whose requests are accepted. -/
def generate (res : List Res) (shiftCount : List Nat) (g : Group) : Option Si := do
  let rq ← g.resReq res
  let rr ← rq.output shiftCount
  let (iiRr, badIIs) ← outputIIInfo res shiftCount rq
  some ⟨rr, if 0 ≤ rq.maxResCycle then rq.maxResCycle.toNat else 0, iiRr, badIIs⟩

/-! ## What a group needs -/

/-- How often a group uses a resource in a slot of `ii` cycles, starting in cycle `c`. -/
def Group.use (g : Group) (ii : Nat) (c : Int) (slot r : Nat) : Nat :=
  g.countP fun p => p.1 = r ∧ (c + p.2) % ii = slot

/-- Alone in a loop of `ii` cycles it is too much. -/
def Group.Overuses (res : List Res) (g : Group) (ii : Nat) : Prop :=
  ∃ r < res.length, ∃ slot < ii, resCount res r < g.use ii 0 slot r

/-! ## The map of requests -/

variable {e : (Int × Nat) × Nat} {vec : List (BitVec 64)}

section CountMap

variable {m : List ((Int × Nat) × Nat)} {cr k : Int × Nat}

/-- Every request by itself. -/
def expand (m : List ((Int × Nat) × Nat)) : List (Int × Nat) :=
  m.flatMap fun e => replicate e.2 e.1

theorem cycleResLt_iff {a b : Int × Nat} : cycleResLt a b = true ↔ toLex a < toLex b := by
  unfold cycleResLt
  simp [Prod.Lex.toLex_lt_toLex]

/-- The keys of a map are in order. -/
def Sorted (m : List ((Int × Nat) × Nat)) : Prop :=
  m.Pairwise fun a b => toLex a.1 < toLex b.1

theorem mem_increment (he : e ∈ increment m cr) : e.1 = cr ∨ ∃ n, (e.1, n) ∈ m := by
  induction m with
  | nil =>
    rw [increment, mem_singleton] at he
    exact .inl (by rw [he])
  | cons x m ih =>
    obtain ⟨k, n⟩ := x
    rw [increment] at he
    split at he
    · rcases mem_cons.mp he with rfl | he
      · exact .inl rfl
      · exact .inr ⟨e.2, he⟩
    · split at he
      · rename_i heq
        rcases mem_cons.mp he with rfl | he
        · exact .inl heq
        · exact .inr ⟨e.2, mem_cons_of_mem _ he⟩
      · rcases mem_cons.mp he with rfl | he
        · exact .inr ⟨_, mem_cons_self⟩
        · exact (ih he).imp id fun ⟨n', hn'⟩ => ⟨n', mem_cons_of_mem _ hn'⟩

theorem Sorted.increment (h : Sorted m) : Sorted (increment m cr) := by
  induction m with
  | nil => exact pairwise_singleton _ _
  | cons x m ih =>
    obtain ⟨k, n⟩ := x
    obtain ⟨hhead, htail⟩ := pairwise_cons.mp h
    rw [TargInfo.increment]
    split
    · rename_i hlt
      rw [cycleResLt_iff] at hlt
      refine pairwise_cons.mpr ⟨fun e he => ?_, h⟩
      rcases mem_cons.mp he with rfl | he
      · exact hlt
      · exact hlt.trans (hhead e he)
    · rename_i hlt
      rw [cycleResLt_iff] at hlt
      split
      · exact pairwise_cons.mpr ⟨hhead, htail⟩
      · rename_i hne
        refine pairwise_cons.mpr ⟨fun e he => ?_, ih htail⟩
        rcases mem_increment he with heq | ⟨n', hn'⟩
        · rw [heq]
          exact lt_of_le_of_ne (not_lt.mp hlt) fun h => hne (toLex.injective h)
        · have hlt' := hhead _ hn'
          exact hlt'

/-- No key is in the map for nothing. -/
def Positive (m : List ((Int × Nat) × Nat)) : Prop := ∀ e ∈ m, 0 < e.2

theorem Positive.increment (h : Positive m) : Positive (increment m cr) := by
  induction m with
  | nil =>
    intro e he
    rw [TargInfo.increment, mem_singleton] at he
    rw [he]
    exact Nat.one_pos
  | cons x m ih =>
    obtain ⟨k, n⟩ := x
    have htail : Positive m := fun e he => h e (mem_cons_of_mem _ he)
    intro e he
    rw [TargInfo.increment] at he
    split at he
    · rcases mem_cons.mp he with rfl | he
      · exact Nat.one_pos
      · exact h e he
    · split at he
      · rcases mem_cons.mp he with rfl | he
        · exact Nat.succ_pos n
        · exact htail e he
      · rcases mem_cons.mp he with rfl | he
        · exact h _ mem_cons_self
        · exact ih htail e he

theorem Positive.mem_expand (h : Positive m) (he : e ∈ m) : e.1 ∈ expand m:=
  mem_flatMap.mpr ⟨e, he, mem_replicate.mpr ⟨(h e he).ne', rfl⟩⟩

theorem expand_cons (e : (Int × Nat) × Nat) : expand (e :: m) = replicate e.2 e.1 ++ expand m:= rfl

theorem expand_increment : (expand (increment m cr)).Perm (cr :: expand m) := by
  induction m with
  | nil => exact List.Perm.refl _
  | cons x m ih =>
    obtain ⟨k, n⟩ := x
    rw [increment]
    split
    · exact List.Perm.refl _
    · split
      · rename_i heq
        subst heq
        exact List.Perm.refl _
      · rw [expand_cons, expand_cons]
        exact (ih.append_left _).trans perm_middle

theorem count_expand_lt (h : ∀ e ∈ m, toLex cr < toLex e.1) : (expand m).count cr = 0 := by
  rw [count_eq_zero]
  intro hmem
  obtain ⟨e, he, hcr⟩ := mem_flatMap.mp hmem
  rw [eq_of_mem_replicate hcr] at h
  exact lt_irrefl _ (h e he)

theorem getCount_eq (h : Sorted m) : getCount m cr = (expand m).count cr := by
  induction m with
  | nil => rfl
  | cons x m ih =>
    obtain ⟨k, n⟩ := x
    obtain ⟨hhead, htail⟩ := pairwise_cons.mp h
    rw [getCount, expand_cons, count_append, count_replicate]
    split
    · rename_i heq
      subst heq
      rw [count_expand_lt hhead]
      simp
    · rename_i hne
      rw [ih htail]
      simp [hne]

end CountMap

/-! ## Requests -/

section Requests

variable {res : List Res} {ps qs : List (Nat × Int)} {p : Nat × Int} {rq : ResReq}

/-- The key of a request. -/
def reqKey (p : Nat × Int) : Int × Nat := (shortCycle p.2, p.1)

/-- What the requests `ps` have built. -/
structure Built (ps : List (Nat × Int)) (rq : ResReq) : Prop where
  sorted : Sorted rq.cycleResCount
  pos : Positive rq.cycleResCount
  perm : (expand rq.cycleResCount).Perm (ps.map reqKey)
  le_max : ∀ p ∈ ps, p.2 ≤ rq.maxResCycle
  max_eq : rq.maxResCycle = -1 ∨ ∃ p ∈ ps, p.2 = rq.maxResCycle

theorem built_empty : Built [] .empty :=
  ⟨List.Pairwise.nil, fun e he => (by cases he), List.Perm.refl _, fun p hp => (by cases hp),
    .inl rfl⟩

theorem Built.addResource (h : Built ps rq) :
    (resCount res p.1 ≤ (ps.map reqKey).count (reqKey p) ∧ rq.addResource res p = none) ∨
      ((ps.map reqKey).count (reqKey p) < resCount res p.1 ∧
        ∃ rq', rq.addResource res p = some rq' ∧ Built (p :: ps) rq') := by
  have hcount : getCount rq.cycleResCount (reqKey p) = (ps.map reqKey).count (reqKey p) := by
    rw [getCount_eq h.sorted, h.perm.count_eq]
  unfold ResReq.addResource
  simp only [show (shortCycle p.2, p.1) = reqKey p from rfl, hcount]
  by_cases hle : resCount res p.1 ≤ (ps.map reqKey).count (reqKey p)
  · exact .inl ⟨hle, if_pos hle⟩
  · refine .inr ⟨not_le.mp hle, _, if_neg hle, h.sorted.increment, h.pos.increment,
      expand_increment.trans (h.perm.cons _), fun q hq => ?_, ?_⟩
    · simp only
      rcases mem_cons.mp hq with rfl | hq
      · split <;> omega
      · have := h.le_max q hq
        split <;> omega
    · simp only
      split
      · exact .inr ⟨p, mem_cons_self, rfl⟩
      · exact h.max_eq.imp id fun ⟨q, hq, heq⟩ => ⟨q, mem_cons_of_mem _ hq, heq⟩

/-- Adding requests one by one fails at the first that exceeds a count. -/
theorem Built.foldlM (h : Built ps rq) :
    ((∃ p ∈ qs, resCount res p.1 < ((qs ++ ps).map reqKey).count (reqKey p)) ∧
        qs.foldlM (ResReq.addResource res) rq = none) ∨
      ((∀ p ∈ qs, ((qs ++ ps).map reqKey).count (reqKey p) ≤ resCount res p.1) ∧
        ∃ rq', qs.foldlM (ResReq.addResource res) rq = some rq' ∧ Built (qs.reverse ++ ps) rq') := by
  induction qs generalizing ps rq with
  | nil => exact .inr ⟨fun p hp => (by cases hp), rq, rfl, h⟩
  | cons q qs ih =>
    have hperm : ((qs ++ q :: ps).map reqKey).Perm ((q :: qs ++ ps).map reqKey) :=
      perm_middle.map _
    rw [foldlM_cons]
    rcases h.addResource (p := q) with ⟨hle, hnone⟩ | ⟨hlt, rq', hsome, hbuilt⟩
    · refine .inl ⟨⟨q, mem_cons_self, ?_⟩, by rw [hnone]; rfl⟩
      rw [cons_append, map_cons, count_cons_self, map_append, count_append]
      omega
    · rw [hsome]
      rcases ih hbuilt with ⟨⟨p, hp, hcount⟩, hnone⟩ | ⟨hall, rq'', hsome', hbuilt'⟩
      · refine .inl ⟨⟨p, mem_cons_of_mem _ hp, ?_⟩, hnone⟩
        rwa [← hperm.count_eq]
      · refine .inr ⟨fun p hp => ?_, rq'', hsome', by simpa using hbuilt'⟩
        rw [← hperm.count_eq]
        rcases mem_cons.mp hp with rfl | hp
        · by_cases hin : ∃ p' ∈ qs, reqKey p' = reqKey p
          · obtain ⟨p', hp', heq⟩ := hin
            have := hall p' hp'
            rw [heq] at this
            rwa [show p'.1 = p.1 from congrArg Prod.snd heq] at this
          · have hzero : (qs.map reqKey).count (reqKey p) = 0 := by
              rw [count_eq_zero, mem_map]
              exact hin
            rw [map_append, count_append, hzero, map_cons, count_cons_self]
            omega
        · exact hall p hp

theorem Built.of_perm (h : Built ps rq) (hperm : ps.Perm qs) : Built qs rq :=
  ⟨h.sorted, h.pos, h.perm.trans (hperm.map _), fun p hp => h.le_max p (hperm.mem_iff.mpr hp),
    h.max_eq.imp id fun ⟨p, hp, heq⟩ => ⟨p, hperm.mem_iff.mp hp, heq⟩⟩

theorem Built.neg_one_le (h : Built ps rq) (hps : ∀ p ∈ ps, 0 ≤ p.2) : -1 ≤ rq.maxResCycle := by
  rcases h.max_eq with heq | ⟨p, hp, heq⟩
  · omega
  · have := hps p hp
    omega

theorem shortCycle_eq {t : Int} (h0 : 0 ≤ t) (ht : t < 2 ^ 15) : shortCycle t = t := by
  unfold shortCycle
  rw [BitVec.toInt_ofInt]
  exact Int.bmod_eq_of_le (by omega) (by omega)

theorem reqKey_eq (h0 : 0 ≤ p.2) (ht : p.2 < 2 ^ 15) : reqKey p = (p.2, p.1) := by
  unfold reqKey
  rw [shortCycle_eq h0 ht]

theorem reqKey_natCast {r t : Nat} (ht : t < 2 ^ 15) : reqKey (r, (t : Int)) = ((t : Int), r) :=
  reqKey_eq (Int.natCast_nonneg _) (by simp only; omega)

/-! ### Words -/

/-- The units of all resources that are asked for in a cycle. -/
def load (shiftCount : List Nat) (ps : List (Nat × Int)) (t : Int) : Nat :=
  ((ps.filter fun p => p.2 = t).map fun p => 2 ^ shiftCount.getD p.1 0).sum

theorem addToVec_spec {shiftCount : List Nat} (he : 0 ≤ e.1.1 ∧ e.1.1.toNat < vec.length) :
    ∃ vec', addToVec shiftCount vec e = some vec' ∧ vec'.length = vec.length ∧
      ∀ t < vec.length, vec'.getD t 0 = vec.getD t 0 +
        BitVec.ofNat 64 (if e.1.1 = t then e.2 * 2 ^ shiftCount.getD e.1.2 0 else 0) := by
  refine ⟨_, if_pos he, length_modify _ _ _, fun t ht => ?_⟩
  rw [getD_eq_getElem _ _ ht, getD_eq_getElem _ _ (by rwa [length_modify]),
    getElem_modify]
  by_cases heq : e.1.1 = t
  · rw [if_pos (by omega), if_pos heq]
    congr 1
    apply BitVec.eq_of_toNat_eq
    rw [BitVec.toNat_shiftLeft, BitVec.toNat_ofNat, BitVec.toNat_ofNat, Nat.shiftLeft_eq,
      Nat.mod_mul_mod]
  · rw [if_neg (by omega), if_neg heq]
    simp

theorem foldlM_addToVec {shiftCount : List Nat} {m : List ((Int × Nat) × Nat)}
    (hm : ∀ e ∈ m, 0 ≤ e.1.1 ∧ e.1.1.toNat < vec.length) :
    ∃ vec', m.foldlM (addToVec shiftCount) vec = some vec' ∧ vec'.length = vec.length ∧
      ∀ t < vec.length, vec'.getD t 0 = vec.getD t 0 +
        BitVec.ofNat 64 (((expand m).filter fun k => k.1 = (t : Int)).map
          fun k => 2 ^ shiftCount.getD k.2 0).sum := by
  induction m generalizing vec with
  | nil => exact ⟨vec, rfl, rfl, fun t _ => by simp [expand]⟩
  | cons e m ih =>
    obtain ⟨vec', hvec', hlen, hword⟩ :=
      addToVec_spec (hm e mem_cons_self)
    obtain ⟨vec'', hvec'', hlen', hword'⟩ :=
      ih fun e' he' => hlen ▸ hm e' (mem_cons_of_mem _ he')
    refine ⟨vec'', ?_, hlen'.trans hlen, fun t ht => ?_⟩
    · rw [foldlM_cons, hvec']
      exact hvec''
    · rw [hword' t (hlen ▸ ht), hword t ht, expand_cons, filter_append, map_append,
        List.sum_append, BitVec.add_assoc, ← BitVec.ofNat_add]
      congr 3
      by_cases heq : e.1.1 = t
      · simp [heq]
      · simp [heq]

/-- The words of an `SI_RR` are the loads of the cycles, up to the last one. -/
structure RrOk (shiftCount : List Nat) (ps : List (Nat × Int)) (rr : Rr) : Prop where
  word : ∀ t < rrLength rr, rrCycleRRW rr t = BitVec.ofNat 64 (load shiftCount ps t)
  after : ∀ t : Int, rrLength rr ≤ t → load shiftCount ps t = 0
  short : ∀ n : Nat, (∀ p ∈ ps, p.2 < n) → rrLength rr ≤ n

/-- The words written out are the requests of each cycle, packed by the fields of the resources. -/
theorem Built.output (shiftCount : List Nat) (h : Built ps rq)
    (hps : ∀ p ∈ ps, 0 ≤ p.2 ∧ p.2 < 2 ^ 15) :
    ∃ rr, rq.output shiftCount = some rr ∧ RrOk shiftCount ps rr := by
  have hkeys : ps.map reqKey = ps.map fun p => (p.2, p.1) :=
    map_congr_left fun p hp => reqKey_eq (hps p hp).1 (hps p hp).2
  have hmax := h.neg_one_le fun p hp => (hps p hp).1
  have hmax' : rq.maxResCycle < 2 ^ 15 := by
    rcases h.max_eq with heq | ⟨p, hp, heq⟩
    · omega
    · rw [← heq]
      exact (hps p hp).2
  have hm : ∀ e ∈ rq.cycleResCount, 0 ≤ e.1.1 ∧
      e.1.1.toNat < (replicate (rq.maxResCycle + 1).toNat (0 : BitVec 64)).length := by
    intro e he
    have hmem := h.perm.mem_iff.mp (h.pos.mem_expand he)
    rw [hkeys] at hmem
    obtain ⟨p, hp, heq⟩ := mem_map.mp hmem
    have := h.le_max p hp
    have := hps p hp
    rw [length_replicate, ← heq]
    simp only
    omega
  obtain ⟨vec, hvec, hlen, hword⟩ := foldlM_addToVec hm
  rw [length_replicate] at hlen hword
  have hrr : rrLength (BitVec.ofInt 64 (rq.maxResCycle + 1) :: vec) =
      (rq.maxResCycle + 1).toNat := by
    unfold rrLength
    rw [getD_cons_zero, BitVec.toNat_ofInt]
    congr 1
    exact Int.emod_eq_of_lt (by omega) (by norm_num; omega)
  refine ⟨_, by rw [ResReq.output, hvec]; rfl, fun t ht => ?_, fun t ht => ?_, fun n hn => ?_⟩
  · rw [hrr] at ht
    have hperm := h.perm
    rw [hkeys] at hperm
    unfold rrCycleRRW load
    rw [getD_cons_succ, hword t ht, getD_replicate _ ht, zero_add]
    congr 1
    rw [((hperm.filter _).map _).sum_eq, filter_map, map_map]
    rfl
  · unfold load
    rw [hrr] at ht
    have hnil : (ps.filter fun p => p.2 = t) = [] := by
      rw [filter_eq_nil_iff]
      intro p hp
      have := h.le_max p hp
      simp only [decide_eq_true_eq]
      omega
    rw [hnil]
    rfl
  · rw [hrr]
    rcases h.max_eq with heq | ⟨p, hp, heq⟩
    · omega
    · have := hn p hp
      omega

end Requests

/-! ## Folding -/

section Folding

variable {res : List Res} {g : Group} {rq : ResReq} {ii : Nat}

/-- The requests of a group. -/
def Group.reqs (g : Group) : List (Nat × Int) := g.map fun p => (p.1, (p.2 : Int))

/-- The requests folded into a loop of `ii` cycles. -/
def Group.folded (g : Group) (ii : Nat) : List (Nat × Int) :=
  g.map fun p => (p.1, ((p.2 % ii : Nat) : Int))

/-- The requests of a group that is generated without harm. -/
structure Group.Accepted (res : List Res) (g : Group) : Prop where
  cycles : ∀ p ∈ g, p.2 < 2 ^ 15
  fits : (g.resReq res).isSome = true

theorem computeIIResReq_eq (rq : ResReq) (ii : Int) : rq.computeIIResReq res ii =
    ((expand rq.cycleResCount).map fun k => (k.2, mod k.1 ii)).foldlM
      (ResReq.addResource res) .empty := by
  unfold ResReq.computeIIResReq expand
  rw [map_flatMap, Loop.foldlM_flatMap]
  congr 1
  funext iiResReq e
  rw [map_replicate]

theorem mod_eq {i j : Int} (hi : 0 ≤ i) (hj : 0 < j) : mod i j = i % j := by
  unfold mod
  rw [if_neg hj.ne', Int.tmod_eq_emod_of_nonneg hi]
  simp only
  split
  · rename_i h
    exact h.symm
  · rw [if_neg (by simp [show ¬ i < 0 by omega, show ¬ j < 0 by omega])]

theorem count_folded (hcyc : ∀ p ∈ g, p.2 < 2 ^ 15) (t r : Nat) :
    ((g.folded ii).map reqKey).count ((t : Int), r) = g.use ii 0 t r := by
  unfold Group.folded Group.use count
  rw [map_map, countP_map]
  refine countP_congr fun p hp => ?_
  have hlt := (Nat.mod_le p.2 ii).trans_lt (hcyc p hp)
  have hkey : reqKey (p.1, ((p.2 % ii : Nat) : Int)) = (((p.2 % ii : Nat) : Int), p.1) :=
    reqKey_natCast hlt
  simp only [Function.comp_apply, hkey, beq_iff_eq, Prod.mk.injEq, decide_eq_true_eq, Int.zero_add,
    ← Int.natCast_emod, Int.natCast_inj]
  exact and_comm

theorem Group.Accepted.built (h : g.Accepted res) : ∃ rq, g.resReq res = some rq ∧
    Built g.reqs rq ∧ (∀ p ∈ g, p.1 < res.length) ∧
    ∀ p ∈ g, (g.reqs.map reqKey).count (reqKey (p.1, (p.2 : Int))) ≤ resCount res p.1 := by
  have hreqs : ∀ p ∈ g, (p.1, (p.2 : Int)) ∈ g.reqs := fun p hp => mem_map.mpr ⟨p, hp, rfl⟩
  have hfits := h.fits
  rcases built_empty.foldlM with ⟨-, hnone⟩ | ⟨hall, rq, hrq, hbuilt⟩
  · have hnone' : g.resReq res = none := hnone
    rw [hnone'] at hfits
    cases hfits
  · rw [append_nil] at hall hbuilt
    have hcount : ∀ p ∈ g, (g.reqs.map reqKey).count (reqKey (p.1, (p.2 : Int))) ≤
        resCount res p.1 := fun p hp => hall _ (hreqs p hp)
    refine ⟨rq, hrq, hbuilt.of_perm (reverse_perm _), fun p hp => ?_, hcount⟩
    have hpos : 0 < resCount res p.1 :=
      (count_pos_iff.mpr (mem_map_of_mem (hreqs p hp))).trans_le (hcount p hp)
    by_contra hlen
    unfold resCount at hpos
    rw [getElem?_eq_none (not_lt.mp hlen)] at hpos
    exact absurd hpos (lt_irrefl 0)

/-- Folding the cycles modulo the II: it fails just when some resource is overused. -/
theorem computeIIResReq_spec (h : g.Accepted res) (hrq : g.resReq res = some rq) (hii : 0 < ii) :
    (g.Overuses res ii ∧ rq.computeIIResReq res ii = none) ∨
      (¬ g.Overuses res ii ∧ ∃ rq', rq.computeIIResReq res ii = some rq' ∧
        Built (g.folded ii) rq') := by
  obtain ⟨rq', hrq', hbuilt, hids, -⟩ := h.built
  obtain rfl : rq = rq' := Option.some.inj (hrq.symm.trans hrq')
  have hperm : ((expand rq.cycleResCount).map fun k => (k.2, mod k.1 ii)).Perm (g.folded ii) := by
    refine (hbuilt.perm.map _).trans (List.Perm.of_eq ?_)
    unfold Group.reqs Group.folded
    rw [map_map, map_map]
    refine map_congr_left fun p hp => ?_
    have hlt := h.cycles p hp
    simp only [Function.comp_apply]
    rw [reqKey_natCast hlt,
      mod_eq (Int.natCast_nonneg _) (by exact_mod_cast hii), Int.natCast_emod]
  have hkey : ∀ p ∈ g, reqKey (p.1, ((p.2 % ii : Nat) : Int)) = (((p.2 % ii : Nat) : Int), p.1) := by
    intro p hp
    have hlt := (Nat.mod_le p.2 ii).trans_lt (h.cycles p hp)
    exact reqKey_natCast hlt
  rw [computeIIResReq_eq]
  rcases built_empty.foldlM with
    ⟨⟨q, hq, hlt⟩, hnone⟩ | ⟨hall, rq', hsome, hbuilt'⟩
  · refine .inl ⟨?_, hnone⟩
    rw [append_nil, (hperm.map _).count_eq] at hlt
    obtain ⟨p, hp, rfl⟩ := mem_map.mp (hperm.mem_iff.mp hq)
    rw [hkey p hp, count_folded h.cycles] at hlt
    exact ⟨p.1, hids p hp, p.2 % ii, Nat.mod_lt _ hii, hlt⟩
  · rw [append_nil] at hall hbuilt'
    refine .inr ⟨?_, rq', hsome, hbuilt'.of_perm ((reverse_perm _).trans hperm)⟩
    rintro ⟨r, hr, slot, hslot, hlt⟩
    have hpos : 0 < g.use ii 0 slot r := (Nat.zero_le _).trans_lt hlt
    obtain ⟨p, hp, hpr⟩ := countP_pos_iff.mp hpos
    simp only [decide_eq_true_eq, Int.zero_add, ← Int.natCast_emod, Int.natCast_inj] at hpr
    obtain ⟨rfl, rfl⟩ := hpr
    have hle := hall (p.1, ((p.2 % ii : Nat) : Int))
      (hperm.mem_iff.mpr (mem_map.mpr ⟨p, hp, rfl⟩))
    rw [(hperm.map _).count_eq, hkey p hp, count_folded h.cycles] at hle
    simp only at hle
    omega

/-! ### The vector of requirements -/

theorem mapM_range {α : Type} {f : Nat → Option α} {P : Nat → α → Prop} (n : Nat)
    (hf : ∀ i < n, ∃ y, f i = some y ∧ P i y) : ∃ ys, (range n).mapM f = some ys ∧ ys.length = n ∧
      ∀ i < n, ∃ y, ys[i]? = some y ∧ P i y := by
  induction n with
  | zero => exact ⟨[], rfl, rfl, fun i hi => absurd hi (Nat.not_lt_zero i)⟩
  | succ n ih =>
    obtain ⟨ys, hys, hlen, hall⟩ := ih fun i hi => hf i (by omega)
    obtain ⟨y, hy, hP⟩ := hf n (by omega)
    refine ⟨ys ++ [y], ?_, by simp [hlen], fun i hi => ?_⟩
    · rw [range_succ, mapM_append, hys, mapM_cons, mapM_nil, hy]
      rfl
    · rcases Nat.lt_succ_iff_lt_or_eq.mp hi with hi | rfl
      · obtain ⟨z, hz, hPz⟩ := hall i hi
        exact ⟨z, by rw [getElem?_append_left (by omega), hz], hPz⟩
      · exact ⟨y, by rw [getElem?_append_right (by omega), hlen, Nat.sub_self]; rfl, hP⟩

theorem greatest_spec (c : Nat → Bool) (n : Nat) :
    ((range n).foldl (fun b i => if c i then b else i) 0 ≤ n - 1) ∧
      ∀ i < n, c i = false → i ≤ (range n).foldl (fun b i => if c i then b else i) 0 := by
  induction n with
  | zero => exact ⟨le_rfl, fun i hi => absurd hi (Nat.not_lt_zero i)⟩
  | succ n ih =>
    rw [range_succ, foldl_append, foldl_cons, foldl_nil]
    split
    · rename_i hc
      refine ⟨by omega, fun i hi hci => ?_⟩
      rcases Nat.lt_succ_iff_lt_or_eq.mp hi with hi | rfl
      · exact ih.2 i hi hci
      · rw [hc] at hci
        cases hci
    · exact ⟨by omega, fun i hi _ => by omega⟩

theorem foldlM_setBadII (c : Nat → Bool) (n : Nat) (hc : ∀ i < n, c i = false → i < 128) :
    ∃ bad, (range n).foldlM (fun bad i => if c i then some bad else setBadII bad i)
        (fun _ => (0 : BitVec 64)) = some bad ∧
      ∀ j < 128, (bad (j / 64)).getLsbD (j % 64) = decide (j < n ∧ c j = false) := by
  induction n with
  | zero => exact ⟨fun _ => 0, rfl, fun j _ => by simp⟩
  | succ n ih =>
    obtain ⟨bad, hbad, hbits⟩ := ih fun i hi => hc i (by omega)
    rw [range_succ, foldlM_append, hbad]
    simp only [foldlM_cons, foldlM_nil, Option.bind_eq_bind, Option.bind_some]
    cases hcn : c n
    · have hn := hc n (by omega) hcn
      refine ⟨_, by rw [if_neg (by simp), setBadII, if_pos (by omega)]; rfl, fun j hj => ?_⟩
      rw [Function.update_apply]
      split
      · rename_i heq
        have hmod : j % 64 < 64 := Nat.mod_lt _ (by norm_num)
        have hmod' : n % 64 < 64 := Nat.mod_lt _ (by norm_num)
        have hone : ((1 : BitVec 64) <<< (n % 64)).getLsbD (j % 64) = decide (j % 64 = n % 64) := by
          rw [show (1 : BitVec 64) <<< (n % 64) = BitVec.twoPow 64 (n % 64) from rfl,
            BitVec.getLsbD_twoPow]
          simp [hmod', eq_comm]
        have hold := hbits j hj
        rw [heq] at hold
        rw [BitVec.getLsbD_or, hold, hone]
        by_cases hjn : j = n
        · subst hjn
          simp [hcn]
        · have hne : ¬ j % 64 = n % 64 := by omega
          have hlt : j < n ↔ j < n + 1 := by omega
          simp [hne, hlt]
      · rename_i hne
        have hlt : j < n ↔ j < n + 1 := by omega
        rw [hbits j hj]
        simp [hlt]
    · refine ⟨bad, by rw [if_pos rfl]; rfl, fun j hj => ?_⟩
      rw [hbits j hj]
      by_cases hjn : j = n
      · subst hjn
        simp [hcn]
      · have hlt : j < n ↔ j < n + 1 := by omega
        simp [hlt]

theorem memberP_eq {bad : Nat → BitVec 64} {i : Nat} (hi : i < 128) :
    memberP bad (i + 1) = (bad (i / 64)).getLsbD (i % 64) := by
  unfold memberP
  rw [if_neg (by omega), Nat.add_sub_cancel,
    show (1 : BitVec 64) <<< (i % 64) = BitVec.twoPow 64 (i % 64) from rfl, BitVec.and_twoPow]
  have hmod : i % 64 < 64 := Nat.mod_lt _ (by norm_num)
  have hne : BitVec.twoPow 64 (i % 64) ≠ 0#64 := by
    intro h
    have h' := congrArg (fun x => BitVec.getLsbD x (i % 64)) h
    simp [hmod] at h'
  cases (bad (i / 64)).getLsbD (i % 64) <;> simp [hne]

theorem Group.Accepted.unfolded (h : g.Accepted res) (hlt : ∀ p ∈ g, p.2 < ii) :
    g.folded ii = g.reqs ∧ ¬ g.Overuses res ii := by
  have heq : g.folded ii = g.reqs :=
    map_congr_left fun p hp => by rw [Nat.mod_eq_of_lt (hlt p hp)]
  refine ⟨heq, ?_⟩
  rintro ⟨r, hr, slot, hslot, huse⟩
  have hpos : 0 < g.use ii 0 slot r := (Nat.zero_le _).trans_lt huse
  obtain ⟨p, hp, hpr⟩ := countP_pos_iff.mp hpos
  simp only [decide_eq_true_eq, Int.zero_add, ← Int.natCast_emod, Int.natCast_inj] at hpr
  obtain ⟨rfl, hslot'⟩ := hpr
  obtain ⟨-, -, -, -, hcount⟩ := h.built
  have hle := hcount p hp
  rw [reqKey_natCast (h.cycles p hp), ← heq, ← Nat.mod_eq_of_lt (hlt p hp), hslot',
    count_folded h.cycles] at hle
  omega

/-- All tables of one group: the bad IIs are those that overuse a resource, and every other II finds
its requirement. -/
theorem generate_spec {shiftCount : List Nat} (h : g.Accepted res)
    (hbad : ∀ ii, 128 < ii → ¬ g.Overuses res ii) : ∃ si, generate res shiftCount g = some si ∧
      (∀ ii, 0 < ii → (memberP si.badIIs ii = true ↔ g.Overuses res ii)) ∧
      ∀ ii, 0 < ii → ¬ g.Overuses res ii → ∃ rr, tsiIIResourceRequirement si ii = some rr ∧
        RrOk shiftCount (g.folded ii) rr := by
  obtain ⟨rq, hrq, hbuilt, hids, hcount⟩ := h.built
  have hreqs : ∀ p ∈ g.reqs, 0 ≤ p.2 ∧ p.2 < 2 ^ 15 := by
    intro p hp
    obtain ⟨q, hq, rfl⟩ := mem_map.mp hp
    have := h.cycles q hq
    exact ⟨Int.natCast_nonneg _, by simp only; omega⟩
  have hmax : ∀ p ∈ g, (p.2 : Int) ≤ rq.maxResCycle :=
    fun p hp => hbuilt.le_max _ (mem_map.mpr ⟨p, hp, rfl⟩)
  obtain ⟨rr, hrr, hok⟩ := hbuilt.output shiftCount hreqs
  -- beyond the last cycle the requirement is not folded
  have hlong : ∀ ii : Nat, rq.maxResCycle < ii → g.folded ii = g.reqs ∧ ¬ g.Overuses res ii :=
    fun ii hlt => h.unfolded fun p hp => by have := hmax p hp; omega
  unfold generate
  simp only [hrq, hrr, Option.bind_eq_bind, Option.bind_some]
  by_cases hle : rq.maxResCycle ≤ 0
  · -- all cycles are 0: one requirement serves every II
    unfold outputIIInfo
    rw [if_pos hle]
    refine ⟨_, rfl, fun ii hii => ?_, fun ii hii _ => ⟨rr, ?_, ?_⟩⟩
    · refine iff_of_false ?_ (hlong ii (by omega)).2
      unfold memberP
      split <;> simp
    · unfold tsiIIResourceRequirement
      simp only
      rw [if_pos (by split <;> omega)]
    · rw [(hlong ii (by omega)).1]
      exact hok
  · -- the requirement is folded for the IIs up to its last cycle
    have hn : (rq.maxResCycle.toNat : Int) = rq.maxResCycle := by omega
    generalize rq.maxResCycle.toNat = n at hn
    have hfold : ∀ i < n, ∃ y, (match rq.computeIIResReq res ((i : Int) + 1) with
        | none => some none
        | some iiResReq => (iiResReq.output shiftCount).map some) = some y ∧
        (g.Overuses res (i + 1) ∧ y = none ∨ ¬ g.Overuses res (i + 1) ∧
          ∃ rr, y = some rr ∧ RrOk shiftCount (g.folded (i + 1)) rr) := by
      intro i hi
      have hii : (((i + 1 : Nat) : Nat) : Int) = (i : Int) + 1 := rfl
      rw [← hii]
      rcases computeIIResReq_spec h hrq (Nat.succ_pos i) with
        ⟨hover, hnone⟩ | ⟨hnot, rq', hsome, hbuilt'⟩
      · rw [hnone]
        exact ⟨none, rfl, .inl ⟨hover, rfl⟩⟩
      · rw [hsome]
        have hfolded : ∀ p ∈ g.folded (i + 1), 0 ≤ p.2 ∧ p.2 < 2 ^ 15 := by
          intro p hp
          obtain ⟨q, hq, rfl⟩ := mem_map.mp hp
          have := (Nat.mod_le q.2 (i + 1)).trans_lt (h.cycles q hq)
          exact ⟨Int.natCast_nonneg _, by simp only; omega⟩
        obtain ⟨rr', hrr', hok'⟩ := hbuilt'.output shiftCount hfolded
        exact ⟨some rr', by simp only [hrr']; rfl, .inr ⟨hnot, rr', rfl, hok'⟩⟩
    obtain ⟨iiRr, hiiRr, hlen, hall⟩ := mapM_range n hfold
    -- an II can be scheduled just when its folded requirement exists
    have hcan : ∀ i < n, (((iiRr[i]?).join).isSome = false ↔ g.Overuses res (i + 1)) := by
      intro i hi
      obtain ⟨y, hy, ⟨hover, rfl⟩ | ⟨hnot, rr', rfl, -⟩⟩ := hall i hi
      · rw [hy]
        exact iff_of_true rfl hover
      · rw [hy]
        exact iff_of_false (by simp) hnot
    obtain ⟨hgn, hg⟩ := greatest_spec (fun i => ((iiRr[i]?).join).isSome) n
    have hsmall : ∀ i < (range n).foldl
        (fun b i => if ((iiRr[i]?).join).isSome then b else i) 0 + 1,
          ((iiRr[i]?).join).isSome = false → i < 128 := by
      intro i hi hci
      by_contra hbig
      exact hbad (i + 1) (by omega) ((hcan i (by omega)).mp hci)
    obtain ⟨bad, hbadIIs, hbits⟩ := foldlM_setBadII _ _ hsmall
    unfold outputIIInfo
    rw [if_neg hle]
    simp only [show rq.maxResCycle.toNat = n by omega, hiiRr, Option.bind_eq_bind, Option.bind_some,
      hbadIIs]
    refine ⟨_, rfl, fun ii hii => ?_, fun ii hii hnot => ?_⟩
    · obtain ⟨i, rfl⟩ : ∃ i, ii = i + 1 := ⟨ii - 1, by omega⟩
      by_cases hi : i < 128
      · rw [memberP_eq hi, hbits i hi, decide_eq_true_eq]
        by_cases hin : i < n
        · rw [← hcan i hin]
          refine ⟨And.right, fun hci => ⟨?_, hci⟩⟩
          have := hg i hin hci
          omega
        · refine iff_of_false (fun hand => ?_) (hlong (i + 1) (by omega)).2
          omega
      · refine iff_of_false ?_ (hbad (i + 1) (by omega))
        unfold memberP
        rw [if_pos (by omega)]
        simp
    · obtain ⟨i, rfl⟩ : ∃ i, ii = i + 1 := ⟨ii - 1, by omega⟩
      unfold tsiIIResourceRequirement
      simp only [if_pos (show 0 ≤ rq.maxResCycle by omega), Nat.add_sub_cancel]
      by_cases hin : i < n
      · -- within the table
        rw [if_neg (by omega)]
        obtain ⟨y, hy, ⟨hover, -⟩ | ⟨-, rr', rfl, hok'⟩⟩ := hall i hin
        · exact absurd hover hnot
        · exact ⟨rr', by rw [hy]; rfl, hok'⟩
      · rw [if_pos (by omega), (hlong (i + 1) (by omega)).1]
        exact ⟨rr, rfl, hok⟩

end Folding

end TargInfo
