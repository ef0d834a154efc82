import Mathlib.Data.List.GetD
import Path64.Dep.Decompose
import Path64.Lib.LinearRow

/-! # The hierarchical computation of dependence vectors

`DEPV_COMPUTE::Compute_Dep_Vectors` refines the first `*` of a dependence
vector into `+`, `=` and `-`. For each of the three it pushes the
constraint onto the system of equations, goes on if the system is still
consistent, and pops it. The answer of `Is_Consistent` is a parameter;
all that is asked of it is that it never denies a solution. -/

namespace Dep

open Nat List Function LinearRow

/-! ## The system of equations -/

/-- The rows `aeq x = beq` and `ale x <= ble`, stale beyond those in use. -/
structure System where
  vars : Nat
  aeq : Nat → Nat → Int
  beq : Nat → Int
  eqnsEq : Nat
  ale : Nat → Nat → Int
  ble : Nat → Int
  eqnsLe : Nat

def System.addEq (soe : System) (row : Nat → Int) (b : Int) : System :=
  { soe with
    aeq := update soe.aeq soe.eqnsEq fun j =>
      if j < soe.vars then row j else soe.aeq soe.eqnsEq j
    beq := update soe.beq soe.eqnsEq b
    eqnsEq := soe.eqnsEq + 1 }

def System.addLe (soe : System) (row : Nat → Int) (b : Int) : System :=
  { soe with
    ale := update soe.ale soe.eqnsLe fun j =>
      if j < soe.vars then row j else soe.ale soe.eqnsLe j
    ble := update soe.ble soe.eqnsLe b
    eqnsLe := soe.eqnsLe + 1 }

def System.removeLastEq (soe : System) : System := { soe with eqnsEq := soe.eqnsEq - 1 }

def System.removeLastLe (soe : System) : System := { soe with eqnsLe := soe.eqnsLe - 1 }

/-- The point `x` satisfies every row in use. -/
structure System.Solves (soe : System) (x : Nat → Int) : Prop where
  eq : ∀ r < soe.eqnsEq, dot soe.vars (soe.aeq r) x = soe.beq r
  le : ∀ r < soe.eqnsLe, dot soe.vars (soe.ale r) x ≤ soe.ble r

/-- The same rows in use. -/
structure System.SameRows (soe soe' : System) : Prop where
  vars : soe'.vars = soe.vars
  eqnsEq : soe'.eqnsEq = soe.eqnsEq
  eqnsLe : soe'.eqnsLe = soe.eqnsLe
  eq : ∀ r < soe.eqnsEq, soe'.aeq r = soe.aeq r ∧ soe'.beq r = soe.beq r
  le : ∀ r < soe.eqnsLe, soe'.ale r = soe.ale r ∧ soe'.ble r = soe.ble r

theorem System.SameRows.refl (soe : System) : soe.SameRows soe :=
  ⟨rfl, rfl, rfl, fun _ _ => ⟨rfl, rfl⟩, fun _ _ => ⟨rfl, rfl⟩⟩

theorem System.SameRows.trans {s1 s2 s3 : System} (h : s1.SameRows s2) (h' : s2.SameRows s3) :
    s1.SameRows s3 where
  vars := h'.vars.trans h.vars
  eqnsEq := h'.eqnsEq.trans h.eqnsEq
  eqnsLe := h'.eqnsLe.trans h.eqnsLe
  eq r hr := by
    have h2 := h'.eq r (h.eqnsEq ▸ hr)
    exact ⟨h2.1.trans (h.eq r hr).1, h2.2.trans (h.eq r hr).2⟩
  le r hr := by
    have h2 := h'.le r (h.eqnsLe ▸ hr)
    exact ⟨h2.1.trans (h.le r hr).1, h2.2.trans (h.le r hr).2⟩

variable {s s' : System} {x : Nat → Int} {b : Int} {i j : Nat} {v : List Int} {depv d d' : DEPV}
  {P : List Int → Prop} {st st' : SearchState} {dir : Direction}

theorem System.SameRows.solves (h : s.SameRows s') (hx : s.Solves x) : s'.Solves x where
  eq r hr := by
    rw [h.eqnsEq] at hr
    rw [h.vars, (h.eq r hr).1, (h.eq r hr).2]
    exact hx.eq r hr
  le r hr := by
    rw [h.eqnsLe] at hr
    rw [h.vars, (h.le r hr).1, (h.le r hr).2]
    exact hx.le r hr

theorem System.SameRows.popEq {row : Nat → Int}
    (h : (s.addEq row b).SameRows s') : s.SameRows s'.removeLastEq where
  vars := h.vars
  eqnsEq := by
    show s'.eqnsEq - 1 = s.eqnsEq
    rw [h.eqnsEq]
    rfl
  eqnsLe := h.eqnsLe
  eq r hr := by
    have hrow := h.eq r (Nat.lt_succ_of_lt hr)
    simp only [System.addEq, update_of_ne (Nat.ne_of_lt hr)] at hrow
    exact hrow
  le r hr := h.le r hr

theorem System.SameRows.popLe {row : Nat → Int}
    (h : (s.addLe row b).SameRows s') : s.SameRows s'.removeLastLe where
  vars := h.vars
  eqnsEq := h.eqnsEq
  eqnsLe := by
    show s'.eqnsLe - 1 = s.eqnsLe
    rw [h.eqnsLe]
    rfl
  eq r hr := h.eq r hr
  le r hr := by
    have hrow := h.le r (Nat.lt_succ_of_lt hr)
    simp only [System.addLe, update_of_ne (Nat.ne_of_lt hr)] at hrow
    exact hrow

theorem System.Solves.addEq {s : System} {x row : Nat → Int} {b : Int} (h : s.Solves x)
    (hrow : dot s.vars row x = b) : (s.addEq row b).Solves x where
  eq r hr := by
    simp only [System.addEq]
    rcases Nat.lt_succ_iff_lt_or_eq.mp hr with hlt | rfl
    · rw [update_of_ne (Nat.ne_of_lt hlt), update_of_ne (Nat.ne_of_lt hlt)]
      exact h.eq r hlt
    · rw [update_self, update_self, ← hrow]
      exact dot_congr_left x fun j hj => if_pos hj
  le r hr := h.le r hr

theorem System.Solves.addLe {s : System} {x row : Nat → Int} {b : Int} (h : s.Solves x)
    (hrow : dot s.vars row x ≤ b) : (s.addLe row b).Solves x where
  eq r hr := h.eq r hr
  le r hr := by
    simp only [System.addLe]
    rcases Nat.lt_succ_iff_lt_or_eq.mp hr with hlt | rfl
    · rw [update_of_ne (Nat.ne_of_lt hlt), update_of_ne (Nat.ne_of_lt hlt)]
      exact h.le r hlt
    · rw [update_self, update_self]
      refine le_of_eq_of_le ?_ hrow
      exact dot_congr_left x fun j hj => if_pos hj

/-! ## The columns -/

/-- The columns: `dvDim` variables of each reference, in `workCols` columns, and which are used, a
variable with its conjugate. -/
structure Columns where
  dvDim : Nat
  firstDv1 : Nat
  firstDv2 : Nat
  workCols : Nat
  isUsed : Nat → Bool
  dv1_le : firstDv1 + dvDim ≤ firstDv2
  dv2_le : firstDv2 + dvDim ≤ workCols
  conjugate : ∀ i < dvDim, isUsed (firstDv1 + i) = isUsed (firstDv2 + i)

namespace Columns

variable (K : Columns)

/-- The counter of `Set_Map_Used` when it comes to column `i`. -/
def usedBefore (i : Nat) : Nat := ((range i).filter K.isUsed).length

/-- `Set_Map_Used`: the variable of the system for a used column. -/
def mapUsed (i : Nat) : Nat := K.usedBefore i

def numVarsUsed : Nat := K.usedBefore K.workCols

/-- The row that `Add_Direction` fills in: `_tmp` is cleared first. -/
def directionRow (i : Nat) (a b : Int) : Nat → Int :=
  update (update (fun _ => 0) (K.mapUsed (K.firstDv1 + i)) a)
    (K.mapUsed (K.firstDv2 + i)) b

/-- `Add_Direction`, for the three directions that it accepts. -/
def addDirection (soe : System) (i : Nat) (dir : Direction) : System :=
  match dir with
  | .eq => soe.addEq (K.directionRow i 1 (-1)) 0
  | .neg => soe.addLe (K.directionRow i (-1) 1) (-1)
  | .pos => soe.addLe (K.directionRow i 1 (-1)) (-1)
  | _ => soe

/-- `First_Star`: the first `*` at a used variable. -/
def firstStar (depv : DEPV) : Option Nat :=
  (range K.dvDim).find? fun i =>
    K.isUsed (K.firstDv1 + i) && direction (depv.getD i 0) == some .star

/-- The distance vectors of a point: differences where both are used, anything elsewhere. -/
def Distance (x : Nat → Int) (v : List Int) : Prop :=
  v.length = K.dvDim ∧ ∀ i < K.dvDim, K.isUsed (K.firstDv1 + i) = true →
    v.getD i 0 = x (K.mapUsed (K.firstDv2 + i)) - x (K.mapUsed (K.firstDv1 + i))

theorem usedBefore_succ (i : Nat) :
    K.usedBefore (i + 1) = K.usedBefore i + (if K.isUsed i then 1 else 0) := by
  unfold usedBefore
  rw [range_succ, filter_append, length_append]
  cases h : K.isUsed i <;> simp [h]

theorem usedBefore_mono (h : i ≤ j) : K.usedBefore i ≤ K.usedBefore j := by
  induction h with
  | refl => exact le_refl _
  | step _ ih =>
    rw [usedBefore_succ]
    omega

theorem mapUsed_lt (hu : K.isUsed i = true) (h : i < j) : K.mapUsed i < K.usedBefore j := by
  have hmono := K.usedBefore_mono (succ_le_of_lt h)
  rw [succ_eq_add_one, usedBefore_succ, if_pos hu] at hmono
  unfold mapUsed
  omega

theorem dot_directionRow (hi : i < K.dvDim) (hu : K.isUsed (K.firstDv1 + i) = true)
    (a b : Int) (x : Nat → Int) : dot K.numVarsUsed (K.directionRow i a b) x =
      a * x (K.mapUsed (K.firstDv1 + i)) + b * x (K.mapUsed (K.firstDv2 + i)) := by
  have hu2 : K.isUsed (K.firstDv2 + i) = true := by
    rw [← K.conjugate i hi]
    exact hu
  have h1 := K.dv1_le
  have h2 := K.dv2_le
  have hlt1 : K.mapUsed (K.firstDv1 + i) < K.mapUsed (K.firstDv2 + i) :=
    K.mapUsed_lt hu (by omega)
  have hlt2 : K.mapUsed (K.firstDv2 + i) < K.numVarsUsed := K.mapUsed_lt hu2 (by omega)
  -- take the second variable out of the row; one variable is left
  have hout := dot_update_zero (K.directionRow i a b) x hlt2
  have hone : dot K.numVarsUsed (update (K.directionRow i a b) (K.mapUsed (K.firstDv2 + i)) 0) x =
      a * x (K.mapUsed (K.firstDv1 + i)) := by
    unfold directionRow
    rw [update_idem]
    have hsingle := dot_single (a := update (update (fun _ => (0 : Int))
      (K.mapUsed (K.firstDv1 + i)) a) (K.mapUsed (K.firstDv2 + i)) 0) x (hlt1.trans hlt2) (by
        intro j _ hj
        by_cases hj2 : j = K.mapUsed (K.firstDv2 + i)
        · rw [hj2, update_self]
        · rw [update_of_ne hj2, update_of_ne hj])
    rw [hsingle, update_of_ne (Nat.ne_of_lt hlt1), update_self]
  have hcoeff : K.directionRow i a b (K.mapUsed (K.firstDv2 + i)) = b := update_self ..
  rw [hone, hcoeff] at hout
  omega

theorem addDirection_solves {soe : System} (hvars : soe.vars = K.numVarsUsed)
    (hi : i < K.dvDim) (hu : K.isUsed (K.firstDv1 + i) = true)
    (hx : soe.Solves x) (hv : K.Distance x v) :
    (K.addDirection soe i (signDirection (v.getD i 0))).Solves x := by
  have hd := hv.2 i hi hu
  unfold signDirection
  split_ifs with hpos hneg
  · refine hx.addLe ?_
    rw [hvars, K.dot_directionRow hi hu]
    omega
  · refine hx.addLe ?_
    rw [hvars, K.dot_directionRow hi hu]
    omega
  · refine hx.addEq ?_
    rw [hvars, K.dot_directionRow hi hu]
    omega

end Columns

/-! ## The search -/

/-- `DEPV_LIST::Append` with `numBadOuter` outer dimensions, assuming the worst of them. -/
def appendOuter (dvDim numBadOuter : Nat) (depv : DEPV) : List DEPV :=
  let around := fun (dir : Direction) (i : Nat) =>
    replicate i (setDirection .star) ++
      setDirection dir :: replicate (numBadOuter + dvDim - (i + 1)) (setDirection .star)
  (range numBadOuter).flatMap (fun i => [around .pos i, around .neg i]) ++
    [replicate numBadOuter (setDirection .eq) ++ depv]

def isAllEquals (depv : DEPV) (dvDim : Nat) : Bool :=
  (range dvDim).all fun i => direction (depv.getD i 0) == some .eq

/-- What does not change in a search. -/
structure Search where
  columns : Columns
  sameReference : Bool
  numBadOuter : Nat
  isConsistent : System → Bool

/-- The system, `input_dependence` and the result list. -/
structure SearchState where
  soe : System
  depv : DEPV
  result : List DEPV

/-- Pop the direction of dimension `i`. -/
def SearchState.pop (st : SearchState) (i : Nat) (dir : Direction) : SearchState :=
  { st with
    soe := if dir = .eq then st.soe.removeLastEq else st.soe.removeLastLe
    depv := st.depv.set i (setDirection .star) }

namespace Search

variable (S : Search)

/-- Push one direction for dimension `i`. -/
def push (st : SearchState) (i : Nat) (dir : Direction) : SearchState :=
  { st with
    soe := S.columns.addDirection st.soe i dir
    depv := st.depv.set i (setDirection dir) }

/-- The case of one direction: go on below if the system is consistent. -/
def tryDirection (below : SearchState → Option SearchState) (i : Nat) (dir : Direction)
    (st : SearchState) : Option SearchState :=
  let st := S.push st i dir
  (if S.isConsistent st.soe then below st else some st).map fun st => st.pop i dir

/-- An all equals from a reference to itself is not tried. -/
def skipsEquals (i : Nat) (depv : DEPV) : Bool :=
  S.sameReference && (i + 1 == S.columns.dvDim) && isAllEquals depv (S.columns.dvDim - 1)

/-- The equal direction, unless it is skipped. -/
def tryEquals (below : SearchState → Option SearchState) (i : Nat) (st : SearchState) :
    Option SearchState :=
  if S.skipsEquals i st.depv then some st else S.tryDirection below i .eq st

/-- `Compute_Dep_Vectors`, to a bound on the depth of the recursion. -/
def computeDepVectors : Nat → SearchState → Option SearchState
  | 0, _ => none
  | fuel + 1, st =>
    match S.columns.firstStar st.depv with
    | none =>
      some { st with
        result := st.result ++ appendOuter S.columns.dvDim S.numBadOuter st.depv }
    | some i => do
      let below := computeDepVectors fuel
      let st ← S.tryDirection below i .pos st
      let st ← S.tryEquals below i st
      S.tryDirection below i .neg st

end Search

/-! ## Vectors, dimension by dimension -/

theorem getD_set (depv : DEPV) (hi : i < depv.length) (d : DEP) (j : Nat) :
    (depv.set i d).getD j 0 = if i = j then d else depv.getD j 0 := by
  rw [getD_eq_getElem?_getD, getElem?_set, getD_eq_getElem?_getD]
  split_ifs with h
  · subst h
    rfl
  · rfl

theorem vecContains_iff : VecContains depv v ↔ depv.length = v.length ∧
      ∀ j < depv.length, Contains (depv.getD j 0) (v.getD j 0) := by
  unfold VecContains
  rw [forall₂_iff_get]
  refine and_congr_right fun hlen => ⟨fun h j hj => ?_, fun h j h1 h2 => ?_⟩
  · have hj' : j < v.length := hlen ▸ hj
    rw [getD_eq_getElem _ _ hj, getD_eq_getElem _ _ hj']
    exact h j hj hj'
  · have hc := h j h1
    rw [getD_eq_getElem _ _ h1, getD_eq_getElem _ _ h2] at hc
    exact hc

theorem vecContains_set (h : VecContains depv v)
    (hi : i < depv.length) {d : DEP} (hd : Contains d (v.getD i 0)) :
    VecContains (depv.set i d) v := by
  rw [vecContains_iff] at h ⊢
  rw [length_set]
  refine ⟨h.1, fun j hj => ?_⟩
  rw [getD_set depv hi]
  split_ifs with hij
  · rw [← hij]
    exact hd
  · exact h.2 j hj

/-- What a search leaves of `input_dependence`: a `*` may have lost its bound. -/
structure Restored (depv depv' : DEPV) : Prop where
  length : depv'.length = depv.length
  dep : ∀ j, depv'.getD j 0 = depv.getD j 0 ∨
    (direction (depv.getD j 0) = some .star ∧ depv'.getD j 0 = setDirection .star)

theorem direction_setDirection_star : direction (setDirection .star) = some .star := by decide

theorem Restored.refl (depv : DEPV) : Restored depv depv := ⟨rfl, fun _ => .inl rfl⟩

theorem Restored.direction {d d' : DEPV} (h : Restored d d') (j : Nat) :
    Dep.direction (d'.getD j 0) = Dep.direction (d.getD j 0) := by
  rcases h.dep j with hj | ⟨hstar, hj⟩
  · rw [hj]
  · rw [hj, hstar, direction_setDirection_star]

theorem Restored.trans {d1 d2 d3 : DEPV} (h : Restored d1 d2) (h' : Restored d2 d3) :
    Restored d1 d3 := by
  refine ⟨h'.length.trans h.length, fun j => ?_⟩
  rcases h'.dep j with hj | ⟨hstar, hj⟩
  · rw [hj]
    exact h.dep j
  · rw [h.direction] at hstar
    exact .inr ⟨hstar, hj⟩

theorem Restored.valid (h : Restored d d') (hv : Valid (d.getD j 0)) : Valid (d'.getD j 0) := by
  rcases h.dep j with hj | ⟨-, hj⟩
  · rw [hj]
    exact hv
  · rw [hj]
    exact valid_setDirection _

theorem Restored.contains (h : Restored d d') (hv : VecContains d v) : VecContains d' v := by
  rw [vecContains_iff] at hv ⊢
  rw [h.length]
  refine ⟨hv.1, fun j hj => ?_⟩
  rcases h.dep j with hj' | ⟨-, hj'⟩
  · rw [hj']
    exact hv.2 j hj
  · rw [hj', contains_setDirection]
    trivial

theorem Restored.unset (hi : i < d.length) {e : DEP}
    (hstar : Dep.direction (d.getD i 0) = some .star) (h : Restored (d.set i e) d') :
    Restored d (d'.set i (setDirection .star)) := by
  have hlen : d'.length = d.length := by
    rw [h.length, length_set]
  refine ⟨by rw [length_set, hlen], fun j => ?_⟩
  rw [getD_set d' (by omega)]
  by_cases hij : i = j
  · rw [if_pos hij, ← hij]
    exact .inr ⟨hstar, rfl⟩
  · have hj := h.dep j
    rw [getD_set d hi, if_neg hij] at hj
    rw [if_neg hij]
    exact hj

/-! ## What is appended -/

theorem appendOuter_covers {dvDim numBadOuter : Nat} {outer : List Int}
    (hv : VecContains depv v) (hlen : v.length = dvDim) (houter : outer.length = numBadOuter) :
    Covers (appendOuter dvDim numBadOuter depv) (outer ++ v) := by
  have star : ∀ l : List Int, VecContains (replicate l.length (setDirection .star)) l := by
    intro l
    induction l with
    | nil => exact List.Forall₂.nil
    | cons z l ih =>
      exact List.Forall₂.cons ((contains_setDirection .star z).mpr trivial) ih
  unfold appendOuter
  rw [covers_append]
  by_cases hzero : AllZero outer
  · refine .inr (covers_singleton (rel_append ?_ hv))
    rw [← houter]
    clear houter
    induction outer with
    | nil => exact List.Forall₂.nil
    | cons z outer ih =>
      refine List.Forall₂.cons ?_ (ih fun y hy => hzero y (mem_cons_of_mem _ hy))
      rw [contains_setDirection]
      exact hzero z mem_cons_self
  · -- the first outer dimension that is not equal
    unfold AllZero at hzero
    push Not at hzero
    obtain ⟨z, hz, hne⟩ := hzero
    obtain ⟨l1, l2, rfl⟩ := append_of_mem hz
    have hlens : numBadOuter + dvDim - (l1.length + 1) = (l2 ++ v).length := by
      simp only [length_append, length_cons] at houter ⊢
      omega
    have around : ∀ dir : Direction, dir.Holds z →
        VecContains (replicate l1.length (setDirection .star) ++ setDirection dir ::
          replicate (numBadOuter + dvDim - (l1.length + 1)) (setDirection .star))
          (l1 ++ z :: l2 ++ v) := by
      intro dir hdir
      rw [hlens, append_assoc, cons_append]
      exact rel_append (star l1)
        (List.Forall₂.cons ((contains_setDirection dir z).mpr hdir) (star (l2 ++ v)))
    have hmem : l1.length ∈ range numBadOuter := by
      rw [mem_range, ← houter, length_append, length_cons]
      omega
    refine .inl ?_
    rcases lt_or_gt_of_ne hne with h | h
    · exact ⟨_, mem_flatMap.mpr ⟨l1.length, hmem, by simp⟩, around .neg h⟩
    · exact ⟨_, mem_flatMap.mpr ⟨l1.length, hmem, by simp⟩, around .pos h⟩

theorem VecBuilt.set (h : VecBuilt depv) {d : DEP} (hd : Built d) (i : Nat) :
    VecBuilt (depv.set i d) := by
  intro dep hdep
  rcases mem_or_eq_of_mem_set hdep with hdep | rfl
  · exact h dep hdep
  · exact hd

theorem VecBuilt.append {d₁ d₂ : DEPV} (h₁ : VecBuilt d₁) (h₂ : VecBuilt d₂) :
    VecBuilt (d₁ ++ d₂) := fun dep hdep => (mem_append.mp hdep).elim (h₁ dep) (h₂ dep)

theorem vecBuilt_replicate (n : Nat) (dir : Direction) :
    VecBuilt (replicate n (setDirection dir)) := by
  intro dep hdep
  rw [eq_of_mem_replicate hdep]
  exact .setDirection dir

/-- The vector has `n` dimensions, each built by the operations. -/
def WellBuilt (n : Nat) (depv : DEPV) : Prop := depv.length = n ∧ VecBuilt depv

theorem appendOuter_wellBuilt {dvDim : Nat} (numBadOuter : Nat) (h : WellBuilt dvDim depv) :
    ∀ d ∈ appendOuter dvDim numBadOuter depv, WellBuilt (numBadOuter + dvDim) d := by
  intro d hd
  unfold appendOuter at hd
  rcases mem_append.mp hd with hd | hd
  · obtain ⟨i, hi, hd⟩ := mem_flatMap.mp hd
    have hlt := mem_range.mp hi
    have haround : ∀ dir : Direction, WellBuilt (numBadOuter + dvDim)
        (replicate i (setDirection .star) ++ setDirection dir ::
          replicate (numBadOuter + dvDim - (i + 1)) (setDirection .star)) := fun dir => by
      refine ⟨?_, (vecBuilt_replicate i .star).append fun dep hdep => ?_⟩
      · simp only [length_append, length_cons, length_replicate]
        omega
      · rcases mem_cons.mp hdep with rfl | hdep
        · exact .setDirection dir
        · exact vecBuilt_replicate _ .star dep hdep
    rcases mem_cons.mp hd with rfl | hd
    · exact haround .pos
    · rw [mem_singleton.mp hd]
      exact haround .neg
  · rw [mem_singleton.mp hd]
    exact ⟨by rw [length_append, length_replicate, h.1], (vecBuilt_replicate _ .eq).append h.2⟩

/-! ## One direction -/

namespace Search

variable {S : Search}

/-- From `st` to `st'`: rows and vector are restored, and the vectors appended cover the solutions
with `P`. -/
structure Outcome (S : Search) (P : List Int → Prop) (st st' : SearchState) : Prop where
  rows : st.soe.SameRows st'.soe
  depv : Restored st.depv st'.depv
  covers : ∃ emitted, st'.result = st.result ++ emitted ∧
    ∀ x v, st.soe.Solves x → S.columns.Distance x v → VecContains st.depv v →
      (S.sameReference = true → ¬AllZero v) → P v →
      ∀ outer, outer.length = S.numBadOuter → Covers emitted (outer ++ v)

theorem Outcome.trans {P Q : List Int → Prop} {s1 s2 s3 : SearchState} (h : Outcome S P s1 s2)
    (h' : Outcome S Q s2 s3) : Outcome S (fun v => P v ∨ Q v) s1 s3 := by
  obtain ⟨e1, he1, hc1⟩ := h.covers
  obtain ⟨e2, he2, hc2⟩ := h'.covers
  refine ⟨h.rows.trans h'.rows, h.depv.trans h'.depv, e1 ++ e2, ?_, ?_⟩
  · rw [he2, he1, append_assoc]
  · intro x v hx hv hc hsame hP outer houter
    rw [covers_append]
    rcases hP with hP | hQ
    · exact .inl (hc1 x v hx hv hc hsame hP outer houter)
    · exact .inr (hc2 x v (h.rows.solves hx) hv (h.depv.contains hc) hsame hQ outer houter)

theorem Outcome.imp {Q : List Int → Prop} (h : Outcome S P st st')
    (hQ : ∀ v, Q v → P v) : Outcome S Q st st' := by
  obtain ⟨e, he, hc⟩ := h.covers
  exact ⟨h.rows, h.depv, e, he, fun x v hx hv hd hsame hq => hc x v hx hv hd hsame (hQ v hq)⟩

/-- What a search needs of its state. -/
structure Ready (S : Search) (st : SearchState) : Prop where
  vars : st.soe.vars = S.columns.numVarsUsed
  length : st.depv.length = S.columns.dvDim
  valid : ∀ j, Valid (st.depv.getD j 0)

theorem Ready.outcome (h : Ready S st) (ho : Outcome S P st st') : Ready S st' where
  vars := ho.rows.vars.trans h.vars
  length := ho.depv.length.trans h.length
  valid j := ho.depv.valid (h.valid j)

theorem addDirection_vars (K : Columns) (soe : System) (i : Nat) (dir : Direction) :
    (K.addDirection soe i dir).vars = soe.vars := by
  cases dir <;> rfl

theorem Ready.push {st : SearchState} (h : Ready S st) {i : Nat} (hi : i < S.columns.dvDim)
    (dir : Direction) : Ready S (S.push st i dir) where
  vars := by
    rw [← h.vars]
    exact addDirection_vars _ _ _ _
  length := by
    show (st.depv.set i _).length = _
    rw [length_set, h.length]
  valid j := by
    show Valid ((st.depv.set i _).getD j 0)
    rw [getD_set _ (by rw [h.length]; exact hi)]
    split_ifs
    · exact valid_setDirection _
    · exact h.valid j

theorem sameRows_pop (hdir : dir = .pos ∨ dir = .eq ∨ dir = .neg)
    (h : (S.columns.addDirection st.soe i dir).SameRows st'.soe) :
    st.soe.SameRows (st'.pop i dir).soe := by
  rcases hdir with rfl | rfl | rfl
  · exact h.popLe
  · exact h.popEq
  · exact h.popLe

/-- One direction tried below a vertex: a dependence with that direction is found by the recursion,
or the system refuses it. -/
theorem tryDirection_outcome {below : SearchState → Option SearchState}
    (hcons : ∀ soe x, soe.Solves x → S.isConsistent soe = true)
    (hready : Ready S st) (hi : i < S.columns.dvDim)
    (hused : S.columns.isUsed (S.columns.firstDv1 + i) = true)
    (hstar : direction (st.depv.getD i 0) = some .star)
    (hdir : dir = .pos ∨ dir = .eq ∨ dir = .neg)
    (hbelow : ∃ st', below (S.push st i dir) = some st' ∧
      Outcome S (fun _ => True) (S.push st i dir) st') :
    ∃ st', S.tryDirection below i dir st = some st' ∧
      Outcome S (fun v => signDirection (v.getD i 0) = dir) st st' := by
  have hlen : i < st.depv.length := by
    rw [hready.length]
    exact hi
  unfold tryDirection
  -- a solution with that distance is a solution after the push
  have pushed : ∀ x v, st.soe.Solves x → S.columns.Distance x v → VecContains st.depv v →
      signDirection (v.getD i 0) = dir →
      (S.push st i dir).soe.Solves x ∧ VecContains (S.push st i dir).depv v := by
    intro x v hx hv hc hd
    subst hd
    refine ⟨S.columns.addDirection_solves hready.vars hi hused hx hv, ?_⟩
    exact vecContains_set hc hlen ((contains_setDirection _ _).mpr (signDirection_holds _))
  by_cases hok : S.isConsistent (S.push st i dir).soe = true
  · obtain ⟨st', hst', ho⟩ := hbelow
    refine ⟨st'.pop i dir, ?_, sameRows_pop hdir ho.rows, Restored.unset hlen hstar ho.depv, ?_⟩
    · simp only [hok, if_true, hst', Option.map_some]
    · obtain ⟨e, he, hc⟩ := ho.covers
      refine ⟨e, he, fun x v hx hv hd hsame hP outer houter => ?_⟩
      obtain ⟨hx', hd'⟩ := pushed x v hx hv hd hP
      exact hc x v hx' hv hd' hsame trivial outer houter
  · refine ⟨(S.push st i dir).pop i dir, ?_, ?_, ?_, [], ?_, ?_⟩
    · simp only [hok]
      rfl
    · exact sameRows_pop hdir (System.SameRows.refl _)
    · exact Restored.unset hlen hstar (Restored.refl _)
    · rw [append_nil]
      rfl
    · intro x v hx hv hd _ hP
      exact absurd (hcons _ x (pushed x v hx hv hd hP).1) hok

theorem skip_outcome (hready : Ready S st)
    (hskip : S.skipsEquals i st.depv = true) :
    Outcome S (fun v => signDirection (v.getD i 0) = .eq) st st := by
  unfold skipsEquals isAllEquals at hskip
  simp only [Bool.and_eq_true, beq_iff_eq, all_eq_true, mem_range] at hskip
  obtain ⟨⟨hsame, hlast⟩, hall⟩ := hskip
  refine ⟨System.SameRows.refl _, Restored.refl _, [], (append_nil _).symm, ?_⟩
  intro x v _ hv hc hnot hi
  refine absurd (fun z hz => ?_) (hnot hsame)
  obtain ⟨j, hj, rfl⟩ := mem_iff_getElem.mp hz
  rw [vecContains_iff] at hc
  rw [← getD_eq_getElem v 0 hj]
  have hj' : j < S.columns.dvDim := hv.1 ▸ hj
  by_cases hji : j = i
  · have hholds := signDirection_holds (v.getD i 0)
    rw [hi] at hholds
    rw [hji]
    exact hholds
  · have hcj := hc.2 j (by rw [hready.length]; exact hj')
    exact (hready.valid j).holds (hall j (by omega)) hcj

/-- No `*` is left among the used dimensions below `k`. -/
def NoStarBefore (S : Search) (k : Nat) (depv : DEPV) : Prop :=
  ∀ j < k, S.columns.isUsed (S.columns.firstDv1 + j) = true →
    direction (depv.getD j 0) ≠ some .star

theorem firstStar_some {K : Columns} (h : K.firstStar depv = some i) :
    i < K.dvDim ∧ K.isUsed (K.firstDv1 + i) = true ∧ direction (depv.getD i 0) = some .star ∧
      ∀ j < i, K.isUsed (K.firstDv1 + j) = true → direction (depv.getD j 0) ≠ some .star := by
  unfold Columns.firstStar at h
  rw [find?_range_eq_some] at h
  obtain ⟨hp, hmem, hbefore⟩ := h
  rw [Bool.and_eq_true, beq_iff_eq] at hp
  refine ⟨mem_range.mp hmem, hp.1, hp.2, fun j hj hu hstar => ?_⟩
  have hno := hbefore j hj
  rw [hu, hstar] at hno
  cases hno

/-- The search over the directions, by induction on the dimensions left. -/
theorem computeDepVectors_outcome (hcons : ∀ soe x, soe.Solves x → S.isConsistent soe = true)
    (fuel : Nat) : ∀ (k : Nat) (st : SearchState), S.columns.dvDim < fuel + k →
      k ≤ S.columns.dvDim → Ready S st → NoStarBefore S k st.depv →
      ∃ st', S.computeDepVectors fuel st = some st' ∧ Outcome S (fun _ => True) st st' := by
  induction fuel with
  | zero =>
    intro k st hfuel hk _ _
    omega
  | succ fuel ih =>
    intro k st hfuel hk hready hstars
    unfold computeDepVectors
    cases hfirst : S.columns.firstStar st.depv with
    | none =>
      -- no star left: the vector is added
      refine ⟨_, rfl, System.SameRows.refl _, Restored.refl _, _, rfl, ?_⟩
      intro x v _ hv hc _ _ outer houter
      exact appendOuter_covers hc hv.1 houter
    | some i =>
      -- the first star is tried as positive, zero and negative, in this order
      obtain ⟨hi, hused, hstar, hbefore⟩ := firstStar_some hfirst
      have hki : k ≤ i := by
        by_contra hlt
        exact hstars i (by omega) hused hstar
      -- the recursive call on any state like this one, with dimension `i` set
      have below : ∀ st1 : SearchState, Ready S st1 → Restored st.depv st1.depv →
          ∀ dir : Direction, dir ≠ .star → ∃ st', S.computeDepVectors fuel (S.push st1 i dir) =
            some st' ∧ Outcome S (fun _ => True) (S.push st1 i dir) st' := by
        intro st1 hready1 hrest dir hdir
        refine ih (i + 1) _ (by omega) hi (hready1.push hi dir) fun j hj hu => ?_
        show direction ((st1.depv.set i (setDirection dir)).getD j 0) ≠ some .star
        rw [getD_set _ (by rw [hready1.length]; exact hi)]
        split_ifs with hij
        · revert hdir
          cases dir <;> decide
        · rw [hrest.direction]
          exact hbefore j (by omega) hu
      have star : ∀ {st1 : SearchState}, Restored st.depv st1.depv →
          direction (st1.depv.getD i 0) = some .star := fun hrest => by
        rw [hrest.direction, hstar]
      obtain ⟨s1, hs1, ho1⟩ := tryDirection_outcome hcons hready hi hused hstar (.inl rfl)
        (below st hready (Restored.refl _) .pos (by decide))
      have hready1 := hready.outcome ho1
      have heq : ∃ s2, S.tryEquals (S.computeDepVectors fuel) i s1 = some s2 ∧
          Outcome S (fun v => signDirection (v.getD i 0) = .eq) s1 s2 := by
        unfold tryEquals
        by_cases hskip : S.skipsEquals i s1.depv = true
        · rw [if_pos hskip]
          exact ⟨s1, rfl, skip_outcome hready1 hskip⟩
        · rw [if_neg hskip]
          exact tryDirection_outcome hcons hready1 hi hused (star ho1.depv) (.inr (.inl rfl))
            (below s1 hready1 ho1.depv .eq (by decide))
      obtain ⟨s2, hs2, ho2⟩ := heq
      have hready2 := hready1.outcome ho2
      have hrest2 := ho1.depv.trans ho2.depv
      obtain ⟨s3, hs3, ho3⟩ := tryDirection_outcome hcons hready2 hi hused (star hrest2)
        (.inr (.inr rfl)) (below s2 hready2 hrest2 .neg (by decide))
      refine ⟨s3, ?_, ((ho1.trans ho2).trans ho3).imp fun v _ => ?_⟩
      · simp only [hs1, hs2, hs3, Option.bind_eq_bind, Option.bind_some]
      · unfold signDirection
        split_ifs
        · exact .inl (.inl rfl)
        · exact .inr rfl
        · exact .inl (.inr rfl)

/-! ## Every vector found is built -/

/-- The vector searched and those found so far. -/
def BuiltState (S : Search) (st : SearchState) : Prop :=
  WellBuilt S.columns.dvDim st.depv ∧
    ∀ depv ∈ st.result, WellBuilt (S.numBadOuter + S.columns.dvDim) depv

theorem tryDirection_built {below : SearchState → Option SearchState}
    (hbelow : ∀ st st', BuiltState S st → below st = some st' → BuiltState S st')
    {st st' : SearchState} (h : BuiltState S st)
    (hst : S.tryDirection below i dir st = some st') : BuiltState S st' := by
  obtain ⟨st₁, hst₁, rfl⟩ := Option.map_eq_some_iff.mp hst
  have hpush : BuiltState S (S.push st i dir) :=
    ⟨⟨length_set.trans h.1.1, h.1.2.set (.setDirection dir) i⟩, h.2⟩
  have h₁ : BuiltState S st₁ := by
    split at hst₁
    · exact hbelow _ _ hpush hst₁
    · cases hst₁
      exact hpush
  exact ⟨⟨length_set.trans h₁.1.1, h₁.1.2.set (.setDirection .star) i⟩, h₁.2⟩

theorem computeDepVectors_built (fuel : Nat) : ∀ st st' : SearchState, BuiltState S st →
    S.computeDepVectors fuel st = some st' → BuiltState S st' := by
  induction fuel with
  | zero => exact fun st st' _ hst => nomatch hst
  | succ fuel ih =>
    intro st st' h hst
    unfold computeDepVectors at hst
    split at hst
    · cases hst
      refine ⟨h.1, fun depv hdepv => ?_⟩
      rcases mem_append.mp hdepv with hdepv | hdepv
      · exact h.2 depv hdepv
      · exact appendOuter_wellBuilt _ h.1 depv hdepv
    · next i _ =>
      obtain ⟨st₁, hst₁, hst⟩ := Option.bind_eq_some_iff.mp hst
      obtain ⟨st₂, hst₂, hst₃⟩ := Option.bind_eq_some_iff.mp hst
      have h₁ := tryDirection_built ih h hst₁
      have h₂ : BuiltState S st₂ := by
        unfold tryEquals at hst₂
        split at hst₂
        · cases hst₂
          exact h₁
        · exact tryDirection_built ih h₁ hst₂
      exact tryDirection_built ih h₂ hst₃

/-- `Compute_Dep_Vectors` is complete: every solution of the system, but an all-equal self
dependence, has its distance vector in a vector that is appended; and the rows are those present on
entry. -/
theorem computeDepVectors_complete (S : Search)
    (hcons : ∀ soe x, soe.Solves x → S.isConsistent soe = true) (soe : System)
    (hvars : soe.vars = S.columns.numVarsUsed) (depv : DEPV)
    (hlen : depv.length = S.columns.dvDim) (hbuilt : VecBuilt depv) (result : List DEPV) :
    ∃ soe' depv' emitted, S.computeDepVectors (S.columns.dvDim + 1) ⟨soe, depv, result⟩ =
        some ⟨soe', depv', result ++ emitted⟩ ∧ soe.SameRows soe' ∧
      ∀ x v, soe.Solves x → S.columns.Distance x v → VecContains depv v →
        (S.sameReference = true → ¬AllZero v) →
        ∀ outer, outer.length = S.numBadOuter → Covers emitted (outer ++ v) := by
  have hvalid : ∀ j, Valid (depv.getD j 0) := by
    intro j
    by_cases hj : j < depv.length
    · rw [getD_eq_getElem _ _ hj]
      exact (hbuilt _ (getElem_mem hj)).valid
    · rw [getD_eq_default _ _ (by omega)]
      exact valid_of_direction (by decide)
  obtain ⟨st', hst', ho⟩ := computeDepVectors_outcome hcons (S.columns.dvDim + 1) 0
    ⟨soe, depv, result⟩ (by omega) (zero_le _) ⟨hvars, hlen, hvalid⟩
    (fun j hj => absurd hj (not_lt_zero j))
  obtain ⟨e, he, hc⟩ := ho.covers
  refine ⟨st'.soe, st'.depv, e, ?_, ho.rows, ?_⟩
  · rw [hst', ← he]
  · intro x v hx hv hd hsame outer houter
    exact hc x v hx hv hd hsame trivial outer houter

/-- Two loops variables and no constraint, which is consistent in every direction. -/
def freeSearch : Search where
  columns :=
    { dvDim := 1, firstDv1 := 0, firstDv2 := 1, workCols := 2, isUsed := fun _ => true
      dv1_le := by decide, dv2_le := by decide, conjugate := fun _ _ => rfl }
  sameReference := true
  numBadOuter := 0
  isConsistent := fun _ => true

/-- The system without rows. -/
def freeSystem : System where
  vars := 2
  aeq := fun _ _ => 0
  beq := fun _ => 0
  eqnsEq := 0
  ale := fun _ _ => 0
  ble := fun _ => 0
  eqnsLe := 0

theorem computeDepVectors_complete_free : ∃ soe' depv' emitted,
      freeSearch.computeDepVectors 2 ⟨freeSystem, [setDirection .star], []⟩ =
        some ⟨soe', depv', [] ++ emitted⟩ ∧
      freeSystem.SameRows soe' ∧ Covers emitted ([] ++ [3]) := by
  obtain ⟨soe', depv', emitted, hrun, hrows, hcovers⟩ :=
    computeDepVectors_complete freeSearch (fun _ _ _ => rfl) freeSystem rfl
      [setDirection .star] rfl (fun dep hdep => by
        rw [mem_singleton.mp hdep]
        exact Built.setDirection _) []
  refine ⟨soe', depv', emitted, hrun, hrows, ?_⟩
  refine hcovers (fun j => if j = 0 then 0 else 3) [3] ?_ ⟨rfl, ?_⟩ ?_ ?_ [] rfl
  · exact ⟨fun r hr => absurd hr (not_lt_zero r), fun r hr => absurd hr (not_lt_zero r)⟩
  · intro i hi _
    have hzero : i = 0 := lt_one_iff.mp hi
    subst hzero
    decide
  · exact List.Forall₂.cons ((contains_setDirection .star 3).mpr trivial) List.Forall₂.nil
  · intro _ h
    exact absurd (h 3 mem_cons_self) (by decide)

end Search

end Dep
