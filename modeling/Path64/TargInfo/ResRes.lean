import Path64.TargInfo.ResGen

/-! # Resource reservation for a loop

The table holds one word for each cycle of the II. The words of a
requirement are added from the cycle on, in two loops: up to the end of the
table and then from its start. One addition and one mask tell whether all
resources of a cycle are within their counts. -/

namespace TargInfo

open Int List Fields
open BitVec (ofNat toNat_ofNat)

/-! ## Model -/

/-- `TI_RES_RES`, for a cyclic schedule. -/
structure ResRes where
  rrtab : Nat → BitVec 64
  length : Nat

/-- The loops of `Cycle_Mod_II`. -/
def addUntil (ii cyc : Int) (h : 0 < ii) : Int :=
  if cyc + ii < 0 then addUntil ii (cyc + ii) h else cyc + ii
termination_by (-cyc).toNat

def subUntil (ii cyc : Int) (h : 0 < ii) : Int :=
  if ii ≤ cyc - ii then subUntil ii (cyc - ii) h else cyc - ii
termination_by cyc.toNat

/-- `Cycle_Mod_II`; a zero `ii` is asserted away. -/
def cycleModII (cyc : Int) (ii : Nat) (h : 0 < ii) : Int :=
  if cyc < 0 then addUntil ii cyc (by omega)
  else if ii ≤ cyc then subUntil ii cyc (by omega)
  else cyc

/-- What `Check_Reserve_Loop_Control` sets. -/
structure LoopControl where
  rr : Rr
  length1 : Nat
  length2 : Nat
  cycleModII : Nat

/-- `Check_Reserve_Loop_Control`; `none` when there is no requirement for the II. -/
def checkReserveLoopControl (res : ResRes) (info : Si) (cycle : Int) : Option LoopControl :=
  if h : 0 < res.length then
    (tsiIIResourceRequirement info res.length).map fun rr =>
      let cycleModII := (cycleModII cycle res.length h).toNat
      if cycleModII + rrLength rr ≤ res.length then ⟨rr, rrLength rr, 0, cycleModII⟩
      else ⟨rr, res.length - cycleModII, rrLength rr - (res.length - cycleModII), cycleModII⟩
  else none

/-- `TI_RES_RES_Set_BB_Cycle_Count`; what the table held does not matter. -/
def setBBCycleCount (word : ResWord) (rrtab : Nat → BitVec 64) (length : Nat) : ResRes :=
  ⟨fun i => if i < length then word.initializer else rrtab i, length⟩

/-- `SI_RRW_Has_Overuse`. -/
def hasOveruse (word : ResWord) (wordWithReservations : BitVec 64) : Bool :=
  wordWithReservations &&& word.overuseMask != 0

/-- `TI_RES_RES_Resources_Available`. -/
def resourcesAvailable (word : ResWord) (res : ResRes) (info : Si) (cycle : Int) : Option Bool :=
  (checkReserveLoopControl res info cycle).map fun ctl =>
    let check : Except Bool Unit := do
      Loop.forFrom (fun i _ =>
        if hasOveruse word (res.rrtab (ctl.cycleModII + i) + rrCycleRRW ctl.rr i) then .error false
        else .ok ()) ctl.length1 0 ()
      Loop.forFrom (fun i _ =>
        if hasOveruse word (res.rrtab i + rrCycleRRW ctl.rr (i + ctl.length1)) then .error false
        else .ok ()) ctl.length2 0 ()
    match check with
    | .error r => r
    | .ok () => true

/-- The loops of the two functions below, which differ in what they do to a word. -/
def updateResources (f : BitVec 64 → BitVec 64 → BitVec 64) (res : ResRes) (info : Si)
    (cycle : Int) : Option ResRes :=
  (checkReserveLoopControl res info cycle).map fun ctl =>
    let rrtab := Loop.forEach (fun i tab => Function.update tab (ctl.cycleModII + i)
      (f (tab (ctl.cycleModII + i)) (rrCycleRRW ctl.rr i))) ctl.length1 0 res.rrtab
    let rrtab := Loop.forEach (fun i tab => Function.update tab i
      (f (tab i) (rrCycleRRW ctl.rr (i + ctl.length1)))) ctl.length2 0 rrtab
    { res with rrtab := rrtab }

/-- `TI_RES_RES_Reserve_Resources`. -/
def reserveResources : ResRes → Si → Int → Option ResRes := updateResources (· + ·)

/-- `TI_RES_RES_Unreserve_Resources`. -/
def unreserveResources : ResRes → Si → Int → Option ResRes := updateResources (· - ·)

/-- What is reserved: a group and the cycle that it starts in. -/
abbrev Reservations := List (Group × Int)

/-- How much of a resource is used in a slot of the II. -/
def totalUse (rs : Reservations) (ii slot r : Nat) : Nat :=
  (rs.map fun p => p.1.use ii p.2 slot r).sum

/-- A table after reservations of what was available and releases of what was reserved. -/
inductive Run (word : ResWord) (gen : Group → Option Si) (groups : List Group) (ii : Nat) :
    ResRes → Reservations → Prop
  | start (rrtab : Nat → BitVec 64) : Run word gen groups ii (setBBCycleCount word rrtab ii) []
  | reserve {s s' : ResRes} {rs : Reservations} {g : Group} {info : Si} {c : Int} :
      Run word gen groups ii s rs → g ∈ groups → gen g = some info →
      resourcesAvailable word s info c = some true → reserveResources s info c = some s' →
      Run word gen groups ii s' ((g, c) :: rs)
  | unreserve {s s' : ResRes} {rs : Reservations} {g : Group} {info : Si} {c : Int} :
      Run word gen groups ii s rs → (g, c) ∈ rs → gen g = some info →
      unreserveResources s info c = some s' → Run word gen groups ii s' (rs.erase (g, c))

/-! ## The fields of a word -/

section Word

variable {res : List Res}

/-- The width of the field of a resource. -/
def width (res : List Res) (j : Nat) : Nat := (res[j]?.map Res.fieldWidth).getD 0

/-- What the field holds when nothing is used. -/
def initial (res : List Res) (j : Nat) : Nat := 2 ^ (width res j - 1) - (resCount res j + 1)

theorem calculateFieldWidth_spec {count : Nat} (hpos : 0 < count) :
    ∀ {n : Nat}, count < 2 ^ n → 2 ≤ calculateFieldWidth count n ∧
      count < 2 ^ (calculateFieldWidth count n - 1) ∧ calculateFieldWidth count n ≤ n + 1
  | 0, hlt => by
    rw [pow_zero] at hlt
    omega
  | n + 1, hlt => by
    rw [calculateFieldWidth]
    split
    · exact ⟨by omega, by simpa using hlt, by omega⟩
    · rename_i hbit
      have hlt' : count < 2 ^ n := by
        by_contra hge
        refine hbit ?_
        have hdiv : count / 2 ^ n = 1 := by
          rw [Nat.div_eq_iff (Nat.two_pow_pos _)]
          rw [pow_succ] at hlt
          omega
        rw [Nat.testBit_eq_decide_div_mod_eq, hdiv]
        rfl
      obtain ⟨h2, hcount, hle⟩ := calculateFieldWidth_spec hpos hlt'
      exact ⟨h2, hcount, by omega⟩

theorem Res.fieldWidth_spec (r : Res) : 2 ≤ r.fieldWidth ∧ r.count < 2 ^ (r.fieldWidth - 1) := by
  have h := calculateFieldWidth_spec r.count_pos (n := 32)
    (r.count_lt.trans (by norm_num))
  exact ⟨h.1, h.2.1⟩

theorem width_spec {j : Nat} (hj : j < res.length) :
    2 ≤ width res j ∧ resCount res j < 2 ^ (width res j - 1) := by
  unfold width resCount
  rw [getElem?_eq_getElem hj]
  exact (res[j]).fieldWidth_spec

theorem initial_add {j u : Nat} (hj : j < res.length) :
    (2 ^ (width res j - 1) ≤ initial res j + u ↔ resCount res j < u) ∧
      (u ≤ 2 * resCount res j → initial res j + u < 2 ^ width res j) := by
  obtain ⟨h2, hcount⟩ := width_spec hj
  have hpow : 2 ^ width res j = 2 * 2 ^ (width res j - 1) := by
    rw [← pow_succ']
    congr 1
    omega
  unfold initial
  rw [hpow]
  omega

theorem ofNat_shiftLeft (v k : Nat) : ofNat 64 (v <<< k) = ofNat 64 v <<< k := by
  apply BitVec.eq_of_toNat_eq
  rw [BitVec.toNat_shiftLeft, toNat_ofNat, toNat_ofNat, Nat.shiftLeft_eq,
    Nat.shiftLeft_eq, Nat.mod_mul_mod]

/-- The word with the fields of the first resources. -/
structure FieldsOk (res : List Res) (n : Nat) (word : ResWord) (shiftCount : List Nat) : Prop where
  bitInx : word.bitInx = start (width res) n
  lt : word.bitInx < 64
  initializer : word.initializer = ofNat 64 (pack (width res) (initial res) n)
  overuseMask : word.overuseMask =
    ofNat 64 (pack (width res) (fun j => 2 ^ (width res j - 1)) n)
  length : shiftCount.length = n
  shiftCount : ∀ j < n, shiftCount.getD j 0 = start (width res) j

/-- One more resource: its field is placed above those before it. -/
theorem FieldsOk.next {n : Nat} {word word' : ResWord} {shiftCount : List Nat} {bit : Nat}
    (h : FieldsOk res n word shiftCount) (hn : n < res.length)
    (halloc : word.allocateField (res[n]).fieldWidth (res[n]).count = some (word', bit)) :
    FieldsOk res (n + 1) word' (shiftCount ++ [bit]) := by
  have hwidth : (res[n]).fieldWidth = width res n := by
    unfold width
    rw [getElem?_eq_getElem hn]
    rfl
  have hcount : (res[n]).count = resCount res n := by
    unfold resCount
    rw [getElem?_eq_getElem hn]
    rfl
  rw [hwidth, hcount] at halloc
  unfold ResWord.allocateField at halloc
  simp only at halloc
  split at halloc
  · cases halloc
  rename_i hlt
  obtain ⟨rfl, rfl⟩ := Prod.mk.inj (Option.some.inj halloc)
  have hfit : ∀ j < n, 2 ^ (width res j - 1) < 2 ^ width res j ∧
      initial res j < 2 ^ width res j := by
    intro j hj
    have h2 := (width_spec (show j < res.length by omega)).1
    have hinit := (initial_add (u := 0) (show j < res.length by omega)).2 (Nat.zero_le _)
    exact ⟨Nat.pow_lt_pow_right (by norm_num) (by omega), hinit⟩
  have hone : (1 : BitVec 64) <<< (width res n - 1) = ofNat 64 (2 ^ (width res n - 1)) := by
    rw [← Nat.one_shiftLeft, ofNat_shiftLeft]
    rfl
  obtain ⟨h2, hcount⟩ := width_spec hn
  refine ⟨?_, by simp only; omega, ?_, ?_, by simp [h.length], fun j hj => ?_⟩
  · simp only
    rw [h.bitInx, start_succ]
  · simp only
    rw [pack_succ_or fun j hj => (hfit j hj).2, BitVec.ofNat_or, ofNat_shiftLeft, h.initializer,
      h.bitInx, hone]
    congr 2
    unfold initial
    rw [BitVec.ofNat_sub_ofNat_of_le _ _ (by
      have := Nat.pow_lt_pow_right (show 1 < 2 by norm_num) (show width res n - 1 < 64 by omega)
      omega) (by omega)]
  · simp only
    rw [pack_succ_or fun j hj => (hfit j hj).1, BitVec.ofNat_or, ofNat_shiftLeft, h.overuseMask,
      h.bitInx, hone]
  · rcases Nat.lt_succ_iff_lt_or_eq.mp hj with hj | rfl
    · rw [getD_append _ _ _ _ (by rw [h.length]; exact hj), h.shiftCount j hj]
    · rw [getD_append_right _ _ _ _ (by rw [h.length]), h.length, Nat.sub_self,
        getD_cons_zero, h.bitInx]

theorem calculateFields_spec {word : ResWord} {shiftCount : List Nat}
    (h : calculateFields res = some (word, shiftCount)) :
    FieldsOk res res.length word shiftCount := by
  have hgen : ∀ n ≤ res.length, ∀ st, (res.take n).foldlM (fun (st : ResWord × List Nat) r =>
      (st.1.allocateField r.fieldWidth r.count).map fun p => (p.1, st.2 ++ [p.2]))
        (⟨0, 0, 0⟩, []) = some st → FieldsOk res n st.1 st.2 := by
    intro n
    induction n with
    | zero =>
      rintro - st hst
      obtain rfl := Option.some.inj hst
      exact ⟨rfl, by decide, rfl, rfl, rfl, fun j hj => absurd hj (Nat.not_lt_zero j)⟩
    | succ n ih =>
      intro hn st hst
      rw [take_succ_eq_append_getElem (by omega), foldlM_append] at hst
      obtain ⟨st0, hst0, hlast⟩ := Option.bind_eq_some_iff.mp hst
      rw [foldlM_cons] at hlast
      obtain ⟨st1, hst1, hnil⟩ := Option.bind_eq_some_iff.mp hlast
      obtain rfl := Option.some.inj hnil
      obtain ⟨⟨word', bit⟩, halloc, rfl⟩ := Option.map_eq_some_iff.mp hst1
      exact (ih (by omega) st0 hst0).next (by omega) halloc
  have hres := hgen res.length le_rfl (word, shiftCount)
  rw [take_length] at hres
  exact hres h

theorem hasOveruse_iff {word : ResWord} {shiftCount : List Nat} {u : Nat → Nat}
    (h : FieldsOk res res.length word shiftCount)
    (hu : ∀ r < res.length, u r ≤ 2 * resCount res r) :
    hasOveruse word (ofNat 64 (pack (width res) (fun r => initial res r + u r) res.length)) =
      true ↔ ∃ r < res.length, resCount res r < u r := by
  have hfit : ∀ r < res.length, initial res r + u r < 2 ^ width res r :=
    fun r hr => (initial_add hr).2 (hu r hr)
  have hpos : ∀ r < res.length, 0 < width res r :=
    fun r hr => (Nat.zero_lt_two).trans_le (width_spec hr).1
  have hlt64 : ∀ x, x < 2 ^ start (width res) res.length → x < 2 ^ 64 := fun x hx =>
    hx.trans (Nat.pow_lt_pow_right (by norm_num) (h.bitInx ▸ h.lt))
  unfold hasOveruse
  rw [bne_iff_ne, h.overuseMask, ← BitVec.ofNat_and, ne_eq, ← BitVec.toNat_inj, toNat_ofNat,
    Nat.mod_eq_of_lt (hlt64 _ (Nat.and_lt_two_pow _ ?_))]
  · have htops := and_tops_ne_zero hpos hfit
    refine htops.trans ⟨fun ⟨r, hr, hle⟩ => ⟨r, hr, (initial_add hr).1.mp hle⟩,
      fun ⟨r, hr, hlt⟩ => ⟨r, hr, (initial_add hr).1.mpr hlt⟩⟩
  · exact pack_lt fun r hr => Nat.pow_lt_pow_right (by norm_num) (by have := hpos r hr; omega)

end Word

/-! ## Slots -/

section Slots

variable {ii : Nat} {cyc : Int}

theorem addUntil_eq {ii cyc : Int} (h : 0 < ii) (hneg : cyc < 0) : addUntil ii cyc h = cyc % ii:= by
  induction cyc using addUntil.induct ii h with
  | case1 cyc hlt ih =>
    rw [addUntil, if_pos hlt, ih hlt, add_emod_right]
  | case2 cyc hge =>
    rw [addUntil, if_neg hge, ← add_emod_right, emod_eq_of_lt (by omega) (by omega)]

theorem subUntil_eq {ii cyc : Int} (h : 0 < ii) (hge : ii ≤ cyc) : subUntil ii cyc h = cyc % ii:= by
  induction cyc using subUntil.induct ii h with
  | case1 cyc hle ih =>
    rw [subUntil, if_pos hle, ih hle, sub_emod_right]
  | case2 cyc hlt =>
    rw [subUntil, if_neg hlt, ← sub_emod_right, emod_eq_of_lt (by omega) (by omega)]

theorem cycleModII_eq (h : 0 < ii) : cycleModII cyc ii h = cyc % ii := by
  unfold cycleModII
  split
  · rename_i hneg
    exact addUntil_eq _ hneg
  · split
    · rename_i hge
      exact subUntil_eq _ hge
    · exact (emod_eq_of_lt (by omega) (by omega)).symm

/-- The cycle of a requirement that falls into a slot. -/
def slotCycle (ii : Nat) (c : Int) (slot : Nat) : Nat := ((slot - c) % ii).toNat

theorem slotCycle_lt (h : 0 < ii) (c : Int) (slot : Nat) : slotCycle ii c slot < ii := by
  have h1 := emod_nonneg (slot - c) (show (ii : Int) ≠ 0 by omega)
  have h2 := emod_lt_of_pos (slot - c) (show (0 : Int) < ii by omega)
  unfold slotCycle
  omega

theorem slotCycle_eq {m slot : Nat} (hm : (m : Int) = cyc % ii) (hmlt : m < ii) (hslot : slot < ii) :
    slotCycle ii cyc slot = if m ≤ slot then slot - m else slot + ii - m := by
  have hself : (slot : Int) % ii = slot := emod_eq_of_lt (by omega) (by exact_mod_cast hslot)
  unfold slotCycle
  rw [sub_emod, ← hm, hself]
  split
  · rw [emod_eq_of_lt (by omega) (by omega)]
    omega
  · rw [← add_emod_right, emod_eq_of_lt (by omega) (by omega)]
    omega

theorem use_eq {g : Group} (h : 0 < ii) (c : Int) {slot : Nat} (hslot : slot < ii) (r : Nat) :
    g.use ii c slot r = g.use ii 0 (slotCycle ii c slot) r := by
  have hcycle : ((slotCycle ii c slot : Nat) : Int) = (slot - c) % ii :=
    toNat_of_nonneg (emod_nonneg _ (by omega))
  unfold Group.use
  refine countP_congr fun p _ => ?_
  simp only [decide_eq_true_eq, Int.zero_add]
  refine and_congr_right fun _ => ?_
  rw [hcycle]
  have hself : ((slot : Nat) : Int) = (slot : Int) % ii :=
    (emod_eq_of_lt (by omega) (by exact_mod_cast hslot)).symm
  nth_rewrite 1 [hself]
  rw [emod_eq_emod_iff_emod_sub_eq_zero, emod_eq_emod_iff_emod_sub_eq_zero,
    show c + (p.2 : Int) - slot = (p.2 : Int) - (slot - c) by omega]

theorem load_eq {res : List Res} {word : ResWord} {shiftCount : List Nat} {g : Group}
    (h : FieldsOk res res.length word shiftCount) (hids : ∀ p ∈ g, p.1 < res.length) (t : Nat) :
    load shiftCount (g.folded ii) t = pack (width res) (fun r => g.use ii 0 t r) res.length := by
  have hmem : ∀ r ∈ ((g.folded ii).filter fun p => p.2 = (t : Int)).map Prod.fst,
      r < res.length := by
    intro r hr
    obtain ⟨p, hp, rfl⟩ := mem_map.mp hr
    obtain ⟨q, hq, rfl⟩ := mem_map.mp (mem_filter.mp hp).1
    exact hids q hq
  have hload : load shiftCount (g.folded ii) t =
      ((((g.folded ii).filter fun p => p.2 = (t : Int)).map Prod.fst).map
        fun r => 2 ^ start (width res) r).sum := by
    unfold load
    rw [map_map]
    congr 1
    refine map_congr_left fun p hp => ?_
    simp only [Function.comp_apply]
    rw [h.shiftCount _ (hmem _ (mem_map_of_mem hp))]
  rw [hload, sum_eq_pack hmem]
  refine pack_congr fun r _ => ?_
  unfold Group.folded Group.use count
  rw [countP_map, countP_filter, countP_map]
  refine countP_congr fun p _ => ?_
  simp only [Function.comp_apply, Bool.and_eq_true, beq_iff_eq, decide_eq_true_eq, Int.zero_add,
    natCast_emod]

end Slots

/-! ## The loops -/

section Loops

variable {shiftCount : List Nat} {g : Group} {info : Si} {rr : Rr} {ii : Nat} {s : ResRes}

theorem checkReserveLoopControl_spec (c : Int) (hii : 0 < ii) (hlen : s.length = ii)
    (hrr : tsiIIResourceRequirement info ii = some rr) (hshort : rrLength rr ≤ ii) :
    ∃ ctl, checkReserveLoopControl s info c = some ctl ∧ ctl.rr = rr ∧
      (ctl.cycleModII : Int) = c % ii ∧ ctl.cycleModII < ii ∧
      ctl.length1 + ctl.length2 = rrLength rr ∧ ctl.cycleModII + ctl.length1 ≤ ii ∧
      (ctl.length2 = 0 ∨ ctl.cycleModII + ctl.length1 = ii) := by
  subst hlen
  have h1 := emod_nonneg c (show (s.length : Int) ≠ 0 by omega)
  have h2 := emod_lt_of_pos c (show (0 : Int) < s.length by omega)
  unfold checkReserveLoopControl
  rw [dif_pos hii, hrr, Option.map_some]
  simp only [cycleModII_eq hii]
  split
  · exact ⟨_, rfl, rfl, by simp only; omega, by simp only; omega, rfl, by simp only; omega,
      .inl rfl⟩
  · exact ⟨_, rfl, rfl, by simp only; omega, by simp only; omega, by simp only; omega,
      by simp only; omega, .inr (by simp only; omega)⟩

theorem forEach_update (f : BitVec 64 → BitVec 64 → BitVec 64) (req : Nat → BitVec 64)
    (base n : Nat) (tab : Nat → BitVec 64) :
    Loop.forEach (fun i tab => Function.update tab (base + i) (f (tab (base + i)) (req i))) n 0 tab =
      fun slot => if base ≤ slot ∧ slot < base + n then f (tab slot) (req (slot - base))
        else tab slot := by
  have h := Loop.forEach_inv (f := fun i tab =>
      Function.update tab (base + i) (f (tab (base + i)) (req i)))
    (fun i (t : Nat → BitVec 64) => t = fun slot =>
      if base ≤ slot ∧ slot < base + i then f (tab slot) (req (slot - base)) else tab slot) n 0 tab
    (fun i t _ _ ht => ?_) (by funext slot; rw [if_neg (by omega)])
  · rwa [Nat.zero_add] at h
  · subst ht
    funext slot
    simp only [Function.update_apply]
    by_cases heq : slot = base + i
    · subst heq
      rw [if_pos rfl, if_neg (by omega), if_pos (by omega), Nat.add_sub_cancel_left]
    · rw [if_neg heq]
      by_cases hin : base ≤ slot ∧ slot < base + i
      · rw [if_pos hin, if_pos (by omega)]
      · rw [if_neg hin, if_neg (by omega)]

theorem updateResources_spec {f : BitVec 64 → BitVec 64 → BitVec 64} (hf : ∀ x, f x 0 = x) (c : Int)
    (hii : 0 < ii) (hlen : s.length = ii) (hrr : tsiIIResourceRequirement info ii = some rr)
    (hshort : rrLength rr ≤ ii) (hok : RrOk shiftCount (g.folded ii) rr) :
    ∃ s', updateResources f s info c = some s' ∧ s'.length = ii ∧ ∀ slot < ii,
      s'.rrtab slot = f (s.rrtab slot)
        (ofNat 64 (load shiftCount (g.folded ii) (slotCycle ii c slot))) := by
  obtain ⟨ctl, hctl, rfl, hm, hmlt, hsum, hle, hwrap⟩ :=
    checkReserveLoopControl_spec c hii hlen hrr hshort
  have hload : ∀ t, f (s.rrtab t) (ofNat 64 0) = s.rrtab t := fun t => hf _
  unfold updateResources
  rw [hctl, Option.map_some]
  refine ⟨_, rfl, hlen, fun slot hslot => ?_⟩
  have hsecond := forEach_update f (fun i => rrCycleRRW ctl.rr (i + ctl.length1)) 0 ctl.length2
  simp only [Nat.zero_add, Nat.zero_le, true_and, Nat.sub_zero] at hsecond
  simp only [forEach_update f (rrCycleRRW ctl.rr) ctl.cycleModII ctl.length1, hsecond]
  rw [slotCycle_eq hm hmlt hslot]
  by_cases h2 : slot < ctl.length2
  · rw [if_pos h2, if_neg (by omega), if_neg (by omega),
      show slot + ctl.length1 = slot + ii - ctl.cycleModII by omega, hok.word _ (by omega)]
  · rw [if_neg h2]
    by_cases h1 : ctl.cycleModII ≤ slot ∧ slot < ctl.cycleModII + ctl.length1
    · rw [if_pos h1, if_pos h1.1, hok.word _ (by omega)]
    · rw [if_neg h1, hok.after _ (by split <;> omega), hload]

theorem forFrom_check (P : Nat → Bool) (n : Nat) :
    (Loop.forFrom (fun i (_ : Unit) => if P i then (.error false : Except Bool Unit) else .ok ())
      n 0 () = .ok () ∧ ∀ i < n, P i = false) ∨
    (Loop.forFrom (fun i (_ : Unit) => if P i then (.error false : Except Bool Unit) else .ok ())
      n 0 () = .error false ∧ ∃ i < n, P i = true) := by
  have h := Loop.forFrom_outcome
    (f := fun i (_ : Unit) => if P i then (.error false : Except Bool Unit) else .ok ())
    (Q := fun r => r = false ∧ ∃ i < n, P i = true)
    (fun k _ => ∀ i < k, P i = false) n 0 ()
    (fun k _ _ hk hall => ?_) (fun i hi => absurd hi (Nat.not_lt_zero i))
  · rw [Nat.zero_add] at h
    cases hrun : Loop.forFrom (fun i (_ : Unit) =>
        if P i then (.error false : Except Bool Unit) else .ok ()) n 0 () with
    | ok u =>
      rw [hrun] at h
      exact .inl ⟨rfl, h⟩
    | error r =>
      rw [hrun] at h
      obtain ⟨rfl, hover⟩ := h
      exact .inr ⟨rfl, hover⟩
  · split
    · rename_i hover
      exact ⟨rfl, k, by omega, hover⟩
    · rename_i hfine
      intro i hi
      rcases Nat.lt_succ_iff_lt_or_eq.mp hi with hi | rfl
      · exact hall i hi
      · exact Bool.eq_false_of_not_eq_true hfine

/-- The test on the packed words says of each cycle whether every resource has a unit left. -/
theorem resourcesAvailable_spec (word : ResWord) (c : Int)
    (hii : 0 < ii) (hlen : s.length = ii) (hrr : tsiIIResourceRequirement info ii = some rr)
    (hshort : rrLength rr ≤ ii) (hok : RrOk shiftCount (g.folded ii) rr)
    (htab : ∀ slot < ii, hasOveruse word (s.rrtab slot) = false) :
    ∃ b, resourcesAvailable word s info c = some b ∧ (b = true ↔ ∀ slot < ii,
      hasOveruse word (s.rrtab slot +
        ofNat 64 (load shiftCount (g.folded ii) (slotCycle ii c slot))) = false) := by
  obtain ⟨ctl, hctl, rfl, hm, hmlt, hsum, hle, hwrap⟩ :=
    checkReserveLoopControl_spec c hii hlen hrr hshort
  have hslots : (∀ slot < ii, hasOveruse word (s.rrtab slot +
      ofNat 64 (load shiftCount (g.folded ii) (slotCycle ii c slot))) = false) ↔
      (∀ i < ctl.length1, hasOveruse word
        (s.rrtab (ctl.cycleModII + i) + rrCycleRRW ctl.rr i) = false) ∧
      ∀ i < ctl.length2, hasOveruse word
        (s.rrtab i + rrCycleRRW ctl.rr (i + ctl.length1)) = false := by
    refine ⟨fun h => ⟨fun i hi => ?_, fun i hi => ?_⟩, fun ⟨h1, h2⟩ slot hslot => ?_⟩
    · have hslot := h (ctl.cycleModII + i) (by omega)
      rwa [slotCycle_eq hm hmlt (by omega), if_pos (by omega), Nat.add_sub_cancel_left,
        ← hok.word i (by omega)] at hslot
    · have hslot := h i (by omega)
      rwa [slotCycle_eq hm hmlt (by omega), if_neg (by omega),
        show i + ii - ctl.cycleModII = i + ctl.length1 by omega,
        ← hok.word (i + ctl.length1) (by omega)] at hslot
    · rw [slotCycle_eq hm hmlt hslot]
      by_cases hlen1 : ctl.cycleModII ≤ slot ∧ slot < ctl.cycleModII + ctl.length1
      · rw [if_pos hlen1.1, ← hok.word _ (by omega)]
        have hfirst := h1 (slot - ctl.cycleModII) (by omega)
        rwa [Nat.add_sub_cancel' hlen1.1] at hfirst
      · by_cases hlen2 : slot < ctl.length2
        · rw [if_neg (by omega), show slot + ii - ctl.cycleModII = slot + ctl.length1 by omega,
            ← hok.word _ (by omega)]
          exact h2 slot hlen2
        · rw [hok.after _ (by split <;> omega), ← htab slot hslot]
          congr 1
          exact BitVec.add_zero _
  have hfirst := forFrom_check (fun i => hasOveruse word
    (s.rrtab (ctl.cycleModII + i) + rrCycleRRW ctl.rr i)) ctl.length1
  have hsecond := forFrom_check (fun i => hasOveruse word
    (s.rrtab i + rrCycleRRW ctl.rr (i + ctl.length1))) ctl.length2
  unfold resourcesAvailable
  rw [hctl, Option.map_some, hslots]
  refine ⟨_, rfl, ?_⟩
  rcases hfirst with ⟨hrun, hfirst⟩ | ⟨hrun, hfirst⟩
  · rw [hrun]
    rcases hsecond with ⟨hrun, hsecond⟩ | ⟨hrun, hsecond⟩
    · simp only [hrun, bind, Except.bind]
      exact ⟨fun _ => ⟨hfirst, hsecond⟩, fun _ => trivial⟩
    · simp only [hrun, bind, Except.bind]
      obtain ⟨i, hi, hover⟩ := hsecond
      exact ⟨fun h => (by cases h), fun h => by rw [h.2 i hi] at hover; cases hover⟩
  · simp only [hrun, bind, Except.bind]
    obtain ⟨i, hi, hover⟩ := hfirst
    exact ⟨fun h => (by cases h), fun h => by rw [h.1 i hi] at hover; cases hover⟩

end Loops

/-! ## Runs -/

section Runs

variable {res : List Res} {word : ResWord} {shiftCount : List Nat} {groups : List Group}
  {ii : Nat} {s s' : ResRes} {rs : Reservations} {g : Group} {info : Si} {c : Int}

@[simp] theorem totalUse_cons (p : Group × Int) (rs : Reservations) (ii slot r : Nat) :
    totalUse (p :: rs) ii slot r = p.1.use ii p.2 slot r + totalUse rs ii slot r := rfl

theorem totalUse_erase {p : Group × Int} (hp : p ∈ rs) (slot r : Nat) :
    totalUse rs ii slot r = p.1.use ii p.2 slot r + totalUse (rs.erase p) ii slot r := by
  unfold totalUse
  rw [((perm_cons_erase hp).map _).sum_eq, map_cons, sum_cons]

/-- The word of a slot. -/
def slotWord (res : List Res) (u : Nat → Nat) : BitVec 64 :=
  ofNat 64 (pack (width res) (fun r => initial res r + u r) res.length)

/-- What the table holds. -/
structure RunInv (res : List Res) (groups : List Group) (ii : Nat) (s : ResRes)
    (rs : Reservations) : Prop where
  length : s.length = ii
  mem : ∀ p ∈ rs, p.1 ∈ groups
  table : ∀ slot < ii, s.rrtab slot = slotWord res (totalUse rs ii slot)
  within : ∀ slot < ii, ∀ r < res.length, totalUse rs ii slot r ≤ resCount res r

/-- What is known of a group in a loop that it does not make impossible. -/
structure Usable (res : List Res) (shiftCount : List Nat) (ii : Nat) (g : Group) (info : Si) :
    Prop where
  ids : ∀ p ∈ g, p.1 < res.length
  fits : ¬ g.Overuses res ii
  requirement : ∃ rr, tsiIIResourceRequirement info ii = some rr ∧ rrLength rr ≤ ii ∧
    RrOk shiftCount (g.folded ii) rr

theorem Group.Accepted.usable (h : g.Accepted res)
    (hbad : ∀ ii, 128 < ii → ¬ g.Overuses res ii) (hgen : generate res shiftCount g = some info)
    (hii : 0 < ii) (hmem : memberP info.badIIs ii = false) : Usable res shiftCount ii g info := by
  obtain ⟨info', hgen', hbits, hrr⟩ := generate_spec h hbad
  obtain rfl : info = info' := Option.some.inj (hgen.symm.trans hgen')
  have hfits : ¬ g.Overuses res ii := by
    rw [← hbits ii hii, hmem]
    exact Bool.false_ne_true
  obtain ⟨rr, hsome, hok⟩ := hrr ii hii hfits
  obtain ⟨-, -, -, hids, -⟩ := h.built
  refine ⟨hids, hfits, rr, hsome, hok.short ii fun p hp => ?_, hok⟩
  obtain ⟨q, -, rfl⟩ := mem_map.mp hp
  have hlt := Nat.mod_lt q.2 hii
  simp only
  omega

theorem Usable.use_le (h : Usable res shiftCount ii g info) (hii : 0 < ii) (c : Int) {slot r : Nat}
    (hslot : slot < ii) (hr : r < res.length) : g.use ii c slot r ≤ resCount res r := by
  by_contra hlt
  rw [use_eq hii c hslot] at hlt
  exact h.fits ⟨r, hr, _, slotCycle_lt hii c slot, not_le.mp hlt⟩

theorem slotWord_add (h : FieldsOk res res.length word shiftCount)
    (hg : Usable res shiftCount ii g info) (hii : 0 < ii) (c : Int) {slot : Nat} (hslot : slot < ii)
    (u : Nat → Nat) :
    slotWord res u + ofNat 64 (load shiftCount (g.folded ii) (slotCycle ii c slot)) =
      slotWord res fun r => g.use ii c slot r + u r := by
  unfold slotWord
  rw [load_eq h hg.ids, ← BitVec.ofNat_add, ← pack_add]
  congr 1
  refine pack_congr fun r _ => ?_
  simp only
  rw [use_eq hii c hslot]
  omega

theorem FieldsOk.start_inv (h : FieldsOk res res.length word shiftCount)
    (rrtab : Nat → BitVec 64) : RunInv res groups ii (setBBCycleCount word rrtab ii) [] := by
  refine ⟨rfl, fun p hp => (by cases hp), fun slot hslot => ?_, fun slot _ r _ => Nat.zero_le _⟩
  unfold setBBCycleCount slotWord
  simp only
  rw [if_pos hslot, h.initializer]
  rfl

section

variable (hinv : RunInv res groups ii s rs) (h : FieldsOk res res.length word shiftCount)
  (hg : Usable res shiftCount ii g info) (hii : 0 < ii)
include hinv h hg hii

/-- In every state of a run the answer is that of the plain counts. -/
theorem RunInv.available (c : Int) :
    ∃ b, resourcesAvailable word s info c = some b ∧ (b = true ↔ ∀ slot < ii, ∀ r < res.length,
      totalUse rs ii slot r + g.use ii c slot r ≤ resCount res r) := by
  obtain ⟨rr, hrr, hshort, hok⟩ := hg.requirement
  have hword : ∀ u : Nat → Nat, (∀ r < res.length, u r ≤ 2 * resCount res r) →
      (hasOveruse word (slotWord res u) = false ↔ ∀ r < res.length, u r ≤ resCount res r) := by
    intro u hu
    rw [← Bool.not_eq_true, slotWord, hasOveruse_iff h hu]
    simp only [not_exists, not_and, not_lt]
  have htab : ∀ slot < ii, hasOveruse word (s.rrtab slot) = false := by
    intro slot hslot
    rw [hinv.table slot hslot]
    refine (hword _ fun r hr => ?_).mpr (hinv.within slot hslot)
    have := hinv.within slot hslot r hr
    omega
  obtain ⟨b, hb, hiff⟩ := resourcesAvailable_spec word c hii hinv.length hrr hshort hok htab
  refine ⟨b, hb, hiff.trans (forall_congr' fun slot => forall_congr' fun hslot => ?_)⟩
  rw [hinv.table slot hslot, slotWord_add h hg hii c hslot, hword]
  · simp only [Nat.add_comm]
  · intro r hr
    have h1 := hinv.within slot hslot r hr
    have h2 := hg.use_le hii c hslot hr
    omega

theorem RunInv.reserve (hmem : g ∈ groups) : ∃ s', reserveResources s info c = some s' ∧
      (resourcesAvailable word s info c = some true → RunInv res groups ii s' ((g, c) :: rs)) := by
  obtain ⟨rr, hrr, hshort, hok⟩ := hg.requirement
  obtain ⟨s', hs', hlen, htab⟩ :=
    updateResources_spec (fun x => BitVec.add_zero x) c hii hinv.length hrr hshort hok
  refine ⟨s', hs', fun havail => ⟨hlen, fun p hp => ?_, fun slot hslot => ?_, ?_⟩⟩
  · rcases mem_cons.mp hp with rfl | hp
    · exact hmem
    · exact hinv.mem p hp
  · rw [htab slot hslot, hinv.table slot hslot]
    exact slotWord_add h hg hii c hslot _
  · obtain ⟨b, hb, hiff⟩ := hinv.available h hg hii c
    have hfit := hiff.mp (Option.some.inj (hb.symm.trans havail))
    intro slot hslot r hr
    have := hfit slot hslot r hr
    rw [totalUse_cons]
    simp only
    omega

theorem RunInv.unreserve (hmem : (g, c) ∈ rs) :
    ∃ s', unreserveResources s info c = some s' ∧ RunInv res groups ii s' (rs.erase (g, c)) := by
  obtain ⟨rr, hrr, hshort, hok⟩ := hg.requirement
  obtain ⟨s', hs', hlen, htab⟩ :=
    updateResources_spec (fun x => BitVec.sub_zero x) c hii hinv.length hrr hshort hok
  refine ⟨s', hs', hlen, fun p hp => hinv.mem p (mem_of_mem_erase hp), fun slot hslot => ?_,
    fun slot hslot r hr => ?_⟩
  · have huse : totalUse rs ii slot =
        fun r => g.use ii c slot r + totalUse (rs.erase (g, c)) ii slot r :=
      funext fun r => totalUse_erase hmem slot r
    rw [htab slot hslot, hinv.table slot hslot, huse, ← slotWord_add h hg hii c hslot]
    exact BitVec.add_sub_cancel _ _
  · have := hinv.within slot hslot r hr
    rw [totalUse_erase hmem] at this
    omega

end

theorem Run.inv {gen : Group → Option Si} (hrun : Run word gen groups ii s rs)
    (h : FieldsOk res res.length word shiftCount) (hii : 0 < ii)
    (hgen : ∀ g ∈ groups, ∀ info, gen g = some info → Usable res shiftCount ii g info) :
    RunInv res groups ii s rs := by
  induction hrun with
  | start rrtab => exact h.start_inv rrtab
  | reserve _ hmem hinfo havail hs' ih =>
    obtain ⟨s1, hs1, hinv⟩ := ih.reserve h (hgen _ hmem _ hinfo) hii hmem
    rw [hs1] at hs'
    obtain rfl := Option.some.inj hs'
    exact hinv havail
  | unreserve _ hmem hinfo hs' ih =>
    obtain ⟨s1, hs1, hinv⟩ := ih.unreserve h (hgen _ (ih.mem _ hmem) _ hinfo) hii hmem
    rw [hs1] at hs'
    obtain rfl := Option.some.inj hs'
    exact hinv

end Runs

end TargInfo
