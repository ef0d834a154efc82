import Mathlib.Data.BitVec
import Mathlib.Tactic.IntervalCases

/-! # The compact encoding of dependences

A `DEP` is a 16-bit word: bit 15 is on if the distance is constant, bits
12 to 14 give the direction, and bits 0 to 11 the distance plus 2048. A
`DEP` stands for a set of distances (`Contains`): one distance, or all
the distances of its direction. The bound in the distance field of a
direction is not part of that set. -/

namespace Dep

open BitVec (ofInt getElem_and getElem_or getLsbD_and getLsbD_or)

/-! ## The fields of a dependence -/

inductive Direction where
  | pos
  | neg
  | eq
  | posneg
  | poseq
  | negeq
  | star
  deriving DecidableEq

/-- The values of the enumeration. -/
def Direction.code : Direction → BitVec 16
  | pos => 1
  | neg => 2
  | eq => 4
  | posneg => 3
  | poseq => 5
  | negeq => 6
  | star => 7

abbrev DEP := BitVec 16

def maxBound : Int := 4095
def maxDistance : Int := 2047
def minDistance : Int := -2048
def distanceOffset : Int := 2048

/-- `DEP_IsDistance`. -/
def isDistance (dep : DEP) : Bool := dep &&& 0x8000#16 != 0

/-- `DEP_Distance`. -/
def distance (dep : DEP) : Int := ((dep &&& 0x0fff#16).toNat : Int) - distanceOffset

/-- `DEP_Direction`; the code 0 is no value of the enumeration. -/
def direction (dep : DEP) : Option Direction :=
  match ((dep &&& 0x7000#16) >>> 12).toNat with
  | 1 => some .pos
  | 2 => some .neg
  | 3 => some .posneg
  | 4 => some .eq
  | 5 => some .poseq
  | 6 => some .negeq
  | 7 => some .star
  | _ => none

/-- `DEP_MAKE_DIST_CONST_PRIVATE`. -/
def makeDistConst (dep : DEP) : DEP := dep ||| 0x8000

/-- `DEP_MAKE_DIST_NON_CONST_PRIVATE`. -/
def makeDistNonConst (dep : DEP) : DEP := dep &&& ~~~0x8000#16

/-- `DEP_SET_DIR_PRIVATE`. -/
def setDir (dep : DEP) (dir : Direction) : DEP := (dep &&& ~~~0x7000#16) ||| (dir.code <<< 12)

/-- `DEP_SET_DIST_PRIVATE`. -/
def setDist (dep : DEP) (distance : Int) : DEP :=
  (dep &&& ~~~0x0fff#16) ||| ofInt 16 (distance + distanceOffset)

/-! ## The operations -/

/-- `DEP_SetDistance`. -/
def setDistance (distance : Int) : DEP :=
  let dep : DEP := 0
  let (dep, distance) :=
    if distance > maxDistance then (makeDistNonConst dep, maxBound)
    else if distance < minDistance then (makeDistNonConst dep, maxBound)
    else (makeDistConst dep, distance)
  let dep :=
    if distance > 0 then setDir dep .pos
    else if distance < 0 then setDir dep .neg
    else setDir dep .eq
  setDist dep distance

/-- The bound that goes with a direction; a bound of 0 is no bound. -/
def directionBound : Direction → Int
  | .pos => 1
  | .neg => 1
  | _ => 0

/-- `DEP_SetDirection`. -/
def setDirection (dir : Direction) : DEP :=
  if dir = .eq then setDistance 0
  else setDist (setDir (makeDistNonConst 0) dir) (directionBound dir)

/-- `DEP_UnionDirection`. -/
def unionDirection (dep : DEP) (dir : Direction) : DEP :=
  if direction dep = some dir then
    if dir ≠ .eq then setDist (makeDistNonConst dep) (directionBound dir) else dep
  else setDist (makeDistNonConst dep ||| (dir.code <<< 12)) 0

/-- `DEP_Negate`. -/
def negate (dep : DEP) : DEP :=
  if isDistance dep then setDistance (-distance dep)
  else
    let tmp := makeDistNonConst 0
    match direction dep with
    | some .pos => setDist (setDir tmp .neg) 1
    | some .neg => setDist (setDir tmp .pos) 1
    | some .poseq => setDist (setDir tmp .negeq) 0
    | some .negeq => setDist (setDir tmp .poseq) 0
    | _ => dep

/-! ## The distances that a dependence stands for -/

/-- The distances of a direction. -/
def Direction.Holds : Direction → Int → Prop
  | pos, z => 0 < z
  | neg, z => z < 0
  | eq, z => z = 0
  | posneg, z => z ≠ 0
  | poseq, z => 0 ≤ z
  | negeq, z => z ≤ 0
  | star, _ => True

/-- The distances that a dependence stands for. -/
def Contains (dep : DEP) (z : Int) : Prop :=
  if isDistance dep then z = distance dep
  else
    match direction dep with
    | some dir => dir.Holds z
    | none => False

/-- The sign of a distance. -/
def signDirection (z : Int) : Direction :=
  if 0 < z then .pos else if z < 0 then .neg else .eq

/-- What the operations build: a constant distance has the direction of its sign. -/
def Valid (dep : DEP) : Prop :=
  isDistance dep = true → direction dep = some (signDirection (distance dep))

theorem signDirection_holds (z : Int) : (signDirection z).Holds z := by
  unfold signDirection
  split_ifs with h1 h2
  · exact h1
  · exact h2
  · show z = 0
    omega

theorem getLsbD_ite (b : Bool) (c : DEP) (i : Nat) :
    (if b then c else 0).getLsbD i = (b && c.getLsbD i) := by
  cases b
  · exact BitVec.getLsbD_zero
  · rfl

theorem clear_or_and (dep e m : DEP) (h : e &&& m = e) : (dep &&& ~~~m ||| e) &&& m = e := by
  apply BitVec.eq_of_getElem_eq
  intro i hi
  have hbit : (e[i] && m[i]) = e[i] := by
    rw [← getElem_and, h]
  rw [getElem_and, getElem_or, getElem_and, BitVec.getElem_not]
  cases hm : m[i] with
  | false =>
    rw [hm, Bool.and_false] at hbit
    rw [Bool.and_false, ← hbit]
  | true => rw [Bool.not_true, Bool.and_false, Bool.false_or, Bool.and_true]

theorem isDistance_eq (dep : DEP) : isDistance dep = dep[15] := by
  have hmask : ∀ i < 15, (0x8000#16).getLsbD i = false := by decide
  have h : dep &&& 0x8000#16 = if dep[15] then 0x8000 else 0 := by
    apply BitVec.eq_of_getLsbD_eq
    intro i hi
    rw [getLsbD_and, getLsbD_ite]
    by_cases hlt : i < 15
    · show (dep.getLsbD i && (0x8000#16).getLsbD i) = (dep[15] && (0x8000#16).getLsbD i)
      rw [hmask i hlt, Bool.and_false, Bool.and_false]
    · obtain rfl : i = 15 := by omega
      rfl
  unfold isDistance
  rw [h]
  cases dep[15] <;> rfl

theorem direction_holds_iff (dep : DEP) (z : Int) :
    (∃ dir, direction dep = some dir ∧ dir.Holds z) ↔
      (dep[12] = true ∧ 0 < z) ∨ (dep[13] = true ∧ z < 0) ∨ (dep[14] = true ∧ z = 0) := by
  have hmask : ∀ i < 16, 3 ≤ i → (0x7000#16).getLsbD (12 + i) = false := by decide
  have hbits : ∀ i < 16, 3 ≤ i → (1#16).getLsbD i = false ∧ (2#16).getLsbD i = false ∧
      (4#16).getLsbD i = false := by decide
  have hcode : (dep &&& 0x7000#16) >>> 12 =
      (if dep[12] then 1#16 else 0) ||| (if dep[13] then 2#16 else 0) |||
        (if dep[14] then 4#16 else 0) := by
    apply BitVec.eq_of_getLsbD_eq
    intro i hi
    rw [BitVec.getLsbD_ushiftRight, getLsbD_and, getLsbD_or, getLsbD_or,
      getLsbD_ite, getLsbD_ite, getLsbD_ite]
    by_cases hlt : i < 3
    · interval_cases i <;> simp
    · obtain ⟨h1, h2, h4⟩ := hbits i hi (by omega)
      show (dep.getLsbD (12 + i) && (0x7000#16).getLsbD (12 + i)) =
        (dep[12] && (1#16).getLsbD i || dep[13] && (2#16).getLsbD i || dep[14] && (4#16).getLsbD i)
      rw [hmask i hi (by omega), h1, h2, h4]
      simp only [Bool.and_false, Bool.or_false]
  unfold direction
  rw [hcode]
  cases dep[12] <;> cases dep[13] <;> cases dep[14] <;> simp [Direction.Holds] <;> omega

variable {n z : Int} {i : Nat}

theorem ofInt_bit (h0 : 0 ≤ n) (h1 : n < 4096) (hi : 12 ≤ i) :
    (ofInt 16 n).getLsbD i = false := by
  obtain ⟨k, rfl⟩ := Int.eq_ofNat_of_zero_le h0
  have hk : k < 2 ^ i := by
    have := Nat.pow_le_pow_right (by decide : 0 < 2) hi
    omega
  show (ofInt 16 ((k : Nat) : Int)).getLsbD i = false
  rw [BitVec.ofInt_natCast, BitVec.getLsbD_ofNat, Nat.testBit_lt_two_pow hk, Bool.and_false]

theorem setDist_high {dep : DEP} (h0 : -2048 ≤ n) (h1 : n ≤ 2047)
    (hi : 12 ≤ i) (hi' : i < 16) : (setDist dep n)[i] = dep[i] := by
  have hbit := ofInt_bit (n := n + distanceOffset) (by unfold distanceOffset; omega)
    (by unfold distanceOffset; omega) hi
  unfold setDist
  rw [getElem_or, getElem_and, ← BitVec.getLsbD_eq_getElem (x := ofInt _ _),
    hbit, Bool.or_false]
  have hmask : ∀ j < 16, 12 ≤ j → (~~~0x0fff#16).getLsbD j = true := by decide
  rw [← BitVec.getLsbD_eq_getElem (x := ~~~_), hmask i hi' hi, Bool.and_true]

theorem setDist_low {dep : DEP} (h0 : -2048 ≤ n) (h1 : n ≤ 2047) :
    distance (setDist dep n) = n := by
  have hlow : setDist dep n &&& 0x0fff#16 = ofInt 16 (n + distanceOffset) := by
    apply BitVec.eq_of_getLsbD_eq
    intro i hi
    unfold setDist
    rw [getLsbD_and, getLsbD_or, getLsbD_and]
    by_cases h : i < 12
    · interval_cases i <;> simp
    · have hbit := ofInt_bit (n := n + distanceOffset) (by unfold distanceOffset; omega)
        (by unfold distanceOffset; omega) (by omega : 12 ≤ i)
      rw [hbit]
      interval_cases i <;> simp
  unfold distance
  rw [hlow]
  unfold distanceOffset
  have hmod : (ofInt 16 (n + 2048)).toNat = (n + 2048).toNat := by
    rw [BitVec.toNat_ofInt]
    omega
  rw [hmod]
  omega

theorem contains_direction {dep : DEP} (h : dep[15] = false) (z : Int) : Contains dep z ↔
      (dep[12] = true ∧ 0 < z) ∨ (dep[13] = true ∧ z < 0) ∨ (dep[14] = true ∧ z = 0) := by
  rw [← direction_holds_iff]
  unfold Contains
  rw [isDistance_eq, h]
  cases hd : direction dep with
  | none => simp
  | some dir => simp

theorem contains_distance {dep : DEP} (h : dep[15] = true) (z : Int) :
    Contains dep z ↔ z = distance dep := by
  unfold Contains
  rw [isDistance_eq, h]
  rfl

theorem contains_of_not_distance {dep : DEP} (hd : ¬ isDistance dep = true) (z : Int) :
    Contains dep z ↔ ∃ dir, direction dep = some dir ∧ dir.Holds z := by
  unfold Contains
  rw [if_neg hd]
  cases direction dep with
  | none => simp
  | some dir => simp

theorem contains_setDist {dep : DEP} (h : dep[15] = false) (h0 : -2048 ≤ n)
    (h1 : n ≤ 2047) (z : Int) : Contains (setDist dep n) z ↔
      (dep[12] = true ∧ 0 < z) ∨ (dep[13] = true ∧ z < 0) ∨ (dep[14] = true ∧ z = 0) := by
  have h15 : (setDist dep n)[15] = false := by
    rw [setDist_high h0 h1 (by decide) (by decide), h]
  rw [contains_direction h15, setDist_high h0 h1 (by decide) (by decide),
    setDist_high h0 h1 (by decide) (by decide), setDist_high h0 h1 (by decide) (by decide)]

theorem Direction.holds_iff (dir : Direction) (z : Int) :
    dir.Holds z ↔ ((dir.code <<< 12)[12] = true ∧ 0 < z) ∨
      ((dir.code <<< 12)[13] = true ∧ z < 0) ∨ ((dir.code <<< 12)[14] = true ∧ z = 0) := by
  cases dir <;> simp [Direction.code, Direction.Holds] <;> omega

theorem setDir_bits (dep : DEP) (dir : Direction) :
    (setDir dep dir)[15] = dep[15] ∧ (setDir dep dir)[12] = (dir.code <<< 12)[12] ∧
      (setDir dep dir)[13] = (dir.code <<< 12)[13] ∧
      (setDir dep dir)[14] = (dir.code <<< 12)[14] := by
  cases dir <;> simp [setDir, Direction.code]

theorem contains_setDir (dir : Direction) (h0 : -2048 ≤ n) (h1 : n ≤ 2047) (z : Int) :
    Contains (setDist (setDir (makeDistNonConst 0) dir) n) z ↔ dir.Holds z := by
  obtain ⟨h15, h12, h13, h14⟩ := setDir_bits (makeDistNonConst 0) dir
  rw [contains_setDist (by rw [h15]; simp [makeDistNonConst]) h0 h1, h12, h13, h14,
    Direction.holds_iff]

theorem directionBound_mem (dir : Direction) :
    -2048 ≤ directionBound dir ∧ directionBound dir ≤ 2047 := by
  cases dir <;> decide

/-! ## Distances -/

theorem setDistance_eq (h0 : -2048 ≤ z) (h1 : z ≤ 2047) :
    setDistance z = setDist (setDir (makeDistConst 0) (signDirection z)) z := by
  have hmax : ¬z > maxDistance := by
    unfold maxDistance
    omega
  have hmin : ¬z < minDistance := by
    unfold minDistance
    omega
  simp only [setDistance, signDirection, if_neg hmax, if_neg hmin]
  split_ifs <;> rfl

theorem setDistance_far (h : z < -2048 ∨ 2047 < z) :
    setDistance z = setDist (setDir (makeDistNonConst 0) .pos) (-1) := by
  have hfar : setDistance z = setDist (setDir (makeDistNonConst 0) .pos) maxBound := by
    rcases h with h | h
    · have hmax : ¬z > maxDistance := by
        unfold maxDistance
        omega
      simp only [setDistance, if_neg hmax, if_pos (show z < minDistance from h)]
      rfl
    · simp only [setDistance, if_pos (show z > maxDistance from h)]
      rfl
  rw [hfar]
  decide

theorem setDistance_distance (h0 : -2048 ≤ z) (h1 : z ≤ 2047) :
    isDistance (setDistance z) = true ∧ distance (setDistance z) = z := by
  rw [setDistance_eq h0 h1]
  refine ⟨?_, setDist_low h0 h1⟩
  rw [isDistance_eq, setDist_high h0 h1 (by decide) (by decide),
    (setDir_bits (makeDistConst 0) _).1]
  simp [makeDistConst]

theorem contains_setDistance (h0 : -2048 ≤ z) (h1 : z ≤ 2047) (y : Int) :
    Contains (setDistance z) y ↔ y = z := by
  obtain ⟨hd, hz⟩ := setDistance_distance h0 h1
  rw [isDistance_eq] at hd
  rw [contains_distance hd, hz]

theorem contains_setDistance_self (z : Int) : Contains (setDistance z) z ↔ -2048 ≤ z := by
  by_cases h : z < -2048 ∨ 2047 < z
  · rw [setDistance_far h, contains_setDir .pos (by decide) (by decide)]
    show 0 < z ↔ -2048 ≤ z
    omega
  · rw [contains_setDistance (by omega) (by omega)]
    exact ⟨fun _ => by omega, fun _ => rfl⟩

theorem distance_range (dep : DEP) : -2048 ≤ distance dep ∧ distance dep ≤ 2047 := by
  have h : (dep &&& 0x0fff#16).toNat ≤ 4095 := by
    rw [BitVec.toNat_and]
    exact Nat.and_le_right
  unfold distance distanceOffset
  omega

/-! ## Directions -/

theorem contains_setDirection (dir : Direction) (z : Int) :
    Contains (setDirection dir) z ↔ dir.Holds z := by
  unfold setDirection
  split_ifs with h
  · rw [h, contains_setDistance (by decide) (by decide)]
    rfl
  · exact contains_setDir dir (directionBound_mem dir).1 (directionBound_mem dir).2 z

theorem Valid.direction_holds {dep : DEP} (hv : Valid dep) (hz : Contains dep z) :
    ∃ dir, direction dep = some dir ∧ dir.Holds z := by
  unfold Contains at hz
  split_ifs at hz with hd
  · rw [hz]
    exact ⟨_, hv hd, signDirection_holds _⟩
  · cases hdir : direction dep with
    | none => rw [hdir] at hz; exact hz.elim
    | some dir => rw [hdir] at hz; exact ⟨dir, rfl, hz⟩

/-- The union with a direction contains what either of the two does. -/
theorem contains_unionDirection {dep : DEP} (hv : Valid dep) {dir : Direction}
    (hz : Contains dep z ∨ dir.Holds z) : Contains (unionDirection dep dir) z := by
  unfold unionDirection
  have hnon : (makeDistNonConst dep)[15] = false := by
    simp [makeDistNonConst]
  split_ifs with hdir heq
  · -- the direction of `dep` itself, without its distance
    have hold : ∃ dir, direction dep = some dir ∧ dir.Holds z := by
      rcases hz with hz | hz
      · exact hv.direction_holds hz
      · exact ⟨dir, hdir, hz⟩
    rw [direction_holds_iff] at hold
    rw [contains_setDist hnon (directionBound_mem dir).1 (directionBound_mem dir).2]
    simpa [makeDistNonConst] using hold
  · rw [not_not] at heq
    rcases hz with hz | hz
    · exact hz
    · rw [heq] at hz hdir
      have hzero : z = 0 := hz
      unfold Contains
      split_ifs with hd
      · have hsign : signDirection (distance dep) = .eq :=
          Option.some.inj ((hv hd).symm.trans hdir)
        have hholds := signDirection_holds (distance dep)
        rw [hsign] at hholds
        exact hzero.trans hholds.symm
      · rw [hdir]
        exact hz
  · -- the union of the three bits
    have hnon' : (makeDistNonConst dep ||| (dir.code <<< 12))[15] = false := by
      cases dir <;> simp [makeDistNonConst, Direction.code]
    rw [contains_setDist hnon' (by decide) (by decide)]
    rcases hz with hz | hz
    · have hold := (direction_holds_iff dep z).mp (hv.direction_holds hz)
      simp only [getElem_or, Bool.or_eq_true]
      have hkeep : (makeDistNonConst dep)[12] = dep[12] ∧ (makeDistNonConst dep)[13] = dep[13] ∧
          (makeDistNonConst dep)[14] = dep[14] := by
        simp [makeDistNonConst]
      rw [hkeep.1, hkeep.2.1, hkeep.2.2]
      exact hold.imp (And.imp_left .inl) (Or.imp (And.imp_left .inl) (And.imp_left .inl))
    · rw [Direction.holds_iff] at hz
      simp only [getElem_or, Bool.or_eq_true]
      exact hz.imp (And.imp_left .inr) (Or.imp (And.imp_left .inr) (And.imp_left .inr))

theorem contains_negate {dep : DEP} (hz : Contains dep z) : Contains (negate dep) (-z) := by
  unfold negate
  unfold Contains at hz
  split_ifs at hz ⊢ with hd
  · rw [hz]
    have hrange := distance_range dep
    exact (contains_setDistance_self _).mpr (by omega)
  · have hdep : Contains dep z := by
      unfold Contains
      rw [if_neg hd]
      exact hz
    cases hdir : direction dep with
    | none => rw [hdir] at hz; exact hz.elim
    | some dir =>
      rw [hdir] at hz
      have hself : dir.Holds (-z) → Contains dep (-z) := by
        intro h
        unfold Contains
        rw [if_neg hd, hdir]
        exact h
      cases dir with
      | pos => exact (contains_setDir .neg (by decide) (by decide) _).mpr (Int.neg_neg_of_pos hz)
      | neg => exact (contains_setDir .pos (by decide) (by decide) _).mpr (Int.neg_pos_of_neg hz)
      | eq => exact hself (by rw [show z = 0 from hz]; rfl)
      | posneg => exact hself (Int.neg_ne_zero.mpr hz)
      | poseq =>
        exact (contains_setDir .negeq (by decide) (by decide) _).mpr (Int.neg_nonpos_of_nonneg hz)
      | negeq =>
        exact (contains_setDir .poseq (by decide) (by decide) _).mpr (Int.neg_nonneg_of_nonpos hz)
      | star => exact hself trivial

/-! ## What the operations build -/

theorem direction_setDist {dep : DEP} (h0 : -2048 ≤ n) (h1 : n ≤ 2047) :
    direction (setDist dep n) = direction dep := by
  have hcode : setDist dep n &&& 0x7000#16 = dep &&& 0x7000#16 := by
    apply BitVec.eq_of_getElem_eq
    intro i hi
    rw [getElem_and, getElem_and]
    by_cases h : 12 ≤ i
    · rw [setDist_high h0 h1 h hi]
    · interval_cases i <;> simp
  unfold direction
  rw [hcode]

theorem direction_setDir (dep : DEP) (dir : Direction) : direction (setDir dep dir) = some dir:= by
  have hcode : setDir dep dir &&& 0x7000#16 = dir.code <<< 12 :=
    clear_or_and dep _ _ (by cases dir <;> rfl)
  unfold direction
  rw [hcode]
  cases dir <;> rfl

theorem valid_of_direction {dep : DEP} (h : isDistance dep = false) : Valid dep := by
  intro h'
  rw [h] at h'
  cases h'

theorem isDistance_setDist {dep : DEP} (h0 : -2048 ≤ n) (h1 : n ≤ 2047) :
    isDistance (setDist dep n) = isDistance dep := by
  rw [isDistance_eq, isDistance_eq, setDist_high h0 h1 (by decide) (by decide)]

theorem valid_setDir (dir : Direction) (h0 : -2048 ≤ n) (h1 : n ≤ 2047) :
    Valid (setDist (setDir (makeDistNonConst 0) dir) n) := by
  apply valid_of_direction
  rw [isDistance_setDist h0 h1, isDistance_eq, (setDir_bits _ _).1]
  simp [makeDistNonConst]

theorem valid_setDistance (z : Int) : Valid (setDistance z) := by
  by_cases h : z < -2048 ∨ 2047 < z
  · rw [setDistance_far h]
    exact valid_setDir .pos (by decide) (by decide)
  · have h0 : -2048 ≤ z := by omega
    have h1 : z ≤ 2047 := by omega
    intro _
    rw [(setDistance_distance h0 h1).2, setDistance_eq h0 h1, direction_setDist h0 h1,
      direction_setDir]

theorem valid_setDirection (dir : Direction) : Valid (setDirection dir) := by
  unfold setDirection
  split_ifs
  · exact valid_setDistance 0
  · exact valid_setDir dir (directionBound_mem dir).1 (directionBound_mem dir).2

theorem Valid.unionDirection {dep : DEP} (hv : Valid dep) (dir : Direction) :
    Valid (unionDirection dep dir) := by
  unfold Dep.unionDirection
  split_ifs
  · apply valid_of_direction
    rw [isDistance_setDist (directionBound_mem dir).1 (directionBound_mem dir).2, isDistance_eq]
    simp [makeDistNonConst]
  · exact hv
  · apply valid_of_direction
    rw [isDistance_setDist (by decide) (by decide), isDistance_eq]
    cases dir <;> simp [makeDistNonConst, Direction.code]

theorem Valid.negate {dep : DEP} (hv : Valid dep) : Valid (negate dep) := by
  unfold Dep.negate
  split_ifs
  · exact valid_setDistance _
  · split
    · exact valid_setDir .neg (by decide) (by decide)
    · exact valid_setDir .pos (by decide) (by decide)
    · exact valid_setDir .negeq (by decide) (by decide)
    · exact valid_setDir .poseq (by decide) (by decide)
    · exact hv

/-- The dependences that the exported operations build. -/
inductive Built : DEP → Prop
  | setDistance (z : Int) : Built (setDistance z)
  | setDirection (dir : Direction) : Built (setDirection dir)
  | unionDirection {dep : DEP} (dir : Direction) : Built dep → Built (unionDirection dep dir)
  | negate {dep : DEP} : Built dep → Built (negate dep)

theorem Built.valid {dep : DEP} (h : Built dep) : Valid dep := by
  induction h with
  | setDistance z => exact valid_setDistance z
  | setDirection dir => exact valid_setDirection dir
  | unionDirection dir _ ih => exact ih.unionDirection dir
  | negate _ ih => exact ih.negate

/-- The operations over-approximate, but for one: `DEP_SetDistance` contains its distance exactly
from the least encodable distance on. -/
theorem operations_contain_iff {dep dep' : DEP} (hdep : Built dep) (hdep' : Built dep')
    (dir : Direction) (z : Int) : (Contains (setDistance z) z ∧
      (∀ y, Contains dep y → Contains (negate dep) (-y)) ∧
      (∀ y, Contains dep y ∨ dir.Holds y → Contains (unionDirection dep dir) y) ∧
      (direction dep' = some dir →
        ∀ y, Contains dep y ∨ Contains dep' y → Contains (unionDirection dep dir) y) ∧
      ∀ y, dir.Holds y → Contains (setDirection dir) y) ↔ -2048 ≤ z := by
  rw [contains_setDistance_self]
  refine ⟨fun h => h.1, fun h => ⟨h, ?_, ?_, ?_, ?_⟩⟩
  · exact fun y hy => contains_negate hy
  · exact fun y hy => contains_unionDirection hdep.valid hy
  · intro hdir y hy
    refine contains_unionDirection hdep.valid (hy.imp_right fun hy' => ?_)
    obtain ⟨dir', hdir', hholds⟩ := hdep'.valid.direction_holds hy'
    rw [hdir] at hdir'
    cases hdir'
    exact hholds
  · exact fun y hy => (contains_setDirection dir y).mpr hy

theorem operations_contain_iff_min : Contains (setDistance (-2048)) (-2048):=
  ((operations_contain_iff (Built.setDistance 5) (Built.setDirection .neg) .neg (-2048)).mpr
    (by decide)).1

/-- A distance below the range becomes a positive direction. -/
theorem setDistance_far_negative :
    direction (setDistance (-3000)) = some .pos ∧ ¬Contains (setDistance (-3000)) (-3000) := by
  refine ⟨by decide, ?_⟩
  rw [contains_setDistance_self]
  decide

end Dep
