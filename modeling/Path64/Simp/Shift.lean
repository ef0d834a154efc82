import Path64.Simp.Cvtl

/-! # Shifts

`simp_shift`: two shifts are merged or become a mask, a bit field or a
conversion, masks and conversions are dropped under a shift, and a short
value is shifted away. -/

namespace Simp.Whirl

open BitVec Option

/-! ## The rules -/

/-- `WHIRL_Keep_Cvt_On`, `Enable_extract_bits` and `Enable_compose_bits`. -/
structure ShiftOptions where
  keepCvt : Bool
  extractBits : Bool
  composeBits : Bool

/-- The three shifts. -/
def Bop.isShift : Bop → Bool
  | .shl | .ashr | .lshr => true
  | _ => false

def shiftSize (ty : Mtype) : Nat := if ty = .U8 ∨ ty = .I8 then 64 else 32

/-- The count of a shift by a constant. -/
def constCount (masked : Bool) (size : Nat) (v : BitVec 64) : Nat :=
  if masked then (v &&& BitVec.ofNat 64 (size - 1)).toNat else min v.toNat size

def createBitmask (n : Nat) : BitVec 64 :=
  if n = 0 then 0 else if n = 64 then -1 else (1#64 <<< n) - 1#64

/-- `get_value_type`: the type of what is loaded. -/
def valueType : Expr → Mtype
  | .leaf (.ldid _) _ desc _ | .leaf .iload _ desc _ | .leaf .ldbits _ desc _ => desc
  | k => k.rtype

/-- The mask keeps all bits that stay in the shifted word. -/
def coversShift (size c1 : Nat) (c2 : BitVec 64) : Bool :=
  (c2 &&& createBitmask (size - c1)) == createBitmask (size - c1)

/-- The rule for short values. -/
def shortShift (op : Bop) (ty : Mtype) (c1 : Nat) (k0 : Expr) : Bool :=
  valueType k0 != ty &&
    (op == .lshr && (valueType k0).isUnsigned ||
      op == .ashr && k0.rtype.isUnsigned && decide ((valueType k0).bits < ty.bits)) &&
    decide ((valueType k0).bits ≤ c1)

section rules
variable (o : ShiftOptions) (masked : Bool) (create : Expr → Expr) (op : Bop) (ty : Mtype)

/-- A shift of a shift by the constant `b`. -/
def mergeShifts (c1 : Nat) (p : Bop) (a b : Expr) : Option Expr :=
  let size := shiftSize ty
  let c2 := constCount masked size b.constVal
  let field (c1 c2 : Nat) (t : Mtype) := create (.extract t (c1 - c2) (max (size - c1) 1) a)
  if p = op then
    if size ≤ c1 + c2 then
      if op ≠ .ashr then some (intConst ty 0)
      else some (create (.binary op ty a (intConst ty (BitVec.ofNat 64 (size - 1)))))
    else some (create (.binary op ty a (intConst ty (BitVec.ofNat 64 (c1 + c2)))))
  else if p ≠ .shl ∧ op = .shl ∧ c1 = c2 then
    some (create (.binary .band ty a (intConst ty (~~~createBitmask c1))))
  else if p = .shl ∧ op = .lshr ∧ c1 = c2 then
    some (create (.binary .band ty a (intConst ty (createBitmask (size - c1)))))
  else if p = .shl ∧ op = .lshr ∧ o.extractBits ∧ c2 < c1 then
    some (field c1 c2 (if size = 32 then .U4 else .U8))
  else if p = .shl ∧ op = .ashr ∧ c1 = 32 ∧ c2 = 32 then
    if a.rtype = .I4 ∨ a.rtype = .U4 then some (create (.cvt .I8 .I4 a)) else none
  else if p = .shl ∧ op = .ashr ∧ o.extractBits ∧ c2 ≤ c1 then
    some (field c1 c2 (if size = 32 then .I4 else .I8))
  else none

/-- A left shift of a mask by the constant `b`. -/
def shiftMask (c1 : Nat) (a b k1 : Expr) : Option Expr :=
  if coversShift (shiftSize ty) c1 b.constVal then some (create (.binary op ty a k1))
  else if o.composeBits && isPowerOf2 (b.constVal + 1) then
    some (create (.compose ty c1 (b.constVal + 1).toNat.log2 (intConst ty 0) a))
  else none

/-- The rule for short values, and no other. -/
def shiftShort (c1 : Nat) (k0 : Expr) : Option Expr :=
  if shortShift op ty c1 k0 then some (intConst ty 0) else none

/-- The rules that look at the first operand. -/
def shiftFirst (c1 : Nat) (k0 k1 : Expr) : Option Expr :=
  match k0 with
  | .cvt t desc k =>
    if !o.keepCvt ∧ op = .shl ∧ 32 ≤ c1 then some (create (.binary op ty k k1))
    else shiftShort op ty c1 (.cvt t desc k)
  | .binary p t a b =>
    if p.isShift ∧ shiftSize ty = shiftSize t ∧ b.isConst then mergeShifts o masked create op ty c1 p a b
    else if p = .band ∧ op = .shl ∧ b.isConst then shiftMask o create op ty c1 a b k1
    else if p = .band ∧ (op = .ashr ∨ op = .lshr) ∧ b.isConst ∧ shiftSize ty = t.bits then
      some (create (.binary p t (create (.binary op ty a k1)) (create (.binary op ty b k1))))
    else shiftShort op ty c1 (.binary p t a b)
  | k0 => shiftShort op ty c1 k0

/-- The rules for a constant count. -/
def shiftByConst (k0 k1 : Expr) : Option Expr :=
  let size := shiftSize ty
  let c1 := constCount masked size k1.constVal
  if c1 = 0 then some k0
  else if size ≤ c1 then
    if op ≠ .ashr then some (intConst ty 0)
    else some (create (.binary op ty k0 (intConst ty (BitVec.ofNat 64 (size - 1)))))
  else shiftFirst o masked create op ty c1 k0 k1

/-- A mask of the count that the shift applies anyway. -/
def dropCountMask (k0 k1 : Expr) : Option Expr :=
  match k1 with
  | .binary .band _ k (.intconst _ v) =>
    if masked ∧ v &&& BitVec.ofNat 64 (shiftSize ty - 1) = BitVec.ofNat 64 (shiftSize ty - 1) then
      some (create (.binary op ty k0 k))
    else none
  | _ => none

def simpShift (k0 k1 : Expr) : Option Expr :=
  match if k1.isConst then shiftByConst o masked create op ty k0 k1 else none with
  | some r => some r
  | none => dropCountMask masked create op ty k0 k1

end rules

/-! ## Words -/

/-- The word of a shift. -/
def shiftWord {w : Nat} (op : Bop) (a : BitVec w) (n : Nat) : BitVec w :=
  match op with
  | .shl => a <<< n
  | .ashr => a.sshiftRight n
  | _ => a >>> n

section words
variable {w : Nat} {a b : BitVec w} {c c1 c2 n : Nat}

theorem getLsbD_createBitmask (hn : n ≤ 64) (i : Nat) :
    (createBitmask n).getLsbD i = decide (i < n) := by
  unfold createBitmask
  split
  · rename_i h
    subst h
    simp
  · split
    · rename_i h
      subst h
      rw [show (-1 : BitVec 64) = BitVec.allOnes 64 from rfl, getLsbD_allOnes]
    · have hval : (1#64 <<< n) - 1#64 = BitVec.ofNat 64 (2 ^ n - 1) := by
        apply eq_of_toNat_eq
        have hlt : 2 ^ n < 2 ^ 64 := Nat.pow_lt_pow_right (by decide) (by omega)
        have hpos : 0 < 2 ^ n := Nat.two_pow_pos n
        have hone : (1#64 <<< n).toNat = 2 ^ n := by
          rw [toNat_shiftLeft, Nat.shiftLeft_eq, toNat_one (by decide), one_mul,
            Nat.mod_eq_of_lt hlt]
        rw [toNat_sub, hone, toNat_one (by decide), toNat_ofNat]
        omega
      rw [hval, getLsbD_ofNat, Nat.testBit_two_pow_sub_one]
      by_cases hi : i < n
      · simp [hi, show i < 64 by omega]
      · simp [hi]

theorem getLsbD_mask (hn : n ≤ 64) (i : Nat) :
    ((createBitmask n).setWidth w).getLsbD i = (decide (i < w) && decide (i < n)) := by
  rw [getLsbD_setWidth, getLsbD_createBitmask hn]

theorem sshiftRight_big (h : w ≤ n) : a.sshiftRight n = a.sshiftRight (w - 1) := by
  apply eq_of_getLsbD_eq
  intro i hi
  rw [getLsbD_sshiftRight, getLsbD_sshiftRight, if_neg (by omega)]
  split
  · have hzero : w - 1 + i = w - 1 := by omega
    rw [hzero, msb_eq_getLsbD_last]
  · rfl

theorem shiftWord_big {op : Bop} (hop : op.isShift = true) (h : w ≤ n) :
    shiftWord op a n = if op = .ashr then a.sshiftRight (w - 1) else 0#w := by
  cases op with
  | shl => exact shiftLeft_eq_zero h
  | lshr => exact ushiftRight_eq_zero h
  | ashr => exact sshiftRight_big h
  | add | sub | mpy | mod | rem | band | bior | bxor | land | lior => exact absurd hop nofun

theorem shiftWord_add {op : Bop} : shiftWord op (shiftWord op a c2) c1 = shiftWord op a (c2 + c1) := by
  cases op with
  | shl => exact (shiftLeft_add a c2 c1).symm
  | ashr => exact sshiftRight_add.symm
  | lshr | add | sub | mpy | mod | rem | band | bior | bxor | land | lior =>
    exact (shiftRight_add a c2 c1).symm

theorem shiftWord_and {op : Bop} : shiftWord op (a &&& b) c = shiftWord op a c &&& shiftWord op b c := by
  unfold shiftWord
  split
  · exact shiftLeft_and_distrib a b c
  · exact sshiftRight_and_distrib a b c
  · exact ushiftRight_and_distrib a b c

theorem right_left {p : Bop} (hp : p = .ashr ∨ p = .lshr) (hw : w ≤ 64) (hc : c < w) :
    shiftWord p a c <<< c = a &&& (~~~createBitmask c).setWidth w := by
  apply eq_of_getLsbD_eq
  intro i hi
  rw [getLsbD_and, getLsbD_setWidth, getLsbD_not,
    getLsbD_createBitmask (by omega), getLsbD_shiftLeft]
  by_cases hic : i < c
  · simp [hic]
  · have hback : c + (i - c) = i := by omega
    rcases hp with rfl | rfl
    · simp only [shiftWord, getLsbD_sshiftRight, hback]
      simp [hic, hi, show i < 64 by omega, show ¬ w ≤ i - c by omega]
    · simp only [shiftWord, getLsbD_ushiftRight, hback]
      simp [hic, hi, show i < 64 by omega]

theorem left_right (hw : w ≤ 64) (hc : c < w) :
    (a <<< c) >>> c = a &&& (createBitmask (w - c)).setWidth w := by
  apply eq_of_getLsbD_eq
  intro i hi
  rw [getLsbD_and, getLsbD_mask (by omega), getLsbD_ushiftRight,
    getLsbD_shiftLeft]
  by_cases hic : i < w - c
  · simp [hic, hi, show c + i < w by omega]
  · simp [hic, show ¬ c + i < w by omega]

theorem left_lshr (h : c2 ≤ c1) (hc : c1 < w) :
    (a <<< c2) >>> c1 = ((a >>> (c1 - c2)).setWidth (w - c1)).setWidth w := by
  apply eq_of_getLsbD_eq
  intro i hi
  rw [getLsbD_setWidth, getLsbD_setWidth, getLsbD_ushiftRight,
    getLsbD_ushiftRight, getLsbD_shiftLeft]
  have hback : c1 + i - c2 = c1 - c2 + i := by omega
  by_cases hic : i < w - c1
  · simp [hic, hi, hback, show c1 + i < w by omega, show ¬ c1 + i < c2 by omega]
  · simp [hic, show ¬ c1 + i < w by omega]

theorem left_ashr (h : c2 ≤ c1) (hc : c1 < w) :
    (a <<< c2).sshiftRight c1 = ((a >>> (c1 - c2)).setWidth (w - c1)).signExtend w := by
  have hmsb : ((a >>> (c1 - c2)).setWidth (w - c1)).msb = (a <<< c2).msb := by
    rw [msb_eq_getLsbD_last, msb_eq_getLsbD_last, getLsbD_setWidth,
      getLsbD_ushiftRight, getLsbD_shiftLeft]
    have hback : c1 - c2 + (w - c1 - 1) = w - 1 - c2 := by omega
    simp [hback, show w - c1 - 1 < w - c1 by omega, show w - 1 < w by omega,
      show ¬ w - 1 < c2 by omega]
  apply eq_of_getLsbD_eq
  intro i hi
  rw [getLsbD_signExtend, getLsbD_sshiftRight, hmsb]
  have hback : c1 + i - c2 = c1 - c2 + i := by omega
  by_cases hic : i < w - c1
  · rw [if_pos hic, if_pos (show c1 + i < w by omega), getLsbD_setWidth,
      getLsbD_ushiftRight, getLsbD_shiftLeft, hback]
    simp [hic, hi, show c1 + i < w by omega, show ¬ c1 + i < c2 by omega]
  · rw [if_neg hic, if_neg (show ¬ c1 + i < w by omega)]
    simp [hi]

theorem shiftLeft_eq_iff (hc : c ≤ w) :
    a <<< c = b <<< c ↔ a.setWidth (w - c) = b.setWidth (w - c) := by
  constructor
  · intro h
    apply eq_of_getLsbD_eq
    intro i hi
    have hbit := congrArg (fun x => x.getLsbD (i + c)) h
    simp only [getLsbD_shiftLeft, Nat.add_sub_cancel] at hbit
    rw [getLsbD_setWidth, getLsbD_setWidth]
    simpa [show i + c < w by omega, show ¬ i + c < c by omega, hi] using hbit
  · intro h
    apply eq_of_getLsbD_eq
    intro i hi
    rw [getLsbD_shiftLeft, getLsbD_shiftLeft]
    by_cases hic : i < c
    · simp [hic]
    · have hbit := congrArg (fun x => x.getLsbD (i - c)) h
      simp only [getLsbD_setWidth, show i - c < w - c by omega, decide_true,
        Bool.true_and] at hbit
      rw [hbit]

end words

/-! ## Values -/

section values
variable {ρ : Env} {create : Expr → Expr} {op p : Bop} {ty t : Mtype} {k0 k1 a b r : Expr}
  {c1 c2 n : Nat}

theorem shiftSize_eq (hty : ty.IsRegister) : shiftSize ty = ty.bits := by
  revert hty
  cases ty <;> decide

theorem Mtype.word_toInt (t : Mtype) (v : BitVec 64) : t.word v.toInt = v.setWidth t.bits :=
  signExtend_eq_setWidth_of_le v t.bits_le

theorem word_intConst (v : BitVec 64) : ty.word (eval ρ (intConst ty v)) = v.setWidth ty.bits := by
  rw [eval_intConst, Mtype.word_wrap, Mtype.word_toInt]

theorem eval_shift (hop : op.isShift = true) :
    eval ρ (.binary op ty k0 k1) = ty.ofWord (shiftWord op (ty.word (eval ρ k0))
      (shiftCount ρ.maskShiftCounts ty.bits (eval ρ k1))) := by
  cases op with
  | shl => rfl
  | ashr => rfl
  | lshr => rfl
  | add | sub | mpy | mod | rem | band | bior | bxor | land | lior => exact absurd hop nofun

/-- What `simp_shift` returns, read at the type of the shift, is the value of the shift. -/
def SameShift (ρ : Env) (op : Bop) (ty : Mtype) (k0 k1 r : Expr) : Prop :=
  ty.wrap (eval ρ r) = eval ρ (.binary op ty k0 k1)

theorem sameShift_iff (hop : op.isShift = true)
    (hcount : shiftCount ρ.maskShiftCounts ty.bits (eval ρ k1) = c1) : SameShift ρ op ty k0 k1 r ↔
      ty.word (eval ρ r) = shiftWord op (ty.word (eval ρ k0)) c1 := by
  unfold SameShift
  rw [eval_shift hop, hcount]
  exact Mtype.ofWord_inj

theorem shiftCount_const {cty : Mtype} {v : BitVec 64} (hty : ty.IsRegister)
    (hcty : cty.IsRegister) (hv : WellStored cty v) (masked : Bool) :
    shiftCount masked ty.bits (cty.wrap v.toInt) = constCount masked ty.bits v := by
  have hint : v.toInt % 2 ^ 64 = v.toNat := by
    have hlt := v.isLt
    rw [toInt_eq_toNat_cond]
    split <;> omega
  unfold shiftCount constCount
  cases masked with
  | true =>
    rw [if_pos rfl, if_pos rfl, toNat_and]
    have hlow := cty.wrap_emod v.toInt
    have hcase : ty.bits = 2 ^ 5 ∨ ty.bits = 2 ^ 6 := by
      revert hty
      cases ty <;> decide
    have hdvd : ∀ j, j ≤ 6 → cty.wrap v.toInt % 2 ^ j = v.toNat % 2 ^ j := by
      intro j hj
      have h1 : (2 : Int) ^ j ∣ 2 ^ cty.bits := pow_dvd_pow 2 (by unfold Mtype.IsRegister at hcty; omega)
      have h2 : (2 : Int) ^ j ∣ 2 ^ 64 := pow_dvd_pow 2 (by omega)
      rw [← Int.emod_emod_of_dvd _ h1, hlow, Int.emod_emod_of_dvd _ h1,
        ← Int.emod_emod_of_dvd _ h2, hint]
    rcases hcase with h | h
    · have hmod := hdvd 5 (by omega)
      have hand : v.toNat &&& (2 ^ 5 - 1) = v.toNat % 2 ^ 5 := Nat.and_two_pow_sub_one_eq_mod _ 5
      rw [h]
      show (cty.wrap v.toInt % 2 ^ 5).toNat = v.toNat &&& (2 ^ 5 - 1)
      rw [hand, hmod]
      rfl
    · have hmod := hdvd 6 (by omega)
      have hand : v.toNat &&& (2 ^ 6 - 1) = v.toNat % 2 ^ 6 := Nat.and_two_pow_sub_one_eq_mod _ 6
      rw [h]
      show (cty.wrap v.toInt % 2 ^ 6).toNat = v.toNat &&& (2 ^ 6 - 1)
      rw [hand, hmod]
      rfl
  | false =>
    have hwrap : cty.wrap v.toInt % 2 ^ 64 = v.toNat := by
      cases hu : cty.isUnsigned with
      | false => rw [Mtype.wrap_of_holds (hv.1 hu), hint]
      | true =>
        rw [Mtype.wrap_unsigned hu]
        have hcase : cty = .U4 ∨ cty = .U8 := by
          revert hcty hu
          cases cty <;> decide
        rcases hcase with rfl | rfl
        · have hlt := hv.2 rfl
          show v.toInt % 2 ^ 32 % 2 ^ 64 = v.toNat
          rw [toInt_eq_toNat_cond, if_pos (by omega)]
          omega
        · show v.toInt % 2 ^ 64 % 2 ^ 64 = v.toNat
          rw [Int.emod_emod, hint]
    rw [if_neg nofun, if_neg nofun, hwrap]
    rfl

theorem shiftCount_intConst (hty : ty.IsRegister) (hn : n < ty.bits) (masked : Bool) :
    shiftCount masked ty.bits (eval ρ (intConst ty (BitVec.ofNat 64 n))) = n := by
  have hle := ty.bits_le
  have hint : (BitVec.ofNat 64 n).toInt = n := by
    rw [toInt_eq_toNat_cond, toNat_ofNat, Nat.mod_eq_of_lt (by omega),
      if_pos (by omega)]
  have hholds : ty.Holds (n : Int) := by
    have h32 : (2 : Int) ^ 31 ≤ 2 ^ (ty.bits - 1) := by
      revert hty
      cases ty <;> decide
    have hhalf := ty.two_pow_half
    unfold Mtype.Holds
    split <;> omega
  rw [eval_intConst, hint, Mtype.wrap_of_holds hholds]
  unfold shiftCount
  split
  · rw [Int.emod_eq_of_lt (by omega) (by omega)]
    rfl
  · rw [Int.emod_eq_of_lt (by omega) (by omega)]
    omega

theorem word_created (hc : Keeps ρ create) (hop : op.isShift = true) (hty : ty.IsRegister)
    (hn : n < ty.bits) :
    ty.word (eval ρ (create (.binary op ty a (intConst ty (BitVec.ofNat 64 n))))) =
      shiftWord op (ty.word (eval ρ a)) n := by
  rw [hc, eval_shift hop, shiftCount_intConst hty hn, Mtype.word_ofWord]

theorem word_band (m : BitVec 64) (hc : Keeps ρ create) :
    ty.word (eval ρ (create (.binary .band ty a (intConst ty m)))) =
      ty.word (eval ρ a) &&& m.setWidth ty.bits := by
  rw [hc]
  show ty.word (ty.ofWord (_ &&& _)) = _
  rw [Mtype.word_ofWord, word_intConst]

theorem word_inner (hp : p.isShift = true) (hbits : t.bits = ty.bits) :
    ty.word (eval ρ (.binary p t a b)) = shiftWord p (ty.word (eval ρ a))
      (shiftCount ρ.maskShiftCounts ty.bits (eval ρ b)) := by
  have hsame : ∀ (w w' : Nat) (x : Int), w = w' → (shiftWord p (BitVec.ofInt w x)
        (shiftCount ρ.maskShiftCounts w (eval ρ b))).setWidth w' =
      shiftWord p (BitVec.ofInt w' x) (shiftCount ρ.maskShiftCounts w' (eval ρ b)) := by
    intro w w' x h
    subst h
    exact setWidth_eq _
  rw [eval_shift hp]
  exact (Mtype.ofInt_ofWord hbits.ge _).trans (hsame _ _ _ hbits)

theorem word_inner_band (hbits : t.bits = ty.bits) :
    ty.word (eval ρ (.binary .band t a b)) = ty.word (eval ρ a) &&& ty.word (eval ρ b) := by
  have hsame : ∀ (w w' : Nat) (x y : Int), w = w' →
      (BitVec.ofInt w x &&& BitVec.ofInt w y).setWidth w' = BitVec.ofInt w' x &&& BitVec.ofInt w' y := by
    intro w w' x y h
    subst h
    exact setWidth_eq _
  show ty.word (t.ofWord (_ &&& _)) = _
  apply (Mtype.ofInt_ofWord hbits.ge _).trans
  exact hsame _ _ _ _ hbits

end values

/-! ## The rules keep the value -/

section keep
variable {ρ : Env} {o : ShiftOptions} {create : Expr → Expr} {op p : Bop} {ty t : Mtype}
  {k0 k1 a b r : Expr} {c1 : Nat}

theorem same_big (hc : Keeps ρ create) (hop : op.isShift = true) (hty : ty.IsRegister) {n : Nat}
    (hn : ty.bits ≤ n) (h : (if op ≠ .ashr then some (intConst ty 0)
      else some (create (.binary op ty a (intConst ty (BitVec.ofNat 64 (ty.bits - 1)))))) = some r) :
    ty.word (eval ρ r) = shiftWord op (ty.word (eval ρ a)) n := by
  rw [shiftWord_big hop hn]
  split at h
  · rename_i hne
    obtain rfl := some.inj h
    rw [word_intConst, if_neg hne]
    exact setWidth_zero _ _
  · rename_i heq
    obtain rfl := some.inj h
    obtain rfl := not_not.mp heq
    have hlt : ty.bits - 1 < ty.bits := by
      have := ty.bits_pos
      omega
    rw [word_created hc hop hty hlt, if_pos rfl]
    rfl

theorem word_extract_unsigned (hc : Keeps ρ create) (hty : ty.IsRegister) (off s : Nat) :
    ty.word (eval ρ (create (.extract (if ty.bits = 32 then .U4 else .U8) off s a))) =
      ((ty.word (eval ρ a) >>> off).setWidth s).setWidth ty.bits := by
  have hfield : ∀ {w : Nat} (x : BitVec w) (m : Nat),
      BitVec.ofInt m (lowBits true s (x.toNat : Int)) = (x.setWidth s).setWidth m := by
    intro w x m
    rw [lowBits_eq, if_pos rfl, ofInt_natCast, ofInt_natCast, ofNat_toNat,
      ofNat_toNat]
  rw [hc]
  revert hty
  cases ty with
  | I4 => exact fun _ => (Mtype.ofInt_wrap (t := .U4) le_rfl).trans (hfield _ _)
  | U4 => exact fun _ => (Mtype.ofInt_wrap (t := .U4) le_rfl).trans (hfield _ _)
  | I8 => exact fun _ => (Mtype.ofInt_wrap (t := .U8) le_rfl).trans (hfield _ _)
  | U8 => exact fun _ => (Mtype.ofInt_wrap (t := .U8) le_rfl).trans (hfield _ _)
  | I1 | I2 | U1 | U2 => exact fun h => absurd h (by decide)

theorem word_extract_signed (hc : Keeps ρ create) (hty : ty.IsRegister) (off s : Nat) :
    ty.word (eval ρ (create (.extract (if ty.bits = 32 then .I4 else .I8) off s a))) =
      ((ty.word (eval ρ a) >>> off).setWidth s).signExtend ty.bits := by
  have hfield : ∀ {w : Nat} (x : BitVec w) (m : Nat),
      BitVec.ofInt m (lowBits false s (x.toNat : Int)) = (x.setWidth s).signExtend m := by
    intro w x m
    rw [lowBits_eq, if_neg nofun, ofInt_natCast, ofNat_toNat]
    rfl
  rw [hc]
  revert hty
  cases ty with
  | I4 => exact fun _ => (Mtype.ofInt_wrap (t := .I4) le_rfl).trans (hfield _ _)
  | U4 => exact fun _ => (Mtype.ofInt_wrap (t := .I4) le_rfl).trans (hfield _ _)
  | I8 => exact fun _ => (Mtype.ofInt_wrap (t := .I8) le_rfl).trans (hfield _ _)
  | U8 => exact fun _ => (Mtype.ofInt_wrap (t := .I8) le_rfl).trans (hfield _ _)
  | I1 | I2 | U1 | U2 => exact fun h => absurd h (by decide)

theorem word_cvt (hc : Keeps ρ create) (h64 : ty.bits = 64) :
    ty.word (eval ρ (create (.cvt .I8 .I4 a))) =
      ((ty.word (eval ρ a) >>> 0).setWidth 32).signExtend ty.bits := by
  rw [hc, ushiftRight_zero, Mtype.setWidth_word (by omega)]
  show BitVec.ofInt ty.bits (Mtype.I8.wrap (Mtype.I4.wrap (eval ρ a))) = _
  rw [Mtype.ofInt_wrap (t := .I8) (show ty.bits ≤ 64 from h64.le)]
  rfl

/-- Two shifts in one direction by constants are one, of the sum of the counts. -/
theorem mergeShifts_same (hc : Keeps ρ create) (hop : op.isShift = true) (hp : p.isShift = true)
    (hty : ty.IsRegister) (hc1 : c1 < ty.bits)
    (h : mergeShifts o ρ.maskShiftCounts create op ty c1 p a b = some r) :
    ty.word (eval ρ r) = shiftWord op (shiftWord p (ty.word (eval ρ a))
      (constCount ρ.maskShiftCounts ty.bits b.constVal)) c1 := by
  unfold mergeShifts at h
  rw [shiftSize_eq hty] at h
  dsimp only at h
  generalize constCount ρ.maskShiftCounts ty.bits b.constVal = c2 at h ⊢
  have hle := ty.bits_le
  split at h
  · -- the same shift twice
    rename_i hsame
    subst hsame
    rw [shiftWord_add]
    split at h
    · rename_i hbig
      exact same_big hc hop hty (by omega) h
    · rename_i hsmall
      obtain rfl := some.inj h
      rw [word_created hc hop hty (by omega), Nat.add_comm]
  · split at h
    · -- right, then left
      rename_i hcase
      obtain ⟨hne, rfl, rfl⟩ := hcase
      obtain rfl := some.inj h
      have hright : p = .ashr ∨ p = .lshr := by
        cases p with
        | ashr => exact .inl rfl
        | lshr => exact .inr rfl
        | shl => exact absurd rfl hne
        | add | sub | mpy | mod | rem | band | bior | bxor | land | lior => exact absurd hp nofun
      rw [word_band _ hc]
      exact (right_left hright hle hc1).symm
    · split at h
      · -- left, then right without a sign
        rename_i hcase
        obtain ⟨rfl, rfl, rfl⟩ := hcase
        obtain rfl := some.inj h
        rw [word_band _ hc]
        exact (left_right hle hc1).symm
      · split at h
        · rename_i hcase
          obtain ⟨rfl, rfl, -, hlt⟩ := hcase
          obtain rfl := some.inj h
          rw [word_extract_unsigned hc hty, max_eq_left (by omega)]
          exact (left_lshr hlt.le hc1).symm
        · split at h
          · -- left, then right with a sign
            rename_i hcase
            obtain ⟨rfl, rfl, rfl, rfl⟩ := hcase
            split at h
            · obtain rfl := some.inj h
              have h64 : ty.bits = 64 := by
                revert hc1 hty
                cases ty <;> decide
              rw [word_cvt hc h64]
              have hfield := left_ashr (a := ty.word (eval ρ a)) (le_refl 32) hc1
              rw [Nat.sub_self, show ty.bits - 32 = 32 by omega] at hfield
              exact hfield.symm
            · exact absurd h nofun
          · split at h
            · rename_i hcase
              obtain ⟨rfl, rfl, -, hle'⟩ := hcase
              obtain rfl := some.inj h
              rw [word_extract_signed hc hty, max_eq_left (by omega)]
              exact (left_ashr hle' hc1).symm
            · exact absurd h nofun

end keep

/-! ## Short values -/

section short
variable {ρ : Env} {op : Bop} {ty t : Mtype} {k0 k1 : Expr} {u : Bool} {n m c1 : Nat} {x : Int}

/-- The numbers of `n` bits and a sign. -/
def FitsBits (u : Bool) (n : Nat) (x : Int) : Prop :=
  if u then 0 ≤ x ∧ x < 2 ^ n else -2 ^ n ≤ 2 * x ∧ 2 * x < 2 ^ n

theorem holds_iff_fits : t.Holds x ↔ FitsBits t.isUnsigned t.bits x := by
  have hhalf := t.two_pow_half
  unfold Mtype.Holds FitsBits
  split
  · exact Iff.rfl
  · constructor <;> intro h <;> omega

theorem FitsBits.mono (h : FitsBits u n x) (hnm : n ≤ m) : FitsBits u m x := by
  have hle : (2 : Int) ^ n ≤ 2 ^ m := pow_le_pow_right₀ (by norm_num) hnm
  unfold FitsBits at h ⊢
  split at h
  · rename_i hu
    rw [if_pos hu]
    omega
  · rename_i hu
    rw [if_neg hu]
    omega

theorem lowBits_fits (u : Bool) (n : Nat) (x : Int) : FitsBits u n (lowBits u n x) := by
  unfold FitsBits lowBits
  cases u with
  | true =>
    have hpos : (0 : Int) < 2 ^ n := by positivity
    rw [if_pos rfl, if_pos rfl]
    exact ⟨Int.emod_nonneg _ hpos.ne', Int.emod_lt_of_pos _ hpos⟩
  | false =>
    have hpos : 0 < 2 ^ n := Nat.two_pow_pos n
    have hlo := Int.le_bmod (x := x) hpos
    have hhi := Int.bmod_lt (x := x) hpos
    push_cast at hlo hhi
    rw [if_neg nofun, if_neg nofun]
    constructor
    · omega
    · omega

theorem wrap_fits (h : FitsBits t.isUnsigned n x) : FitsBits t.isUnsigned n (t.wrap x) := by
  by_cases hn : n ≤ t.bits
  · rw [Mtype.wrap_of_holds (holds_iff_fits.mpr (h.mono hn))]
    exact h
  · exact (holds_iff_fits.mp (t.holds_wrap x)).mono (by omega)

theorem valueType_fits (ht : Typed k0) :
    FitsBits k0.rtype.isUnsigned (valueType k0).bits (eval ρ k0) := by
  have hother : FitsBits k0.rtype.isUnsigned k0.rtype.bits (eval ρ k0) :=
    holds_iff_fits.mp (holds_eval ρ k0)
  cases k0 with
  | leaf kind t desc id =>
    cases kind with
    | other => exact hother
    | ldbits => exact wrap_fits (lowBits_fits _ _ _)
    | ldid preg =>
      have hload : FitsBits t.isUnsigned desc.bits (desc.wrap (ρ.leaf id)) := by
        rw [desc.wrap_eq_lowBits, ht.2]
        exact lowBits_fits _ _ _
      exact wrap_fits hload
    | iload =>
      have hload : FitsBits t.isUnsigned desc.bits (desc.wrap (ρ.leaf id)) := by
        rw [desc.wrap_eq_lowBits, ht.2]
        exact lowBits_fits _ _ _
      exact wrap_fits hload
  | intconst t v => exact hother
  | unary q t k => exact hother
  | cvt t desc k => exact hother
  | cvtl t bits k => exact hother
  | binary q t a b => exact hother
  | compare q t desc a b => exact hother
  | select t c a b => exact hother
  | extract t offset size k => exact hother
  | compose t offset size a b => exact hother

theorem toNat_word (hlo : 0 ≤ x) (hhi : x < 2 ^ t.bits) : ((t.word x).toNat : Int) = x := by
  unfold Mtype.word
  rw [toNat_ofInt]
  push_cast
  rw [Int.emod_eq_of_lt hlo hhi]
  omega

theorem shortShift_iff (hop : op.isShift = true) (ht : Typed k0) (hc1 : c1 < ty.bits)
    (h : shortShift op ty c1 k0 = true) :
    shiftWord op (ty.word (eval ρ k0)) c1 = BitVec.ofNat ty.bits 0 ↔ 0 ≤ eval ρ k0 := by
  unfold shortShift at h
  simp only [Bool.and_eq_true, Bool.or_eq_true, beq_iff_eq, decide_eq_true_eq] at h
  obtain ⟨⟨-, hkind⟩, hbits⟩ := h
  have hfits := valueType_fits (ρ := ρ) ht
  have hpow : (2 : Int) ^ (valueType k0).bits ≤ 2 ^ c1 := pow_le_pow_right₀ (by norm_num) hbits
  have hpow' : (2 : Int) ^ c1 * 2 ≤ 2 ^ ty.bits := by
    rw [← pow_succ]
    exact pow_le_pow_right₀ (by norm_num) hc1
  constructor
  · intro hzero
    by_contra hneg
    cases hu : k0.rtype.isUnsigned with
    | true =>
      rw [hu] at hfits
      exact hneg hfits.1
    | false =>
      rw [hu] at hfits
      obtain ⟨hlo, -⟩ := hfits
      obtain rfl : op = .lshr := by
        rcases hkind with hkind | hkind
        · exact hkind.1
        · rw [hu] at hkind
          exact absurd hkind.1.2 nofun
      -- the top bit of a negative number is not shifted away
      have hword : ((ty.word (eval ρ k0)).toNat : Int) = eval ρ k0 + 2 ^ ty.bits := by
        have hcongr : ty.word (eval ρ k0) = ty.word (eval ρ k0 + 2 ^ ty.bits) := by
          rw [Mtype.word_eq_iff, Int.add_emod_right]
        rw [hcongr]
        exact toNat_word (by omega) (by omega)
      have hdiv := congrArg BitVec.toNat hzero
      have hshift : (shiftWord .lshr (ty.word (eval ρ k0)) c1).toNat =
          (ty.word (eval ρ k0)).toNat / 2 ^ c1 := by
        unfold shiftWord
        rw [toNat_ushiftRight, Nat.shiftRight_eq_div_pow]
      rw [hshift, toNat_ofNat, Nat.zero_mod, Nat.div_eq_zero_iff] at hdiv
      rcases hdiv with hdiv | hdiv
      · exact absurd hdiv (Nat.two_pow_pos c1).ne'
      · zify at hdiv
        omega
  · intro hpos
    have hlt : eval ρ k0 < 2 ^ c1 := by
      unfold FitsBits at hfits
      split at hfits <;> omega
    have hword := toNat_word (t := ty) hpos (by omega)
    have hnat : (ty.word (eval ρ k0)).toNat < 2 ^ c1 := by
      zify
      omega
    have hlshr : ty.word (eval ρ k0) >>> c1 = BitVec.ofNat ty.bits 0 := by
      apply eq_of_toNat_eq
      rw [toNat_ushiftRight, Nat.shiftRight_eq_div_pow, Nat.div_eq_of_lt hnat]
      exact toNat_zero.symm
    rcases hkind with hkind | hkind
    · rw [hkind.1]
      exact hlshr
    · rw [hkind.1.1]
      have hmsb : (ty.word (eval ρ k0)).msb = false := by
        rw [msb_eq_false_iff_two_mul_lt]
        zify
        omega
      unfold shiftWord
      rw [sshiftRight_eq_of_msb_false hmsb]
      exact hlshr

end short

/-! ## All rules -/

/-- Where two rules read too much into the first operand: a negative short value, or other low bits
of a `BAND` than its operand's. -/
def FirstSound (o : ShiftOptions) (ρ : Env) (op : Bop) (ty : Mtype) (c1 : Nat) (k0 : Expr) : Prop :=
  (shortShift op ty c1 k0 = true → 0 ≤ eval ρ k0) ∧
  ∀ t a b, k0 = .binary .band t a b → op = .shl → b.isConst = true →
    (coversShift ty.bits c1 b.constVal = true →
      (ty.word (eval ρ k0)).setWidth (ty.bits - c1) =
        (ty.word (eval ρ a)).setWidth (ty.bits - c1)) ∧
    (coversShift ty.bits c1 b.constVal = false → o.composeBits = true →
      isPowerOf2 (b.constVal + 1) = true →
      (ty.word (eval ρ k0)).setWidth (ty.bits - c1) =
        (ty.word (eval ρ a) &&&
          BitVec.ofNat ty.bits (2 ^ (b.constVal + 1).toNat.log2 - 1)).setWidth (ty.bits - c1))

/-- The same, for a count that is a constant between 0 and the width. -/
def ShiftSound (o : ShiftOptions) (ρ : Env) (op : Bop) (ty : Mtype) (k0 k1 : Expr) : Prop :=
  k1.isConst = true → constCount ρ.maskShiftCounts ty.bits k1.constVal ≠ 0 →
    constCount ρ.maskShiftCounts ty.bits k1.constVal < ty.bits →
    FirstSound o ρ op ty (constCount ρ.maskShiftCounts ty.bits k1.constVal) k0

/-- Whatever `simp_shift` returns has the value of the shift. -/
def ShiftRight (o : ShiftOptions) (ρ : Env) (create : Expr → Expr) (op : Bop) (ty : Mtype)
    (k0 k1 : Expr) : Prop :=
  ∀ r, simpShift o ρ.maskShiftCounts create op ty k0 k1 = some r → SameShift ρ op ty k0 k1 r

section all
variable {o : ShiftOptions} {ρ : Env} {create : Expr → Expr} {op p : Bop} {ty t : Mtype}
  {k0 k1 a b r : Expr} {c1 : Nat}

theorem shortShift_shl : shortShift .shl ty c1 k0 = false := by
  unfold shortShift
  simp

theorem shortShift_wide (hbits : (valueType k0).bits = ty.bits) (hc1 : c1 < ty.bits) :
    shortShift op ty c1 k0 = false := by
  unfold shortShift
  rw [decide_eq_false (show ¬ (valueType k0).bits ≤ c1 by omega), Bool.and_false]

theorem shiftShort_right_iff (hop : op.isShift = true) (ht : Typed k0) (hc1 : c1 < ty.bits)
    (hcount : shiftCount ρ.maskShiftCounts ty.bits (eval ρ k1) = c1) :
    (∀ r, shiftShort op ty c1 k0 = some r → SameShift ρ op ty k0 k1 r) ↔
      (shortShift op ty c1 k0 = true → 0 ≤ eval ρ k0) := by
  unfold shiftShort
  cases hshort : shortShift op ty c1 k0 with
  | false => exact iff_of_true nofun nofun
  | true =>
    have hiff : SameShift ρ op ty k0 k1 (intConst ty 0) ↔ 0 ≤ eval ρ k0 := by
      rw [sameShift_iff hop hcount, word_intConst,
        show (0 : BitVec 64).setWidth ty.bits = BitVec.ofNat ty.bits 0 from
          setWidth_zero _ _,
        eq_comm]
      exact shortShift_iff hop ht hc1 hshort
    rw [← hiff]
    constructor
    · intro h _
      exact h _ rfl
    · intro h r hr
      obtain rfl := some.inj hr
      exact h rfl

theorem shiftMask_right_iff (hc : Keeps ρ create) (hty : ty.IsRegister) (hc1 : c1 < ty.bits)
    (hcount : shiftCount ρ.maskShiftCounts ty.bits (eval ρ k1) = c1) :
    (∀ r, shiftMask o create .shl ty c1 a b k1 = some r → SameShift ρ .shl ty k0 k1 r) ↔
      (coversShift ty.bits c1 b.constVal = true → (ty.word (eval ρ k0)).setWidth (ty.bits - c1) =
          (ty.word (eval ρ a)).setWidth (ty.bits - c1)) ∧
      (coversShift ty.bits c1 b.constVal = false → o.composeBits = true →
        isPowerOf2 (b.constVal + 1) = true → (ty.word (eval ρ k0)).setWidth (ty.bits - c1) =
          (ty.word (eval ρ a) &&&
            BitVec.ofNat ty.bits (2 ^ (b.constVal + 1).toNat.log2 - 1)).setWidth (ty.bits - c1)) := by
  unfold shiftMask
  rw [shiftSize_eq hty]
  cases hcover : coversShift ty.bits c1 b.constVal with
  | true =>
    have hiff : SameShift ρ .shl ty k0 k1 (create (.binary .shl ty a k1)) ↔
        (ty.word (eval ρ k0)).setWidth (ty.bits - c1) =
          (ty.word (eval ρ a)).setWidth (ty.bits - c1) := by
      rw [sameShift_iff rfl hcount, hc, eval_shift rfl, hcount, Mtype.word_ofWord,
        ← shiftLeft_eq_iff hc1.le, eq_comm]
      exact Iff.rfl
    rw [← hiff]
    constructor
    · intro h
      exact ⟨fun _ => h _ rfl, nofun⟩
    · intro h r hr
      obtain rfl := some.inj hr
      exact h.1 rfl
  | false =>
    rw [if_neg nofun]
    cases hcompose : (o.composeBits && isPowerOf2 (b.constVal + 1)) with
    | false =>
      rw [if_neg nofun]
      apply iff_of_true nofun
      refine ⟨nofun, fun _ h1 h2 => ?_⟩
      rw [h1, h2] at hcompose
      exact absurd hcompose nofun
    | true =>
      rw [if_pos rfl]
      obtain ⟨h1, h2⟩ := Bool.and_eq_true_iff.mp hcompose
      have hiff : SameShift ρ .shl ty k0 k1
          (create (.compose ty c1 (b.constVal + 1).toNat.log2 (intConst ty 0) a)) ↔
          (ty.word (eval ρ k0)).setWidth (ty.bits - c1) =
            (ty.word (eval ρ a) &&& BitVec.ofNat ty.bits
              (2 ^ (b.constVal + 1).toNat.log2 - 1)).setWidth (ty.bits - c1) := by
        have hzero : ty.word (eval ρ (intConst ty 0)) = BitVec.ofNat ty.bits 0 := by
          rw [word_intConst]
          exact setWidth_zero _ _
        rw [sameShift_iff rfl hcount, hc, eval, hzero, zero_and, zero_or,
          Mtype.word_ofWord, ← shiftLeft_and_distrib, ← shiftLeft_eq_iff hc1.le, eq_comm]
        exact Iff.rfl
      rw [← hiff]
      constructor
      · intro h
        exact ⟨nofun, fun _ _ _ => h _ rfl⟩
      · intro h r hr
        obtain rfl := some.inj hr
        exact h.2 rfl h1 h2

/-- The rewrites of a shift by a constant, tried in the order of the source; each has its own
condition. -/
theorem shiftFirst_right_iff (hc : Keeps ρ create) (hop : op.isShift = true) (hty : ty.IsRegister)
    (ht : Typed k0) (hwf : WellFormed k0) (hc1 : c1 < ty.bits)
    (hcount : shiftCount ρ.maskShiftCounts ty.bits (eval ρ k1) = c1) :
    (∀ r, shiftFirst o ρ.maskShiftCounts create op ty c1 k0 k1 = some r →
      SameShift ρ op ty k0 k1 r) ↔ FirstSound o ρ op ty c1 k0 := by
  have hshort := shiftShort_right_iff (ρ := ρ) hop ht hc1 hcount
  -- where there is no mask, the rule for short values is the only one that can fail
  have hnomask : (∀ t a b, k0 = .binary .band t a b → op = .shl → b.isConst = false) →
      (FirstSound o ρ op ty c1 k0 ↔ (shortShift op ty c1 k0 = true → 0 ≤ eval ρ k0)) := by
    intro hno
    constructor
    · exact fun h => h.1
    · intro h
      refine ⟨h, fun t a b hk hshl hb => ?_⟩
      rw [hno t a b hk hshl] at hb
      exact absurd hb Bool.false_ne_true
  have hcase : ∀ e : Expr, k0 = e → (∀ t a b, e ≠ .binary .band t a b) →
      (shiftFirst o ρ.maskShiftCounts create op ty c1 k0 k1 = shiftShort op ty c1 k0) →
      ((∀ r, shiftFirst o ρ.maskShiftCounts create op ty c1 k0 k1 = some r →
        SameShift ρ op ty k0 k1 r) ↔ FirstSound o ρ op ty c1 k0) := by
    intro e he hne heq
    rw [heq, hnomask (fun t a b hk => absurd (he.symm.trans hk) (hne t a b))]
    exact hshort
  cases k0 with
  | cvt t desc k =>
    by_cases hfire : (!o.keepCvt) = true ∧ op = .shl ∧ 32 ≤ c1
    · obtain ⟨-, rfl, h32⟩ := id hfire
      apply iff_of_true
      · intro r hr
        have heq : shiftFirst o ρ.maskShiftCounts create .shl ty c1 (.cvt t desc k) k1 =
            some (create (.binary .shl ty k k1)) := if_pos hfire
        obtain rfl := some.inj (heq.symm.trans hr)
        rw [sameShift_iff rfl hcount, hc, eval_shift rfl, hcount, Mtype.word_ofWord]
        apply (shiftLeft_eq_iff hc1.le).mpr
        have hle := ty.bits_le
        have hlow : ty.bits - c1 ≤ 32 := by omega
        rw [Mtype.setWidth_word (by omega), Mtype.setWidth_word (by omega), eval,
          Mtype.ofInt_wrap (hlow.trans ht.1), Mtype.ofInt_wrap (hlow.trans ht.2.1)]
      · refine ⟨fun h => ?_, fun _ _ _ hk => ?_⟩
        · rw [shortShift_shl] at h
          cases h
        · cases hk
    · exact hcase _ rfl (by simp) (if_neg hfire)
  | binary p t a b =>
    obtain ⟨hreg, hta, htb⟩ := id ht
    obtain ⟨-, hwfb⟩ := id hwf
    by_cases hmerge : p.isShift = true ∧ shiftSize ty = shiftSize t ∧ b.isConst = true
    · obtain ⟨hp, hsize, hb⟩ := id hmerge
      rw [shiftSize_eq hty, shiftSize_eq hreg] at hsize
      have hnoband : p ≠ .band := by
        rintro rfl
        exact absurd hp Bool.false_ne_true
      apply iff_of_true
      · intro r hr
        have heq : shiftFirst o ρ.maskShiftCounts create op ty c1 (.binary p t a b) k1 =
            mergeShifts o ρ.maskShiftCounts create op ty c1 p a b := if_pos hmerge
        rw [heq] at hr
        rw [sameShift_iff hop hcount, word_inner hp hsize.symm,
          mergeShifts_same hc hop hp hty hc1 hr]
        cases b with
        | intconst cty v =>
          rw [show eval ρ (.intconst cty v) = cty.wrap v.toInt from rfl,
            shiftCount_const hty htb hwfb]
          rfl
        | leaf | unary | cvt | cvtl | binary | compare | select | extract | compose =>
          exact absurd hb Bool.false_ne_true
      · refine ⟨fun h => ?_, fun t' a' b' hk => ?_⟩
        · have hwide : shortShift op ty c1 (.binary p t a b) = false :=
            shortShift_wide hsize.symm hc1
          exact absurd (hwide.symm.trans h) Bool.false_ne_true
        · injection hk with hp'
          exact absurd hp' hnoband
    · by_cases hmask : p = .band ∧ op = .shl ∧ b.isConst = true
      · obtain ⟨rfl, rfl, hb⟩ := id hmask
        have heq : shiftFirst o ρ.maskShiftCounts create .shl ty c1 (.binary .band t a b) k1 =
            shiftMask o create .shl ty c1 a b k1 := by
          rw [shiftFirst, if_neg hmerge, if_pos hmask]
        rw [heq, shiftMask_right_iff hc hty hc1 hcount]
        constructor
        · intro h
          refine ⟨fun hs => ?_, fun t' a' b' hk _ _ => ?_⟩
          · rw [shortShift_shl] at hs
            exact absurd hs Bool.false_ne_true
          · injection hk with _ _ ha hb'
            subst ha hb'
            exact h
        · intro h
          exact h.2 t a b rfl rfl hb
      · have hno : ∀ t' a' b', Expr.binary p t a b = .binary .band t' a' b' → op = .shl →
            b'.isConst = false := by
          intro t' a' b' hk hshl
          injection hk with hp _ _ hb'
          subst hb'
          cases hb : b.isConst with
          | false => rfl
          | true => exact absurd ⟨hp, hshl, hb⟩ hmask
        by_cases hand : p = .band ∧ (op = .ashr ∨ op = .lshr) ∧ b.isConst = true ∧
            shiftSize ty = t.bits
        · obtain ⟨rfl, -, -, hsize⟩ := id hand
          rw [shiftSize_eq hty] at hsize
          rw [hnomask hno]
          apply iff_of_true
          · intro r hr
            have heq : shiftFirst o ρ.maskShiftCounts create op ty c1 (.binary .band t a b) k1 =
                some (create (.binary .band t (create (.binary op ty a k1))
                  (create (.binary op ty b k1)))) := by
              rw [shiftFirst, if_neg hmerge, if_neg hmask, if_pos hand]
            obtain rfl := some.inj (heq.symm.trans hr)
            rw [sameShift_iff hop hcount, hc, word_inner_band hsize.symm, word_inner_band hsize.symm,
              hc, hc, eval_shift hop, eval_shift hop, hcount, Mtype.word_ofWord, Mtype.word_ofWord,
              shiftWord_and]
          · intro h
            have hwide : shortShift op ty c1 (.binary .band t a b) = false :=
              shortShift_wide hsize.symm hc1
            exact absurd (hwide.symm.trans h) Bool.false_ne_true
        · have heq : shiftFirst o ρ.maskShiftCounts create op ty c1 (.binary p t a b) k1 =
              shiftShort op ty c1 (.binary p t a b) := by
            rw [shiftFirst, if_neg hmerge, if_neg hmask, if_neg hand]
          rw [heq, hnomask hno]
          exact hshort
  | intconst t v => exact hcase _ rfl (by simp) rfl
  | leaf kind t desc id => exact hcase _ rfl (by simp) rfl
  | unary q t k => exact hcase _ rfl (by simp) rfl
  | cvtl t bits k => exact hcase _ rfl (by simp) rfl
  | compare q t desc a b => exact hcase _ rfl (by simp) rfl
  | select t c a b => exact hcase _ rfl (by simp) rfl
  | extract t offset size k => exact hcase _ rfl (by simp) rfl
  | compose t offset size a b => exact hcase _ rfl (by simp) rfl

theorem shiftCount_of_low {j : Nat} {x y : Int} (hbits : ty.bits = 2 ^ j)
    (h : BitVec.ofInt j x = BitVec.ofInt j y) :
    shiftCount true ty.bits x = shiftCount true ty.bits y := by
  have hemod := emod_of_ofInt h
  unfold shiftCount
  rw [if_pos rfl, if_pos rfl, hbits]
  push_cast
  rw [hemod]

theorem dropCountMask_same (hc : Keeps ρ create) (hop : op.isShift = true) (hty : ty.IsRegister)
    (ht : Typed k1) (h : dropCountMask ρ.maskShiftCounts create op ty k0 k1 = some r) :
    SameShift ρ op ty k0 k1 r := by
  unfold dropCountMask at h
  split at h
  · rename_i t k cty v
    split at h
    · rename_i hcond
      obtain rfl := some.inj h
      obtain ⟨hmasked, hv⟩ := hcond
      rw [shiftSize_eq hty] at hv
      obtain ⟨hreg, -, hcty⟩ := ht
      have hcase : ty.bits = 2 ^ 5 ∨ ty.bits = 2 ^ 6 := by
        revert hty
        cases ty <;> decide
      have hlow : ∀ j, ty.bits = 2 ^ j → j ≤ 6 → (BitVec.ofNat 64 (ty.bits - 1)).setWidth j =
          BitVec.allOnes j → BitVec.ofInt j (eval ρ (.binary .band t k (.intconst cty v))) =
            BitVec.ofInt j (eval ρ k) := by
        intro j _ hj hones
        have h32 : j ≤ 32 := by omega
        have hconst : BitVec.ofInt j (cty.wrap v.toInt) = BitVec.allOnes j := by
          have hand := congrArg (BitVec.setWidth j) hv
          rw [setWidth_and, hones, and_allOnes] at hand
          rw [Mtype.ofInt_wrap (h32.trans hcty), ← hand]
          exact signExtend_eq_setWidth_of_le v (by omega)
        show BitVec.ofInt j (t.ofWord (t.word (eval ρ k) &&& t.word (cty.wrap v.toInt))) = _
        rw [Mtype.ofInt_ofWord (h32.trans hreg), setWidth_and,
          Mtype.setWidth_word (h32.trans hreg), Mtype.setWidth_word (h32.trans hreg), hconst,
          and_allOnes]
      have hcount : shiftCount true ty.bits (eval ρ k) =
          shiftCount true ty.bits (eval ρ (.binary .band t k (.intconst cty v))) := by
        rcases hcase with hb | hb
        · exact (shiftCount_of_low hb (hlow 5 hb (by omega) (by rw [hb]; rfl))).symm
        · exact (shiftCount_of_low hb (hlow 6 hb (by omega) (by rw [hb]; rfl))).symm
      unfold SameShift
      rw [hc, eval_shift hop, eval_shift hop, Mtype.wrap_ofWord, hmasked, hcount]
    · exact absurd h nofun
  · exact absurd h nofun

end all

/-- Simplifying a shift keeps its value, unless a negative bit field counts as unsigned, or a mask
of another width or sign is dropped. -/
theorem simpShift_right_iff (o : ShiftOptions) (ρ : Env) (create : Expr → Expr)
    (hc : Keeps ρ create) (op : Bop) (hop : op.isShift = true) (ty : Mtype) (hty : ty.IsRegister)
    (k0 k1 : Expr) (ht0 : Typed k0) (ht1 : Typed k1) (hwf0 : WellFormed k0) (hwf1 : WellFormed k1) :
    ShiftRight o ρ create op ty k0 k1 ↔ ShiftSound o ρ op ty k0 k1 := by
  unfold ShiftRight ShiftSound simpShift
  cases hconst : k1.isConst with
  | false =>
    apply iff_of_true
    · intro r hr
      rw [if_neg nofun] at hr
      exact dropCountMask_same hc hop hty ht1 hr
    · exact nofun
  | true =>
    obtain ⟨cty, v, rfl⟩ : ∃ cty v, k1 = .intconst cty v := by
      cases k1 with
      | intconst cty v => exact ⟨cty, v, rfl⟩
      | leaf | unary | cvt | cvtl | binary | compare | select | extract | compose =>
        exact absurd hconst nofun
    have hcount : shiftCount ρ.maskShiftCounts ty.bits (eval ρ (.intconst cty v)) =
        constCount ρ.maskShiftCounts ty.bits v := shiftCount_const hty ht1 hwf1 _
    have hmatch : (match if true = true then
          shiftByConst o ρ.maskShiftCounts create op ty k0 (.intconst cty v) else none with
        | some r => some r
        | none => dropCountMask ρ.maskShiftCounts create op ty k0 (.intconst cty v)) =
        shiftByConst o ρ.maskShiftCounts create op ty k0 (.intconst cty v) := by
      rw [if_pos rfl]
      cases shiftByConst o ρ.maskShiftCounts create op ty k0 (.intconst cty v) with
      | none => rfl
      | some r => rfl
    rw [hmatch]
    unfold shiftByConst
    rw [shiftSize_eq hty, Expr.constVal_intconst]
    dsimp only
    generalize hn : constCount ρ.maskShiftCounts ty.bits v = c1 at hcount ⊢
    by_cases hzero : c1 = 0
    · apply iff_of_true
      · intro r hr
        rw [if_pos hzero] at hr
        obtain rfl := some.inj hr
        rw [sameShift_iff hop hcount, hzero]
        cases op with
        | shl => exact (shiftLeft_zero _).symm
        | ashr => exact sshiftRight_zero.symm
        | lshr => exact (ushiftRight_zero _).symm
        | add | sub | mpy | mod | rem | band | bior | bxor | land | lior => exact absurd hop nofun
      · exact fun _ hne => absurd hzero hne
    · rw [if_neg hzero]
      by_cases hbig : ty.bits ≤ c1
      · apply iff_of_true
        · intro r hr
          rw [if_pos hbig] at hr
          rw [sameShift_iff hop hcount]
          exact same_big hc hop hty hbig hr
        · exact fun _ _ hlt => absurd hbig (not_le.mpr hlt)
      · rw [if_neg hbig, shiftFirst_right_iff hc hop hty ht0 hwf0 (not_le.mp hbig) hcount]
        exact ⟨fun h _ _ _ => h, fun h => h rfl hzero (not_le.mp hbig)⟩

theorem simpShift_right_field : ∃ r, simpShift ⟨true, true, true⟩ true id .ashr .I4
        (.binary .shl .I4 (.leaf .other .I4 .I4 0) (.intconst .I4 24)) (.intconst .I4 24) = some r ∧
      SameShift ⟨fun _ => 200, true⟩ .ashr .I4
        (.binary .shl .I4 (.leaf .other .I4 .I4 0) (.intconst .I4 24)) (.intconst .I4 24) r :=
  ⟨_, rfl, (simpShift_right_iff ⟨true, true, true⟩ ⟨fun _ => 200, true⟩ id (keeps_id _) .ashr rfl .I4
    (by decide) (.binary .shl .I4 (.leaf .other .I4 .I4 0) (.intconst .I4 24)) (.intconst .I4 24)
    ⟨by decide, (by decide : Mtype.I4.IsRegister), (by decide : Mtype.I4.IsRegister)⟩
    (by decide : Mtype.I4.IsRegister) ⟨trivial, by decide, nofun⟩ ⟨by decide, nofun⟩).mpr
    (fun _ _ _ => ⟨by decide, nofun⟩) _ rfl⟩

/-- The leaf is -1: as U4 under the mask it is 0xffffffff, and shifted by 16 without the mask it
fills the high half. -/
theorem simpShift_not_right :
    ¬ ∀ (o : ShiftOptions) (ρ : Env) (create : Expr → Expr) (_ : Keeps ρ create) (op : Bop)
      (_ : op.isShift = true) (ty : Mtype) (_ : ty.IsRegister) (k0 k1 : Expr) (_ : Typed k0)
      (_ : Typed k1) (_ : WellFormed k0) (_ : WellFormed k1), ShiftRight o ρ create op ty k0 k1 := by
  intro hall
  have hright := hall ⟨true, true, true⟩ ⟨fun _ => -1, true⟩ id (keeps_id _) .shl rfl .U8 (by decide)
    (.binary .band .U4 (.leaf .other .I4 .I4 0) (.intconst .I4 (-1#64))) (.intconst .I4 16)
    ⟨by decide, (by decide : Mtype.I4.IsRegister), (by decide : Mtype.I4.IsRegister)⟩
    (by decide : Mtype.I4.IsRegister) ⟨trivial, by decide, nofun⟩ ⟨by decide, nofun⟩
    (.binary .shl .U8 (.leaf .other .I4 .I4 0) (.intconst .I4 16)) (by decide)
  exact absurd hright (by unfold SameShift; decide)

end Simp.Whirl
