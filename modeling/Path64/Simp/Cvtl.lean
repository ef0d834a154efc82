import Path64.Simp.TargConst
import Path64.Simp.Compare

/-! # Length conversions

`simp_cvtl`: what becomes of `CVTL`, which extends the low bits of its
operand. A conversion under another one is merged with it, and it is
dropped under the operators whose low bits come from the low bits of the
operands. `LNOT` is in the list of these operators, and is not one. -/

namespace Simp.Whirl

open Option
open BitVec (ofNat ofInt toNat_ofInt ofInt_neg setWidth_not ofInt_add setWidth_and setWidth_eq)

/-! ## The rules -/

/-- The type of a `TCON`; the narrow constants are stored in four bytes. -/
def Mtype.targ : Mtype → TargConst.Mtype
  | .I1 | .I2 | .I4 => .i4
  | .U1 | .U2 | .U4 => .u4
  | .I8 => .i8
  | .U8 => .u8

/-- The constant that `Targ_WhirlOp` folds a conversion of a constant to. -/
def foldCvtl (ty : Mtype) (n : Nat) (cty : Mtype) (v : BitVec 64) : Expr :=
  intConst ty (TargConst.targToHost
    (TargConst.targWhirlOp ⟨.cvtl, ty.targ⟩ (TargConst.hostToTarg cty.targ v)
      (TargConst.hostToTarg .i8 (ofNat 64 n))).1)

/-- `SIMPNODE_opcode(k) == opc`, for a `CVTL` of the type. -/
def isCvtl (ty : Mtype) : Expr → Bool
  | .cvtl t _ _ => t == ty
  | _ => false

/-- The operand of a conversion of the type to at least `n` bits. -/
def innerCvtl (ty : Mtype) (n : Nat) : Expr → Option Expr
  | .cvtl t m x => if t = ty ∧ n ≤ m then some x else none
  | _ => none

/-- `OPCODE_is_load` at the conversion's type and width; pseudo registers do not count. -/
def loadFits (ty : Mtype) (n : Nat) : Expr → Bool
  | .leaf (.ldid false) t desc _ | .leaf .iload t desc _ | .leaf .ldbits t desc _ =>
    t == ty && desc.bits == n
  | _ => false

/-- The mask keeps the low `n` bits. -/
def coversLow (n : Nat) (v : BitVec 64) : Bool :=
  (((1#64 <<< n) - 1#64) &&& v) == ((1#64 <<< n) - 1#64)

/-- The operators under which an inner conversion is dropped. -/
def Bop.pushesUp : Bop → Bool
  | .add | .sub | .mpy | .bior | .bxor | .band | .shl => true
  | _ => false

/-- The rule for `SELECT` looks at both arms. -/
def selectApplies (ty : Mtype) (k1 k2 : Expr) : Bool :=
  k1.isConst || k2.isConst || isCvtl ty k1 || isCvtl ty k2

section rules
variable (create : Expr → Expr) (ty : Mtype) (n : Nat)

/-- A load of this width, and a conversion to the whole one. -/
def wholeWidth (k0 : Expr) : Option Expr :=
  if loadFits ty n k0 then some k0
  else if k0.rtype.bits = ty.bits ∧ k0.rtype.bits = n then some k0
  else none

/-- The rules before the switch, but for constants, `SELECT` and `CVTL`. -/
def dropMask : Expr → Option Expr
  | .binary .band _ a (.intconst _ v) =>
    if coversLow n v then some (create (.cvtl ty n a)) else none
  | k0 => wholeWidth ty n k0

/-- The switch. -/
def underOperator : Expr → Option Expr
  | .unary op t k1 =>
    match innerCvtl ty n k1 with
    | some x => some (create (.cvtl ty n (create (.unary op t x))))
    | none => if op = .lnot then some (.unary op t k1) else none
  | .compare op t desc k1 k2 => some (.compare op t desc k1 k2)
  | .binary op t k1 k2 =>
    if op = .lior ∨ op = .land then some (.binary op t k1 k2)
    else if op.pushesUp then
      match innerCvtl ty n k1, innerCvtl ty n k2 with
      | some x, some y => some (create (.cvtl ty n (create (.binary op t x y))))
      | some x, none => some (create (.cvtl ty n (create (.binary op t x k2))))
      | none, some y =>
        -- the count of a shift keeps its conversion
        if op ≠ .shl then some (create (.cvtl ty n (create (.binary op t k1 y)))) else none
      | none, none => none
    else none
  | _ => none

/-- `simp_cvtl`; `split` is `Split_64_Bit_Int_Ops` of the optimizer. -/
def simpCvtl (split : Bool) : Expr → Option Expr
  | .intconst cty v =>
    if split && ty.bits == 64 && cty.bits == 32 then none else some (foldCvtl ty n cty v)
  | .select _ c k1 k2 =>
    if selectApplies ty k1 k2 then
      some (create (.select ty c ((simpCvtl split k1).getD (create (.cvtl ty n k1)))
        ((simpCvtl split k2).getD (create (.cvtl ty n k2)))))
    else none
  | .cvtl t m k =>
    if t = ty then
      if m ≤ n then some (.cvtl t m k) else some (create (.cvtl ty n k))
    else wholeWidth ty n (.cvtl t m k)
  | k0 =>
    match dropMask create ty n k0 with
    | some r => some r
    | none => underOperator create ty n k0

section
-- derives the equations
attribute [local simp] simpCvtl
end

end rules

/-! ## Low bits -/

section low
variable {n m : Nat} {x y : Int} {u : Bool} {t : Mtype}

theorem ofInt_congr (h : (2 : Int) ^ n ∣ x - y) : ofInt n x = ofInt n y := by
  apply BitVec.eq_of_toNat_eq
  rw [toNat_ofInt, toNat_ofInt]
  push_cast
  rw [Int.emod_eq_emod_iff_emod_sub_eq_zero.mpr (Int.emod_eq_zero_of_dvd h)]

theorem emod_of_ofInt (h : ofInt n x = ofInt n y) : x % 2 ^ n = y % 2 ^ n := by
  have hnat := congrArg BitVec.toNat h
  rw [toNat_ofInt, toNat_ofInt] at hnat
  have hx : 0 ≤ x % 2 ^ n := Int.emod_nonneg _ (by positivity)
  have hy : 0 ≤ y % 2 ^ n := Int.emod_nonneg _ (by positivity)
  push_cast at hnat
  omega

theorem lowBits_eq (u : Bool) (n : Nat) (x : Int) : lowBits u n x =
      if u then ((ofInt n x).toNat : Int) else (ofInt n x).toInt := by
  unfold lowBits
  cases u with
  | true =>
    have hnonneg : 0 ≤ x % 2 ^ n := Int.emod_nonneg _ (by positivity)
    rw [if_pos rfl, if_pos rfl, toNat_ofInt]
    push_cast
    omega
  | false => rw [if_neg nofun, if_neg nofun, BitVec.toInt_ofInt]

theorem lowBits_congr (h : ofInt n x = ofInt n y) : lowBits u n x = lowBits u n y:= by
  rw [lowBits_eq, lowBits_eq, h]

theorem ofInt_lowBits (hnm : n ≤ m) : ofInt n (lowBits u m x) = ofInt n x := by
  apply ofInt_congr
  apply (pow_dvd_pow (2 : Int) hnm).trans
  unfold lowBits
  cases u with
  | true =>
    rw [if_pos rfl]
    exact ⟨-(x / 2 ^ m), by linarith [Int.emod_add_mul_ediv x (2 ^ m)]⟩
  | false =>
    rw [if_neg nofun]
    have := Int.dvd_bmod_sub_self (x := x) (m := 2 ^ m)
    push_cast at this
    exact this

theorem lowBits_lowBits (hmn : m ≤ n) : lowBits u n (lowBits u m x) = lowBits u m x := by
  have hle : (2 : Int) ^ m ≤ 2 ^ n := pow_le_pow_right₀ (by norm_num) hmn
  unfold lowBits
  cases u with
  | true =>
    have hpos : (0 : Int) < 2 ^ m := by positivity
    have hlo := Int.emod_nonneg x hpos.ne'
    have hhi := Int.emod_lt_of_pos x hpos
    rw [if_pos rfl, if_pos rfl]
    exact Int.emod_eq_of_lt hlo (by omega)
  | false =>
    have hpos : 0 < 2 ^ m := Nat.two_pow_pos m
    have hlo := Int.le_bmod (x := x) hpos
    have hhi := Int.bmod_lt (x := x) hpos
    rw [if_neg nofun, if_neg nofun]
    push_cast at hlo hhi
    apply Int.bmod_eq_of_le <;> push_cast <;> omega

theorem Mtype.wrap_eq_lowBits (t : Mtype) (x : Int) : t.wrap x = lowBits t.isUnsigned t.bits x := by
  unfold lowBits
  cases h : t.isUnsigned with
  | true => exact t.wrap_unsigned h x
  | false => exact t.wrap_signed h x

theorem Mtype.ofInt_wrap (hn : n ≤ t.bits) : ofInt n (t.wrap x) = ofInt n x := by
  rw [t.wrap_eq_lowBits]
  exact ofInt_lowBits hn

theorem Mtype.setWidth_word (hn : n ≤ t.bits) : (t.word x).setWidth n = ofInt n x := by
  apply BitVec.eq_of_toNat_eq
  rw [BitVec.toNat_setWidth, word, toNat_ofInt, toNat_ofInt]
  have hdvd : (2 : Int) ^ n ∣ 2 ^ t.bits := pow_dvd_pow 2 hn
  have hemod : x % 2 ^ t.bits % 2 ^ n = x % 2 ^ n := Int.emod_emod_of_dvd x hdvd
  have hnonneg : 0 ≤ x % 2 ^ t.bits := Int.emod_nonneg _ (by positivity)
  have hnonneg' : 0 ≤ x % 2 ^ n := Int.emod_nonneg _ (by positivity)
  push_cast
  zify
  rw [Int.toNat_of_nonneg hnonneg, Int.toNat_of_nonneg hnonneg', hemod]

theorem Mtype.ofInt_ofWord (hn : n ≤ t.bits) (v : BitVec t.bits) :
    ofInt n (t.ofWord v) = v.setWidth n := by
  rw [← t.setWidth_word hn, t.word_ofWord]

end low

/-! ## Operators on low bits -/

section operators
variable {n : Nat} {t : Mtype} {a b a' b' : Int}

theorem ofInt_uop {op : Uop} (hop : op ≠ .lnot) (hn : n ≤ t.bits)
    (ha : ofInt n a = ofInt n a') :
    ofInt n (op.eval t a) = ofInt n (op.eval t a') := by
  cases op with
  | neg =>
    unfold Uop.eval
    rw [t.ofInt_wrap hn, t.ofInt_wrap hn, ofInt_neg, ofInt_neg, ha]
  | bnot =>
    unfold Uop.eval
    rw [t.ofInt_ofWord hn, t.ofInt_ofWord hn, setWidth_not hn, setWidth_not hn,
      t.setWidth_word hn, t.setWidth_word hn, ha]
  | lnot => exact absurd rfl hop

theorem setWidth_shiftLeft {w : Nat} (hn : n ≤ w) (v : BitVec w) (c : Nat) :
    (v <<< c).setWidth n = v.setWidth n <<< c := by
  apply BitVec.eq_of_getLsbD_eq
  intro i hi
  simp only [BitVec.getLsbD_setWidth, BitVec.getLsbD_shiftLeft]
  by_cases hc : i < c
  · simp [hi, hc]
  · simp [hi, hc, show i < w by omega, show i - c < n by omega]

theorem shiftCount_congr {n : Nat} (hn : 8 ≤ n) (hb : ofInt n b = ofInt n b') :
    shiftCount true t.bits b = shiftCount true t.bits b' := by
  have hdvd : (t.bits : Int) ∣ 2 ^ n := by
    have h64 : (t.bits : Int) ∣ 2 ^ 8 := by cases t <;> decide
    exact h64.trans (pow_dvd_pow 2 hn)
  have hemod := emod_of_ofInt hb
  unfold shiftCount
  rw [if_pos rfl, if_pos rfl, ← Int.emod_emod_of_dvd b hdvd, hemod, Int.emod_emod_of_dvd b' hdvd]

/-- The low bits of a result depend on the low bits of the operands alone, for the operators pushed
through. -/
theorem ofInt_bop {op : Bop} (hop : op.pushesUp = true) (hn8 : 8 ≤ n) (hn : n ≤ t.bits)
    (ha : ofInt n a = ofInt n a') (hb : ofInt n b = ofInt n b') :
    ofInt n (op.eval true t a b) = ofInt n (op.eval true t a' b') := by
  cases op with
  | add =>
    unfold Bop.eval
    rw [t.ofInt_wrap hn, t.ofInt_wrap hn, ofInt_add, ofInt_add, ha, hb]
  | sub =>
    unfold Bop.eval
    rw [t.ofInt_wrap hn, t.ofInt_wrap hn, sub_eq_add_neg, sub_eq_add_neg, ofInt_add,
      ofInt_add, ofInt_neg, ofInt_neg, ha, hb]
  | mpy =>
    unfold Bop.eval
    rw [t.ofInt_wrap hn, t.ofInt_wrap hn, BitVec.ofInt_mul, BitVec.ofInt_mul, ha, hb]
  | band =>
    unfold Bop.eval
    rw [t.ofInt_ofWord hn, t.ofInt_ofWord hn, setWidth_and, setWidth_and,
      t.setWidth_word hn, t.setWidth_word hn, t.setWidth_word hn, t.setWidth_word hn, ha, hb]
  | bior =>
    unfold Bop.eval
    rw [t.ofInt_ofWord hn, t.ofInt_ofWord hn, BitVec.setWidth_or, BitVec.setWidth_or,
      t.setWidth_word hn, t.setWidth_word hn, t.setWidth_word hn, t.setWidth_word hn, ha, hb]
  | bxor =>
    unfold Bop.eval
    rw [t.ofInt_ofWord hn, t.ofInt_ofWord hn, BitVec.setWidth_xor, BitVec.setWidth_xor,
      t.setWidth_word hn, t.setWidth_word hn, t.setWidth_word hn, t.setWidth_word hn, ha, hb]
  | shl =>
    unfold Bop.eval
    rw [t.ofInt_ofWord hn, t.ofInt_ofWord hn, setWidth_shiftLeft hn, setWidth_shiftLeft hn,
      t.setWidth_word hn, t.setWidth_word hn, ha, shiftCount_congr hn8 hb]
  | mod => exact absurd hop nofun
  | rem => exact absurd hop nofun
  | land => exact absurd hop nofun
  | lior => exact absurd hop nofun
  | ashr => exact absurd hop nofun
  | lshr => exact absurd hop nofun

end operators

/-! ## Folding -/

section folding
open TargConst
variable {n : Nat} {ty cty : Mtype}

/-- The types of registers. -/
def Mtype.IsRegister (t : Mtype) : Prop := 32 ≤ t.bits

instance (t : Mtype) : Decidable t.IsRegister := by
  unfold Mtype.IsRegister
  infer_instance

/-- The lengths of the conversions. -/
def IsLength (n : Nat) : Prop := n = 8 ∨ n = 16 ∨ n = 32

instance (n : Nat) : Decidable (IsLength n) := by
  unfold IsLength
  infer_instance

theorem IsLength.low (hn : IsLength n) : 8 ≤ n ∧ n ≤ 32 := by
  unfold IsLength at hn
  omega

theorem setWidth_targConvertLength (hn : IsLength n) (T : TargConst.Mtype) (c0 : Tcon) :
    (targToHost (targConvertLength c0 (hostToTarg .i8 (ofNat 64 n)) T T.isSigned)).setWidth
        T.bits =
      if T.isSigned then ((targToHost c0).setWidth n).signExtend T.bits
      else ((targToHost c0).setWidth n).setWidth T.bits := by
  have hlen : targToHost (hostToTarg .i8 (ofNat 64 n)) = ofNat 64 n := rfl
  have hnat : (ofNat 64 n).toNat = n := by
    rcases hn with rfl | rfl | rfl <;> rfl
  have hint : (ofNat 64 n).toInt = n := by
    rcases hn with rfl | rfl | rfl <;> rfl
  obtain ⟨h8, h32⟩ := hn.low
  unfold targConvertLength
  simp only [hlen, hnat, hint, Int.ofNat_le]
  generalize targToHost c0 = sval
  have hlow : ∀ m : BitVec 32,
      (sval &&& ~~~(m.signExtend 64)).setWidth 32 = sval.setWidth 32 &&& ~~~m := by
    intro m
    rw [setWidth_and, setWidth_not (by decide), setWidth_signExtend m (by decide)]
  -- the masks of four and of eight bytes
  have hmask4 := fun sign hlt => masked_eq (sval.setWidth 32) sign (n := n) (by omega) hlt
  have hmask8 := fun sign => masked_eq sval sign (n := n) (by omega) (by omega)
  rw [BitVec.setWidth_setWidth_of_le _ h32] at hmask4
  by_cases hbits : T.bits ≤ n
  · have hT : T.bits = 32 := by
      cases T <;> first | rfl | exact absurd (hbits.trans h32) (by decide)
    obtain rfl : n = 32 := by omega
    have hall : (sval &&& 0xffffffff).setWidth 32 = sval.setWidth 32 := by
      rw [setWidth_and]
      exact BitVec.and_allOnes
    rw [if_pos hbits, if_pos hT, targToHost_hostToTarg, setWidth_extend, hall]
    cases T with
    | i4 => exact (setWidth_signExtend _ (by decide)).trans (BitVec.signExtend_eq _).symm
    | u4 => exact (setWidth_signExtend _ (by decide)).trans (setWidth_eq _).symm
    | i8 => contradiction
    | u8 => contradiction
  · rw [if_neg hbits]
    cases T with
    | i4 =>
      rw [if_pos (show TargConst.Mtype.i4.bits = 32 from rfl), targToHost_hostToTarg, setWidth_extend, hlow]
      exact (setWidth_signExtend _ (by decide)).trans (hmask4 true (not_le.mp hbits))
    | u4 =>
      rw [if_pos (show TargConst.Mtype.u4.bits = 32 from rfl), targToHost_hostToTarg, setWidth_extend, hlow]
      exact (setWidth_signExtend _ (by decide)).trans (hmask4 false (not_le.mp hbits))
    | i8 =>
      rw [if_neg (by decide), targToHost_hostToTarg, setWidth_extend]
      exact (setWidth_eq _).trans (hmask8 true)
    | u8 =>
      rw [if_neg (by decide), targToHost_hostToTarg, setWidth_extend]
      exact (setWidth_eq _).trans (hmask8 false)

theorem Mtype.targ_bits (hty : ty.IsRegister) : ty.targ.bits = ty.bits := by
  revert hty
  cases ty <;> decide

theorem Mtype.targ_isSigned (ty : Mtype) : ty.targ.isSigned = !ty.isUnsigned := by
  cases ty <;> rfl

theorem eval_foldCvtl (ρ : Env) (hn : IsLength n) (hty : ty.IsRegister) (hcty : cty.IsRegister)
    (v : BitVec 64) :
    eval ρ (foldCvtl ty n cty v) = ty.wrap (lowBits ty.isUnsigned n (cty.wrap v.toInt)) := by
  obtain ⟨h8, h32⟩ := hn.low
  -- the low bits of the constant
  have hsval : (targToHost (hostToTarg cty.targ v)).setWidth n = v.setWidth n := by
    have hle : n ≤ cty.targ.bits := by
      rw [Mtype.targ_bits hcty]
      exact h32.trans hcty
    rw [targToHost_hostToTarg, ← BitVec.setWidth_setWidth_of_le _ hle, setWidth_extend,
      BitVec.setWidth_setWidth_of_le _ hle]
  have hlow : ofInt n (cty.wrap v.toInt) = v.setWidth n := by
    rw [Mtype.ofInt_wrap (h32.trans hcty)]
    exact BitVec.signExtend_eq_setWidth_of_le v (by omega)
  unfold foldCvtl
  rw [eval_intConst, lowBits_eq, hlow]
  unfold Mtype.wrap
  apply congrArg ty.ofWord
  have hword := setWidth_targConvertLength hn ty.targ (hostToTarg cty.targ v)
  rw [hsval, Mtype.targ_bits hty] at hword
  apply (BitVec.signExtend_eq_setWidth_of_le _ ty.bits_le).trans
  apply hword.trans
  have hsigned := ty.targ_isSigned
  cases hu : ty.isUnsigned with
  | true =>
    rw [hu] at hsigned
    rw [if_neg (by rw [hsigned]; nofun), if_pos rfl]
    exact (BitVec.ofNat_toNat _ _).symm
  | false =>
    rw [hu] at hsigned
    rw [if_pos (by rw [hsigned]; rfl), if_neg nofun]
    rfl

end folding

/-! ## The rules before the switch -/

/-- The nodes have the types of registers, and a load extends with the sign of what it loads. -/
def Typed : Expr → Prop
  | .intconst ty _ => ty.IsRegister
  | .leaf .ldbits ty _ _ | .leaf .other ty _ _ => ty.IsRegister
  | .leaf _ ty desc _ => ty.IsRegister ∧ desc.isUnsigned = ty.isUnsigned
  | .unary _ ty k | .cvtl ty _ k | .extract ty _ _ k => ty.IsRegister ∧ Typed k
  | .cvt ty desc k => ty.IsRegister ∧ desc.IsRegister ∧ Typed k
  | .binary _ ty k0 k1 | .compare _ ty _ k0 k1 | .compose ty _ _ k0 k1 =>
    ty.IsRegister ∧ Typed k0 ∧ Typed k1
  | .select ty c k1 k2 => ty.IsRegister ∧ Typed c ∧ Typed k1 ∧ Typed k2

theorem Typed.rtype {e : Expr} (h : Typed e) : e.rtype.IsRegister := by
  cases e with
  | intconst ty v => exact h
  | leaf kind ty desc id =>
    cases kind with
    | ldbits => exact h
    | other => exact h
    | ldid preg => exact h.1
    | iload => exact h.1
  | unary op ty k => exact h.1
  | cvt ty desc k => exact h.1
  | cvtl ty bits k => exact h.1
  | binary op ty k0 k1 => exact h.1
  | compare op ty desc k0 k1 => exact h.1
  | select ty c k1 k2 => exact h.1
  | extract ty offset size k => exact h.1
  | compose ty offset size k0 k1 => exact h.1

/-- What `simp_cvtl` returns, at its type, is the value of the conversion. -/
def SameCvtl (ρ : Env) (ty : Mtype) (n : Nat) (k0 r : Expr) : Prop :=
  ty.wrap (eval ρ r) = eval ρ (.cvtl ty n k0)

section before
variable {ρ : Env} {create : Expr → Expr} {ty : Mtype} {n : Nat} {k0 k r : Expr}

theorem sameCvtl_create (hc : Keeps ρ create)
    (h : ofInt n (eval ρ k) = ofInt n (eval ρ k0)) :
    SameCvtl ρ ty n k0 (create (.cvtl ty n k)) := by
  unfold SameCvtl
  rw [hc]
  unfold eval
  rw [lowBits_congr h, Mtype.wrap_wrap]

theorem sameCvtl_self {m : Nat} {z : Int} (hn : n ≤ ty.bits) (hmn : m ≤ n)
    (h : eval ρ k0 = ty.wrap (lowBits ty.isUnsigned m z)) : SameCvtl ρ ty n k0 k0 := by
  have hlow : lowBits ty.isUnsigned n (eval ρ k0) = lowBits ty.isUnsigned m z := by
    rw [h, lowBits_congr (Mtype.ofInt_wrap hn), lowBits_lowBits hmn]
  show ty.wrap (eval ρ k0) = ty.wrap (lowBits ty.isUnsigned n (eval ρ k0))
  rw [hlow, h, Mtype.wrap_wrap]

theorem sameCvtl_truth (hn : IsLength n) {p : Prop} [Decidable p] (h : eval ρ k0 = truth p) :
    SameCvtl ρ ty n k0 k0 := by
  have hlow : lowBits ty.isUnsigned n (truth p) = truth p := by
    unfold truth
    rcases hn with rfl | rfl | rfl <;> split <;> cases ty.isUnsigned <;> rfl
  show ty.wrap (eval ρ k0) = ty.wrap (lowBits ty.isUnsigned n (eval ρ k0))
  rw [h, hlow]

theorem loadFits_value (ht : Typed k0) (h : loadFits ty n k0 = true) :
    ∃ z, eval ρ k0 = ty.wrap (lowBits ty.isUnsigned n z) := by
  unfold loadFits at h
  split at h
  · simp only [Bool.and_eq_true, beq_iff_eq] at h
    obtain ⟨rfl, rfl⟩ := h
    rename_i t desc id
    exact ⟨ρ.leaf id, by rw [eval, Mtype.wrap_eq_lowBits desc, ht.2]; intro hk; cases hk⟩
  · simp only [Bool.and_eq_true, beq_iff_eq] at h
    obtain ⟨rfl, rfl⟩ := h
    rename_i t desc id
    exact ⟨ρ.leaf id, by rw [eval, Mtype.wrap_eq_lowBits desc, ht.2]; intro hk; cases hk⟩
  · simp only [Bool.and_eq_true, beq_iff_eq] at h
    obtain ⟨rfl, rfl⟩ := h
    rename_i t desc id
    exact ⟨ρ.leaf id, rfl⟩
  · cases h

theorem wholeWidth_same (hn : IsLength n) (hty : ty.IsRegister) (ht : Typed k0)
    (h : wholeWidth ty n k0 = some r) : SameCvtl ρ ty n k0 r := by
  unfold wholeWidth at h
  split at h
  · rename_i hload
    obtain rfl := some.inj h
    obtain ⟨z, hz⟩ := loadFits_value (ρ := ρ) ht hload
    exact sameCvtl_self (hn.low.2.trans hty) le_rfl hz
  · split at h
    · rename_i hbits
      obtain rfl := some.inj h
      -- the low bits are all the bits of the type
      have hsame : n = ty.bits := hbits.2.symm.trans hbits.1
      show ty.wrap (eval ρ k0) = ty.wrap (lowBits ty.isUnsigned n (eval ρ k0))
      rw [hsame, ← Mtype.wrap_eq_lowBits, Mtype.wrap_wrap]
    · exact absurd h nofun

theorem coversLow_spec {v : BitVec 64} (hn : IsLength n) (h : coversLow n v = true) :
    v.setWidth n = BitVec.allOnes n := by
  have hmask : ((1#64 <<< n) - 1#64).setWidth n = BitVec.allOnes n := by
    rcases hn with rfl | rfl | rfl <;> rfl
  have heq := congrArg (BitVec.setWidth n) (eq_of_beq h)
  rw [setWidth_and, hmask, BitVec.allOnes_and] at heq
  exact heq

theorem ofInt_band (hn : IsLength n) {t cty : Mtype} {v : BitVec 64} {a : Expr}
    (ht : Typed (.binary .band t a (.intconst cty v))) (h : coversLow n v = true) :
    ofInt n (eval ρ (.binary .band t a (.intconst cty v))) = ofInt n (eval ρ a) := by
  obtain ⟨hreg, -, hcty⟩ := ht
  have hnt : n ≤ t.bits := hn.low.2.trans hreg
  have hconst : ofInt n (cty.wrap v.toInt) = BitVec.allOnes n := by
    rw [Mtype.ofInt_wrap (hn.low.2.trans hcty), ← coversLow_spec hn h]
    exact BitVec.signExtend_eq_setWidth_of_le v (by have := hn.low; omega)
  show ofInt n (t.ofWord (t.word (eval ρ a) &&& t.word (cty.wrap v.toInt))) = _
  rw [t.ofInt_ofWord hnt, setWidth_and, t.setWidth_word hnt, t.setWidth_word hnt, hconst,
    BitVec.and_allOnes]

theorem dropMask_same (hc : Keeps ρ create) (hn : IsLength n) (hty : ty.IsRegister) (ht : Typed k0)
    (h : dropMask create ty n k0 = some r) : SameCvtl ρ ty n k0 r := by
  unfold dropMask at h
  split at h
  · split at h
    · rename_i hcover
      obtain rfl := some.inj h
      exact sameCvtl_create hc (ofInt_band hn ht hcover).symm
    · exact absurd h nofun
  · exact wholeWidth_same hn hty ht h

end before

/-! ## The switch -/

section operatorsSame
variable {ρ : Env} {create : Expr → Expr} {ty : Mtype} {n : Nat} {k0 k x r : Expr}

theorem innerCvtl_spec (h : innerCvtl ty n k = some x) : ∃ m, n ≤ m ∧ k = .cvtl ty m x := by
  unfold innerCvtl at h
  split at h
  · split at h
    · rename_i t m y hm
      obtain rfl := some.inj h
      obtain ⟨rfl, hle⟩ := hm
      exact ⟨m, hle, rfl⟩
    · exact absurd h nofun
  · exact absurd h nofun

theorem ofInt_innerCvtl (hn : n ≤ ty.bits) (h : innerCvtl ty n k = some x) :
    ofInt n (eval ρ x) = ofInt n (eval ρ k) := by
  obtain ⟨m, hm, rfl⟩ := innerCvtl_spec h
  rw [eval, Mtype.ofInt_wrap hn, ofInt_lowBits hm]

theorem eval_cvtl_truth (hn : IsLength n) (h : eval ρ k0 = truth (eval ρ x = 0)) :
    eval ρ (.cvtl ty n k0) = truth (eval ρ x = 0) := by
  have hsame : ty.wrap (eval ρ k0) = eval ρ (.cvtl ty n k0) := sameCvtl_truth hn h
  rw [← hsame, h, Mtype.wrap_truth]

theorem lnot_same_iff (hc : Keeps ρ create) (hn : IsLength n) {t : Mtype}
    (h : innerCvtl ty n k = some x) :
    SameCvtl ρ ty n (.unary .lnot t k) (create (.cvtl ty n (create (.unary .lnot t x)))) ↔
      (eval ρ k = 0 → eval ρ x = 0) := by
  have hnew : eval ρ (create (.cvtl ty n (create (.unary .lnot t x)))) = truth (eval ρ x = 0) := by
    rw [hc]
    exact eval_cvtl_truth hn (hc _)
  have hold : eval ρ (.cvtl ty n (.unary .lnot t k)) = truth (eval ρ k = 0) :=
    eval_cvtl_truth hn rfl
  -- a converted 0 is 0
  have hzero : eval ρ x = 0 → eval ρ k = 0 := by
    intro hx
    obtain ⟨m, -, rfl⟩ := innerCvtl_spec h
    have hlow : lowBits ty.isUnsigned m 0 = 0 := by
      unfold lowBits
      split
      · exact Int.zero_emod _
      · exact Int.zero_bmod
    rw [eval, hx, hlow, Mtype.wrap_zero]
  unfold SameCvtl
  rw [hnew, hold, Mtype.wrap_truth]
  constructor
  · intro heq
    exact (iff_of_truth_eq heq).mpr
  · intro himp
    exact truth_congr ⟨hzero, himp⟩

theorem uop_same (hc : Keeps ρ create) {t : Mtype} {op : Uop} (hop : op ≠ .lnot) (hnt : n ≤ t.bits)
    (hk : ofInt n (eval ρ x) = ofInt n (eval ρ k)) :
    SameCvtl ρ ty n (.unary op t k) (create (.cvtl ty n (create (.unary op t x)))) := by
  apply sameCvtl_create hc
  rw [hc]
  exact ofInt_uop hop hnt hk

theorem bop_same (hmask : ρ.maskShiftCounts = true) (hc : Keeps ρ create) (hn : IsLength n)
    {t : Mtype} {op : Bop} (hop : op.pushesUp = true) (hnt : n ≤ t.bits) {k1 k2 x1 x2 : Expr}
    (h1 : ofInt n (eval ρ x1) = ofInt n (eval ρ k1))
    (h2 : ofInt n (eval ρ x2) = ofInt n (eval ρ k2)) :
    SameCvtl ρ ty n (.binary op t k1 k2) (create (.cvtl ty n (create (.binary op t x1 x2)))) := by
  apply sameCvtl_create hc
  rw [hc]
  unfold eval
  rw [hmask]
  exact ofInt_bop hop hn.low.1 hnt h1 h2

/-- The operator is not `LNOT` over a conversion. -/
def NoLnot (ty : Mtype) (n : Nat) : Expr → Prop
  | .unary .lnot _ k => innerCvtl ty n k = none
  | _ => True

/-- A truncation under an operator is dropped where the low bits do not see it. -/
theorem underOperator_same (hmask : ρ.maskShiftCounts = true) (hc : Keeps ρ create)
    (hn : IsLength n) (hty : ty.IsRegister) (ht : Typed k0) (hno : NoLnot ty n k0)
    (h : underOperator create ty n k0 = some r) : SameCvtl ρ ty n k0 r := by
  have hnty : n ≤ ty.bits := hn.low.2.trans hty
  have hnt : n ≤ k0.rtype.bits := hn.low.2.trans ht.rtype
  unfold underOperator at h
  split at h
  · rename_i op t k1
    split at h
    · rename_i y hy
      obtain rfl := some.inj h
      have hop : op ≠ .lnot := by
        rintro rfl
        exact absurd (hno.symm.trans hy) nofun
      exact uop_same hc hop hnt (ofInt_innerCvtl hnty hy)
    · split at h
      · rename_i hop
        obtain rfl := some.inj h
        subst hop
        exact sameCvtl_truth hn rfl
      · exact absurd h nofun
  · obtain rfl := some.inj h
    exact sameCvtl_truth hn rfl
  · rename_i op t k1 k2
    split at h
    · rename_i hop
      obtain rfl := some.inj h
      rcases hop with rfl | rfl
      · exact sameCvtl_truth hn rfl
      · exact sameCvtl_truth hn rfl
    · split at h
      · rename_i hop
        split at h
        · rename_i x1 x2 h1 h2
          obtain rfl := some.inj h
          exact bop_same hmask hc hn hop hnt (ofInt_innerCvtl hnty h1) (ofInt_innerCvtl hnty h2)
        · rename_i x1 h1 h2
          obtain rfl := some.inj h
          exact bop_same hmask hc hn hop hnt (ofInt_innerCvtl hnty h1) rfl
        · rename_i x2 h1 h2
          split at h
          · obtain rfl := some.inj h
            exact bop_same hmask hc hn hop hnt rfl (ofInt_innerCvtl hnty h2)
          · exact absurd h nofun
        · exact absurd h nofun
      · exact absurd h nofun
  · exact absurd h nofun

end operatorsSame

/-! ## All rules -/

/-- The conversion that `LNOT` loses makes no 0; in a `SELECT` only the chosen arm counts. -/
def CvtlSound (ρ : Env) (ty : Mtype) (n : Nat) : Expr → Prop
  | .select _ c k1 k2 =>
    selectApplies ty k1 k2 = true →
      (eval ρ c ≠ 0 → CvtlSound ρ ty n k1) ∧ (eval ρ c = 0 → CvtlSound ρ ty n k2)
  | .unary .lnot t k =>
    ∀ x, innerCvtl ty n k = some x → ¬ (t.bits = ty.bits ∧ t.bits = n) →
      eval ρ k = 0 → eval ρ x = 0
  | _ => True

/-- Whatever `simp_cvtl` returns has the value of the conversion. -/
def CvtlRight (ρ : Env) (create : Expr → Expr) (ty : Mtype) (n : Nat) (split : Bool) (k0 : Expr) :
    Prop :=
  ∀ r, simpCvtl create ty n split k0 = some r → SameCvtl ρ ty n k0 r

section all
variable {ρ : Env} {create : Expr → Expr} {ty : Mtype} {n : Nat} {split : Bool} {k0 : Expr}

theorem rest_right (hmask : ρ.maskShiftCounts = true) (hc : Keeps ρ create) (hn : IsLength n)
    (hty : ty.IsRegister) (ht : Typed k0) (hno : NoLnot ty n k0) {r : Expr}
    (h : (match dropMask create ty n k0 with
      | some r => some r
      | none => underOperator create ty n k0) = some r) : SameCvtl ρ ty n k0 r := by
  split at h
  · rename_i r' hdrop
    obtain rfl := some.inj h
    exact dropMask_same hc hn hty ht hdrop
  · exact underOperator_same hmask hc hn hty ht hno h

theorem arm_same (hc : Keeps ρ create) (k : Expr) :
    ty.wrap (eval ρ ((simpCvtl create ty n split k).getD (create (.cvtl ty n k)))) =
        eval ρ (.cvtl ty n k) ↔ CvtlRight ρ create ty n split k := by
  unfold CvtlRight
  cases h : simpCvtl create ty n split k with
  | none =>
    apply iff_of_true
    · exact sameCvtl_create hc rfl
    · exact nofun
  | some r =>
    constructor
    · intro hsame r' hr
      obtain rfl := some.inj hr
      exact hsame
    · intro hall
      exact hall r rfl

theorem select_right_iff (hc : Keeps ρ create) (hn : IsLength n) {sty : Mtype} {c k1 k2 : Expr}
    (hsty : sty.IsRegister) (h1 : CvtlRight ρ create ty n split k1 ↔ CvtlSound ρ ty n k1)
    (h2 : CvtlRight ρ create ty n split k2 ↔ CvtlSound ρ ty n k2) :
    CvtlRight ρ create ty n split (.select sty c k1 k2) ↔ CvtlSound ρ ty n (.select sty c k1 k2) := by
  have hnt : n ≤ sty.bits := hn.low.2.trans hsty
  by_cases happ : selectApplies ty k1 k2 = true
  · have harms : CvtlSound ρ ty n (.select sty c k1 k2) ↔
        (eval ρ c ≠ 0 → CvtlSound ρ ty n k1) ∧ (eval ρ c = 0 → CvtlSound ρ ty n k2) :=
      ⟨fun h => h happ, fun h _ => h⟩
    have hright : CvtlRight ρ create ty n split (.select sty c k1 k2) ↔
        SameCvtl ρ ty n (.select sty c k1 k2)
          (create (.select ty c ((simpCvtl create ty n split k1).getD (create (.cvtl ty n k1)))
            ((simpCvtl create ty n split k2).getD (create (.cvtl ty n k2))))) := by
      unfold CvtlRight
      rw [simpCvtl, if_pos happ]
      exact ⟨fun h => h _ rfl, fun h r hr => some.inj hr ▸ h⟩
    -- both sides take the same arm
    have hselect : ∀ a b, ty.wrap (eval ρ (create (.select ty c a b))) =
        if eval ρ c ≠ 0 then ty.wrap (eval ρ a) else ty.wrap (eval ρ b) := by
      intro a b
      rw [hc, eval, Mtype.wrap_wrap]
      exact apply_ite ty.wrap _ _ _
    have hcvtl : eval ρ (.cvtl ty n (.select sty c k1 k2)) =
        if eval ρ c ≠ 0 then eval ρ (.cvtl ty n k1) else eval ρ (.cvtl ty n k2) := by
      show ty.wrap (lowBits ty.isUnsigned n (sty.wrap _)) = _
      rw [lowBits_congr (Mtype.ofInt_wrap hnt)]
      exact apply_ite (fun x => ty.wrap (lowBits ty.isUnsigned n x)) _ _ _
    rw [harms, ← h1, ← h2, ← arm_same hc k1, ← arm_same hc k2, hright, SameCvtl, hselect, hcvtl]
    by_cases hzero : eval ρ c = 0
    · rw [if_neg (not_not.mpr hzero), if_neg (not_not.mpr hzero)]
      exact ⟨fun h => ⟨fun hne => absurd hzero hne, fun _ => h⟩, fun h => h.2 hzero⟩
    · rw [if_pos hzero, if_pos hzero]
      exact ⟨fun h => ⟨fun _ => h, fun heq => absurd heq hzero⟩, fun h => h.1 hzero⟩
  · apply iff_of_true
    · intro r hr
      rw [simpCvtl, if_neg happ] at hr
      cases hr
    · intro h
      exact absurd h happ

theorem lnot_right_iff (hmask : ρ.maskShiftCounts = true) (hc : Keeps ρ create) (hn : IsLength n)
    (hty : ty.IsRegister) {t : Mtype} {k : Expr} (ht : Typed (.unary .lnot t k)) :
    CvtlRight ρ create ty n split (.unary .lnot t k) ↔ CvtlSound ρ ty n (.unary .lnot t k) := by
  cases hinner : innerCvtl ty n k with
  | none =>
    apply iff_of_true
    · intro r hr
      rw [simpCvtl] at hr
      exact rest_right hmask hc hn hty ht hinner hr
      all_goals exact nofun
    · intro x hx
      exact absurd (hinner.symm.trans hx) nofun
  | some x =>
    have hsound : CvtlSound ρ ty n (.unary .lnot t k) ↔
        (¬ (t.bits = ty.bits ∧ t.bits = n) → eval ρ k = 0 → eval ρ x = 0) := by
      constructor
      · intro h
        exact h x hinner
      · intro h y hy
        obtain rfl := some.inj (hinner.symm.trans hy)
        exact h
    have hdrop : dropMask create ty n (.unary .lnot t k) =
        if t.bits = ty.bits ∧ t.bits = n then some (.unary .lnot t k) else none := rfl
    rw [hsound]
    by_cases hbits : t.bits = ty.bits ∧ t.bits = n
    · rw [if_pos hbits] at hdrop
      apply iff_of_true
      · intro r hr
        rw [simpCvtl, hdrop] at hr
        · obtain rfl := some.inj hr
          exact sameCvtl_truth hn rfl
        all_goals exact nofun
      · intro h
        exact absurd hbits h
    · rw [if_neg hbits] at hdrop
      have hvalue : simpCvtl create ty n split (.unary .lnot t k) =
          some (create (.cvtl ty n (create (.unary .lnot t x)))) := by
        rw [simpCvtl, hdrop]
        · show underOperator create ty n (.unary .lnot t k) = _
          simp only [underOperator, hinner]
        all_goals exact nofun
      unfold CvtlRight
      rw [hvalue]
      constructor
      · intro h _
        exact (lnot_same_iff hc hn hinner).mp (h _ rfl)
      · intro h r hr
        obtain rfl := some.inj hr
        exact (lnot_same_iff hc hn hinner).mpr (h hbits)

end all

/-- Simplifying a length conversion keeps its value, unless a conversion under `LNOT` is dropped
that makes a 0 of another number. The counts of shifts are taken modulo the width. -/
theorem simpCvtl_right_iff (ρ : Env) (hmask : ρ.maskShiftCounts = true) (create : Expr → Expr)
    (hc : Keeps ρ create) (ty : Mtype) (hty : ty.IsRegister) (n : Nat) (hn : IsLength n)
    (split : Bool) (k0 : Expr) (ht : Typed k0) :
    CvtlRight ρ create ty n split k0 ↔ CvtlSound ρ ty n k0 := by
  induction k0 with
  | select sty c k1 k2 _ ih1 ih2 =>
    obtain ⟨hsty, -, ht1, ht2⟩ := ht
    exact select_right_iff hc hn hsty (ih1 ht1) (ih2 ht2)
  | unary op t k ih =>
    cases op with
    | lnot => exact lnot_right_iff hmask hc hn hty ht
    | neg => exact iff_of_true (fun r hr => rest_right hmask hc hn hty ht trivial hr) trivial
    | bnot => exact iff_of_true (fun r hr => rest_right hmask hc hn hty ht trivial hr) trivial
  | intconst cty v =>
    apply iff_of_true _ trivial
    intro r hr
    rw [simpCvtl] at hr
    split at hr
    · exact absurd hr nofun
    · obtain rfl := some.inj hr
      show ty.wrap (eval ρ (foldCvtl ty n cty v)) = ty.wrap _
      rw [eval_foldCvtl ρ hn hty ht, Mtype.wrap_wrap]
      rfl
  | cvtl t m k ih =>
    apply iff_of_true _ trivial
    intro r hr
    rw [simpCvtl] at hr
    split at hr
    · rename_i hsame
      subst hsame
      split at hr
      · rename_i hle
        obtain rfl := some.inj hr
        exact sameCvtl_self (hn.low.2.trans hty) hle rfl
      · rename_i hlt
        obtain rfl := some.inj hr
        apply sameCvtl_create hc
        rw [eval, Mtype.ofInt_wrap (hn.low.2.trans hty), ofInt_lowBits (by omega)]
    · exact wholeWidth_same hn hty ht hr
  | leaf kind t desc id =>
    exact iff_of_true (fun r hr => rest_right hmask hc hn hty ht trivial hr) trivial
  | cvt t desc k ih =>
    exact iff_of_true (fun r hr => rest_right hmask hc hn hty ht trivial hr) trivial
  | binary op t k1 k2 ih1 ih2 =>
    exact iff_of_true (fun r hr => rest_right hmask hc hn hty ht trivial hr) trivial
  | compare op t desc k1 k2 ih1 ih2 =>
    exact iff_of_true (fun r hr => rest_right hmask hc hn hty ht trivial hr) trivial
  | extract t offset size k ih =>
    exact iff_of_true (fun r hr => rest_right hmask hc hn hty ht trivial hr) trivial
  | compose t offset size k1 k2 ih1 ih2 =>
    exact iff_of_true (fun r hr => rest_right hmask hc hn hty ht trivial hr) trivial

theorem simpCvtl_right_lnot : ∃ r, simpCvtl id .I4 8 false
    (.unary .lnot .I4 (.cvtl .I4 8 (.leaf .other .I4 .I4 0))) = some r ∧
      SameCvtl ⟨fun _ => 1, true⟩ .I4 8 (.unary .lnot .I4 (.cvtl .I4 8 (.leaf .other .I4 .I4 0))) r :=
  ⟨_, rfl, (simpCvtl_right_iff ⟨fun _ => 1, true⟩ rfl id (keeps_id _) .I4 (by decide) 8 (by decide) false
    (.unary .lnot .I4 (.cvtl .I4 8 (.leaf .other .I4 .I4 0))) ⟨by decide, by decide, (by decide : Mtype.I4.IsRegister)⟩).mpr
    (by
      intro x hx _ hzero
      exact absurd hzero (by decide)) _ rfl⟩

/-- The leaf is 256: LNOT(CVTL 8 (256)) is 1, and LNOT(256) is 0. -/
theorem simpCvtl_not_right :
    ¬ ∀ (ρ : Env) (_ : ρ.maskShiftCounts = true) (create : Expr → Expr) (_ : Keeps ρ create)
      (ty : Mtype) (_ : ty.IsRegister) (n : Nat) (_ : IsLength n) (split : Bool) (k0 : Expr)
      (_ : Typed k0), CvtlRight ρ create ty n split k0 := by
  intro hall
  have hright := hall ⟨fun _ => 256, true⟩ rfl id (keeps_id _) .I4 (by decide) 8 (by decide) false
    (.unary .lnot .I4 (.cvtl .I4 8 (.leaf .other .I4 .I4 0))) ⟨by decide, by decide, (by decide : Mtype.I4.IsRegister)⟩
    (.cvtl .I4 8 (.unary .lnot .I4 (.leaf .other .I4 .I4 0))) (by decide)
  exact absurd hright (by unfold SameCvtl; decide)

end Simp.Whirl
