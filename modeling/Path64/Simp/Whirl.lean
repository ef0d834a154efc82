import Mathlib.Data.BitVec
import Mathlib.Data.Int.ModEq
import Mathlib.Tactic.Linarith
import Mathlib.Tactic.Positivity
import Mathlib.Tactic.Ring

/-! # Integer trees of several types

A tree has a type, and its value is the integer that a register of this
type stands for. An operator takes the values of its kids modulo the
width of its own type.

The rules create nodes through one function `create`; what is asked of
it is that the tree that it returns has the value of the node. -/

namespace Simp.Whirl

/-! ## Types -/

/-- The integer types. -/
inductive Mtype where
  | I1 | I2 | I4 | I8
  | U1 | U2 | U4 | U8
  deriving DecidableEq

namespace Mtype

/-- `MTYPE_bit_size`. -/
def bits : Mtype → Nat
  | I1 | U1 => 8
  | I2 | U2 => 16
  | I4 | U4 => 32
  | I8 | U8 => 64

/-- `SIMP_IS_TYPE_UNSIGNED`. -/
def isUnsigned : Mtype → Bool
  | U1 | U2 | U4 | U8 => true
  | _ => false

/-- The number that the bits of a word stand for. -/
def ofWord (t : Mtype) (v : BitVec t.bits) : Int := if t.isUnsigned then v.toNat else v.toInt

/-- The word of a number. -/
def word (t : Mtype) (x : Int) : BitVec t.bits := BitVec.ofInt t.bits x

/-- The number of the type that is congruent to `x`. -/
def wrap (t : Mtype) (x : Int) : Int := t.ofWord (t.word x)

/-- The numbers of the type. -/
def Holds (t : Mtype) (x : Int) : Prop :=
  if t.isUnsigned then 0 ≤ x ∧ x < 2 ^ t.bits
  else -2 ^ (t.bits - 1) ≤ x ∧ x < 2 ^ (t.bits - 1)

instance (t : Mtype) (x : Int) : Decidable (t.Holds x) := by
  unfold Holds
  infer_instance

end Mtype

/-! ## Trees -/

/-- The unary operators. -/
inductive Uop where
  | neg | bnot | lnot
  deriving DecidableEq

/-- The binary operators. -/
inductive Bop where
  | add | sub | mpy | mod | rem
  | band | bior | bxor
  | land | lior
  | shl | ashr | lshr
  deriving DecidableEq

/-- The relational operators. -/
inductive Relop where
  | eq | ne | lt | le | gt | ge
  deriving DecidableEq

/-- The loads; the last one is any other node without a rule. -/
inductive Leaf where
  | ldid (preg : Bool)
  | iload
  | ldbits
  | other
  deriving DecidableEq

/-- Trees, with 64 bits of `WN_const_val`; a leaf has the type of what is loaded too. -/
inductive Expr where
  | intconst (ty : Mtype) (val : BitVec 64)
  | leaf (kind : Leaf) (ty desc : Mtype) (id : Nat)
  | unary (op : Uop) (ty : Mtype) (k : Expr)
  | cvt (ty desc : Mtype) (k : Expr)
  | cvtl (ty : Mtype) (bits : Nat) (k : Expr)
  | binary (op : Bop) (ty : Mtype) (k0 k1 : Expr)
  | compare (op : Relop) (ty desc : Mtype) (k0 k1 : Expr)
  | select (ty : Mtype) (c k1 k2 : Expr)
  | extract (ty : Mtype) (offset size : Nat) (k : Expr)
  | compose (ty : Mtype) (offset size : Nat) (k0 k1 : Expr)
  deriving DecidableEq

namespace Expr

/-- `SIMPNODE_rtype`. -/
def rtype : Expr → Mtype
  | intconst ty _ | leaf _ ty _ _ | unary _ ty _ | cvt ty _ _ | cvtl ty _ _ | binary _ ty _ _
  | compare _ ty _ _ _ | select ty _ _ _ | extract ty _ _ _ | compose ty _ _ _ _ => ty

/-- `SIMP_Is_Int_Constant`. -/
def isConst : Expr → Bool
  | intconst .. => true
  | _ => false

/-- `SIMP_Int_ConstVal`. -/
def constVal : Expr → BitVec 64
  | intconst _ v => v
  | _ => 0

@[simp] theorem constVal_intconst (ty : Mtype) (v : BitVec 64) : (intconst ty v).constVal = v := rfl

end Expr

/-- `SIMP_INTCONST`: the high half of a U4 constant is cleared. -/
def intConst (ty : Mtype) (v : BitVec 64) : Expr :=
  if ty = .U4 then .intconst ty (v &&& 0xffffffff#64) else .intconst ty v

def isPowerOf2 (x : BitVec 64) : Bool := x != 0 && (x &&& (x - 1)) == 0

/-! ## Values -/

/-- An assignment of the leaves, and `ARCH_mask_shift_counts`. -/
structure Env where
  leaf : Nat → Int
  maskShiftCounts : Bool

/-- The truth of a relation. -/
def Relop.Rel : Relop → Int → Int → Prop
  | eq, a, b => a = b
  | ne, a, b => a ≠ b
  | lt, a, b => a < b
  | le, a, b => a ≤ b
  | gt, a, b => b < a
  | ge, a, b => b ≤ a

instance (op : Relop) (a b : Int) : Decidable (op.Rel a b) := by
  cases op <;> unfold Relop.Rel <;> infer_instance

/-- 0 or 1. -/
def truth (p : Prop) [Decidable p] : Int := if p then 1 else 0

/-- The number of places that a count shifts by: modulo the width, or up to it. -/
def shiftCount (masked : Bool) (bits : Nat) (count : Int) : Nat :=
  if masked then (count % bits).toNat else min (count % 2 ^ 64).toNat bits

/-- The value of a unary operator. -/
def Uop.eval (op : Uop) (ty : Mtype) (a : Int) : Int :=
  match op with
  | neg => ty.wrap (-a)
  | bnot => ty.ofWord (~~~ty.word a)
  | lnot => truth (a = 0)

/-- The value of a binary operator. -/
def Bop.eval (masked : Bool) (op : Bop) (ty : Mtype) (a b : Int) : Int :=
  match op with
  | add => ty.wrap (a + b)
  | sub => ty.wrap (a - b)
  | mpy => ty.wrap (a * b)
  | mod => ty.wrap ((ty.wrap a).fmod (ty.wrap b))
  | rem => ty.wrap ((ty.wrap a).tmod (ty.wrap b))
  | band => ty.ofWord (ty.word a &&& ty.word b)
  | bior => ty.ofWord (ty.word a ||| ty.word b)
  | bxor => ty.ofWord (ty.word a ^^^ ty.word b)
  | land => truth (a ≠ 0 ∧ b ≠ 0)
  | lior => truth (a ≠ 0 ∨ b ≠ 0)
  | shl => ty.ofWord (ty.word a <<< shiftCount masked ty.bits b)
  | ashr => ty.ofWord ((ty.word a).sshiftRight (shiftCount masked ty.bits b))
  | lshr => ty.ofWord (ty.word a >>> shiftCount masked ty.bits b)

/-- The low `n` bits of a number, as a number of a sign. -/
def lowBits (unsigned : Bool) (n : Nat) (x : Int) : Int :=
  if unsigned then x % 2 ^ n else Int.bmod x (2 ^ n)

/-- The value of a tree. -/
def eval (ρ : Env) : Expr → Int
  | .intconst ty v => ty.wrap v.toInt
  -- a bit field is extended with the sign of the result
  | .leaf .ldbits ty desc n => ty.wrap (lowBits ty.isUnsigned desc.bits (ρ.leaf n))
  | .leaf _ ty desc n => ty.wrap (desc.wrap (ρ.leaf n))
  | .unary op ty k => op.eval ty (eval ρ k)
  | .cvt ty desc k => ty.wrap (desc.wrap (eval ρ k))
  | .cvtl ty bits k => ty.wrap (lowBits ty.isUnsigned bits (eval ρ k))
  | .binary op ty k0 k1 => op.eval ρ.maskShiftCounts ty (eval ρ k0) (eval ρ k1)
  | .compare op _ desc k0 k1 => truth (op.Rel (desc.wrap (eval ρ k0)) (desc.wrap (eval ρ k1)))
  | .select ty c k1 k2 => ty.wrap (if eval ρ c ≠ 0 then eval ρ k1 else eval ρ k2)
  | .extract ty offset size k =>
    ty.wrap (lowBits ty.isUnsigned size (((ty.word (eval ρ k)) >>> offset).toNat : Int))
  | .compose ty offset size k0 k1 =>
    let mask := BitVec.ofNat ty.bits (2 ^ size - 1) <<< offset
    ty.ofWord ((ty.word (eval ρ k0) &&& ~~~mask) ||| ((ty.word (eval ρ k1) <<< offset) &&& mask))

/-- What the constructors are trusted with: the value of the node asked for. -/
def Keeps (ρ : Env) (create : Expr → Expr) : Prop := ∀ e, eval ρ (create e) = eval ρ e

theorem keeps_id (ρ : Env) : Keeps ρ id := fun _ => rfl

/-! ## Numbers of a type -/

section numbers
variable {t : Mtype} {x y : Int}

theorem Mtype.bits_pos (t : Mtype) : 0 < t.bits := by cases t <;> decide

theorem Mtype.bits_le (t : Mtype) : t.bits ≤ 64 := by cases t <;> decide

theorem Mtype.two_pow_half (t : Mtype) : (2 : Int) ^ t.bits = 2 * 2 ^ (t.bits - 1) := by
  cases t <;> rfl

@[simp] theorem Mtype.word_ofWord (v : BitVec t.bits) : t.word (t.ofWord v) = v := by
  unfold Mtype.word Mtype.ofWord
  split
  · rw [BitVec.ofInt_natCast, BitVec.ofNat_toNat, BitVec.setWidth_eq]
  · exact BitVec.ofInt_toInt

theorem Mtype.ofWord_inj {v w : BitVec t.bits} : t.ofWord v = t.ofWord w ↔ v = w :=
  ⟨fun h => by rw [← word_ofWord v, h, word_ofWord], fun h => h ▸ rfl⟩

theorem Mtype.ofWord_eq_zero {v : BitVec t.bits} : t.ofWord v = 0 ↔ v = 0#t.bits := by
  have hzero : t.ofWord 0#t.bits = 0 := by
    unfold Mtype.ofWord
    split
    · exact congrArg Nat.cast BitVec.toNat_zero
    · exact BitVec.toInt_zero
  rw [← hzero, ofWord_inj]

@[simp] theorem Mtype.word_wrap (x : Int) : t.word (t.wrap x) = t.word x := word_ofWord _

@[simp] theorem Mtype.wrap_wrap (x : Int) : t.wrap (t.wrap x) = t.wrap x := by
  unfold Mtype.wrap
  rw [word_ofWord]

@[simp] theorem Mtype.wrap_ofWord (v : BitVec t.bits) : t.wrap (t.ofWord v) = t.ofWord v := by
  unfold Mtype.wrap
  rw [word_ofWord]

theorem Mtype.wrap_unsigned (ht : t.isUnsigned = true) (x : Int) : t.wrap x = x % 2 ^ t.bits := by
  unfold Mtype.wrap Mtype.ofWord Mtype.word
  rw [if_pos ht, BitVec.toNat_ofInt, Int.toNat_of_nonneg (Int.emod_nonneg _ (by positivity))]
  norm_cast

theorem Mtype.wrap_signed (ht : t.isUnsigned = false) (x : Int) :
    t.wrap x = Int.bmod x (2 ^ t.bits) := by
  unfold Mtype.wrap Mtype.ofWord Mtype.word
  rw [if_neg (by rw [ht]; exact Bool.false_ne_true), BitVec.toInt_ofInt]

theorem Mtype.word_eq_iff : t.word x = t.word y ↔ x % 2 ^ t.bits = y % 2 ^ t.bits := by
  unfold Mtype.word
  constructor
  · intro h
    have hnat := congrArg BitVec.toNat h
    rw [BitVec.toNat_ofInt, BitVec.toNat_ofInt] at hnat
    have hx : 0 ≤ x % ((2 ^ t.bits : Nat) : Int) := Int.emod_nonneg _ (by positivity)
    have hy : 0 ≤ y % ((2 ^ t.bits : Nat) : Int) := Int.emod_nonneg _ (by positivity)
    push_cast at hnat hx hy
    omega
  · intro h
    apply BitVec.eq_of_toNat_eq
    rw [BitVec.toNat_ofInt, BitVec.toNat_ofInt]
    push_cast
    rw [h]

theorem Mtype.wrap_eq_iff : t.wrap x = t.wrap y ↔ x % 2 ^ t.bits = y % 2 ^ t.bits := by
  rw [← word_eq_iff]
  exact ofWord_inj

theorem Mtype.wrap_spec (t : Mtype) (x : Int) : t.Holds (t.wrap x) ∧ ∃ k, t.wrap x = x + k * 2 ^ t.bits := by
  unfold Mtype.Holds
  cases ht : t.isUnsigned with
  | true =>
    rw [if_pos rfl, wrap_unsigned ht]
    have hpos : (0 : Int) < 2 ^ t.bits := by positivity
    refine ⟨⟨Int.emod_nonneg _ hpos.ne', Int.emod_lt_of_pos _ hpos⟩, -(x / 2 ^ t.bits), ?_⟩
    have := Int.emod_add_mul_ediv x (2 ^ t.bits)
    linarith [mul_comm (2 ^ t.bits) (x / 2 ^ t.bits)]
  | false =>
    rw [if_neg Bool.false_ne_true, wrap_signed ht]
    have hpos : 0 < 2 ^ t.bits := Nat.two_pow_pos _
    have hlo := Int.le_bmod (x := x) hpos
    have hhi := Int.bmod_lt (x := x) hpos
    have hhalf := t.two_pow_half
    push_cast at hlo hhi
    refine ⟨⟨by omega, by omega⟩, (Int.bmod x (2 ^ t.bits) - x) / 2 ^ t.bits, ?_⟩
    have hdvd : (2 : Int) ^ t.bits ∣ Int.bmod x (2 ^ t.bits) - x := by
      have := Int.dvd_bmod_sub_self (x := x) (m := 2 ^ t.bits)
      push_cast at this
      exact this
    rw [Int.ediv_mul_cancel hdvd]
    ring

theorem Mtype.wrap_of_holds (h : t.Holds x) : t.wrap x = x := by
  obtain ⟨hw, k, hk⟩ := t.wrap_spec x
  have hhalf := t.two_pow_half
  have hpos : (0 : Int) < 2 ^ (t.bits - 1) := by positivity
  unfold Mtype.Holds at h hw
  have hbound : -2 ^ t.bits < k * 2 ^ t.bits ∧ k * 2 ^ t.bits < 2 ^ t.bits := by
    split at h <;> rename_i ht <;> simp only [ht, if_true, if_false, Bool.false_eq_true] at hw <;>
      omega
  have hk0 : k = 0 := by
    rcases lt_trichotomy k 0 with hlt | heq | hgt
    · have : k * 2 ^ t.bits ≤ -1 * 2 ^ t.bits := by gcongr; omega
      omega
    · exact heq
    · have : 1 * 2 ^ t.bits ≤ k * 2 ^ t.bits := by gcongr; omega
      omega
  rw [hk, hk0]
  ring

theorem Mtype.holds_wrap (t : Mtype) (x : Int) : t.Holds (t.wrap x) := (t.wrap_spec x).1

theorem Mtype.wrap_emod (t : Mtype) (x : Int) : t.wrap x % 2 ^ t.bits = x % 2 ^ t.bits := by
  obtain ⟨-, k, hk⟩ := t.wrap_spec x
  rw [hk, Int.add_mul_emod_self_right]

theorem Mtype.holds_truth (t : Mtype) (p : Prop) [Decidable p] : t.Holds (truth p) := by
  unfold truth
  split <;> cases t <;> decide

@[simp] theorem Mtype.wrap_zero (t : Mtype) : t.wrap 0 = 0 := wrap_of_holds (t.holds_truth False)

@[simp] theorem Mtype.wrap_one (t : Mtype) : t.wrap 1 = 1 := wrap_of_holds (t.holds_truth True)

theorem holds_eval (ρ : Env) (e : Expr) : e.rtype.Holds (eval ρ e) := by
  have hword : ∀ (t : Mtype) (v : BitVec t.bits), t.Holds (t.ofWord v) := fun t v => by
    rw [← Mtype.wrap_ofWord]
    exact t.holds_wrap _
  cases e with
  | unary op ty k =>
    cases op with
    | neg => exact ty.holds_wrap _
    | bnot => exact hword _ _
    | lnot => exact ty.holds_truth _
  | binary op ty k0 k1 =>
    cases op with
    | add => exact ty.holds_wrap _
    | sub => exact ty.holds_wrap _
    | mpy => exact ty.holds_wrap _
    | mod => exact ty.holds_wrap _
    | rem => exact ty.holds_wrap _
    | land => exact ty.holds_truth _
    | lior => exact ty.holds_truth _
    | band => exact hword _ _
    | bior => exact hword _ _
    | bxor => exact hword _ _
    | shl => exact hword _ _
    | ashr => exact hword _ _
    | lshr => exact hword _ _
  | compare op ty desc k0 k1 => exact ty.holds_truth _
  | compose ty offset size k0 k1 => exact hword _ _
  | intconst ty v => exact ty.holds_wrap _
  | leaf kind ty desc n =>
    cases kind with
    | ldbits => exact ty.holds_wrap _
    | ldid preg => exact ty.holds_wrap _
    | iload => exact ty.holds_wrap _
    | other => exact ty.holds_wrap _
  | cvt ty desc k => exact ty.holds_wrap _
  | cvtl ty bits k => exact ty.holds_wrap _
  | select ty c k1 k2 => exact ty.holds_wrap _
  | extract ty offset size k => exact ty.holds_wrap _

theorem wrap_eval (ρ : Env) (e : Expr) : e.rtype.wrap (eval ρ e) = eval ρ e :=
  Mtype.wrap_of_holds (holds_eval ρ e)

end numbers

/-! ## Constants -/

theorem toInt_ofInt_64 {c : Int} (hlo : -2 ^ 63 ≤ c) (hhi : c < 2 ^ 63) :
    (BitVec.ofInt 64 c).toInt = c := by
  rw [BitVec.toInt_ofInt]
  exact Int.bmod_eq_of_le (by omega) (by omega)

theorem wrap_toInt_ofInt (t : Mtype) (c : Int) : t.wrap (BitVec.ofInt 64 c).toInt = t.wrap c := by
  rw [Mtype.wrap_eq_iff, BitVec.toInt_ofInt]
  have hdvd : (2 : Int) ^ t.bits ∣ 2 ^ 64 := pow_dvd_pow 2 t.bits_le
  have hbmod : (2 : Int) ^ 64 ∣ Int.bmod c (2 ^ 64) - c := by
    have := Int.dvd_bmod_sub_self (x := c) (m := 2 ^ 64)
    push_cast at this
    exact this
  exact Int.emod_eq_emod_iff_emod_sub_eq_zero.mpr (Int.emod_eq_zero_of_dvd (hdvd.trans hbmod))

theorem toInt_and_low (v : BitVec 64) :
    (v &&& 0xffffffff#64).toInt % 4294967296 = v.toInt % 4294967296 := by
  have hlow : (v &&& 0xffffffff#64).toNat = v.toNat % 4294967296 := by
    rw [BitVec.toNat_and]
    exact Nat.and_two_pow_sub_one_eq_mod v.toNat 32
  rw [BitVec.toInt_eq_toNat_cond, BitVec.toInt_eq_toNat_cond, hlow]
  have hv := v.isLt
  split <;> split <;> omega

@[simp] theorem eval_intConst (ρ : Env) (ty : Mtype) (v : BitVec 64) :
    eval ρ (intConst ty v) = ty.wrap v.toInt := by
  unfold intConst
  split
  · rename_i h
    subst h
    rw [eval, Mtype.wrap_eq_iff]
    exact toInt_and_low v
  · rfl

end Simp.Whirl
