import Path64.Lib.BitMask

/-! # Expressions of the bitwise dead code elimination

The expression trees (`CODEREP`) that `BITWISE_DCE` walks, for the
integral types, and what they compute on the x86-64 target. An operation
of a 32-bit type reads the low half of its operands and clears the high
half of its result, whatever its sign. -/

namespace Bdce

open BitMask

/-! ## Types -/

/-- The integral machine types. -/
inductive Mtype where
  | B | I1 | I2 | I4 | I8 | U1 | U2 | U4 | U8
  deriving DecidableEq

/-- `MTYPE_size_min`, in bits. -/
def Mtype.size : Mtype → Nat
  | .B => 1
  | .I1 | .U1 => 8
  | .I2 | .U2 => 16
  | .I4 | .U4 => 32
  | .I8 | .U8 => 64

section
-- derives the equations
attribute [local simp] Mtype.size
end

/-- `MTYPE_signed`. -/
def Mtype.signed : Mtype → Bool
  | .I1 | .I2 | .I4 | .I8 => true
  | _ => false

/-- `MTYPE_is_signed`, by the type class: a Boolean counts as signed. -/
def Mtype.isSigned : Mtype → Bool
  | .U1 | .U2 | .U4 | .U8 => false
  | _ => true

/-- The types of the integer operations. -/
inductive Rtype where
  | I4 | I8 | U4 | U8
  deriving DecidableEq

def Rtype.mtype : Rtype → Mtype
  | .I4 => .I4
  | .I8 => .I8
  | .U4 => .U4
  | .U8 => .U8

def Rtype.size (t : Rtype) : Nat := t.mtype.size

def Rtype.signed (t : Rtype) : Bool := t.mtype.signed

theorem Rtype.size_eq (t : Rtype) : t.size = 32 ∨ t.size = 64 := by
  cases t <;> simp [Rtype.size, Rtype.mtype, Mtype.size]

theorem Mtype.size_pos (t : Mtype) : 0 < t.size := by
  cases t <;> simp [Mtype.size]

theorem Mtype.size_le (t : Mtype) : t.size ≤ 64 := by
  cases t <;> simp [Mtype.size]

theorem Rtype.size_pos (t : Rtype) : 0 < t.size := Mtype.size_pos t.mtype

theorem Rtype.size_le (t : Rtype) : t.size ≤ 64 := Mtype.size_le t.mtype

/-- The result and descriptor types a load may have. -/
def loadValid (dtyp dsctyp : Mtype) : Bool :=
  match dtyp with
  | .I4 | .I8 => dsctyp.signed
  | .U4 | .U8 => !dsctyp.signed && dsctyp != .B
  | .B => dsctyp == .B
  | _ => false

structure LoadType where
  dtyp : Mtype
  dsctyp : Mtype
  valid : loadValid dtyp dsctyp = true
  deriving DecidableEq

/-- `Is_hi_sign_extended`, for a descriptor type of 32 bits. -/
def isHiSignExtended (dtyp dsctyp : Mtype) : Bool :=
  if dsctyp.size < dtyp.size ∧ (dtyp.size = 32 ∨ dtyp.isSigned = false) then false
  else if !dtyp.isSigned then false
  else dtyp.size != 32

/-- `Is_lo_sign_extended`, for a smaller one. -/
def isLoSignExtended (dtyp dsctyp : Mtype) : Bool :=
  if dsctyp.size < dtyp.size ∧ dsctyp.isSigned = false then false
  else dtyp.isSigned

def signExtended (dtyp dsctyp : Mtype) : Bool :=
  if dsctyp.size ≤ 32 then
    if dsctyp.size = 32 then isHiSignExtended dtyp dsctyp else isLoSignExtended dtyp dsctyp
  else false

/-- The flag `Is_sign_extd` of a load. -/
def LoadType.signExtd (ty : LoadType) : Bool := signExtended ty.dtyp ty.dsctyp

/-! ## Words -/

def bitmaskOfSize (vsize : Nat) : BitVec 64 :=
  if 64 ≤ vsize then BitVec.allOnes 64 else (1#64 <<< vsize) - 1#64

/-- The low `n` bits, the rest cleared. -/
def low (n : Nat) (v : BitVec 64) : BitVec 64 := v &&& bitmaskOfSize n

/-- The low `n` bits, the rest copies of the highest of them. -/
def sext (n : Nat) (v : BitVec 64) : BitVec 64 := (v.setWidth n).signExtend 64

/-- The value that the bits of `v` have at type `t`. -/
def extend (t : Mtype) (v : BitVec 64) : BitVec 64 :=
  if t.signed then sext t.size v else low t.size v

/-- What an operation of type `t` leaves in its result register. -/
def write (t : Rtype) (v : BitVec 64) : BitVec 64 := low t.size v

/-- The value of an operand of type `t` as an integer. -/
def intVal (t : Mtype) (v : BitVec 64) : Int :=
  if t.signed then (extend t v).toInt else ((extend t v).toNat : Int)

variable {n : Nat} {t : Mtype} {a b : BitVec 64}

theorem toNat_bitmask (hn : n < 64) : ((1#64 <<< n) - 1#64).toNat = 2 ^ n - 1:= by
  have hpow : 2 ^ n < 2 ^ 64 := Nat.pow_lt_pow_right (by omega) hn
  have hpos : 0 < 2 ^ n := Nat.two_pow_pos n
  have hone : (1#64 <<< n).toNat = 2 ^ n := by
    rw [BitVec.toNat_shiftLeft, Nat.shiftLeft_eq]
    show 1 * 2 ^ n % 2 ^ 64 = 2 ^ n
    rw [one_mul, Nat.mod_eq_of_lt hpow]
  rw [BitVec.toNat_sub, hone]
  show (2 ^ 64 - 1 + 2 ^ n) % 2 ^ 64 = 2 ^ n - 1
  rw [show 2 ^ 64 - 1 + 2 ^ n = 2 ^ n - 1 + 2 ^ 64 by omega, Nat.add_mod_right]
  exact Nat.mod_eq_of_lt (by omega)

@[simp] theorem getLsbD_bitmaskOfSize (n i : Nat) :
    (bitmaskOfSize n).getLsbD i = (decide (i < n) && decide (i < 64)) := by
  unfold bitmaskOfSize
  by_cases hn : 64 ≤ n
  · rw [if_pos hn, BitVec.getLsbD_allOnes]
    by_cases hi : i < 64
    · simp [hi, show i < n by omega]
    · simp [hi]
  · rw [if_neg hn, BitVec.getLsbD, toNat_bitmask (by omega), Nat.testBit_two_pow_sub_one]
    by_cases hi : i < n
    · simp [hi, show i < 64 by omega]
    · simp [hi]

@[simp] theorem getLsbD_low (n i : Nat) (v : BitVec 64) :
    (low n v).getLsbD i = (decide (i < n) && v.getLsbD i) := by
  unfold low
  rw [BitVec.getLsbD_and, getLsbD_bitmaskOfSize]
  cases hv : v.getLsbD i with
  | false => simp
  | true => simp [BitVec.lt_of_getLsbD hv]

theorem getLsbD_sext (hn : 0 < n) (i : Nat) (v : BitVec 64) :
    (sext n v).getLsbD i = (decide (i < 64) && v.getLsbD (min i (n - 1))) := by
  unfold sext
  rw [BitVec.getLsbD_signExtend]
  by_cases hi : i < n
  · rw [if_pos hi, BitVec.getLsbD_setWidth, Nat.min_eq_left (by omega), decide_eq_true hi]
    simp
  · rw [if_neg hi, BitVec.msb_eq_getLsbD_last, BitVec.getLsbD_setWidth,
      Nat.min_eq_right (by omega), decide_eq_true (show n - 1 < n by omega)]
    simp

theorem getLsbD_extend (t : Mtype) (i : Nat) (v : BitVec 64) : (extend t v).getLsbD i =
      if t.signed then decide (i < 64) && v.getLsbD (min i (t.size - 1))
      else decide (i < t.size) && v.getLsbD i := by
  unfold extend
  by_cases hs : t.signed = true
  · rw [if_pos hs, if_pos hs, getLsbD_sext t.size_pos]
  · rw [if_neg hs, if_neg hs, getLsbD_low]

theorem extend_congr (h : AgreeOn (bitmaskOfSize t.size) a b) : extend t a = extend t b := by
  apply BitVec.eq_of_getLsbD_eq
  intro i hi
  rw [getLsbD_extend, getLsbD_extend]
  have hpos := t.size_pos
  have hle := t.size_le
  by_cases hs : t.signed = true
  · rw [if_pos hs, if_pos hs, h (min i (t.size - 1)) (by simp; omega)]
  · rw [if_neg hs, if_neg hs]
    by_cases hlt : i < t.size
    · rw [h i (by simp; omega)]
    · simp [hlt]

theorem intVal_congr (h : AgreeOn (bitmaskOfSize t.size) a b) : intVal t a = intVal t b := by
  unfold intVal
  rw [extend_congr h]

/-! ## Trees -/

/-- The width of a `CVTL`. -/
structure Width where
  dtyp : Rtype
  bits : Nat
  pos : 0 < bits
  le : bits ≤ dtyp.size
  deriving DecidableEq

/-- A `char` in an I4 register. -/
def Width.char : Width := { dtyp := .I4, bits := 8, pos := by decide, le := by decide }

/-- The bit field of an `EXTRACT_BITS` or a `COMPOSE_BITS`. -/
structure BitField where
  dtyp : Rtype
  ofst : Nat
  size : Nat
  pos : 0 < size
  le : ofst + size ≤ dtyp.size
  deriving DecidableEq

/-- The types a rotation may have. -/
inductive RotUnit where
  | U4U1 | U4U2 | U4U4 | U8U8
  deriving DecidableEq

def RotUnit.dtyp : RotUnit → Rtype
  | .U8U8 => .U8
  | _ => .U4

def RotUnit.dsctyp : RotUnit → Mtype
  | .U4U1 => .U1
  | .U4U2 => .U2
  | .U4U4 => .U4
  | .U8U8 => .U8

inductive UnOp where
  | cvtl (w : Width)
  | cvt (dtyp dsctyp : Rtype)
  | cvtB (dtyp : Rtype)
  | neg (t : Rtype)
  | extractBits (f : BitField)
  | paren (t : Rtype)
  | bnot (t : Rtype)
  | abs (t : Rtype)
  | lnot (dtyp dsctyp : Mtype)
  deriving DecidableEq

inductive Arith where
  | add | sub | mpy
  deriving DecidableEq

inductive Bitwise where
  | band | bior | bnor | bxor
  deriving DecidableEq

inductive Shift where
  | shl | lshr | ashr
  deriving DecidableEq

/-- The operations that look at their operands as whole numbers. -/
inductive Whole where
  | div | mod | rem | highmpy | max | min
  deriving DecidableEq

inductive Relation where
  | eq | ne | ge | gt | le | lt
  deriving DecidableEq

inductive Logical where
  | land | lior
  deriving DecidableEq

inductive BinOp where
  | arith (k : Arith) (t : Rtype)
  | bitwise (k : Bitwise) (t : Rtype)
  | shift (k : Shift) (t : Rtype)
  | rrotate (u : RotUnit)
  | composeBits (f : BitField)
  | whole (k : Whole) (t : Rtype)
  | relation (k : Relation) (dtyp dsctyp : Mtype)
  | logical (k : Logical) (t : Mtype)
  deriving DecidableEq

/-- An integer constant; a Boolean one is zero or one. -/
structure IntConst where
  dtyp : Mtype
  val : BitVec 64
  bool : dtyp = .B → val = 0 ∨ val = 1
  deriving DecidableEq

/-- A variable as a load sees it: a preg as it is, another one by the bytes of the type of the load.
-/
structure Var where
  id : Nat
  ty : LoadType
  dedicated : Bool
  real : Bool
  preg : Bool
  byteSize : Nat
  whole : preg = true → ty.dsctyp = ty.dtyp
  fits : byteSize = 0 ∨ ty.dsctyp.size ≤ 8 * byteSize
  deriving DecidableEq

/-- A `CODEREP` tree; nodes are hashed. `var` is a variable whose definition is not followed,
`defVar` one defined by a store of `rhs`. -/
inductive Expr where
  | const (c : IntConst)
  | lda (t : Rtype) (id : Nat)
  | var (v : Var)
  | defVar (v : Var) (rhs : Expr)
  | iload (ty : LoadType) (pointer : Rtype) (mem : Nat) (base : Expr)
  | un (op : UnOp) (x : Expr)
  | bin (op : BinOp) (x y : Expr)
  | select (dtyp : Rtype) (descB : Bool) (c x y : Expr)
  deriving DecidableEq

def UnOp.dtyp : UnOp → Mtype
  | .cvtl w => w.dtyp.mtype
  | .cvt dtyp _ => dtyp.mtype
  | .cvtB dtyp => dtyp.mtype
  | .neg t | .paren t | .bnot t | .abs t => t.mtype
  | .extractBits f => f.dtyp.mtype
  | .lnot dtyp _ => dtyp

def BinOp.dtyp : BinOp → Mtype
  | .arith _ t | .bitwise _ t | .shift _ t | .whole _ t => t.mtype
  | .rrotate u => u.dtyp.mtype
  | .composeBits f => f.dtyp.mtype
  | .relation _ dtyp _ => dtyp
  | .logical _ t => t

def Expr.dtyp : Expr → Mtype
  | .const c => c.dtyp
  | .lda t _ => t.mtype
  | .var v => v.ty.dtyp
  | .defVar v _ => v.ty.dtyp
  | .iload ty _ _ _ => ty.dtyp
  | .un op _ => op.dtyp
  | .bin op _ _ => op.dtyp
  | .select dtyp _ _ _ _ => dtyp.mtype

/-- `Const_val`, where the node is a `CK_CONST`. -/
def Expr.constVal? : Expr → Option (BitVec 64)
  | .const c => some c.val
  | _ => none

/-- The number of nodes, the definitions of variables included. -/
def Expr.size : Expr → Nat
  | .const _ | .lda _ _ | .var _ => 1
  | .defVar _ rhs => rhs.size + 1
  | .iload _ _ _ base => base.size + 1
  | .un _ x => x.size + 1
  | .bin _ x y => x.size + y.size + 1
  | .select _ _ c x y => c.size + x.size + y.size + 1

section
-- derives the equations
attribute [local simp] Expr.size
end

/-! ## Evaluation -/

/-- The contents of the variables, the addresses and the memory that a tree reads. -/
structure Env where
  var : Nat → BitVec 64
  lda : Nat → BitVec 64
  mem : Nat → BitVec 64 → BitVec 64

def boolVal (b : Bool) : BitVec 64 := if b then 1#64 else 0#64

/-- The value of a load from a place with the given content. -/
def LoadType.value (ty : LoadType) (content : BitVec 64) : BitVec 64 :=
  low ty.dtyp.size (extend ty.dsctyp content)

/-- A field that starts at bit `ofst`, extended by the sign of its type. -/
def fieldValue (t : Rtype) (n : Nat) (v : BitVec 64) : BitVec 64 :=
  write t (if t.signed then sext n v else low n v)

def UnOp.eval : UnOp → BitVec 64 → BitVec 64
  | .cvtl w, a => fieldValue w.dtyp w.bits a
  | .cvt dtyp dsctyp, a => write dtyp (extend dsctyp.mtype a)
  | .cvtB dtyp, a => write dtyp (extend .B a)
  | .neg t, a => write t (-a)
  | .extractBits f, a => fieldValue f.dtyp f.size (a >>> f.ofst)
  | .paren t, a => write t a
  | .bnot t, a => write t (~~~a)
  | .abs t, a => write t (BitVec.ofInt 64 |intVal t.mtype a|)
  | .lnot _ dsctyp, a => boolVal (intVal dsctyp a == 0)

def Arith.eval : Arith → BitVec 64 → BitVec 64 → BitVec 64
  | .add, a, b => a + b
  | .sub, a, b => a - b
  | .mpy, a, b => a * b

def Bitwise.eval : Bitwise → BitVec 64 → BitVec 64 → BitVec 64
  | .band, a, b => a &&& b
  | .bior, a, b => a ||| b
  | .bnor, a, b => ~~~(a ||| b)
  | .bxor, a, b => a ^^^ b

/-- The shifts of a `w`-bit word by `s < w`. -/
def Shift.eval (w : Nat) : Shift → BitVec 64 → Nat → BitVec 64
  | .shl, a, s => a <<< s
  | .lshr, a, s => low w a >>> s
  | .ashr, a, s => (sext w a).sshiftRight s

section
-- derives the equations
attribute [local simp] Shift.eval
end

/-- The operations on whole numbers of a `w`-bit type. -/
def Whole.eval (w : Nat) : Whole → Int → Int → Int
  | .div, a, b => a.tdiv b
  | .mod, a, b => a.fmod b
  | .rem, a, b => a.tmod b
  | .highmpy, a, b => (a * b).fdiv (2 ^ w)
  | .max, a, b => Max.max a b
  | .min, a, b => Min.min a b

def Relation.eval : Relation → Int → Int → Bool
  | .eq, a, b => a == b
  | .ne, a, b => a != b
  | .ge, a, b => decide (b ≤ a)
  | .gt, a, b => decide (b < a)
  | .le, a, b => decide (a ≤ b)
  | .lt, a, b => decide (a < b)

def Logical.eval : Logical → Bool → Bool → Bool
  | .land, a, b => a && b
  | .lior, a, b => a || b

/-- The low `n` bits rotated right by `s < n`. -/
def rotateRight (n : Nat) (a : BitVec 64) (s : Nat) : BitVec 64 :=
  low n (low n a >>> s ||| a <<< (n - s))

/-- The machine takes a shift count modulo the width of the shift. -/
def BinOp.eval : BinOp → BitVec 64 → BitVec 64 → BitVec 64
  | .arith k t, a, b => write t (k.eval a b)
  | .bitwise k t, a, b => write t (k.eval a b)
  | .shift k t, a, b => write t (k.eval t.size a (b.toNat % t.size))
  | .rrotate u, a, b => rotateRight u.dsctyp.size a (b.toNat % u.dsctyp.size)
  | .composeBits f, a, b =>
    write f.dtyp (a &&& ~~~(bitmaskOfSize f.size <<< f.ofst) |||
      (b &&& bitmaskOfSize f.size) <<< f.ofst)
  | .whole k t, a, b =>
    write t (BitVec.ofInt 64 (k.eval t.size (intVal t.mtype a) (intVal t.mtype b)))
  | .relation k _ dsctyp, a, b => boolVal (k.eval (intVal dsctyp a) (intVal dsctyp b))
  | .logical k t, a, b => boolVal (k.eval (intVal t a != 0) (intVal t b != 0))

/-- The type at which a `SELECT` tests its condition. -/
def selectDesc (dtyp : Rtype) (descB : Bool) : Mtype := if descB then .B else dtyp.mtype

def selectEval (dtyp : Rtype) (descB : Bool) (c a b : BitVec 64) : BitVec 64 :=
  write dtyp (if intVal (selectDesc dtyp descB) c ≠ 0 then a else b)

/-- The value of a tree. -/
def eval (ρ : Env) : Expr → BitVec 64
  | .const c => c.val
  | .lda t id => write t (ρ.lda id)
  | .var v => v.ty.value (ρ.var v.id)
  | .defVar v rhs => v.ty.value (eval ρ rhs)
  | .iload ty pointer mem base => ty.value (ρ.mem mem (write pointer (eval ρ base)))
  | .un op x => op.eval (eval ρ x)
  | .bin op x y => op.eval (eval ρ x) (eval ρ y)
  | .select dtyp descB c x y => selectEval dtyp descB (eval ρ c) (eval ρ x) (eval ρ y)

theorem eval_constVal {ρ : Env} {x : Expr} {k : BitVec 64} (h : x.constVal? = some k) :
    eval ρ x = k := by
  cases x <;> simp [Expr.constVal?] at h
  simp [eval, h]

/-! ## Bits beyond the type -/

/-- The bits of `v` from `n` on are clear. -/
def Clear (n : Nat) (v : BitVec 64) : Prop := ∀ i, n ≤ i → v.getLsbD i = false

theorem clear_low (n : Nat) (v : BitVec 64) : Clear n (low n v) := by
  intro i hi
  simp [show ¬ i < n by omega]

theorem Clear.mono {m : Nat} {v : BitVec 64} (h : Clear n v) (hle : n ≤ m) : Clear m v :=
  fun i hi => h i (by omega)

theorem clear_boolVal (b : Bool) : Clear 1 (boolVal b) := by
  intro i hi
  cases b with
  | false => simp [boolVal]
  | true => simp [boolVal, BitVec.getLsbD_one]; omega

theorem clear_unOp (op : UnOp) (a : BitVec 64) : Clear op.dtyp.size (op.eval a) := by
  cases op with
  | lnot dtyp dsctyp => exact (clear_boolVal _).mono (Mtype.size_pos _)
  | _ => exact clear_low _ _

theorem RotUnit.dsctyp_le (u : RotUnit) : u.dsctyp.size ≤ u.dtyp.size := by
  cases u <;> decide

theorem clear_binOp (op : BinOp) (a b : BitVec 64) : Clear op.dtyp.size (op.eval a b) := by
  cases op with
  | rrotate u => exact (clear_low _ _).mono u.dsctyp_le
  | relation k dtyp dsctyp => exact (clear_boolVal _).mono (Mtype.size_pos _)
  | logical k t => exact (clear_boolVal _).mono (Mtype.size_pos _)
  | _ => exact clear_low _ _

theorem clear_eval (ρ : Env) (e : Expr) (h : e.constVal? = none) : Clear e.dtyp.size (eval ρ e):= by
  cases e with
  | const c => simp [Expr.constVal?] at h
  | lda t id => exact clear_low _ _
  | var v => exact clear_low _ _
  | defVar v rhs => exact clear_low _ _
  | iload ty pointer mem base => exact clear_low _ _
  | un op x => exact clear_unOp op _
  | bin op x y => exact clear_binOp op _ _
  | select dtyp descB c x y => exact clear_low _ _

end Bdce
