import Mathlib.Data.BitVec
import Mathlib.Tactic.Ring

/-! # The instructions that the code generator emits

A TN is a register with 64 bits; a 32-bit instruction reads the low half
of its operands and clears the high half of its result. Code is a list
of instructions with forward jumps, in the order of the basic blocks.
Code that reads a flag that an instruction leaves undefined has no
result. -/

namespace X8664

open BitVec

/-! ## Registers and flags -/

/-- Register TNs: the caller's, those an expansion builds, and second ones of pairs. -/
inductive TN where
  | var (n : Nat)
  | tmp (site k : Nat)
  | hi (t : TN)
  deriving DecidableEq

/-- An operand: a register or a literal. -/
inductive Opnd where
  | tn (t : TN)
  | lit (v : Int)
  deriving DecidableEq

instance : Coe TN Opnd := ⟨Opnd.tn⟩

structure Flags where
  cf : Option Bool
  zf : Option Bool
  sf : Option Bool
  of : Option Bool
  deriving DecidableEq

def Flags.unknown : Flags := ⟨none, none, none, none⟩

/-- The registers, the flags, and what a `bsr` of 0 leaves behind. -/
structure State where
  reg : TN → BitVec 64
  flags : Flags
  junk : BitVec 64

/-- The low `n` bits of a register; `n` is 32 or 64. -/
def State.read (s : State) (n : Nat) (t : TN) : BitVec n := (s.reg t).setWidth n

@[simp] def State.opnd (s : State) (n : Nat) : Opnd → BitVec n
  | .tn t => s.read n t
  | .lit v => BitVec.ofInt n v

def State.write {n : Nat} (s : State) (t : TN) (v : BitVec n) : State :=
  { s with reg := Function.update s.reg t (v.setWidth 64) }

/-! ## Instructions -/

/-- The conditions of `jcc` and `cmovcc`. -/
inductive Cond where
  | b
  | ae
  | e
  | ne
  | be
  | a
  | l
  | ge
  | le
  | g
  | s
  | ns
  deriving DecidableEq

inductive BinOp where
  | add
  | adc
  | sub
  | sbb
  | and
  | or
  | xor
  | imul
  | shl
  | shr
  | sar
  deriving DecidableEq

/-- One instruction; `bin` with a literal is the immediate form. -/
inductive Instr where
  /-- `TOP_mov32`, `TOP_mov64`. -/
  | mov (n : Nat) (d a : TN)
  /-- `TOP_ldc32`, `TOP_ldc64`. -/
  | ldc (n : Nat) (d : TN) (v : Int)
  /-- `TOP_movsbl`, `TOP_movzwq`, `TOP_movslq`, ...: extend the low `k` bits. -/
  | movx (signed : Bool) (k n : Nat) (d a : TN)
  | not (n : Nat) (d a : TN)
  | neg (n : Nat) (d a : TN)
  | bin (op : BinOp) (n : Nat) (d a : TN) (b : Opnd)
  /-- `TOP_shld32`, `TOP_shrd32`. -/
  | shd (left : Bool) (d a b : TN) (count : Opnd)
  /-- `TOP_mul32`, `TOP_imulx32`, `TOP_mulx64`: both halves of the product. -/
  | mul (signed : Bool) (n : Nat) (lo hi a b : TN)
  | cmp (n : Nat) (a : TN) (b : Opnd)
  | test (n : Nat) (a : TN) (b : Opnd)
  | bsr (d a : TN)
  | cmov (c : Cond) (d a : TN)
  | jcc (c : Cond) (label : Nat)
  | label (l : Nat)
  deriving DecidableEq

/-- The flags after `a - b`. -/
def subFlags {n : Nat} (a b : BitVec n) : Flags where
  cf := some (a.ult b)
  zf := some (a == b)
  sf := some (a - b).msb
  of := some (decide ((a - b).toInt ≠ a.toInt - b.toInt))

/-- The flags of a result without carry and overflow. -/
def testFlags {n : Nat} (z : BitVec n) : Flags where
  cf := some false
  zf := some (z == 0)
  sf := some z.msb
  of := some false

def Cond.eval (f : Flags) : Cond → Option Bool
  | .b => f.cf
  | .ae => f.cf.map (!·)
  | .e => f.zf
  | .ne => f.zf.map (!·)
  | .be => f.cf.bind fun c => f.zf.map fun z => c || z
  | .a => f.cf.bind fun c => f.zf.map fun z => !(c || z)
  | .l => f.sf.bind fun s => f.of.map fun o => s != o
  | .ge => f.sf.bind fun s => f.of.map fun o => s == o
  | .le => f.zf.bind fun z => f.sf.bind fun s => f.of.map fun o => z || s != o
  | .g => f.zf.bind fun z => f.sf.bind fun s => f.of.map fun o => !(z || s != o)
  | .s => f.sf
  | .ns => f.sf.map (!·)

/-- The count of a shift is taken modulo the operand size. -/
def count {n : Nat} (c : BitVec n) : Nat := c.toNat % n

/-- The result of a two operand instruction and its flags. -/
@[simp] def BinOp.apply {n : Nat} (f : Flags) (a b : BitVec n) : BinOp → Option (BitVec n × Flags)
  | .add => some (a + b, { Flags.unknown with cf := some (decide (2 ^ n ≤ a.toNat + b.toNat)) })
  | .adc => f.cf.map fun c => (a + b + BitVec.ofNat n c.toNat, Flags.unknown)
  | .sub => some (a - b, subFlags a b)
  | .sbb => f.cf.map fun c => (a - b - BitVec.ofNat n c.toNat, Flags.unknown)
  | .and => some (a &&& b, testFlags (a &&& b))
  | .or => some (a ||| b, testFlags (a ||| b))
  | .xor => some (a ^^^ b, testFlags (a ^^^ b))
  | .imul => some (a * b, Flags.unknown)
  | .shl => some (a <<< count b, Flags.unknown)
  | .shr => some (a >>> count b, Flags.unknown)
  | .sar => some (a.sshiftRight (count b), Flags.unknown)

/-- The double shift of `a`, filled from `b`. -/
def shiftDouble {n : Nat} (left : Bool) (a b : BitVec n) (c : Nat) : BitVec n :=
  if left then a <<< c ||| b >>> (n - c) else a >>> c ||| b <<< (n - c)

def State.setFlags (s : State) (f : Flags) : State := { s with flags := f }

/-- The full product of two registers. -/
def product {n : Nat} (signed : Bool) (a b : BitVec n) : BitVec (2 * n) :=
  if signed then BitVec.ofInt (2 * n) (a.toInt * b.toInt)
  else BitVec.ofNat (2 * n) (a.toNat * b.toNat)

/-- One instruction that is not a jump or a label. -/
@[simp] def Instr.exec (s : State) : Instr → Option State
  | .mov n d a => some (s.write d (s.read n a))
  | .ldc n d v => some (s.write d (BitVec.ofInt n v))
  | .movx signed k n d a =>
    let low := (s.read 32 a).setWidth k
    some (s.write d (if signed then low.signExtend n else low.setWidth n))
  | .not n d a => some (s.write d (~~~ s.read n a))
  | .neg n d a => some ((s.write d (- s.read n a)).setFlags (subFlags 0 (s.read n a)))
  | .bin op n d a b =>
    (op.apply s.flags (s.read n a) (s.opnd n b)).map fun r => (s.write d r.1).setFlags r.2
  | .shd left d a b c =>
    some ((s.write d
      (shiftDouble left (s.read 32 a) (s.read 32 b) (count (s.opnd 32 c)))).setFlags .unknown)
  | .mul signed n lo hi a b =>
    let p := product signed (s.read n a) (s.read n b)
    some (((s.write lo (p.setWidth n)).write hi ((p >>> n).setWidth n)).setFlags .unknown)
  | .cmp n a b => some (s.setFlags (subFlags (s.read n a) (s.opnd n b)))
  | .test n a b => some (s.setFlags (testFlags (s.read n a &&& s.opnd n b)))
  | .bsr d a =>
    let v := s.read 32 a
    some ((s.write d (if v = 0 then s.junk.setWidth 32 else BitVec.ofNat 32 v.toNat.log2)).setFlags
      { Flags.unknown with zf := some (v == 0) })
  | .cmov c d a =>
    (c.eval s.flags).map fun taken => if taken then s.write d (s.reg a) else s
  | .jcc .. | .label _ => none

/-- Run code; `skip` is the label that is looked for after a jump. -/
@[simp] def run : List Instr → Option Nat → State → Option (State × Option Nat)
  | [], skip, s => some (s, skip)
  | .label l :: is, skip, s => run is (if skip = some l then none else skip) s
  | _ :: is, some l, s => run is (some l) s
  | .jcc c l :: is, none, s =>
    (c.eval s.flags).bind fun taken => run is (if taken then some l else none) s
  | i :: is, none, s => (i.exec s).bind fun s' => run is none s'

/-- Run code that ends at its end. -/
@[simp] def exec (is : List Instr) (s : State) : Option State :=
  (run is none s).bind fun r => if r.2 = none then some r.1 else none

/-! ## Reading after writing -/

section Access

variable {n : Nat} (s : State) (d t : TN)

@[simp] theorem reg_write (v : BitVec n) :
    (s.write d v).reg t = if t = d then v.setWidth 64 else s.reg t := by
  by_cases h : t = d
  · subst h
    simp [State.write]
  · simp [State.write, h]

@[simp] theorem flags_write (v : BitVec n) : (s.write d v).flags = s.flags := rfl

@[simp] theorem junk_write (v : BitVec n) : (s.write d v).junk = s.junk := rfl

@[simp] theorem reg_setFlags (f : Flags) : (s.setFlags f).reg = s.reg := rfl

@[simp] theorem flags_setFlags (f : Flags) : (s.setFlags f).flags = f := rfl

@[simp] theorem junk_setFlags (f : Flags) : (s.setFlags f).junk = s.junk := rfl

@[simp] theorem read_setFlags (f : Flags) : (s.setFlags f).read n t = s.read n t := rfl

@[simp] theorem read_64 : s.read 64 t = s.reg t := setWidth_eq _

@[simp] theorem read_write {m : Nat} (v : BitVec n) (hm : m ≤ 64) :
    (s.write d v).read m t = if t = d then v.setWidth m else s.read m t := by
  unfold State.read
  rw [reg_write]
  by_cases h : t = d
  · rw [if_pos h, if_pos h]
    exact setWidth_setWidth_of_le v hm
  · rw [if_neg h, if_neg h]

end Access

/-! ## Conditions -/

/-- What a condition says after a comparison of `a` with `b`. -/
def Cond.rel {n : Nat} (a b : BitVec n) : Cond → Bool
  | .b => a.ult b
  | .ae => b.ule a
  | .e => a == b
  | .ne => a != b
  | .be => a.ule b
  | .a => b.ult a
  | .l => a.slt b
  | .ge => b.sle a
  | .le => a.sle b
  | .g => b.slt a
  | .s => (a - b).msb
  | .ns => !(a - b).msb

theorem sub_sign {n : Nat} (hn : n = 32 ∨ n = 64) (a b : BitVec n) :
    ((a - b).msb != decide ((a - b).toInt ≠ a.toInt - b.toInt)) = a.slt b := by
  have hd : (a - b).toInt = (a.toInt - b.toInt).bmod (2 ^ n) := toInt_sub
  have ha : a.toInt < 2 ^ (n - 1) := toInt_lt
  have ha' : -2 ^ (n - 1) ≤ a.toInt := le_toInt a
  have hb : b.toInt < 2 ^ (n - 1) := toInt_lt
  have hb' : -2 ^ (n - 1) ≤ b.toInt := le_toInt b
  rw [msb_eq_toInt, slt_eq_decide]
  generalize (a - b).toInt = d at *
  generalize a.toInt = x at *
  generalize b.toInt = y at *
  have hbool : ∀ p q r : Prop, ∀ [Decidable p] [Decidable q] [Decidable r],
      ((p ↔ ¬ q) ↔ r) → ((decide p != decide q) = decide r) := by
    intro p q r _ _ _ h
    by_cases hp : p <;> by_cases hq : q <;> by_cases hr : r <;> simp_all
  apply hbool
  rcases hn with rfl | rfl
  · rw [Int.bmod_def] at hd
    split at hd <;> omega
  · rw [Int.bmod_def] at hd
    split at hd <;> omega

theorem not_ult_bv {n : Nat} (a b : BitVec n) : (!a.ult b) = b.ule a := by
  rw [ult_eq_decide, ule_eq_decide, ← decide_not]
  exact decide_eq_decide.mpr Nat.not_lt

theorem ult_or_eq_bv {n : Nat} (a b : BitVec n) : (a.ult b || a == b) = a.ule b := by
  rw [ult_eq_decide, ule_eq_decide, Bool.eq_iff_iff]
  simp only [Bool.or_eq_true, decide_eq_true_eq, beq_iff_eq, ← toNat_inj]
  omega

theorem not_slt_bv {n : Nat} (a b : BitVec n) : (!a.slt b) = b.sle a := by
  rw [slt_eq_decide, sle_eq_decide, ← decide_not]
  exact decide_eq_decide.mpr Int.not_lt

theorem slt_or_eq_bv {n : Nat} (a b : BitVec n) : (a.slt b || a == b) = a.sle b := by
  rw [slt_eq_decide, sle_eq_decide, Bool.eq_iff_iff]
  simp only [Bool.or_eq_true, decide_eq_true_eq, beq_iff_eq, ← toInt_inj]
  omega

theorem eval_subFlags {n : Nat} (hn : n = 32 ∨ n = 64) (a b : BitVec n) (c : Cond) :
    c.eval (subFlags a b) = some (c.rel a b) := by
  have hsign := sub_sign hn a b
  cases c with
  | b => rfl
  | ae => exact congrArg some (not_ult_bv a b)
  | e => rfl
  | ne => rfl
  | be => exact congrArg some (ult_or_eq_bv a b)
  | a =>
    show some (!(a.ult b || a == b)) = some (b.ult a)
    rw [ult_or_eq_bv, ← not_ult_bv b a, Bool.not_not]
  | l => exact congrArg some hsign
  | ge =>
    show some ((a - b).msb == decide _) = some (b.sle a)
    rw [← not_slt_bv, ← hsign]
    cases (a - b).msb <;> cases decide ((a - b).toInt ≠ a.toInt - b.toInt) <;> rfl
  | le =>
    show some (a == b || (a - b).msb != decide _) = some (a.sle b)
    rw [hsign, Bool.or_comm, slt_or_eq_bv]
  | g =>
    show some (!(a == b || (a - b).msb != decide _)) = some (b.slt a)
    rw [hsign, Bool.or_comm, slt_or_eq_bv, ← not_slt_bv b a, Bool.not_not]
  | s => rfl
  | ns => rfl

theorem eval_testFlags {n : Nat} (hn : n = 32 ∨ n = 64) (z : BitVec n) (c : Cond) :
    c.eval (testFlags z) = some (c.rel z 0) := by
  rw [← eval_subFlags hn z 0 c]
  have hflags : testFlags z = subFlags z 0 := by
    have hult : z.ult 0 = false := by simp [ult_eq_decide]
    unfold testFlags subFlags
    rw [hult]
    simp
  rw [hflags]

end X8664
