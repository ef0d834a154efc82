import Mathlib.Data.BitVec

/-! # Folding of integer constants

`Targ_WhirlOp` on the operators of I4, U4, I8 and U8. A `TCON` is a union:
the words `v0` and `u0` are the low half of `i0` and `k0`. What the
operators mean is said by the machine: two's complement words, a fault for
a division that has no quotient, and shift counts modulo the width. -/

namespace Simp.TargConst

open Int
open BitVec (ofInt intMin setWidth_eq)

/-! ## Model -/

/-- The integer types. -/
inductive Mtype where
  | i4
  | i8
  | u4
  | u8
  deriving DecidableEq

namespace Mtype

/-- `MTYPE_is_signed`. -/
def isSigned : Mtype → Bool
  | i4 => true
  | i8 => true
  | u4 => false
  | u8 => false

def bits : Mtype → Nat
  | i4 => 32
  | i8 => 64
  | u4 => 32
  | u8 => 64

/-- The value of a word in C. -/
def val (ty : Mtype) (b : BitVec ty.bits) : Int :=
  if ty.isSigned then b.toInt else b.toNat

/-- A word converted to INT64. -/
def extend (ty : Mtype) (b : BitVec ty.bits) : BitVec 64 :=
  if ty.isSigned then b.signExtend 64 else b.setWidth 64

end Mtype

inductive Operator where
  | add | sub | mpy | div | rem | mod | neg | abs
  | band | bior | bxor | bnor | bnot
  | land | lior | lnot
  | shl | lshr | ashr
  | cvtl

structure Opcode where
  opr : Operator
  rtype : Mtype

/-- `TCON`: `k0` is also `i0`. -/
structure Tcon where
  ty : Mtype
  k0 : BitVec 64

namespace Tcon

/-- `TCON_U4` and `TCON_I4`. -/
def u0 (c : Tcon) : BitVec 32 := c.k0.setWidth 32

/-- The other half stays as it is. -/
def setV0 (c : Tcon) (v : BitVec 32) : Tcon := { c with k0 := c.k0.extractLsb' 32 32 ++ v }

/-- `TCON_I4`, `TCON_I8`, `TCON_U4` or `TCON_U8`. -/
def read (c : Tcon) : (ty : Mtype) → BitVec ty.bits
  | .i4 => c.u0
  | .i8 => c.k0
  | .u4 => c.u0
  | .u8 => c.k0

/-- The same as the target of an assignment. -/
def write (c : Tcon) : (ty : Mtype) → BitVec ty.bits → Tcon
  | .i4, v => c.setV0 v
  | .i8, v => { c with k0 := v }
  | .u4, v => c.setV0 v
  | .u8, v => { c with k0 := v }

end Tcon

def targToHost (c : Tcon) : BitVec 64 :=
  match c.ty with
  | .u4 => c.u0.setWidth 64
  | .i4 => c.u0.signExtend 64
  | .i8 => c.k0
  | .u8 => c.k0

def hostToTarg (ty : Mtype) (v : BitVec 64) : Tcon := ⟨ty, v⟩

def targConv (tyTo : Mtype) (c : Tcon) : Tcon :=
  if c.ty = tyTo then c
  else
    match c.ty, tyTo with
    | .i4, .i8 => ⟨tyTo, c.u0.signExtend 64⟩
    | .i4, .u8 => ⟨tyTo, c.u0.signExtend 64⟩
    | .u4, .i8 => ⟨tyTo, c.u0.setWidth 64⟩
    | .u4, .u8 => ⟨tyTo, c.u0.setWidth 64⟩
    | _, .i8 => ⟨tyTo, c.k0⟩
    | _, .u8 => ⟨tyTo, c.k0⟩
    | _, .i4 => ⟨tyTo, c.u0.setWidth 64⟩
    | _, .u4 => ⟨tyTo, c.u0.setWidth 64⟩

def bothOpnds (c0 c1 : Tcon) (type : Mtype) : Tcon × Tcon :=
  let (c0, c1) := if type ≠ .u8 then (targConv type c0, targConv type c1) else (c0, c1)
  ({ c0 with ty := type }, c1)

/-- `TCON_I8U8I4U4`: the conditional expression is a UINT64. -/
def Tcon.i8u8i4u4 (c : Tcon) : BitVec 64 :=
  if c.ty.isSigned then (if c.ty = .i8 then c.k0 else c.u0.signExtend 64)
  else (if c.ty = .u8 then c.k0 else c.u0.setWidth 64)

/-- A binary operator on two words; the host wraps around. -/
def arith (type : Mtype) (f : Int → Int → Int) (c0 c1 : Tcon) : Tcon :=
  let (c0, c1) := bothOpnds c0 c1 type
  c0.write type (ofInt _ (f (type.val (c0.read type)) (type.val (c1.read type))))

def logic (type : Mtype) (f : BitVec type.bits → BitVec type.bits → BitVec type.bits)
    (c0 c1 : Tcon) : Tcon :=
  let (c0, c1) := bothOpnds c0 c1 type
  c0.write type (f (c0.read type) (c1.read type))

/-- A unary operator. -/
def unary (type : Mtype) (f : Int → Int) (c0 : Tcon) : Tcon :=
  let c0 := targConv type c0
  c0.write type (ofInt _ (f (type.val (c0.read type))))

/-- DIV, REM and MOD: the tests for zero and signed overflow. `folded` comes second. -/
def divide (type : Mtype) (f : Int → Int → Int) (c0 c1 : Tcon) : Tcon × Bool :=
  let (c0, c1) := bothOpnds c0 c1 type
  let x := type.val (c0.read type)
  let y := type.val (c1.read type)
  if y ≠ 0 then
    if type.isSigned = false ∨ y ≠ -1 ∨ x ≠ -2 ^ (type.bits - 1) then
      (c0.write type (ofInt _ (f x y)), true)
    else (c0, false)
  else (c0, false)

/-- The remainder of I4MOD and I8MOD. -/
def modSigned (x y : Int) : Int :=
  let rem := x.tmod y
  if rem ≠ 0 ∧ (decide (0 < x) ^^ decide (0 < y)) then rem + y else rem

/-- A shift; `big` is the count in place of one that is too big. -/
def shift (type : Mtype) (f : BitVec type.bits → Nat → BitVec type.bits)
    (big : BitVec type.bits → BitVec type.bits) (c0 c1 : Tcon) : Tcon :=
  let c0 := targConv type c0
  if c1.i8u8i4u4.toNat ≤ type.bits - 1 then c0.write type (f (c0.read type) c1.i8u8i4u4.toNat)
  else c0.write type (big (c0.read type))

/-- A truth value of C. -/
def ofBool (b : Bool) : BitVec 32 := if b then 1 else 0

/-- `Targ_Convert_Length`; `slen` is positive. -/
def targConvertLength (c0 c1 : Tcon) (mtype : Mtype) (sign : Bool) : Tcon :=
  let sval := targToHost c0
  let slen := targToHost c1
  if mtype.bits ≤ slen.toInt then
    if mtype.bits = 32 then hostToTarg mtype (((sval &&& 0xffffffff).setWidth 32).signExtend 64)
    else hostToTarg mtype sval
  else if mtype.bits = 32 then
    let highmask := BitVec.allOnes 32 <<< slen.toNat
    let signmask := (1 : BitVec 32) <<< (slen.toNat - 1)
    let tval := (sval &&& ~~~(highmask.signExtend 64)).setWidth 32
    let tval := if sign && tval &&& signmask ≠ 0 then tval ||| highmask else tval
    hostToTarg mtype (tval.signExtend 64)
  else
    let highmask := BitVec.allOnes 64 <<< slen.toNat
    let signmask := (1 : BitVec 64) <<< (slen.toNat - 1)
    let tval := sval &&& ~~~highmask
    let tval := if sign && tval &&& signmask ≠ 0 then tval ||| highmask else tval
    hostToTarg mtype tval

/-- `Targ_WhirlOp` on the integer opcodes, with `folded`. -/
def targWhirlOp (op : Opcode) (c0 c1 : Tcon) : Tcon × Bool :=
  let type := op.rtype
  match op.opr with
  | .cvtl => (targConvertLength c0 c1 type type.isSigned, true)
  | .shl => (shift type (fun x n => x <<< n) (fun _ => 0) c0 c1, true)
  | .lshr => (shift type (fun x n => x >>> n) (fun _ => 0) c0 c1, true)
  | .ashr => (shift type BitVec.sshiftRight (fun x => x.sshiftRight (type.bits - 1)) c0 c1, true)
  | .abs => (unary type (fun x => if x < 0 then -x else x) c0, true)
  | .neg => (unary type (fun x => -x) c0, true)
  | .land => ({ c0.setV0 (ofBool (c0.u0 ≠ 0 && c1.u0 ≠ 0)) with ty := .u4 }, true)
  | .lior => ({ c0.setV0 (ofBool (c0.u0 ≠ 0 || c1.u0 ≠ 0)) with ty := .u4 }, true)
  | .lnot => ({ c0.setV0 (ofBool (c0.read c0.ty = 0)) with ty := type }, true)
  | .bxor => (logic type (fun x y => x ^^^ y) c0 c1, true)
  | .band => (logic type (fun x y => x &&& y) c0 c1, true)
  | .bior => (logic type (fun x y => x ||| y) c0 c1, true)
  | .bnor => (logic type (fun x y => ~~~(x ||| y)) c0 c1, true)
  | .bnot =>
    let c0 := targConv type c0
    (c0.write type (~~~(c0.read type)), true)
  | .add => (arith type (fun x y => x + y) c0 c1, true)
  | .sub => (arith type (fun x y => x - y) c0 c1, true)
  | .mpy => (arith type (fun x y => x * y) c0 c1, true)
  | .div => divide type Int.tdiv c0 c1
  | .rem => divide type Int.tmod c0 c1
  | .mod => divide type (if type.isSigned then modSigned else Int.tmod) c0 c1

/-! ## What the machine computes -/

/-- The operands of an opcode: of its own size, or of any for logical operators and counts. -/
def Opcode.Admits (op : Opcode) (c0 c1 : Tcon) : Prop :=
  match op.opr with
  | .abs => op.rtype.isSigned = true ∧ c0.ty.bits = op.rtype.bits
  | .neg | .bnot => c0.ty.bits = op.rtype.bits
  | .land | .lior | .lnot => op.rtype = .i4
  | .shl | .lshr | .ashr => c0.ty.bits = op.rtype.bits
  | .cvtl => c0.ty.bits = op.rtype.bits ∧ 0 < (targToHost c1).toInt
  | _ => c0.ty.bits = op.rtype.bits ∧ c1.ty.bits = op.rtype.bits

instance (op : Opcode) (c0 c1 : Tcon) : Decidable (op.Admits c0 c1) := by
  unfold Opcode.Admits
  split <;> infer_instance

/-- A division without a quotient. -/
def Opcode.Faults (op : Opcode) (c0 c1 : Tcon) : Prop :=
  let a := c0.read op.rtype
  let b := c1.read op.rtype
  match op.opr with
  | .div | .rem | .mod =>
    b = 0 ∨ op.rtype.isSigned = true ∧ a = intMin _ ∧ b = BitVec.allOnes _
  | _ => False

instance (op : Opcode) (c0 c1 : Tcon) : Decidable (op.Faults c0 c1) := by
  unfold Opcode.Faults
  dsimp only
  split <;> infer_instance

/-- The count of a shift, modulo the width of the shifted word. -/
def shiftCount (type : Mtype) (c1 : Tcon) : Nat := (targToHost c1).toNat % type.bits

/-- The result of an opcode at run time. -/
def Opcode.runTime (op : Opcode) (c0 c1 : Tcon) : BitVec op.rtype.bits :=
  let a := c0.read op.rtype
  let b := c1.read op.rtype
  match op.opr with
  | .add => a + b
  | .sub => a - b
  | .mpy => a * b
  | .div => if op.rtype.isSigned then a.sdiv b else a / b
  | .rem => if op.rtype.isSigned then a.srem b else a % b
  | .mod => if op.rtype.isSigned then a.smod b else a % b
  | .neg => -a
  | .abs => if a.msb then -a else a
  | .band => a &&& b
  | .bior => a ||| b
  | .bxor => a ^^^ b
  | .bnor => ~~~(a ||| b)
  | .bnot => ~~~a
  | .land => if targToHost c0 ≠ 0 ∧ targToHost c1 ≠ 0 then 1 else 0
  | .lior => if targToHost c0 ≠ 0 ∨ targToHost c1 ≠ 0 then 1 else 0
  | .lnot => if targToHost c0 = 0 then 1 else 0
  | .shl => a <<< shiftCount op.rtype c1
  | .lshr => a >>> shiftCount op.rtype c1
  | .ashr => a.sshiftRight (shiftCount op.rtype c1)
  | .cvtl =>
    let n := (targToHost c1).toNat
    if op.rtype.bits ≤ n then a
    else if op.rtype.isSigned then (a.setWidth n).signExtend _ else (a.setWidth n).setWidth _

/-- Folding is given up just where the operation faults, and gives its value otherwise. -/
def Opcode.Correct (op : Opcode) (c0 c1 : Tcon) : Prop :=
  ((targWhirlOp op c0 c1).2 = false ↔ op.Faults c0 c1) ∧
    ((targWhirlOp op c0 c1).2 = true →
      targToHost (targWhirlOp op c0 c1).1 = op.rtype.extend (op.runTime c0 c1))

/-- Counts are below the width, or reduced they leave what a big one leaves; LAND and LIOR do not
hang on high halves. -/
def Opcode.Agrees (op : Opcode) (c0 c1 : Tcon) : Prop :=
  let a := c0.read op.rtype
  match op.opr with
  | .shl => (targToHost c1).toNat < op.rtype.bits ∨ a <<< shiftCount op.rtype c1 = 0
  | .lshr => (targToHost c1).toNat < op.rtype.bits ∨ a >>> shiftCount op.rtype c1 = 0
  | .ashr => (targToHost c1).toNat < op.rtype.bits ∨
      a.sshiftRight (shiftCount op.rtype c1) = if a.msb then BitVec.allOnes _ else 0
  | .land => targToHost c0 ≠ 0 ∧ targToHost c1 ≠ 0 → c0.u0 ≠ 0 ∧ c1.u0 ≠ 0
  | .lior => targToHost c0 ≠ 0 ∨ targToHost c1 ≠ 0 → c0.u0 ≠ 0 ∨ c1.u0 ≠ 0
  | _ => True

instance (op : Opcode) (c0 c1 : Tcon) : Decidable (op.Agrees c0 c1) := by
  unfold Opcode.Agrees
  dsimp only
  split <;> infer_instance

/-! ## Words of a constant -/

variable {w : Nat} {f : Int → Int → Int} {x : Int}

section Words

variable {type : Mtype} {c c0 c1 : Tcon}

theorem bits_pos : 0 < type.bits := by
  cases type <;> decide

theorem setV0_u0 (v : BitVec 32) : (c.setV0 v).u0 = v := by
  unfold Tcon.setV0 Tcon.u0
  rw [BitVec.setWidth_append, dif_pos le_rfl, setWidth_eq]

@[simp] theorem read_write (v : BitVec type.bits) : (c.write type v).read type = v := by
  cases type
  · exact setV0_u0 v
  · rfl
  · exact setV0_u0 v
  · rfl

@[simp] theorem write_ty (v : BitVec type.bits) : (c.write type v).ty = c.ty := by
  cases type <;> rfl

theorem targToHost_eq : targToHost c = c.ty.extend (c.read c.ty) := by
  unfold targToHost
  cases h : c.ty
  · rfl
  · exact (BitVec.signExtend_eq _).symm
  · rfl
  · exact (setWidth_eq _).symm

theorem targToHost_write (v : BitVec type.bits) (hty : c.ty = type) :
    targToHost (c.write type v) = type.extend v := by
  subst hty
  rw [targToHost_eq, write_ty, read_write]

theorem targConv_spec (hbits : c.ty.bits = type.bits) :
    (targConv type c).ty = type ∧ (targConv type c).read type = c.read type := by
  obtain ⟨ty, k0⟩ := c
  have hlow : ((k0.setWidth 32).setWidth 64).setWidth 32 = k0.setWidth 32 := by
    rw [BitVec.setWidth_setWidth_of_le _ (by decide), setWidth_eq]
  cases ty <;> cases type <;> first
    | exact ⟨rfl, rfl⟩
    | exact ⟨rfl, hlow⟩
    | exact absurd hbits (by simp [Mtype.bits])

theorem bothOpnds_spec (h0 : c0.ty.bits = type.bits) (h1 : c1.ty.bits = type.bits) :
    (bothOpnds c0 c1 type).1.ty = type ∧ (bothOpnds c0 c1 type).1.read type = c0.read type ∧
      (bothOpnds c0 c1 type).2.read type = c1.read type := by
  have hread : ∀ {c : Tcon} (ty' : Mtype), ({ c with ty := ty' } : Tcon).read type = c.read type := by
    intro c ty'
    cases type <;> rfl
  unfold bothOpnds
  split
  rename_i d0 d1 hd
  split at hd
  · obtain ⟨rfl, rfl⟩ := Prod.mk.inj hd
    exact ⟨rfl, (hread type).trans (targConv_spec h0).2, (targConv_spec h1).2⟩
  · obtain ⟨rfl, rfl⟩ := Prod.mk.inj hd
    exact ⟨rfl, hread type, rfl⟩

theorem ofInt_val (b : BitVec type.bits) : ofInt _ (type.val b) = b := by
  unfold Mtype.val
  split
  · exact BitVec.ofInt_toInt
  · rw [BitVec.ofInt_natCast, BitVec.ofNat_toNat, setWidth_eq]

theorem val_eq_zero {b : BitVec type.bits} : type.val b = 0 ↔ b = 0 := by
  constructor
  · intro h
    rw [← ofInt_val b, h]
    rfl
  · rintro rfl
    unfold Mtype.val
    split
    · exact BitVec.toInt_zero
    · simp

theorem setWidth_signExtend {v : Nat} (x : BitVec w) (hle : w ≤ v) :
    (x.signExtend v).setWidth w = x := by
  ext i hi
  rw [BitVec.getElem_setWidth, BitVec.getLsbD_signExtend]
  simp [hi, show i < v by omega]

theorem setWidth_extend (a : BitVec type.bits) : (type.extend a).setWidth type.bits = a := by
  have hle : type.bits ≤ 64 := by cases type <;> decide
  unfold Mtype.extend
  split
  · exact setWidth_signExtend a hle
  · rw [BitVec.setWidth_setWidth_of_le _ hle, setWidth_eq]

theorem extend_inj {a b : BitVec type.bits} (h : type.extend a = type.extend b) : a = b := by
  rw [← setWidth_extend a, h, setWidth_extend]

end Words

/-! ## The operators -/

section Operators

variable {type : Mtype} {c0 c1 : Tcon}

theorem arith_spec {g : BitVec type.bits → BitVec type.bits → BitVec type.bits}
    (h0 : c0.ty.bits = type.bits) (h1 : c1.ty.bits = type.bits)
    (hfg : ∀ a b, ofInt _ (f (type.val a) (type.val b)) = g a b) :
    targToHost (arith type f c0 c1) = type.extend (g (c0.read type) (c1.read type)) := by
  obtain ⟨hty, hread0, hread1⟩ := bothOpnds_spec h0 h1
  unfold arith
  rw [targToHost_write _ hty, hread0, hread1, hfg]

theorem logic_spec {f : BitVec type.bits → BitVec type.bits → BitVec type.bits}
    (h0 : c0.ty.bits = type.bits) (h1 : c1.ty.bits = type.bits) :
    targToHost (logic type f c0 c1) = type.extend (f (c0.read type) (c1.read type)) := by
  obtain ⟨hty, hread0, hread1⟩ := bothOpnds_spec h0 h1
  unfold logic
  rw [targToHost_write _ hty, hread0, hread1]

theorem unary_spec {f : Int → Int} {g : BitVec type.bits → BitVec type.bits}
    (h0 : c0.ty.bits = type.bits) (hfg : ∀ a, ofInt _ (f (type.val a)) = g a) :
    targToHost (unary type f c0) = type.extend (g (c0.read type)) := by
  obtain ⟨hty, hread⟩ := targConv_spec h0
  unfold unary
  rw [targToHost_write _ hty, hread, hfg]

theorem ofInt_add_val (a b : BitVec type.bits) :
    ofInt _ (type.val a + type.val b) = a + b := by
  rw [BitVec.ofInt_add, ofInt_val, ofInt_val]

theorem ofInt_neg_val (a : BitVec type.bits) : ofInt _ (-type.val a) = -a := by
  rw [BitVec.ofInt_neg, ofInt_val]

theorem ofInt_sub_val (a b : BitVec type.bits) :
    ofInt _ (type.val a - type.val b) = a - b := by
  rw [sub_eq_add_neg, BitVec.ofInt_add, ofInt_val, ofInt_neg_val, BitVec.sub_eq_add_neg]

theorem ofInt_mul_val (a b : BitVec type.bits) :
    ofInt _ (type.val a * type.val b) = a * b := by
  rw [BitVec.ofInt_mul, ofInt_val, ofInt_val]

theorem ofInt_abs_val (hsigned : type.isSigned = true) (a : BitVec type.bits) :
    ofInt _ (if type.val a < 0 then -type.val a else type.val a) =
      if a.msb then -a else a := by
  have hmsb : type.val a < 0 ↔ a.msb = true := by
    unfold Mtype.val
    rw [if_pos hsigned, BitVec.msb_eq_toInt, decide_eq_true_eq]
  by_cases hneg : type.val a < 0
  · rw [if_pos hneg, if_pos (hmsb.mp hneg), ofInt_neg_val]
  · rw [if_neg hneg, if_neg (fun h => hneg (hmsb.mpr h)), ofInt_val]

theorem modSigned_eq {y : Int} (hy : y ≠ 0) : modSigned x y = x.fmod y := by
  unfold modSigned
  dsimp only
  have hx : x = x.tmod y + y * x.tdiv y := (tmod_add_mul_tdiv x y).symm
  have hdvd : ∀ {r : Int}, (∃ k, x = r + y * k) → (0 ≤ r ∧ r < y ∨ y < r ∧ r ≤ 0) → x.fmod y = r := by
    rintro r ⟨k, hk⟩ hr
    rw [hk, add_mul_fmod_self_left]
    rcases hr with ⟨hlo, hhi⟩ | ⟨hlo, hhi⟩
    · rw [Int.fmod_eq_emod_of_nonneg _ (by omega), Int.emod_eq_of_lt hlo hhi]
    · rw [← Int.neg_neg r, ← Int.neg_neg y, Int.neg_fmod_neg,
        Int.fmod_eq_emod_of_nonneg _ (by omega), Int.emod_eq_of_lt (by omega) (by omega)]
  have hsize : (x.tmod y).natAbs < y.natAbs := by
    rw [natAbs_tmod]
    exact Nat.mod_lt _ (natAbs_pos.mpr hy)
  have hsign : 0 ≤ x → 0 ≤ x.tmod y := fun h => tmod_nonneg _ h
  have hsign' : x ≤ 0 → x.tmod y ≤ 0 := by
    intro h
    have hneg := Int.tmod_nonneg y (Int.neg_nonneg_of_nonpos h)
    rw [Int.neg_tmod] at hneg
    exact nonpos_of_neg_nonneg hneg
  symm
  apply hdvd
  · split
    · exact ⟨x.tdiv y - 1, by rw [mul_sub]; omega⟩
    · exact ⟨x.tdiv y, hx⟩
  · have hflag : (decide (0 < x) ^^ decide (0 < y)) = true ↔ ¬ (0 < x ↔ 0 < y) := by
      by_cases hx : 0 < x <;> by_cases hy : 0 < y <;> simp [hx, hy]
    simp only [hflag]
    generalize x.tmod y = r at *
    split <;> omega

theorem val_eq_neg_one (hsigned : type.isSigned = true) {b : BitVec type.bits} :
    type.val b = -1 ↔ b = BitVec.allOnes _ := by
  have hones : (BitVec.allOnes type.bits).toInt = -1 := by
    rw [BitVec.toInt_allOnes, if_pos bits_pos]
  unfold Mtype.val
  rw [if_pos hsigned, ← hones, BitVec.toInt_inj]

theorem val_eq_min (hsigned : type.isSigned = true) {a : BitVec type.bits} :
    type.val a = -2 ^ (type.bits - 1) ↔ a = intMin _ := by
  unfold Mtype.val
  rw [if_pos hsigned, ← BitVec.toInt_intMin_of_pos bits_pos, BitVec.toInt_inj]

theorem divide_spec {g : BitVec type.bits → BitVec type.bits → BitVec type.bits}
    (h0 : c0.ty.bits = type.bits) (h1 : c1.ty.bits = type.bits)
    (hfg : ∀ a b, b ≠ 0 → ¬ (type.isSigned = true ∧ a = intMin _ ∧ b = BitVec.allOnes _) →
      ofInt _ (f (type.val a) (type.val b)) = g a b) :
    ((divide type f c0 c1).2 = false ↔ c1.read type = 0 ∨ type.isSigned = true ∧
      c0.read type = intMin _ ∧ c1.read type = BitVec.allOnes _) ∧
    ((divide type f c0 c1).2 = true →
      targToHost (divide type f c0 c1).1 = type.extend (g (c0.read type) (c1.read type))) := by
  obtain ⟨hty, hread0, hread1⟩ := bothOpnds_spec h0 h1
  unfold divide
  simp only [hread0, hread1]
  by_cases hzero : c1.read type = 0
  · rw [if_neg (not_not.mpr (val_eq_zero.mpr hzero))]
    exact ⟨iff_of_true rfl (.inl hzero), fun h => by cases h⟩
  have hover : (type.isSigned = false ∨ type.val (c1.read type) ≠ -1 ∨
      type.val (c0.read type) ≠ -2 ^ (type.bits - 1)) ↔
        ¬ (type.isSigned = true ∧ c0.read type = intMin _ ∧
          c1.read type = BitVec.allOnes _) := by
    cases hsigned : type.isSigned with
    | false => simp
    | true =>
      rw [ne_eq, ne_eq, val_eq_neg_one hsigned, val_eq_min hsigned]
      simp only [Bool.true_eq_false, false_or, true_and]
      rw [← not_and_or, and_comm]
  rw [if_pos (mt val_eq_zero.mp hzero)]
  by_cases hfault : type.isSigned = true ∧ c0.read type = intMin _ ∧
      c1.read type = BitVec.allOnes _
  · rw [if_neg (mt hover.mp (not_not.mpr hfault))]
    exact ⟨iff_of_true rfl (.inr hfault), fun h => by cases h⟩
  · rw [if_pos (hover.mpr hfault)]
    refine ⟨iff_of_false (by simp) (not_or.mpr ⟨hzero, hfault⟩), fun _ => ?_⟩
    rw [targToHost_write _ hty, hfg _ _ hzero hfault]

theorem ofInt_eq_of_toInt {b : BitVec w} (h : b.toInt = x) : ofInt w x = b := by
  rw [← h, BitVec.ofInt_toInt]

theorem ofInt_tdiv_val (a b : BitVec type.bits) (hover : ¬ (type.isSigned = true ∧
      a = intMin _ ∧ b = BitVec.allOnes _)) :
    ofInt _ ((type.val a).tdiv (type.val b)) =
      if type.isSigned then a.sdiv b else a / b := by
  unfold Mtype.val
  split
  · rename_i hsigned
    refine ofInt_eq_of_toInt (BitVec.toInt_sdiv_of_ne_or_ne a b ?_)
    rw [BitVec.neg_one_eq_allOnes]
    by_contra hboth
    push Not at hboth
    exact hover ⟨hsigned, hboth⟩
  · rw [tdiv_eq_ediv_of_nonneg (natCast_nonneg _), ← natCast_ediv,
      BitVec.ofInt_natCast, ← BitVec.toNat_udiv, BitVec.ofNat_toNat, setWidth_eq]

theorem ofInt_tmod_val (a b : BitVec type.bits) : ofInt _ ((type.val a).tmod (type.val b)) =
      if type.isSigned then a.srem b else a % b := by
  unfold Mtype.val
  split
  · exact ofInt_eq_of_toInt (BitVec.toInt_srem a b)
  · rw [tmod_eq_emod_of_nonneg (natCast_nonneg _), ← natCast_emod,
      BitVec.ofInt_natCast, ← BitVec.toNat_umod, BitVec.ofNat_toNat, setWidth_eq]

theorem ofInt_mod_val (a b : BitVec type.bits) (hb : b ≠ 0) :
    ofInt _ ((if type.isSigned then modSigned else Int.tmod) (type.val a) (type.val b)) =
      if type.isSigned then a.smod b else a % b := by
  cases hsigned : type.isSigned with
  | false =>
    have h := ofInt_tmod_val a b
    rwa [if_neg (by simp [hsigned])] at h
  | true =>
    rw [if_pos rfl, if_pos rfl, modSigned_eq (mt val_eq_zero.mp hb)]
    unfold Mtype.val
    rw [if_pos hsigned, if_pos hsigned]
    exact ofInt_eq_of_toInt BitVec.toInt_smod

/-! ### Shifts -/

theorem i8u8i4u4_eq (c : Tcon) : c.i8u8i4u4 = targToHost c := by
  unfold Tcon.i8u8i4u4 targToHost
  cases h : c.ty <;> simp [Mtype.isSigned]

theorem shift_spec {f : BitVec type.bits → Nat → BitVec type.bits}
    {big : BitVec type.bits → BitVec type.bits} (h0 : c0.ty.bits = type.bits) :
    targToHost (shift type f big c0 c1) = type.extend (f (c0.read type) (shiftCount type c1)) ↔
      (targToHost c1).toNat < type.bits ∨ big (c0.read type) = f (c0.read type) (shiftCount type c1) := by
  obtain ⟨hty, hread⟩ := targConv_spec h0
  have hpos := @bits_pos type
  unfold shift
  simp only [i8u8i4u4_eq, hread]
  by_cases hlt : (targToHost c1).toNat < type.bits
  · have hcount : shiftCount type c1 = (targToHost c1).toNat := Nat.mod_eq_of_lt hlt
    rw [if_pos (by omega), targToHost_write _ hty, hcount]
    exact iff_of_true rfl (.inl hlt)
  · rw [if_neg (by omega), targToHost_write _ hty]
    exact ⟨fun h => .inr (extend_inj h), fun h => by rw [h.resolve_left hlt]⟩

theorem sshiftRight_all (x : BitVec w) :
    x.sshiftRight (w - 1) = if x.msb then BitVec.allOnes w else 0 := by
  ext i hi
  rw [BitVec.getElem_sshiftRight]
  have hmsb : x.msb = x.getLsbD (w - 1) := BitVec.msb_eq_getLsbD_last x
  by_cases hzero : i = 0
  · subst hzero
    rw [dif_pos (by omega), ← BitVec.getLsbD_eq_getElem, Nat.add_zero, ← hmsb]
    cases x.msb <;> simp
  · rw [dif_neg (by omega)]
    cases h : x.msb <;> simp

/-! ### Logical operators -/

theorem u0_eq (c : Tcon) : c.u0 = (targToHost c).setWidth 32 := by
  unfold targToHost
  cases c.ty
  · exact (setWidth_signExtend _ (by decide)).symm
  · rfl
  · rw [BitVec.setWidth_setWidth_of_le _ (by decide), setWidth_eq]
  · rfl

theorem host_ne_zero {c : Tcon} (h : c.u0 ≠ 0) : targToHost c ≠ 0 := by
  intro hzero
  rw [u0_eq, hzero] at h
  exact h rfl

theorem targToHost_ofBool {c : Tcon} {ty : Mtype} {b : Bool} {Q : Prop} [Decidable Q]
    (hty : ty.bits = 32) :
    targToHost { c.setV0 (ofBool b) with ty := ty } = Mtype.i4.extend (if Q then 1 else 0) ↔
      (b = true ↔ Q) := by
  have hhost : targToHost { c.setV0 (ofBool b) with ty := ty } = Mtype.i4.extend (ofBool b) := by
    rw [targToHost_eq]
    have hu0 : ({ c.setV0 (ofBool b) with ty := ty } : Tcon).u0 = ofBool b := setV0_u0 _
    cases ty
    · exact congrArg (Mtype.extend .i4) hu0
    · exact absurd hty (by decide)
    · refine (congrArg (Mtype.extend .u4) hu0).trans ?_
      cases b <;> rfl
    · exact absurd hty (by decide)
  rw [hhost]
  unfold ofBool
  by_cases hQ : Q <;> cases b <;> simp [hQ] <;> decide

/-! ### Length conversion -/

theorem masked_eq {n : Nat} (a : BitVec w) (sign : Bool) (hn : 0 < n) (hw : n < w) :
    (if sign && a &&& ~~~(BitVec.allOnes w <<< n) &&& (1 : BitVec w) <<< (n - 1) ≠ 0 then
      a &&& ~~~(BitVec.allOnes w <<< n) ||| BitVec.allOnes w <<< n
    else a &&& ~~~(BitVec.allOnes w <<< n)) =
      if sign then (a.setWidth n).signExtend w else (a.setWidth n).setWidth w := by
  have hbit : ∀ i, i < w → (a &&& ~~~(BitVec.allOnes w <<< n)).getLsbD i =
      (decide (i < n) && a.getLsbD i) := by
    intro i hi
    by_cases hin : i < n <;> simp [hi, hin]
  have hsign : (a &&& ~~~(BitVec.allOnes w <<< n) &&& (1 : BitVec w) <<< (n - 1) ≠ 0) ↔
      a.getLsbD (n - 1) = true := by
    have hpow : (1 : BitVec w) <<< (n - 1) = BitVec.twoPow w (n - 1) := rfl
    have hne : BitVec.twoPow w (n - 1) ≠ 0#w := by
      intro h
      have h' := congrArg (fun x => BitVec.getLsbD x (n - 1)) h
      simp [show n - 1 < w by omega] at h'
    rw [hpow, BitVec.and_twoPow, hbit _ (by omega)]
    cases a.getLsbD (n - 1) <;> simp [hne, show n - 1 < n by omega]
  have hmsb : (a.setWidth n).msb = a.getLsbD (n - 1) := by
    rw [BitVec.msb_eq_getLsbD_last, BitVec.getLsbD_setWidth]
    simp [show n - 1 < n by omega]
  apply BitVec.eq_of_getLsbD_eq
  intro i hi
  cases sign
  · rw [if_neg (by simp), if_neg (by simp), hbit i hi, BitVec.getLsbD_setWidth,
      BitVec.getLsbD_setWidth]
    simp [hi]
  · simp only [Bool.true_and, decide_eq_true_eq, hsign, if_true, BitVec.getLsbD_signExtend, hmsb]
    cases hb : a.getLsbD (n - 1)
    · rw [if_neg (by simp), hbit i hi]
      by_cases hin : i < n <;> simp [hi, hin]
    · rw [if_pos rfl, BitVec.getLsbD_or, hbit i hi]
      by_cases hin : i < n <;> simp [hi, hin]

theorem targToHost_hostToTarg (v : BitVec 64) :
    targToHost (hostToTarg type v) = type.extend (v.setWidth type.bits) := by
  cases type
  · rfl
  · exact ((BitVec.signExtend_eq _).trans (setWidth_eq v)).symm
  · rfl
  · exact ((setWidth_eq _).trans (setWidth_eq v)).symm

/-- The fold of a conversion to a length is what the target computes. -/
theorem targConvertLength_spec (h0 : c0.ty.bits = type.bits) (h1 : 0 < (targToHost c1).toInt) :
    targToHost (targConvertLength c0 c1 type type.isSigned) =
      type.extend ((⟨.cvtl, type⟩ : Opcode).runTime c0 c1) := by
  have hlt := (targToHost c1).isLt
  have hslen : (targToHost c1).toInt = (targToHost c1).toNat := by
    rw [BitVec.toInt_eq_toNat_cond] at h1 ⊢
    split <;> omega
  have hn : 0 < (targToHost c1).toNat := by omega
  unfold targConvertLength Opcode.runTime
  simp only [hslen, ofNat_le]
  generalize (targToHost c1).toNat = n at hn
  -- the low word of a constant of four bytes
  have hlow : ∀ m : BitVec 32,
      (targToHost c0 &&& ~~~(m.signExtend 64)).setWidth 32 = c0.u0 &&& ~~~m := by
    intro m
    rw [BitVec.setWidth_and, BitVec.setWidth_not (by decide), setWidth_signExtend m (by decide),
      ← u0_eq]
  have hall : ((targToHost c0 &&& 0xffffffff).setWidth 32) = c0.u0 := by
    rw [BitVec.setWidth_and, ← u0_eq]
    exact BitVec.and_allOnes
  have hread : type.bits = 64 → targToHost c0 = c0.k0 := by
    intro hbits
    rw [hbits] at h0
    unfold targToHost
    cases h : c0.ty <;> simp [h, Mtype.bits] at h0 <;> rfl
  by_cases hbits : type.bits ≤ n
  · rw [if_pos hbits, if_pos hbits]
    split
    · rw [targToHost_hostToTarg, hall]
      cases type
      · exact congrArg _ (setWidth_signExtend _ (by decide))
      · contradiction
      · exact congrArg _ (setWidth_signExtend _ (by decide))
      · contradiction
    · rw [targToHost_hostToTarg]
      cases type
      · contradiction
      · exact congrArg _ ((setWidth_eq _).trans (hread rfl))
      · contradiction
      · exact congrArg _ ((setWidth_eq _).trans (hread rfl))
  · rw [if_neg hbits, if_neg hbits]
    split
    · rw [targToHost_hostToTarg, hlow]
      cases type
      · refine congrArg _ ((setWidth_signExtend _ (by decide)).trans ?_)
        exact masked_eq c0.u0 true hn (not_le.mp hbits)
      · contradiction
      · refine congrArg _ ((setWidth_signExtend _ (by decide)).trans ?_)
        exact masked_eq c0.u0 false hn (not_le.mp hbits)
      · contradiction
    · rw [targToHost_hostToTarg]
      cases type
      · contradiction
      · refine congrArg _ ((setWidth_eq _).trans ?_)
        rw [hread rfl]
        exact masked_eq c0.k0 true hn (not_le.mp hbits)
      · contradiction
      · refine congrArg _ ((setWidth_eq _).trans ?_)
        rw [hread rfl]
        exact masked_eq c0.k0 false hn (not_le.mp hbits)

end Operators

/-! ## Folding and execution -/

section Folding

variable {op : Opcode} {c0 c1 : Tcon}

theorem correct_iff {c : Tcon} (hfold : targWhirlOp op c0 c1 = (c, true))
    (hfault : ¬ op.Faults c0 c1) :
    op.Correct c0 c1 ↔ targToHost c = op.rtype.extend (op.runTime c0 c1) := by
  unfold Opcode.Correct
  rw [hfold]
  simp [hfault]

section

variable {type : Mtype} (h0 : c0.ty.bits = type.bits)
include h0

theorem correct_arith (h1 : c1.ty.bits = type.bits) :
    (⟨.add, type⟩ : Opcode).Correct c0 c1 ∧ (⟨.sub, type⟩ : Opcode).Correct c0 c1 ∧
      (⟨.mpy, type⟩ : Opcode).Correct c0 c1 := by
  have hadd := arith_spec h0 h1 (ofInt_add_val)
  have hsub := arith_spec h0 h1 (ofInt_sub_val)
  have hmul := arith_spec h0 h1 (ofInt_mul_val)
  exact ⟨(correct_iff rfl id).mpr hadd, (correct_iff rfl id).mpr hsub,
    (correct_iff rfl id).mpr hmul⟩

theorem correct_divide (h1 : c1.ty.bits = type.bits) :
    (⟨.div, type⟩ : Opcode).Correct c0 c1 ∧ (⟨.rem, type⟩ : Opcode).Correct c0 c1 ∧
      (⟨.mod, type⟩ : Opcode).Correct c0 c1 := by
  have hdiv := divide_spec h0 h1 fun a b _ hover => ofInt_tdiv_val a b hover
  have hrem := divide_spec h0 h1 fun a b _ _ => ofInt_tmod_val a b
  have hmod := divide_spec h0 h1 fun a b hb _ => ofInt_mod_val a b hb
  exact ⟨hdiv, hrem, hmod⟩

theorem correct_unary :
    (⟨.neg, type⟩ : Opcode).Correct c0 c1 ∧ (⟨.bnot, type⟩ : Opcode).Correct c0 c1 ∧
      (type.isSigned = true → (⟨.abs, type⟩ : Opcode).Correct c0 c1) := by
  obtain ⟨hty, hread⟩ := targConv_spec h0
  have hneg := unary_spec h0 (ofInt_neg_val)
  have hbnot : targToHost ((targConv type c0).write type (~~~((targConv type c0).read type))) =
      type.extend (~~~(c0.read type)) := by
    rw [targToHost_write _ hty, hread]
  refine ⟨(correct_iff rfl id).mpr hneg, (correct_iff rfl id).mpr hbnot, fun hsigned => ?_⟩
  have habs := unary_spec (f := fun x => if x < 0 then -x else x)
    (g := fun a => if a.msb then -a else a) h0 (ofInt_abs_val hsigned)
  exact (correct_iff rfl id).mpr habs

theorem correct_logic (h1 : c1.ty.bits = type.bits) :
    (⟨.band, type⟩ : Opcode).Correct c0 c1 ∧ (⟨.bior, type⟩ : Opcode).Correct c0 c1 ∧
      (⟨.bxor, type⟩ : Opcode).Correct c0 c1 ∧ (⟨.bnor, type⟩ : Opcode).Correct c0 c1 := by
  have hlogic := fun f => logic_spec (f := f) h0 h1
  exact ⟨(correct_iff rfl id).mpr (hlogic _), (correct_iff rfl id).mpr (hlogic _),
    (correct_iff rfl id).mpr (hlogic _), (correct_iff rfl id).mpr (hlogic _)⟩

theorem correct_shift :
    ((⟨.shl, type⟩ : Opcode).Correct c0 c1 ↔ (⟨.shl, type⟩ : Opcode).Agrees c0 c1) ∧
      ((⟨.lshr, type⟩ : Opcode).Correct c0 c1 ↔ (⟨.lshr, type⟩ : Opcode).Agrees c0 c1) ∧
      ((⟨.ashr, type⟩ : Opcode).Correct c0 c1 ↔ (⟨.ashr, type⟩ : Opcode).Agrees c0 c1) := by
  have hshl := @shift_spec type c0 c1 (fun x n => x <<< n) (fun _ => 0) h0
  have hlshr := @shift_spec type c0 c1 (fun x n => x >>> n) (fun _ => 0) h0
  have hashr := @shift_spec type c0 c1 BitVec.sshiftRight (fun x => x.sshiftRight (type.bits - 1)) h0
  rw [sshiftRight_all] at hashr
  refine ⟨(correct_iff rfl id).trans (hshl.trans ?_), (correct_iff rfl id).trans (hlshr.trans ?_),
    (correct_iff rfl id).trans (hashr.trans ?_)⟩
  · exact or_congr_right eq_comm
  · exact or_congr_right eq_comm
  · exact or_congr_right eq_comm

end

theorem correct_logical :
    ((⟨.land, .i4⟩ : Opcode).Correct c0 c1 ↔ (⟨.land, .i4⟩ : Opcode).Agrees c0 c1) ∧
      ((⟨.lior, .i4⟩ : Opcode).Correct c0 c1 ↔ (⟨.lior, .i4⟩ : Opcode).Agrees c0 c1) ∧
      (⟨.lnot, .i4⟩ : Opcode).Correct c0 c1 := by
  have h0 := host_ne_zero (c := c0)
  have h1 := host_ne_zero (c := c1)
  refine ⟨(correct_iff rfl id).trans ((targToHost_ofBool rfl).trans ?_),
    (correct_iff rfl id).trans ((targToHost_ofBool rfl).trans ?_),
    (correct_iff rfl id).mpr ((targToHost_ofBool rfl).mpr ?_)⟩
  · simp only [Opcode.Agrees, Bool.and_eq_true, decide_eq_true_eq]
    exact ⟨fun h => h.mpr, fun h => ⟨fun ⟨ha, hb⟩ => ⟨h0 ha, h1 hb⟩, h⟩⟩
  · simp only [Opcode.Agrees, Bool.or_eq_true, decide_eq_true_eq]
    exact ⟨fun h => h.mpr, fun h => ⟨Or.imp h0 h1, h⟩⟩
  · rw [decide_eq_true_eq, targToHost_eq]
    constructor
    · intro h
      rw [h]
      cases c0.ty <;> rfl
    · intro h
      refine extend_inj (h.trans ?_)
      cases c0.ty <;> rfl

end Folding

/-- Folding agrees with execution but for big counts of shifts and for logical operands with an
empty low half. -/
theorem targWhirlOp_correct_iff (op : Opcode) (c0 c1 : Tcon) (h : op.Admits c0 c1) :
    op.Correct c0 c1 ↔ op.Agrees c0 c1 := by
  obtain ⟨opr, type⟩ := op
  cases opr
  case add => exact iff_of_true (correct_arith h.1 h.2).1 trivial
  case sub => exact iff_of_true (correct_arith h.1 h.2).2.1 trivial
  case mpy => exact iff_of_true (correct_arith h.1 h.2).2.2 trivial
  case div => exact iff_of_true (correct_divide h.1 h.2).1 trivial
  case rem => exact iff_of_true (correct_divide h.1 h.2).2.1 trivial
  case mod => exact iff_of_true (correct_divide h.1 h.2).2.2 trivial
  case neg => exact iff_of_true (correct_unary h).1 trivial
  case bnot => exact iff_of_true (correct_unary h).2.1 trivial
  case abs => exact iff_of_true ((correct_unary h.2).2.2 h.1) trivial
  case band => exact iff_of_true (correct_logic h.1 h.2).1 trivial
  case bior => exact iff_of_true (correct_logic h.1 h.2).2.1 trivial
  case bxor => exact iff_of_true (correct_logic h.1 h.2).2.2.1 trivial
  case bnor => exact iff_of_true (correct_logic h.1 h.2).2.2.2 trivial
  case shl => exact (correct_shift h).1
  case lshr => exact (correct_shift h).2.1
  case ashr => exact (correct_shift h).2.2
  case cvtl => exact iff_of_true ((correct_iff rfl id).mpr (targConvertLength_spec h.1 h.2)) trivial
  all_goals
    obtain rfl : type = .i4 := h
  case land => exact correct_logical.1
  case lior => exact correct_logical.2.1
  case lnot => exact iff_of_true correct_logical.2.2 trivial

theorem targWhirlOp_correct_iff_shift : (⟨.shl, .i4⟩ : Opcode).Correct ⟨.i4, 1⟩ ⟨.i4, 31⟩:=
  (targWhirlOp_correct_iff ⟨.shl, .i4⟩ ⟨.i4, 1⟩ ⟨.i4, 31⟩ (by decide)).mpr (by decide)

/-- 1 shifted left by 33, and the conjunction of 2 ^ 32 with 1. -/
theorem targWhirlOp_not_correct : ((⟨.shl, .i4⟩ : Opcode).Admits ⟨.i4, 1⟩ ⟨.i4, 33⟩ ∧
      ¬ (⟨.shl, .i4⟩ : Opcode).Correct ⟨.i4, 1⟩ ⟨.i4, 33⟩) ∧
    (⟨.land, .i4⟩ : Opcode).Admits ⟨.u8, 0x100000000⟩ ⟨.i4, 1⟩ ∧
      ¬ (⟨.land, .i4⟩ : Opcode).Correct ⟨.u8, 0x100000000⟩ ⟨.i4, 1⟩ := by
  refine ⟨⟨by decide, fun h => ?_⟩, by decide, fun h => ?_⟩
  · exact absurd ((correct_shift (by decide)).1.mp h) (by decide)
  · exact absurd (correct_logical.1.mp h) (by decide)

end Simp.TargConst
