import Mathlib.Data.BitVec

/-! # Integer expressions of one width

NEG, ADD, SUB, MPY, DIV and SELECT over constants, addresses and loads,
all of one width: I4, U4 or I8, U8. The configuration is that of the
front ends on x86-64: `KEY` and `TARG_X8664` are defined, `BACK_END` is
not, and loads of string literals are loads. -/

namespace Simp.Arith

/-! ## Types and operators -/

/-- The two widths of integer registers. -/
inductive Width where
  | w32
  | w64
  deriving DecidableEq

/-- The number of bits. -/
def Width.bits : Width → Nat
  | w32 => 32
  | w64 => 64

/-- I4 and I8, or U4 and U8. -/
inductive Sgn where
  | signed
  | unsigned
  deriving DecidableEq

/-- The binary arithmetic operators. -/
inductive Bop where
  | add
  | sub
  | mpy
  | div
  deriving DecidableEq

/-- What the code asks of the condition of a SELECT. -/
inductive CondKind where
  | const (isTrue : Bool)
  | boolexpr
  | cand
  | other
  deriving DecidableEq

/-- The condition of a SELECT, by its identity and kind. -/
structure Cond where
  id : Nat
  kind : CondKind
  deriving DecidableEq

/-- What the code asks of an opaque operand: an LDID, the ILOAD of an ARRAY, or anything else. -/
inductive Leaf where
  | ldid
  | iloadArray (kidCount : Nat)
  | other
  deriving DecidableEq

/-- Arithmetic trees, with 64 bits of `WN_const_val` and 32 of an LDA's offset. -/
inductive Expr where
  | intconst (ty : Sgn) (val : BitVec 64)
  | lda (ty : Sgn) (sym : Nat) (offset : BitVec 32)
  | leaf (ty : Sgn) (id : Nat) (kind : Leaf)
  | neg (ty : Sgn) (k : Expr)
  | bin (op : Bop) (ty : Sgn) (k0 k1 : Expr)
  | select (ty : Sgn) (cond : Cond) (k1 k2 : Expr)
  deriving DecidableEq

/-- `SIMPNODE_rtype`. -/
def Expr.rtype : Expr → Sgn
  | intconst ty _ => ty
  | lda ty _ _ => ty
  | leaf ty _ _ => ty
  | neg ty _ => ty
  | bin _ ty _ _ => ty
  | select ty _ _ _ => ty

/-- `SIMP_Is_Constant`, and `SIMP_Is_Int_Constant`. -/
def Expr.isConst : Expr → Bool
  | intconst _ _ => true
  | _ => false

/-- `SIMP_Int_ConstVal`. -/
def Expr.constVal : Expr → BitVec 64
  | intconst _ v => v
  | _ => 0

/-! ## Values -/

/-- An assignment of the leaves. -/
structure Env (W : Width) where
  leaf : Nat → BitVec W.bits
  sym : Nat → BitVec W.bits
  cond : Nat → Bool

/-- The condition of a SELECT in an assignment. -/
def Cond.holds {W : Width} (env : Env W) (c : Cond) : Bool :=
  match c.kind with
  | .const b => b
  | _ => env.cond c.id

/-- The value of a binary operator; `none` is a division fault. -/
def Bop.eval {W : Width} (op : Bop) (ty : Sgn) (a b : BitVec W.bits) : Option (BitVec W.bits):=
  match op with
  | .add => some (a + b)
  | .sub => some (a - b)
  | .mpy => some (a * b)
  | .div =>
    match ty with
    | .signed =>
      if b = 0 ∨ a = BitVec.intMin W.bits ∧ b = -1 then none else some (a.sdiv b)
    | .unsigned => if b = 0 then none else some (a / b)

/-- The value of a tree. Both arms of a SELECT are evaluated. -/
def eval {W : Width} (env : Env W) : Expr → Option (BitVec W.bits)
  | .intconst _ v => some (v.setWidth W.bits)
  | .lda _ s o => some (env.sym s + o.signExtend W.bits)
  | .leaf _ n _ => some (env.leaf n)
  | .neg _ k => (eval env k).map fun v => -v
  | .bin op ty k0 k1 =>
    (eval env k0).bind fun a => (eval env k1).bind fun b => op.eval ty a b
  | .select _ c k1 k2 =>
    (eval env k1).bind fun a => (eval env k2).map fun b => if c.holds env then a else b

/-! ## Constants -/

/-- `WN_CreateIntconst`: the high half of a U4 constant is cleared. -/
def simpIntconst (W : Width) (ty : Sgn) (v : BitVec 64) : Expr :=
  match W, ty with
  | .w32, .unsigned => .intconst ty (v &&& 0xffffffff#64)
  | _, _ => .intconst ty v

/-- `Targ_To_Host`: a value of the target as an INT64. -/
def targToHost {W : Width} (ty : Sgn) (v : BitVec W.bits) : BitVec 64 :=
  match ty with
  | .signed => v.signExtend 64
  | .unsigned => v.setWidth 64

/-- `SIMPNODE_ConstantFold1` with NEG, of a constant. -/
def constantFold1 (W : Width) (ty : Sgn) (k : Expr) : Expr :=
  simpIntconst W ty (targToHost (W := W) ty (-(k.constVal.setWidth W.bits)))

/-- `SIMPNODE_ConstantFold2`; `Targ_WhirlOp` does not fold a division that faults. -/
def constantFold2 (W : Width) (op : Bop) (ty : Sgn) (k0 k1 : Expr) : Option Expr :=
  (op.eval (W := W) ty (k0.constVal.setWidth _) (k1.constVal.setWidth _)).map fun v =>
    simpIntconst W ty (targToHost ty v)

variable {W : Width} {env : Env W}

theorem Width.bits_le (W : Width) : W.bits ≤ 64 := by
  cases W <;> decide

@[simp] theorem eval_simpIntconst (ty : Sgn) (v : BitVec 64) :
    eval env (simpIntconst W ty v) = some (v.setWidth W.bits) := by
  unfold simpIntconst
  split
  · rw [eval]
    congr 1
    apply BitVec.eq_of_getLsbD_eq
    intro i hi
    have hi' : i < 32 := hi
    simp only [BitVec.getLsbD_setWidth, BitVec.getLsbD_and]
    have hone : (0xffffffff#64).getLsbD i = true := by
      revert i
      decide
    rw [hone, Bool.and_true]
  · rfl

theorem setWidth_targToHost (ty : Sgn) (v : BitVec W.bits) :
    (targToHost ty v).setWidth W.bits = v := by
  have hw := W.bits_le
  apply BitVec.eq_of_getLsbD_eq
  intro i hi
  have hi' : i < 64 := by omega
  unfold targToHost
  split
  · simp only [BitVec.getLsbD_setWidth, BitVec.getLsbD_signExtend, hi, hi', decide_true,
      Bool.true_and, if_true]
  · simp only [BitVec.getLsbD_setWidth, hi, hi', decide_true, Bool.true_and]

variable {k : Expr} {v : BitVec W.bits}

theorem eval_of_isConst (h : k.isConst = true) :
    eval env k = some (k.constVal.setWidth W.bits) := by
  cases k with
  | intconst ty v => rfl
  | lda => cases h
  | leaf => cases h
  | neg => cases h
  | bin => cases h
  | select => cases h

theorem constVal_eq (h : k.isConst = true)
    (hv : eval env k = some v) : k.constVal.setWidth W.bits = v := by
  rw [eval_of_isConst h] at hv
  exact Option.some.inj hv

theorem eval_constantFold1 {ty : Sgn} (h : k.isConst = true)
    (hv : eval env k = some v) : eval env (constantFold1 W ty k) = some (-v) := by
  rw [constantFold1, eval_simpIntconst, setWidth_targToHost, constVal_eq h hv]

theorem eval_constantFold2 {op : Bop} {ty : Sgn} {k0 k1 : Expr} {a b v : BitVec W.bits}
    (h0 : k0.isConst = true) (h1 : k1.isConst = true)
    (ha : eval env k0 = some a) (hb : eval env k1 = some b) (hv : op.eval ty a b = some v) :
    ∃ r, constantFold2 W op ty k0 k1 = some r ∧ r.isConst = true ∧ eval env r = some v := by
  unfold constantFold2
  rw [constVal_eq h0 ha, constVal_eq h1 hb, hv]
  refine ⟨_, rfl, ?_, ?_⟩
  · unfold simpIntconst
    split <;> rfl
  · rw [eval_simpIntconst, setWidth_targToHost]

end Simp.Arith
