import Path64.Simp.Arith

/-! # Chains of one operator

The part of `SIMPNODE_SimplifyExp2_h` that does not depend on the
operator: constants are folded, operands commuted, and chains of one
operator reassociated until their constants are one, on the right of the
root. A rule says what it has built, and `run` builds it; the depth of
the calls is the argument of `simpCreateExp2`. All trees have one width,
also the operands of `LAND` and `LIOR`, whose result is 0 or 1.

`Targ_WhirlOp` folds these two on the low halves of the constants, so the
value is kept only where that does not matter (`FoldsAgree`). -/

namespace Simp.Chain

open Simp.Arith (Width Sgn Leaf)

/-! ## Trees -/

/-- Binary operators. -/
inductive Bop where
  | add | sub | mpy
  | max | min
  | band | bior | bxor
  | land | lior
  deriving DecidableEq

/-- `OPCODE_commutative_op`. -/
def Bop.commutativeOp : Bop → Option Bop
  | .sub => none
  | op => some op

/-- `is_ok_to_reassociate`, for integers. -/
def Bop.isOkToReassociate : Bop → Bool
  | .sub => false
  | _ => true

/-- Trees; a leaf is any node of another kind. -/
inductive Expr where
  | intconst (ty : Sgn) (val : BitVec 64)
  | leaf (ty : Sgn) (id : Nat) (kind : Leaf)
  | bin (op : Bop) (ty : Sgn) (k0 k1 : Expr)
  | select (ty : Sgn) (cond k1 k2 : Expr)

/-- `SIMP_Is_Constant`. -/
def Expr.isConst : Expr → Bool
  | intconst _ _ => true
  | _ => false

/-- `SIMP_Int_ConstVal`. -/
def Expr.constVal : Expr → BitVec 64
  | intconst _ v => v
  | _ => 0

/-- A truth value of a register. -/
def truthWord (w : Nat) (p : Prop) [Decidable p] : BitVec w := if p then 1#w else 0#w

/-- The number that a word of a sign stands for. -/
def number {w : Nat} (ty : Sgn) (a : BitVec w) : Int :=
  match ty with
  | .signed => a.toInt
  | .unsigned => a.toNat

/-- The value of an operator modulo `2^w`. -/
def Bop.eval {W : Width} (op : Bop) (ty : Sgn) (a b : BitVec W.bits) : BitVec W.bits :=
  match op with
  | .add => a + b
  | .sub => a - b
  | .mpy => a * b
  | .max => if number ty a ≤ number ty b then b else a
  | .min => if number ty a ≤ number ty b then a else b
  | .band => a &&& b
  | .bior => a ||| b
  | .bxor => a ^^^ b
  | .land => truthWord W.bits (a ≠ 0 ∧ b ≠ 0)
  | .lior => truthWord W.bits (a ≠ 0 ∨ b ≠ 0)

/-- The value of a tree for an assignment of the leaves. -/
def eval {W : Width} (ρ : Nat → BitVec W.bits) : Expr → BitVec W.bits
  | .intconst _ v => v.setWidth W.bits
  | .leaf _ n _ => ρ n
  | .bin op ty k0 k1 => op.eval ty (eval ρ k0) (eval ρ k1)
  | .select _ c k1 k2 => if eval ρ c ≠ 0 then eval ρ k1 else eval ρ k2

/-! ## The rules -/

/-- The options, the comparison of trees and the entries of `simplify_function_table`. -/
structure Ctx where
  aggressive : Bool
  canonicalize : Bool
  reassociate : Bool
  compareTrees : Expr → Expr → Int
  simpFunction : Bop → Sgn → Expr → Expr → Option Expr

/-- What a rule builds: a tree, a node through `SIMPNODE_SimpCreateExp2`, or a `SELECT`. -/
inductive Build where
  | tree (e : Expr)
  | exp2 (op : Bop) (ty : Sgn) (k0 k1 : Build)
  | select (ty : Sgn) (cond : Expr) (k1 k2 : Build)

/-- `SIMP_INTCONST`: the high half of a U4 constant is cleared. -/
def intConst (W : Width) (ty : Sgn) (v : BitVec 64) : Expr :=
  match W, ty with
  | .w32, .unsigned => .intconst ty (v &&& 0xffffffff#64)
  | _, _ => .intconst ty v

/-- The type of a folded constant. -/
def Bop.foldType (op : Bop) (ty : Sgn) : Sgn :=
  match op with
  | .land | .lior => .unsigned
  | _ => ty

/-- The operator in `Targ_WhirlOp`: the logical ones read `TCON_U4` of both operands. -/
def Bop.fold {W : Width} (op : Bop) (ty : Sgn) (a b : BitVec W.bits) : BitVec W.bits :=
  match op with
  | .land => truthWord W.bits (a.setWidth 32 ≠ 0 ∧ b.setWidth 32 ≠ 0)
  | .lior => truthWord W.bits (a.setWidth 32 ≠ 0 ∨ b.setWidth 32 ≠ 0)
  | op => op.eval ty a b

/-- `SIMPNODE_ConstantFold2`; `Targ_WhirlOp` folds all these operators. -/
def constantFold2 (W : Width) (op : Bop) (ty : Sgn) (k0 k1 : Expr) : Expr :=
  intConst W (op.foldType ty) (Simp.Arith.targToHost (op.foldType ty)
    (op.fold (W := W) ty (k0.constVal.setWidth _) (k1.constVal.setWidth _)))

/-- `Fold2_Into_Select`, where one of the operands is a constant. -/
def fold2IntoSelect (op : Bop) (ty : Sgn) (k0 k1 : Expr) : Option Build :=
  match k0, k1 with
  | .select _ c sk1 sk2, k1 =>
    if sk1.isConst && sk2.isConst then
      some (.select ty c (.exp2 op ty (.tree sk1) (.tree k1)) (.exp2 op ty (.tree sk2) (.tree k1)))
    else none
  | k0, .select _ c sk1 sk2 =>
    if sk1.isConst && sk2.isConst then
      some (.select ty c (.exp2 op ty (.tree k0) (.tree sk1)) (.exp2 op ty (.tree k0) (.tree sk2)))
    else none
  | _, _ => none

/-- `SIMPNODE_opcode(k) == opc` with a constant as second kid. -/
def splitConst (op : Bop) (ty : Sgn) : Expr → Option (Expr × Expr)
  | .bin p t a b => if p = op ∧ t = ty ∧ b.isConst then some (a, b) else none
  | _ => none

/-- Reassociations 1, 2a, 2b and 3. -/
def reassociateConsts (op : Bop) (ty : Sgn) (k0 k1 : Expr) : Option Build :=
  match if k1.isConst then splitConst op ty k0 else none with
  | some (a, c) => some (.exp2 op ty (.tree a) (.exp2 op ty (.tree c) (.tree k1)))
  | none =>
    match if !k0.isConst then splitConst op ty k0 else none with
    | some (a, c) => some (.exp2 op ty (.exp2 op ty (.tree a) (.tree k1)) (.tree c))
    | none =>
      match if !k1.isConst then splitConst op ty k1 else none with
      | some (b, d) => some (.exp2 op ty (.exp2 op ty (.tree b) (.tree k0)) (.tree d))
      | none =>
        match splitConst op ty k0, splitConst op ty k1 with
        | some (a, c), some (b, d) =>
          some (.exp2 op ty (.exp2 op ty (.tree a) (.tree b)) (.exp2 op ty (.tree c) (.tree d)))
        | _, _ => none

section rules
variable (X : Ctx) (op : Bop) (ty : Sgn) (k0 k1 : Expr)

/-- Reassociations 4a and 4b. -/
def reassociateArrays : Option Build :=
  match k0, k1 with
  | .leaf _ _ .ldid, .bin p t k10 k11 =>
    match k10, k11 with
    | .leaf _ _ (.iloadArray n10), .leaf _ _ (.iloadArray n11) =>
      if X.reassociate ∧ p = op ∧ t = ty then
        if n10 + 4 ≤ n11 then
          some (.exp2 op ty (.exp2 op ty (.tree k0) (.tree k10)) (.tree k11))
        else if n11 + 4 ≤ n10 then
          some (.exp2 op ty (.exp2 op ty (.tree k0) (.tree k11)) (.tree k10))
        else none
      else none
    | _, _ => none
  | _, _ => none

/-- The two commutations. -/
def commute : Option Build :=
  match op.commutativeOp with
  | none => none
  | some canon =>
    if k0.isConst then some (.exp2 canon ty (.tree k1) (.tree k0))
    else if !k0.isConst && !k1.isConst && X.aggressive && X.compareTrees k0 k1 == 1 then
      some (.exp2 canon ty (.tree k1) (.tree k0))
    else none

/-- The rules under `Simp_Canonicalize`. -/
def canonicalize : Option Build :=
  match commute X op ty k0 k1 with
  | some b => some b
  | none =>
    match if op.isOkToReassociate then reassociateConsts op ty k0 k1 else none with
    | some b => some b
    | none => reassociateArrays X op ty k0 k1

/-- `SIMPNODE_SimplifyExp2_h`. -/
def simplifyExp2 (W : Width) : Option Build :=
  if k0.isConst && k1.isConst then some (.tree (constantFold2 W op ty k0 k1))
  else
    match if k0.isConst || k1.isConst then fold2IntoSelect op ty k0 k1 else none with
    | some b => some b
    | none =>
      match if X.canonicalize then canonicalize X op ty k0 k1 else none with
      | some b => some b
      | none => (X.simpFunction op ty k0 k1).map .tree

end rules

/-- The nodes are created from the inside out. -/
def run (create : Bop → Sgn → Expr → Expr → Option Expr) : Build → Option Expr
  | .tree e => some e
  | .exp2 op ty k0 k1 =>
    (run create k0).bind fun a => (run create k1).bind fun b => create op ty a b
  | .select ty c k1 k2 =>
    (run create k1).bind fun a => (run create k2).bind fun b => some (.select ty c a b)

/-- `SIMPNODE_SimpCreateExp2`, with a bound on the depth of its calls. -/
def simpCreateExp2 (W : Width) (X : Ctx) : Nat → Bop → Sgn → Expr → Expr → Option Expr
  | 0, _, _, _, _ => none
  | n + 1, op, ty, k0, k1 =>
    match simplifyExp2 X op ty k0 k1 W with
    | some b => run (simpCreateExp2 W X n) b
    | none => some (.bin op ty k0 k1)

section
-- derives the equations
attribute [local simp] reassociateConsts run simpCreateExp2
end

/-! ## Chains -/

/-- The constants of a chain of one operator. -/
def constants (op : Bop) (ty : Sgn) : Expr → List Expr
  | .bin p t a b =>
    if p = op ∧ t = ty then constants op ty a ++ constants op ty b else []
  | .intconst t v => [.intconst t v]
  | _ => []

/-- At most one constant, on the right of the root. -/
def Normal (op : Bop) (ty : Sgn) (e : Expr) : Prop :=
  constants op ty e = [] ∨ e.isConst = true ∨
    ∃ a c, e = .bin op ty a c ∧ c.isConst = true ∧ constants op ty a = []

/-- The low halves of two constants have the truth value that the constants have. -/
def FoldAgrees (W : Width) (op : Bop) (c d : Expr) : Prop :=
  let a : BitVec W.bits := c.constVal.setWidth _
  let b : BitVec W.bits := d.constVal.setWidth _
  match op with
  | .land => (a.setWidth 32 ≠ 0 ∧ b.setWidth 32 ≠ 0 ↔ a ≠ 0 ∧ b ≠ 0)
  | .lior => (a.setWidth 32 ≠ 0 ∨ b.setWidth 32 ≠ 0 ↔ a ≠ 0 ∨ b ≠ 0)
  | _ => True

/-- The constant that an operand brings into a fold. -/
def constOf (X : Ctx) (op : Bop) (ty : Sgn) (e : Expr) : Option Expr :=
  if e.isConst then some e
  else if X.canonicalize then (splitConst op ty e).map Prod.snd
  else none

/-- The arms of a `SELECT` of constants. -/
def arms : Expr → List Expr
  | .select _ _ s1 s2 => if s1.isConst && s2.isConst then [s1, s2] else []
  | _ => []

/-- Each pair of constants that is folded keeps its value. -/
structure FoldsAgree (W : Width) (X : Ctx) (op : Bop) (ty : Sgn) (k0 k1 : Expr) : Prop where
  consts : ∀ c ∈ constOf X op ty k0, ∀ d ∈ constOf X op ty k1, FoldAgrees W op c d
  left : k1.isConst = true → ∀ s ∈ arms k0, FoldAgrees W op s k1
  right : k0.isConst = true → ∀ s ∈ arms k1, FoldAgrees W op k0 s

variable {e : Expr} {b0 b1 b : Build} {Q0 Q1 : Expr → Prop}

theorem Normal.length_constants {op : Bop} {ty : Sgn} (h : Normal op ty e) :
    (constants op ty e).length ≤ 1 := by
  rcases h with h | h | ⟨a, c, rfl, hc, ha⟩
  · rw [h]
    exact Nat.zero_le 1
  · cases e with
    | intconst t v => exact le_rfl
    | leaf t n k => exact absurd h nofun
    | bin p t a b => exact absurd h nofun
    | select t c a b => exact absurd h nofun
  · cases c with
    | intconst t v =>
      rw [constants, if_pos ⟨rfl, rfl⟩, ha]
      exact le_rfl
    | leaf t n k => exact absurd hc nofun
    | bin p t a b => exact absurd hc nofun
    | select t c a b => exact absurd hc nofun

/-! ## Values -/

section values
variable {W : Width} {op : Bop} {ty : Sgn}

theorem truthWord_ne_zero {p : Prop} [Decidable p] : truthWord W.bits p ≠ 0 ↔ p := by
  have hone : (1#W.bits) ≠ 0 := by cases W <;> decide
  unfold truthWord
  split <;> simp_all

theorem number_inj (ty : Sgn) {w : Nat} {a b : BitVec w} (h : number ty a = number ty b) : a = b := by
  cases ty with
  | signed => exact BitVec.eq_of_toInt_eq h
  | unsigned => exact BitVec.eq_of_toNat_eq (Int.ofNat.inj h)

theorem number_max (a b : BitVec W.bits) :
    number ty (Bop.max.eval ty a b) = max (number ty a) (number ty b) :=
  (apply_ite (number ty) _ _ _).trans (max_def _ _).symm

theorem number_min (a b : BitVec W.bits) :
    number ty (Bop.min.eval ty a b) = min (number ty a) (number ty b) :=
  (apply_ite (number ty) _ _ _).trans (min_def _ _).symm

theorem eval_comm (h : op.isOkToReassociate = true) (a b : BitVec W.bits) :
    op.eval ty a b = op.eval ty b a := by
  cases op with
  | sub => exact absurd h nofun
  | add => exact BitVec.add_comm a b
  | mpy => exact BitVec.mul_comm a b
  | band => exact BitVec.and_comm a b
  | bior => exact BitVec.or_comm a b
  | bxor => exact BitVec.xor_comm a b
  | land => simp only [Bop.eval, and_comm]
  | lior => simp only [Bop.eval, or_comm]
  | max =>
    apply number_inj ty
    rw [number_max, number_max, max_comm]
  | min =>
    apply number_inj ty
    rw [number_min, number_min, min_comm]

theorem eval_assoc (h : op.isOkToReassociate = true) (a b c : BitVec W.bits) :
    op.eval ty (op.eval ty a b) c = op.eval ty a (op.eval ty b c) := by
  cases op with
  | sub => exact absurd h nofun
  | add => exact BitVec.add_assoc a b c
  | mpy => exact BitVec.mul_assoc a b c
  | band => exact BitVec.and_assoc a b c
  | bior => exact BitVec.or_assoc a b c
  | bxor => exact BitVec.xor_assoc a b c
  | land => simp only [Bop.eval, truthWord_ne_zero, and_assoc]
  | lior => simp only [Bop.eval, truthWord_ne_zero, or_assoc]
  | max =>
    apply number_inj ty
    rw [number_max, number_max, number_max, number_max, max_assoc]
  | min =>
    apply number_inj ty
    rw [number_min, number_min, number_min, number_min, min_assoc]

theorem eval_right_comm (h : op.isOkToReassociate = true) (a b c : BitVec W.bits) :
    op.eval ty (op.eval ty a b) c = op.eval ty (op.eval ty a c) b := by
  rw [eval_assoc h, eval_comm h b c, eval_assoc h]

theorem eval_isConst (h : e.isConst = true) (ρ : Nat → BitVec W.bits) :
    eval ρ e = e.constVal.setWidth W.bits := by
  cases e with
  | intconst t v => rfl
  | leaf t n k => exact absurd h nofun
  | bin p t a b => exact absurd h nofun
  | select t c a b => exact absurd h nofun

theorem eval_intConst (ρ : Nat → BitVec W.bits) (v : BitVec 64) :
    eval ρ (intConst W ty v) = v.setWidth W.bits := by
  unfold intConst
  split
  · show (v &&& 0xffffffff#64).setWidth 32 = v.setWidth 32
    rw [BitVec.setWidth_and]
    exact BitVec.and_allOnes
  · rfl

theorem truthWord_inj {p q : Prop} [Decidable p] [Decidable q] :
    truthWord W.bits p = truthWord W.bits q ↔ (p ↔ q) := by
  refine ⟨fun h => ?_, fun h => by simp only [truthWord, h]⟩
  rw [← truthWord_ne_zero (W := W) (p := p), h, truthWord_ne_zero]

/-- A fold keeps the value just where the halves agree. -/
theorem eval_constantFold2_iff {k0 k1 : Expr} (h0 : k0.isConst = true) (h1 : k1.isConst = true)
    (ρ : Nat → BitVec W.bits) :
    eval ρ (constantFold2 W op ty k0 k1) = op.eval ty (eval ρ k0) (eval ρ k1) ↔
      FoldAgrees W op k0 k1 := by
  unfold constantFold2
  rw [eval_intConst, Simp.Arith.setWidth_targToHost, eval_isConst h0, eval_isConst h1]
  cases op with
  | land => exact truthWord_inj
  | lior => exact truthWord_inj
  | _ => exact iff_of_true rfl trivial

theorem FoldAgrees.symm {c d : Expr} (h : FoldAgrees W op c d) : FoldAgrees W op d c := by
  cases op with
  | land => exact and_comm.trans (h.trans and_comm)
  | lior => exact or_comm.trans (h.trans or_comm)
  | _ => trivial

/-- In 32 bits, and for the other operators, every fold is right. -/
theorem foldAgrees_of_narrow {c d : Expr} (h : W = .w32 ∨ op ≠ .land ∧ op ≠ .lior) :
    FoldAgrees W op c d := by
  rcases h with rfl | ⟨hand, hor⟩
  · have hself : ∀ a : BitVec Width.w32.bits, a.setWidth 32 = a := fun a => BitVec.setWidth_eq a
    cases op with
    | land =>
      simp only [FoldAgrees, hself]
      exact Iff.rfl
    | lior =>
      simp only [FoldAgrees, hself]
      exact Iff.rfl
    | _ => trivial
  · cases op with
    | land => exact absurd rfl hand
    | lior => exact absurd rfl hor
    | _ => trivial

theorem FoldsAgree.of_narrow {X : Ctx} {k0 k1 : Expr} (h : W = .w32 ∨ op ≠ .land ∧ op ≠ .lior) :
    FoldsAgree W X op ty k0 k1 :=
  ⟨fun _ _ _ _ => foldAgrees_of_narrow h, fun _ _ _ => foldAgrees_of_narrow h,
    fun _ _ _ => foldAgrees_of_narrow h⟩

theorem isConst_constantFold2 (k0 k1 : Expr) : (constantFold2 W op ty k0 k1).isConst = true := by
  unfold constantFold2 intConst
  split <;> rfl

end values

/-! ## Runs -/

section runs
variable {P : Prop} {W : Width} {X : Ctx} {op : Bop} {ty : Sgn} {k0 k1 : Expr} {n m : Nat}
  {Q Q' : Expr → Prop}

/-- The node is created with calls to the depth `n`, and has the value of the node if `P`. -/
def Yields (P : Prop) (W : Width) (X : Ctx) (n : Nat) (op : Bop) (ty : Sgn) (k0 k1 : Expr)
    (Q : Expr → Prop) : Prop :=
  ∃ r, (∀ m, n ≤ m → simpCreateExp2 W X m op ty k0 k1 = some r) ∧ Q r ∧
    (P → ∀ ρ : Nat → BitVec W.bits, eval ρ r = op.eval ty (eval ρ k0) (eval ρ k1))

/-- The same for what a rule builds, with a value of its own. -/
def Runs (P : Prop) (W : Width) (X : Ctx) (n : Nat) (b : Build)
    (v : (Nat → BitVec W.bits) → BitVec W.bits) (Q : Expr → Prop) : Prop :=
  ∃ r, (∀ m, n ≤ m → run (simpCreateExp2 W X m) b = some r) ∧ Q r ∧ (P → ∀ ρ, eval ρ r = v ρ)

theorem Yields.mono (h : Yields P W X n op ty k0 k1 Q) (hnm : n ≤ m) (hQ : ∀ r, Q r → Q' r) :
    Yields P W X m op ty k0 k1 Q' := by
  obtain ⟨r, hr, hq, hv⟩ := h
  exact ⟨r, fun m' hm => hr m' (hnm.trans hm), hQ r hq, hv⟩

theorem runs_tree (h : Q e) : Runs P W X n (.tree e) (fun ρ => eval ρ e) Q :=
  ⟨e, fun _ _ => rfl, h, fun _ _ => rfl⟩

theorem runs_exp2 {v0 v1 : (Nat → BitVec W.bits) → BitVec W.bits}
    (h0 : Runs P W X n b0 v0 Q0) (h1 : Runs P W X n b1 v1 Q1)
    (h : ∀ a b, Q0 a → Q1 b → Yields P W X n op ty a b Q) :
    Runs P W X n (.exp2 op ty b0 b1) (fun ρ => op.eval ty (v0 ρ) (v1 ρ)) Q := by
  obtain ⟨a, ha, hqa, hva⟩ := h0
  obtain ⟨b, hb, hqb, hvb⟩ := h1
  obtain ⟨r, hr, hq, hv⟩ := h a b hqa hqb
  refine ⟨r, fun m hm => ?_, hq, fun hP ρ => ?_⟩
  · rw [run, ha m hm, hb m hm]
    exact hr m hm
  · rw [hv hP, hva hP, hvb hP]

theorem runs_node (h : Yields P W X n op ty k0 k1 Q) : Runs P W X n (.exp2 op ty (.tree k0) (.tree k1))
      (fun ρ => op.eval ty (eval ρ k0) (eval ρ k1)) Q := by
  apply runs_exp2 (runs_tree (rfl : k0 = k0)) (runs_tree (rfl : k1 = k1))
  intro a b ha hb
  rw [← ha, ← hb]
  exact h

theorem runs_append {v0 : (Nat → BitVec W.bits) → BitVec W.bits}
    (h0 : Runs P W X n b0 v0 Q0) (h : ∀ a, Q0 a → Yields P W X n op ty a k1 Q) :
    Runs P W X n (.exp2 op ty b0 (.tree k1)) (fun ρ => op.eval ty (v0 ρ) (eval ρ k1)) Q := by
  apply runs_exp2 h0 (runs_tree (rfl : k1 = k1))
  intro a b ha hb
  rw [← hb]
  exact h a ha

theorem runs_select {c : Expr} {v0 v1 : (Nat → BitVec W.bits) → BitVec W.bits}
    (h0 : Runs P W X n b0 v0 Q0) (h1 : Runs P W X n b1 v1 Q1)
    (h : ∀ a b, Q (.select ty c a b)) :
    Runs P W X n (.select ty c b0 b1) (fun ρ => if eval ρ c ≠ 0 then v0 ρ else v1 ρ) Q := by
  obtain ⟨a, ha, -, hva⟩ := h0
  obtain ⟨b, hb, -, hvb⟩ := h1
  refine ⟨.select ty c a b, fun m hm => ?_, h a b, fun hP ρ => ?_⟩
  · rw [run, ha m hm, hb m hm]
    rfl
  · rw [eval, hva hP, hvb hP]

theorem yields_of_some {v : (Nat → BitVec W.bits) → BitVec W.bits}
    (h : simplifyExp2 X op ty k0 k1 W = some b) (hb : Runs P W X n b v Q)
    (hv : ∀ ρ, v ρ = op.eval ty (eval ρ k0) (eval ρ k1)) : Yields P W X (n + 1) op ty k0 k1 Q:= by
  obtain ⟨r, hr, hq, hvr⟩ := hb
  refine ⟨r, fun m hm => ?_, hq, fun hP ρ => (hvr hP ρ).trans (hv ρ)⟩
  obtain ⟨m, rfl⟩ : ∃ m', m = m' + 1 := ⟨m - 1, by omega⟩
  rw [simpCreateExp2, h]
  exact hr m (by omega)

theorem yields_of_none (h : simplifyExp2 X op ty k0 k1 W = none) (hq : Q (.bin op ty k0 k1)) :
    Yields P W X 1 op ty k0 k1 Q := by
  refine ⟨_, fun m hm => ?_, hq, fun _ ρ => rfl⟩
  obtain ⟨m, rfl⟩ : ∃ m', m = m' + 1 := ⟨m - 1, by omega⟩
  rw [simpCreateExp2, h]

end runs

/-! ## Operands with constants -/

/-- The operators have no rules of their own, and the comparison is antisymmetric. -/
structure Ctx.Plain (X : Ctx) : Prop where
  noRule : ∀ op ty k0 k1, X.simpFunction op ty k0 k1 = none
  antisymm : ∀ a b, X.compareTrees a b = 1 → X.compareTrees b a ≠ 1

section operands
variable {W : Width} {X : Ctx} {op : Bop} {ty : Sgn} {k0 k1 x c : Expr}

theorem yields_consts (h0 : k0.isConst = true) (h1 : k1.isConst = true)
    (hP : P → FoldAgrees W op k0 k1) :
    Yields P W X 1 op ty k0 k1 (fun r => r.isConst = true) := by
  have hfold : simplifyExp2 X op ty k0 k1 W = some (.tree (constantFold2 W op ty k0 k1)) := by
    unfold simplifyExp2
    rw [if_pos (by rw [h0, h1]; rfl)]
  refine ⟨constantFold2 W op ty k0 k1, fun m hm => ?_, isConst_constantFold2 k0 k1,
    fun h ρ => (eval_constantFold2_iff h0 h1 ρ).mpr (hP h)⟩
  obtain ⟨m, rfl⟩ : ∃ m', m = m' + 1 := ⟨m - 1, by omega⟩
  rw [simpCreateExp2, hfold]
  rfl

/-- A chain without constants. -/
def Pure (op : Bop) (ty : Sgn) (e : Expr) : Prop := constants op ty e = []

theorem Pure.not_const (h : Pure op ty x) : x.isConst = false := by
  cases x with
  | intconst t v => exact absurd h nofun
  | leaf t n k => rfl
  | bin p t a b => rfl
  | select t c a b => rfl

theorem Pure.bin (h0 : Pure op ty k0) (h1 : Pure op ty k1) : Pure op ty (.bin op ty k0 k1) := by
  unfold Pure at h0 h1 ⊢
  rw [constants, if_pos ⟨rfl, rfl⟩, h0, h1]
  rfl

theorem Pure.kids (h : Pure op ty (.bin op ty k0 k1)) : Pure op ty k0 ∧ Pure op ty k1 := by
  unfold Pure at h ⊢
  rw [constants, if_pos ⟨rfl, rfl⟩] at h
  exact List.append_eq_nil_iff.mp h

theorem Pure.splitConst (h : Pure op ty x) : splitConst op ty x = none := by
  cases x with
  | intconst t v => rfl
  | leaf t n k => rfl
  | bin p t a b =>
    apply if_neg
    rintro ⟨rfl, rfl, hb⟩
    rw [h.kids.2.not_const] at hb
    exact absurd hb nofun
  | select t c a b => rfl

/-- A `SELECT` of constants. -/
def selectsConsts : Expr → Bool
  | .select _ _ s1 s2 => s1.isConst && s2.isConst
  | _ => false

/-- A chain with the constant `c` on the right; nothing is left to fold into the rest. -/
def Carries (op : Bop) (ty : Sgn) (c e : Expr) : Prop :=
  ∃ a, e = .bin op ty a c ∧ c.isConst = true ∧ Pure op ty a ∧ selectsConsts a = false

/-- What is not a constant, and has at most one. -/
def Grown (op : Bop) (ty : Sgn) (e : Expr) : Prop := Pure op ty e ∨ ∃ c, Carries op ty c e

theorem Pure.grown (h : Pure op ty x) : Grown op ty x := .inl h

theorem Carries.grown (h : Carries op ty c x) : Grown op ty x := .inr ⟨c, h⟩

theorem splitConst_bin (hc : c.isConst = true) :
    splitConst op ty (.bin op ty x c) = some (x, c) := if_pos ⟨rfl, rfl, hc⟩

theorem commutativeOp_eq (hop : op.isOkToReassociate = true) : op.commutativeOp = some op := by
  cases op with
  | sub => exact absurd hop nofun
  | add | mpy | max | min | band | bior | bxor | land | lior => rfl

theorem splitConst_const (hc : c.isConst = true) : splitConst op ty c = none := by
  cases c with
  | intconst t v => rfl
  | leaf t n k => rfl
  | bin p t a b => exact absurd hc nofun
  | select t d a b => rfl

/-! ### A constant and a `SELECT` of constants -/

section fold
variable {t : Sgn} {cond s1 s2 : Expr}

theorem yields_select_left (h1 : s1.isConst = true) (h2 : s2.isConst = true)
    (hc : c.isConst = true) (hP : P → FoldAgrees W op s1 c ∧ FoldAgrees W op s2 c) :
    Yields P W X 2 op ty (.select t cond s1 s2) c (Pure op ty) := by
  have hfold : simplifyExp2 X op ty (.select t cond s1 s2) c W =
      some (.select ty cond (.exp2 op ty (.tree s1) (.tree c)) (.exp2 op ty (.tree s2) (.tree c))) := by
    have hsel : fold2IntoSelect op ty (.select t cond s1 s2) c = some _ :=
      if_pos (by rw [h1, h2]; rfl)
    unfold simplifyExp2
    rw [hc, hsel]
    rfl
  apply yields_of_some hfold
  · apply runs_select
    · exact runs_node (yields_consts h1 hc fun h => (hP h).1)
    · exact runs_node (yields_consts h2 hc fun h => (hP h).2)
    · exact fun a b => rfl
  · intro ρ
    exact (apply_ite (fun v => op.eval ty v (eval ρ c)) _ _ _).symm

theorem yields_select_right (h1 : s1.isConst = true) (h2 : s2.isConst = true)
    (hc : c.isConst = true) (hP : P → FoldAgrees W op c s1 ∧ FoldAgrees W op c s2) :
    Yields P W X 2 op ty c (.select t cond s1 s2) (Pure op ty) := by
  have hfold : simplifyExp2 X op ty c (.select t cond s1 s2) W =
      some (.select ty cond (.exp2 op ty (.tree c) (.tree s1)) (.exp2 op ty (.tree c) (.tree s2))) := by
    cases c with
    | intconst u v =>
      have hsel : fold2IntoSelect op ty (.intconst u v) (.select t cond s1 s2) = some _ :=
        if_pos (by rw [h1, h2]; rfl)
      show (match fold2IntoSelect op ty (.intconst u v) (.select t cond s1 s2) with
        | some b => some b
        | none => _) = _
      rw [hsel]
    | leaf u n k => exact absurd hc nofun
    | bin p u a b => exact absurd hc nofun
    | select u d a b => exact absurd hc nofun
  apply yields_of_some hfold
  · apply runs_select
    · exact runs_node (yields_consts hc h1 fun h => (hP h).1)
    · exact runs_node (yields_consts hc h2 fun h => (hP h).2)
    · exact fun a b => rfl
  · intro ρ
    exact (apply_ite (fun v => op.eval ty (eval ρ c) v) _ _ _).symm

end fold

theorem selectsConsts_inv (h : selectsConsts x = true) : ∃ t cond s1 s2,
    x = .select t cond s1 s2 ∧ s1.isConst = true ∧ s2.isConst = true ∧ arms x = [s1, s2] := by
  cases x with
  | select t cond s1 s2 =>
    obtain ⟨h1, h2⟩ := Bool.and_eq_true_iff.mp h
    exact ⟨t, cond, s1, s2, rfl, h1, h2, if_pos h⟩
  | intconst t v => exact absurd h nofun
  | leaf t n k => exact absurd h nofun
  | bin p t a b => exact absurd h nofun

theorem fold2IntoSelect_none (h0 : selectsConsts k0 = false) (h1 : selectsConsts k1 = false) :
    fold2IntoSelect op ty k0 k1 = none := by
  unfold fold2IntoSelect
  split
  · rename_i t cond s1 s2
    rw [if_neg (by rw [show (s1.isConst && s2.isConst) = false from h0]; nofun)]
  · rename_i t cond s1 s2 _
    rw [if_neg (by rw [show (s1.isConst && s2.isConst) = false from h1]; nofun)]
  · rfl

theorem selectsConsts_const (h : c.isConst = true) : selectsConsts c = false := by
  cases c with
  | select t cond s1 s2 => exact absurd h nofun
  | intconst t v => rfl
  | leaf t n k => rfl
  | bin p t a b => rfl

theorem simplifyExp2_eq (hX : X.Plain) (hcan : X.canonicalize = true)
    (hconst : (k0.isConst && k1.isConst) = false) (hfold : k0.isConst = false ∧ k1.isConst = false ∨
      selectsConsts k0 = false ∧ selectsConsts k1 = false) :
    simplifyExp2 X op ty k0 k1 W = canonicalize X op ty k0 k1 := by
  have hnone : (if k0.isConst || k1.isConst then fold2IntoSelect op ty k0 k1 else none) = none := by
    rcases hfold with ⟨h0, h1⟩ | ⟨h0, h1⟩
    · rw [if_neg (by rw [h0, h1]; nofun)]
    · rw [fold2IntoSelect_none h0 h1]
      exact ite_self _
  unfold simplifyExp2
  rw [if_neg (by rw [hconst]; nofun), hnone, if_pos hcan, hX.noRule]
  cases canonicalize X op ty k0 k1 with
  | none => rfl
  | some b => rfl

end operands

/-! ## The canonical rules -/

section canonical
variable {W : Width} {X : Ctx} {op : Bop} {ty : Sgn} {k0 k1 x y c d : Expr} {n : Nat}

theorem Grown.not_const (h : Grown op ty x) : x.isConst = false := by
  rcases h with h | ⟨c, a, rfl, -⟩
  · exact h.not_const
  · rfl

theorem constOf_const (hc : c.isConst = true) : constOf X op ty c = some c := if_pos hc

theorem Carries.constOf (h : Carries op ty c x) (hcan : X.canonicalize = true) :
    Chain.constOf X op ty x = some c := by
  obtain ⟨a, rfl, hc, -⟩ := h
  unfold Chain.constOf
  rw [if_neg nofun, if_pos hcan, splitConst_bin hc]
  rfl

theorem FoldsAgree.symm (h : FoldsAgree W X op ty k0 k1) : FoldsAgree W X op ty k1 k0 :=
  ⟨fun c hc d hd => (h.consts d hd c hc).symm, fun hc s hs => (h.right hc s hs).symm,
    fun hc s hs => (h.left hc s hs).symm⟩

theorem Carries.not_const (h : Carries op ty c x) : x.isConst = false := by
  obtain ⟨a, rfl, -⟩ := h
  rfl

/-- The operands stay where they are. -/
def InOrder (X : Ctx) (k0 k1 : Expr) : Prop := (X.aggressive && X.compareTrees k0 k1 == 1) = false

theorem commute_const (hop : op.isOkToReassociate = true) (hc : c.isConst = true) :
    commute X op ty c x = some (.exp2 op ty (.tree x) (.tree c)) := by
  unfold commute
  rw [commutativeOp_eq hop]
  exact if_pos hc

theorem commute_none (hop : op.isOkToReassociate = true) (h0 : k0.isConst = false)
    (h1 : k1.isConst = true ∨ InOrder X k0 k1) : commute X op ty k0 k1 = none := by
  have hcond : (!k0.isConst && !k1.isConst && X.aggressive && X.compareTrees k0 k1 == 1) = false := by
    rcases h1 with h1 | h1
    · rw [h1, Bool.not_true, Bool.and_false]
      rfl
    · rw [Bool.and_assoc, h1, Bool.and_false]
  unfold commute
  rw [commutativeOp_eq hop]
  exact (if_neg (by rw [h0]; nofun)).trans (if_neg (by rw [hcond]; nofun))

theorem canonicalize_eq (hop : op.isOkToReassociate = true) (h : commute X op ty k0 k1 = none) :
    canonicalize X op ty k0 k1 =
      match reassociateConsts op ty k0 k1 with
      | some b => some b
      | none => reassociateArrays X op ty k0 k1 := by
  unfold canonicalize
  rw [h, if_pos hop]

theorem reassociateConsts_none (h0 : splitConst op ty k0 = none) (h1 : splitConst op ty k1 = none) :
    reassociateConsts op ty k0 k1 = none := by
  unfold reassociateConsts
  rw [h0, h1, ite_self, ite_self, ite_self]

theorem reassociateArrays_const (hc : c.isConst = true) : reassociateArrays X op ty x c = none := by
  cases c with
  | intconst t v =>
    unfold reassociateArrays
    split
    · rename_i heq
      exact absurd heq nofun
    · rfl
  | leaf t n k => exact absurd hc nofun
  | bin p t a b => exact absurd hc nofun
  | select t e a b => exact absurd hc nofun

section plain
variable (hX : X.Plain) (hcan : X.canonicalize = true) (hop : op.isOkToReassociate = true)
include hX hcan hop

theorem yields_right (hx : Pure op ty x) (hsel : selectsConsts x = false) (hc : c.isConst = true) :
    Yields P W X 1 op ty x c (Carries op ty c) := by
  have hnone : simplifyExp2 X op ty x c W = none := by
    rw [simplifyExp2_eq hX hcan (by rw [hx.not_const]; rfl)
      (.inr ⟨hsel, selectsConsts_const hc⟩),
      canonicalize_eq hop (commute_none hop hx.not_const (.inl hc)),
      reassociateConsts_none hx.splitConst (splitConst_const hc), reassociateArrays_const hc]
  exact yields_of_none hnone ⟨x, rfl, hc, hx, hsel⟩

theorem yields_chain_right (hx : Carries op ty d x) (hc : c.isConst = true)
    (hP : P → FoldAgrees W op d c) : Yields P W X 2 op ty x c (Grown op ty) := by
  obtain ⟨x, rfl, hd, hx, hsel⟩ := hx
  have hrule : reassociateConsts op ty (.bin op ty x d) c =
      some (.exp2 op ty (.tree x) (.exp2 op ty (.tree d) (.tree c))) := by
    unfold reassociateConsts
    rw [if_pos hc, splitConst_bin hd]
  have hsome : simplifyExp2 X op ty (.bin op ty x d) c W =
      some (.exp2 op ty (.tree x) (.exp2 op ty (.tree d) (.tree c))) := by
    rw [simplifyExp2_eq hX hcan rfl (.inr ⟨rfl, selectsConsts_const hc⟩),
      canonicalize_eq hop (commute_none hop rfl (.inl hc)), hrule]
  apply yields_of_some hsome
  · apply runs_exp2 (runs_tree (rfl : x = x))
    · exact runs_node (yields_consts hd hc hP)
    · intro a b ha hb
      rw [← ha]
      exact (yields_right hX hcan hop hx hsel hb).mono le_rfl fun r hr => hr.grown
  · exact fun ρ => (eval_assoc hop _ _ _).symm

theorem yields_grown_const (hx : Grown op ty x) (hc : c.isConst = true)
    (hP : P → FoldsAgree W X op ty x c) : Yields P W X 2 op ty x c (Grown op ty) := by
  rcases hx with hx | ⟨d, hx⟩
  · cases hsel : selectsConsts x with
    | true =>
      obtain ⟨t, cond, s1, s2, rfl, h1, h2, harms⟩ := selectsConsts_inv hsel
      refine (yields_select_left h1 h2 hc fun h => ?_).mono le_rfl fun r hr => hr.grown
      have hleft := (hP h).left hc
      rw [harms] at hleft
      exact ⟨hleft s1 (by simp), hleft s2 (by simp)⟩
    | false =>
      exact (yields_right hX hcan hop hx hsel hc).mono (by omega) fun r hr => hr.grown
  · refine yields_chain_right hX hcan hop hx hc fun h => ?_
    exact (hP h).consts d (hx.constOf hcan) c (constOf_const hc)

theorem yields_const_grown (hc : c.isConst = true) (hx : Grown op ty x)
    (hP : P → FoldsAgree W X op ty c x) : Yields P W X 3 op ty c x (Grown op ty) := by
  cases hsel : selectsConsts x with
  | true =>
    obtain ⟨t, cond, s1, s2, rfl, h1, h2, harms⟩ := selectsConsts_inv hsel
    refine (yields_select_right h1 h2 hc fun h => ?_).mono (by omega) fun r hr => hr.grown
    have hright := (hP h).right hc
    rw [harms] at hright
    exact ⟨hright s1 (by simp), hright s2 (by simp)⟩
  | false =>
    have hsome : simplifyExp2 X op ty c x W = some (.exp2 op ty (.tree x) (.tree c)) := by
      rw [simplifyExp2_eq hX hcan (by rw [hx.not_const, Bool.and_false])
        (.inr ⟨selectsConsts_const hc, hsel⟩)]
      unfold canonicalize
      rw [commute_const hop hc]
    apply yields_of_some hsome
    · exact runs_node (yields_grown_const hX hcan hop hx hc fun h => (hP h).symm)
    · exact fun ρ => eval_comm hop _ _

theorem yields_commute (h0 : k0.isConst = false) (h1 : k1.isConst = false) {Q : Expr → Prop}
    (h01 : InOrder X k0 k1 → Yields P W X n op ty k0 k1 Q)
    (h10 : InOrder X k1 k0 → Yields P W X n op ty k1 k0 Q) : Yields P W X (n + 1) op ty k0 k1 Q:= by
  by_cases horder : InOrder X k0 k1
  · exact (h01 horder).mono (by omega) fun r hr => hr
  · have hcmp := Bool.and_eq_true_iff.mp (Bool.eq_true_of_not_eq_false horder)
    have hback : InOrder X k1 k0 := by
      unfold InOrder
      rw [beq_eq_false_iff_ne.mpr (hX.antisymm k0 k1 (eq_of_beq hcmp.2)), Bool.and_false]
    have hsome : simplifyExp2 X op ty k0 k1 W = some (.exp2 op ty (.tree k1) (.tree k0)) := by
      rw [simplifyExp2_eq hX hcan (by rw [h0]; rfl) (.inl ⟨h0, h1⟩)]
      unfold canonicalize commute
      rw [commutativeOp_eq hop]
      simp only [h0, h1, hcmp.1, hcmp.2, Bool.not_false, Bool.and_self, if_true, Bool.false_eq_true,
        if_false]
    apply yields_of_some hsome
    · exact runs_node (h10 hback)
    · exact fun ρ => eval_comm hop _ _

theorem simplifyExp2_inOrder (h0 : k0.isConst = false) (h1 : k1.isConst = false)
    (horder : InOrder X k0 k1) :
    simplifyExp2 X op ty k0 k1 W =
      match reassociateConsts op ty k0 k1 with
      | some b => some b
      | none => reassociateArrays X op ty k0 k1 := by
  rw [simplifyExp2_eq hX hcan (by rw [h0]; rfl) (.inl ⟨h0, h1⟩),
    canonicalize_eq hop (commute_none hop h0 (.inr horder))]

/-! ### Operands without constants -/

theorem yields_pair (hx : Pure op ty x) (hy : Pure op ty y)
    (hxy : reassociateArrays X op ty x y = none) (hyx : reassociateArrays X op ty y x = none) :
    Yields P W X 2 op ty x y (fun r => r = .bin op ty x y ∨ r = .bin op ty y x) := by
  have hin : ∀ {a b}, Pure op ty a → Pure op ty b → reassociateArrays X op ty a b = none →
      InOrder X a b → Yields P W X 1 op ty a b (fun r => r = .bin op ty a b) := by
    intro a b ha hb hab horder
    have hnone : simplifyExp2 X op ty a b W = none := by
      rw [simplifyExp2_inOrder hX hcan hop ha.not_const hb.not_const horder,
        reassociateConsts_none ha.splitConst hb.splitConst, hab]
    exact yields_of_none hnone rfl
  have hnode : Yields P W X 2 op ty x y (fun r => r = .bin op ty x y ∨ r = .bin op ty y x) := by
    apply yields_commute hX hcan hop hx.not_const hy.not_const
    · intro horder
      exact (hin hx hy hxy horder).mono le_rfl fun r hr => .inl hr
    · intro horder
      exact (hin hy hx hyx horder).mono le_rfl fun r hr => .inr hr
  exact hnode

end plain

/-- A chain without constants that is no `SELECT` of constants. -/
def PureNode (op : Bop) (ty : Sgn) (e : Expr) : Prop := Pure op ty e ∧ selectsConsts e = false

/-- The load of an array. -/
def IsArrayLoad (e : Expr) : Prop := ∃ t n k, e = .leaf t n (.iloadArray k)

theorem reassociateArrays_some (h : reassociateArrays X op ty k0 k1 = some b) :
    ∃ t n u v, k0 = .leaf t n .ldid ∧ (k1 = .bin op ty u v ∨ k1 = .bin op ty v u) ∧
      IsArrayLoad u ∧ IsArrayLoad v ∧
      b = .exp2 op ty (.exp2 op ty (.tree k0) (.tree u)) (.tree v) := by
  unfold reassociateArrays at h
  split at h
  · rename_i t n p s k10 k11
    split at h
    · rename_i t10 i10 n10 t11 i11 n11
      split at h
      · rename_i hsame
        obtain ⟨-, rfl, rfl⟩ := hsame
        split at h
        · exact ⟨t, n, _, _, rfl, .inl rfl, ⟨_, _, _, rfl⟩, ⟨_, _, _, rfl⟩,
            (Option.some.inj h).symm⟩
        · split at h
          · exact ⟨t, n, _, _, rfl, .inr rfl, ⟨_, _, _, rfl⟩, ⟨_, _, _, rfl⟩,
              (Option.some.inj h).symm⟩
          · exact absurd h nofun
      · exact absurd h nofun
    · exact absurd h nofun
  · exact absurd h nofun

theorem reassociateArrays_none (h : IsArrayLoad k0 ∨ ∃ a b, k0 = .bin op ty a b) :
    reassociateArrays X op ty k0 k1 = none := by
  cases hb : reassociateArrays X op ty k0 k1 with
  | none => rfl
  | some b =>
    obtain ⟨t, n, u, v, rfl, -⟩ := reassociateArrays_some hb
    rcases h with ⟨t', n', k', heq⟩ | ⟨a', b', heq⟩ <;> exact absurd heq nofun

theorem reassociateArrays_load (h : IsArrayLoad k1) : reassociateArrays X op ty k0 k1 = none := by
  cases hb : reassociateArrays X op ty k0 k1 with
  | none => rfl
  | some b =>
    obtain ⟨t, n, u, v, -, hk1, -⟩ := reassociateArrays_some hb
    obtain ⟨t', n', k', rfl⟩ := h
    rcases hk1 with heq | heq <;> exact absurd heq nofun

theorem IsArrayLoad.pure (h : IsArrayLoad x) : Pure op ty x := by
  obtain ⟨t, n, k, rfl⟩ := h
  rfl

section plain
variable (hX : X.Plain) (hcan : X.canonicalize = true) (hop : op.isOkToReassociate = true)
include hX hcan hop

theorem runs_arrays (hx : Pure op ty x) {u v : Expr} (hu : IsArrayLoad u) (hv : IsArrayLoad v) :
    Runs P W X 2 (.exp2 op ty (.exp2 op ty (.tree x) (.tree u)) (.tree v))
      (fun ρ => op.eval ty (op.eval ty (eval ρ x) (eval ρ u)) (eval ρ v)) (PureNode op ty) := by
  apply runs_append
  · exact runs_node (yields_pair hX hcan hop hx hu.pure (reassociateArrays_load hu)
      (reassociateArrays_none (.inl hu)))
  · intro a ha
    have hnode : Pure op ty a ∧ ∃ a0 a1, a = .bin op ty a0 a1 := by
      rcases ha with rfl | rfl
      · exact ⟨hx.bin hu.pure, x, u, rfl⟩
      · exact ⟨Pure.bin hu.pure hx, u, x, rfl⟩
    obtain ⟨hpure, hbin⟩ := hnode
    apply (yields_pair hX hcan hop hpure hv.pure (reassociateArrays_none (.inr hbin))
      (reassociateArrays_none (.inl hv))).mono le_rfl
    rintro r (rfl | rfl)
    · exact ⟨hpure.bin hv.pure, rfl⟩
    · exact ⟨Pure.bin hv.pure hpure, rfl⟩

theorem yields_pure_inOrder (hx : Pure op ty x) (hy : Pure op ty y) (horder : InOrder X x y) :
    Yields P W X 3 op ty x y (PureNode op ty) := by
  have heq : simplifyExp2 X op ty x y W = _ :=
    simplifyExp2_inOrder hX hcan hop hx.not_const hy.not_const horder
  rw [reassociateConsts_none hx.splitConst hy.splitConst] at heq
  cases hb : reassociateArrays X op ty x y with
  | none =>
    exact (yields_of_none (heq.trans hb) ⟨hx.bin hy, rfl⟩).mono (by omega) fun r hr => hr
  | some b =>
    have hsome := heq.trans hb
    obtain ⟨t, n, u, v, -, hk1, hu, hv, rfl⟩ := reassociateArrays_some hb
    apply yields_of_some hsome (runs_arrays hX hcan hop hx hu hv)
    intro ρ
    rcases hk1 with rfl | rfl
    · exact eval_assoc hop _ _ _
    · exact (eval_right_comm hop _ _ _).trans (eval_assoc hop _ _ _)

theorem yields_pure (hx : Pure op ty x) (hy : Pure op ty y) :
    Yields P W X 4 op ty x y (PureNode op ty) :=
  yields_commute hX hcan hop hx.not_const hy.not_const
    (yields_pure_inOrder hX hcan hop hx hy) (yields_pure_inOrder hX hcan hop hy hx)

/-! ### Operands with constants on the right -/

/-- The second reassociation, to the inner node and what becomes of it. -/
theorem yields_2a {Q : Expr → Prop} (hx : Carries op ty c x) (hy : y.isConst = false)
    (horder : InOrder X x y) {Q' : Expr → Prop}
    (hinner : ∀ a, Pure op ty a → Yields P W X n op ty a y Q')
    (houter : ∀ a, Q' a → Yields P W X n op ty a c Q) : Yields P W X (n + 1) op ty x y Q := by
  obtain ⟨x, rfl, hc, hpure, -⟩ := hx
  have hrule : reassociateConsts op ty (.bin op ty x c) y =
      some (.exp2 op ty (.exp2 op ty (.tree x) (.tree y)) (.tree c)) := by
    unfold reassociateConsts
    rw [if_neg (by rw [hy]; nofun), splitConst_bin hc]
    rfl
  have hsome : simplifyExp2 X op ty (.bin op ty x c) y W =
      some (.exp2 op ty (.exp2 op ty (.tree x) (.tree y)) (.tree c)) := by
    rw [simplifyExp2_inOrder hX hcan hop rfl hy horder, hrule]
  apply yields_of_some hsome
  · exact runs_append (runs_node (hinner x hpure)) houter
  · exact fun ρ => eval_right_comm hop _ _ _

theorem yields_2b (hx : Carries op ty c x) (hy : Pure op ty y) (horder : InOrder X y x) :
    Yields P W X 5 op ty y x (Carries op ty c) := by
  obtain ⟨x, rfl, hc, hpure, -⟩ := hx
  have hrule : reassociateConsts op ty y (.bin op ty x c) =
      some (.exp2 op ty (.exp2 op ty (.tree x) (.tree y)) (.tree c)) := by
    unfold reassociateConsts
    rw [hy.splitConst, ite_self, ite_self, splitConst_bin hc]
    rfl
  have hsome : simplifyExp2 X op ty y (.bin op ty x c) W =
      some (.exp2 op ty (.exp2 op ty (.tree x) (.tree y)) (.tree c)) := by
    rw [simplifyExp2_inOrder hX hcan hop hy.not_const rfl horder, hrule]
  apply yields_of_some hsome
  · apply runs_append (runs_node (yields_pure hX hcan hop hpure hy))
    · intro a ha
      exact (yields_right hX hcan hop ha.1 ha.2 hc).mono (by omega) fun r hr => hr
  · intro ρ
    exact (eval_right_comm hop _ _ _).trans (eval_comm hop _ _)

theorem yields_chain_pure (hx : Carries op ty c x) (hy : Pure op ty y) :
    Yields P W X 6 op ty x y (Carries op ty c) ∧ Yields P W X 6 op ty y x (Carries op ty c) := by
  have hc : c.isConst = true := by
    obtain ⟨_, -, hc, -⟩ := hx
    exact hc
  have ha : InOrder X x y → Yields P W X 5 op ty x y (Carries op ty c) := fun horder =>
    yields_2a hX hcan hop hx hy.not_const horder (fun a ha => yields_pure hX hcan hop ha hy)
      fun a ha => (yields_right hX hcan hop ha.1 ha.2 hc).mono (by omega) fun r hr => hr
  have hb := yields_2b (P := P) (W := W) hX hcan hop hx hy
  exact ⟨yields_commute hX hcan hop hx.not_const hy.not_const ha hb,
    yields_commute hX hcan hop hy.not_const hx.not_const hb ha⟩

/-- Two chains with constants: the constants meet at the root. -/
theorem yields_chains (hx : Carries op ty c x) (hy : Carries op ty d y)
    (hP : P → FoldAgrees W op c d) : Yields P W X 8 op ty x y (Grown op ty) := by
  have hc : c.isConst = true := by
    obtain ⟨_, -, hc, -⟩ := hx
    exact hc
  have hd : d.isConst = true := by
    obtain ⟨_, -, hd, -⟩ := hy
    exact hd
  exact yields_commute hX hcan hop hx.not_const hy.not_const
    (fun horder => yields_2a hX hcan hop hx hy.not_const horder
      (fun a ha => (yields_chain_pure hX hcan hop hy ha).2)
      fun a ha => (yields_chain_right hX hcan hop ha hc fun h => (hP h).symm).mono (by omega)
        fun r hr => hr)
    (fun horder => yields_2a hX hcan hop hy hx.not_const horder
      (fun a ha => (yields_chain_pure hX hcan hop hx ha).2)
      fun a ha => (yields_chain_right hX hcan hop ha hd hP).mono (by omega) fun r hr => hr)

theorem yields_grown (hx : Grown op ty x) (hy : Grown op ty y)
    (hP : P → FoldsAgree W X op ty x y) : Yields P W X 8 op ty x y (Grown op ty) := by
  rcases hx with hx | ⟨c, hx⟩
  · rcases hy with hy | ⟨d, hy⟩
    · exact (yields_pure hX hcan hop hx hy).mono (by omega) fun r hr => hr.1.grown
    · exact (yields_chain_pure hX hcan hop hy hx).2.mono (by omega) fun r hr => hr.grown
  · rcases hy with hy | ⟨d, hy⟩
    · exact (yields_chain_pure hX hcan hop hx hy).1.mono (by omega) fun r hr => hr.grown
    · exact yields_chains hX hcan hop hx hy fun h =>
        (hP h).consts c (hx.constOf hcan) d (hy.constOf hcan)

/-- A constant, or what has at most one. -/
def Canonical (op : Bop) (ty : Sgn) (e : Expr) : Prop := e.isConst = true ∨ Grown op ty e

omit hX hcan hop in
theorem Canonical.normal (h : Canonical op ty x) : Normal op ty x := by
  rcases h with h | h | ⟨c, a, rfl, hc, ha, -⟩
  · exact .inr (.inl h)
  · exact .inl h
  · exact .inr (.inr ⟨a, c, rfl, hc, ha⟩)

theorem yields_canonical (h0 : Canonical op ty x) (h1 : Canonical op ty y)
    (hP : P → FoldsAgree W X op ty x y) : Yields P W X 8 op ty x y (Canonical op ty) := by
  rcases h0 with hx | hx
  · rcases h1 with hy | hy
    · exact (yields_consts hx hy fun h => (hP h).consts x (constOf_const hx) y
        (constOf_const hy)).mono (by omega) fun r hr => .inl hr
    · exact (yields_const_grown hX hcan hop hx hy hP).mono (by omega) fun r hr => .inr hr
  · rcases h1 with hy | hy
    · exact (yields_grown_const hX hcan hop hx hy hP).mono (by omega) fun r hr => .inr hr
    · exact (yields_grown hX hcan hop hx hy hP).mono le_rfl fun r hr => .inr hr

end plain

theorem yields_plain (hX : X.Plain) (hcan : X.canonicalize = false)
    (hP : P → FoldsAgree W X op ty x y) : Yields P W X 2 op ty x y (fun _ => True) := by
  cases hx : x.isConst with
  | true =>
    cases hy : y.isConst with
    | true =>
      exact (yields_consts hx hy fun h => (hP h).consts x (constOf_const hx) y
        (constOf_const hy)).mono (by omega) fun _ _ => trivial
    | false =>
      cases hsel : selectsConsts y with
      | true =>
        obtain ⟨t, cond, s1, s2, rfl, h1, h2, harms⟩ := selectsConsts_inv hsel
        refine (yields_select_right h1 h2 hx fun h => ?_).mono le_rfl fun _ _ => trivial
        have hright := (hP h).right hx
        rw [harms] at hright
        exact ⟨hright s1 (by simp), hright s2 (by simp)⟩
      | false =>
        apply (yields_of_none _ trivial).mono (m := 2) (by omega) fun r hr => hr
        unfold simplifyExp2
        rw [hx, hy, fold2IntoSelect_none (selectsConsts_const hx) hsel, hcan, hX.noRule]
        rfl
  | false =>
    cases hy : y.isConst with
    | true =>
      cases hsel : selectsConsts x with
      | true =>
        obtain ⟨t, cond, s1, s2, rfl, h1, h2, harms⟩ := selectsConsts_inv hsel
        refine (yields_select_left h1 h2 hy fun h => ?_).mono le_rfl fun _ _ => trivial
        have hleft := (hP h).left hy
        rw [harms] at hleft
        exact ⟨hleft s1 (by simp), hleft s2 (by simp)⟩
      | false =>
        apply (yields_of_none _ trivial).mono (m := 2) (by omega) fun r hr => hr
        unfold simplifyExp2
        rw [hx, hy, fold2IntoSelect_none hsel (selectsConsts_const hy), hcan, hX.noRule]
        rfl
    | false =>
      apply (yields_of_none _ trivial).mono (m := 2) (by omega) fun r hr => hr
      unfold simplifyExp2
      rw [hx, hy, hcan, hX.noRule]
      rfl

end canonical

/-! ## The process -/

section process
variable {W : Width} {X : Ctx} {op : Bop} {ty : Sgn} {n m : Nat} {k0 k1 r : Expr}

theorem run_mono {f g : Bop → Sgn → Expr → Expr → Option Expr}
    (hfg : ∀ op ty a b r, f op ty a b = some r → g op ty a b = some r) (b : Build) :
    ∀ r, run f b = some r → run g b = some r := by
  induction b with
  | tree e => exact fun r h => h
  | exp2 op ty b0 b1 ih0 ih1 =>
    intro r h
    obtain ⟨a0, h0, h⟩ := Option.bind_eq_some_iff.mp h
    obtain ⟨a1, h1, h⟩ := Option.bind_eq_some_iff.mp h
    rw [run, ih0 a0 h0, ih1 a1 h1]
    exact hfg op ty a0 a1 r h
  | select ty c b0 b1 ih0 ih1 =>
    intro r h
    obtain ⟨a0, h0, h⟩ := Option.bind_eq_some_iff.mp h
    obtain ⟨a1, h1, h⟩ := Option.bind_eq_some_iff.mp h
    rw [run, ih0 a0 h0, ih1 a1 h1]
    exact h

theorem simpCreateExp2_mono (hnm : n ≤ m) : ∀ op ty k0 k1 r,
    simpCreateExp2 W X n op ty k0 k1 = some r → simpCreateExp2 W X m op ty k0 k1 = some r := by
  induction n generalizing m with
  | zero => exact fun op ty k0 k1 r h => absurd h nofun
  | succ n ih =>
    intro op ty k0 k1 r h
    obtain ⟨m, rfl⟩ : ∃ m', m = m' + 1 := ⟨m - 1, by omega⟩
    rw [simpCreateExp2] at h ⊢
    cases hb : simplifyExp2 X op ty k0 k1 W with
    | none =>
      rw [hb] at h
      exact h
    | some b =>
      rw [hb] at h
      exact run_mono (ih (by omega)) b r h

/-- The operands of the process: nodes of other opcodes, and what it makes of them. -/
inductive Produced (W : Width) (X : Ctx) (op : Bop) (ty : Sgn) : Expr → Prop where
  | other (e : Expr) (h : ∀ a b, e ≠ .bin op ty a b) : Produced W X op ty e
  | create (n : Nat) (k0 k1 r : Expr) (h0 : Produced W X op ty k0) (h1 : Produced W X op ty k1)
      (h : simpCreateExp2 W X n op ty k0 k1 = some r) : Produced W X op ty r

theorem Produced.canonical (hX : X.Plain) (hcan : X.canonicalize = true)
    (hop : op.isOkToReassociate = true) (h : Produced W X op ty e) : Canonical op ty e := by
  induction h with
  | other e he =>
    cases e with
    | intconst t v => exact .inl rfl
    | leaf t n k => exact .inr (.inl rfl)
    | select t c a b => exact .inr (.inl rfl)
    | bin p t a b =>
      refine .inr (.inl (if_neg ?_))
      rintro ⟨rfl, rfl⟩
      exact he a b rfl
  | create n k0 k1 r _ _ hr ih0 ih1 =>
    obtain ⟨r', hr', hcanonical, -⟩ :=
      yields_canonical (P := False) (W := W) hX hcan hop ih0 ih1 False.elim
    have hsame := simpCreateExp2_mono (le_max_left n 8) op ty k0 k1 r hr
    rw [hr' (max n 8) (le_max_right n 8)] at hsame
    obtain rfl := Option.some.inj hsame
    exact hcanonical

/-- Chains of an associative and commutative operator: the calls go to a depth of eight at most, and
with `Simp_Canonicalize` at most one constant is left, on the right of the root. The value is kept
if every pair of constants that is folded keeps its own; of two constants that is all there is to it.
-/
theorem simpCreateExp2_canonical (W : Width) (X : Ctx) (hX : X.Plain) (op : Bop)
    (hop : op.isOkToReassociate = true) (ty : Sgn) (k0 k1 : Expr)
    (h0 : Produced W X op ty k0) (h1 : Produced W X op ty k1) :
    ∃ r, (∀ n, 8 ≤ n → simpCreateExp2 W X n op ty k0 k1 = some r) ∧
      (FoldsAgree W X op ty k0 k1 →
        ∀ ρ : Nat → BitVec W.bits, eval ρ r = op.eval ty (eval ρ k0) (eval ρ k1)) ∧
      (k0.isConst = true → k1.isConst = true →
        (∀ ρ : Nat → BitVec W.bits, eval ρ r = op.eval ty (eval ρ k0) (eval ρ k1)) →
        FoldsAgree W X op ty k0 k1) ∧
      (X.canonicalize = true → Normal op ty r ∧ (constants op ty r).length ≤ 1) := by
  have hyields : Yields (FoldsAgree W X op ty k0 k1) W X 8 op ty k0 k1
      (fun r => X.canonicalize = true → Normal op ty r) := by
    cases hcan : X.canonicalize with
    | true =>
      exact (yields_canonical hX hcan hop (h0.canonical hX hcan hop) (h1.canonical hX hcan hop)
        id).mono le_rfl fun r hr _ => hr.normal
    | false => exact (yields_plain hX hcan id).mono (by omega) fun r _ => nofun
  obtain ⟨r, hr, hnormal, hv⟩ := hyields
  refine ⟨r, hr, hv, fun hc0 hc1 hkept => ?_, fun hcan =>
    ⟨hnormal hcan, (hnormal hcan).length_constants⟩⟩
  -- two constants: the result is their fold
  have hfold : r = constantFold2 W op ty k0 k1 := by
    have hrun : simpCreateExp2 W X 8 op ty k0 k1 = some (constantFold2 W op ty k0 k1) := by
      rw [simpCreateExp2, simplifyExp2, if_pos (by rw [hc0, hc1]; rfl)]
      rfl
    exact Option.some.inj ((hr 8 le_rfl).symm.trans hrun)
  have hagrees := (eval_constantFold2_iff hc0 hc1 fun _ => 0).mp (hfold ▸ hkept fun _ => 0)
  have hnoArms : ∀ {e : Expr}, e.isConst = true → arms e = [] := fun {e} he => by
    cases e with
    | intconst t v => rfl
    | _ => exact absurd he nofun
  refine ⟨fun c hc d hd => ?_, fun _ s hs => ?_, fun _ s hs => ?_⟩
  · rw [constOf_const hc0] at hc
    rw [constOf_const hc1] at hd
    cases hc
    cases hd
    exact hagrees
  · rw [hnoArms hc0] at hs
    exact absurd hs List.not_mem_nil
  · rw [hnoArms hc1] at hs
    exact absurd hs List.not_mem_nil

/-- All options, and no comparison or rule that says anything. -/
def plainCtx : Ctx := ⟨true, true, true, fun _ _ => 0, fun _ _ _ _ => none⟩

theorem plainCtx_plain : plainCtx.Plain := ⟨fun _ _ _ _ => rfl, fun _ _ h => absurd h nofun⟩

theorem simpCreateExp2_canonical_sums :
    ∃ r, (∀ n, 8 ≤ n → simpCreateExp2 .w32 plainCtx n .add .signed
        (.bin .add .signed (.leaf .signed 0 .ldid) (.intconst .signed 1))
        (.bin .add .signed (.leaf .signed 1 .ldid) (.intconst .signed 2)) = some r) ∧
      (∀ ρ : Nat → BitVec Width.w32.bits, eval ρ r = ρ 0 + 1 + (ρ 1 + 2)) ∧
      Normal .add .signed r ∧ (constants .add .signed r).length ≤ 1 := by
  obtain ⟨r, hr, hv, -, hnormal⟩ := simpCreateExp2_canonical .w32 plainCtx plainCtx_plain .add rfl
    .signed (.bin .add .signed (.leaf .signed 0 .ldid) (.intconst .signed 1))
    (.bin .add .signed (.leaf .signed 1 .ldid) (.intconst .signed 2))
    (.create 1 _ _ _ (.other (.leaf .signed 0 .ldid) nofun) (.other (.intconst .signed 1) nofun) rfl)
    (.create 1 _ _ _ (.other (.leaf .signed 1 .ldid) nofun) (.other (.intconst .signed 2) nofun) rfl)
  exact ⟨r, hr, hv (.of_narrow (.inl rfl)), hnormal rfl⟩

/-- `(x && 2^32) && 1` in 64 bits becomes `x && 0`. -/
theorem simpCreateExp2_loses_high : ¬ ∀ (W : Width) (X : Ctx), X.Plain → ∀ op : Bop,
    op.isOkToReassociate = true → ∀ (ty : Sgn) (k0 k1 : Expr), Produced W X op ty k0 →
      Produced W X op ty k1 → ∃ r, (∀ n, 8 ≤ n → simpCreateExp2 W X n op ty k0 k1 = some r) ∧
        ∀ ρ : Nat → BitVec W.bits, eval ρ r = op.eval ty (eval ρ k0) (eval ρ k1) := by
  intro hall
  obtain ⟨r, hr, hv⟩ := hall .w64 plainCtx plainCtx_plain .land rfl .signed
    (.bin .land .signed (.leaf .signed 0 .ldid) (.intconst .signed 0x100000000))
    (.intconst .signed 1)
    (.create 1 _ _ _ (.other (.leaf .signed 0 .ldid) nofun)
      (.other (.intconst .signed 0x100000000) nofun) rfl)
    (.other (.intconst .signed 1) nofun)
  have hrun : simpCreateExp2 .w64 plainCtx 8 .land .signed
      (.bin .land .signed (.leaf .signed 0 .ldid) (.intconst .signed 0x100000000))
      (.intconst .signed 1) =
      some (.bin .land .signed (.leaf .signed 0 .ldid) (.intconst .unsigned 0)) := rfl
  obtain rfl := Option.some.inj ((hr 8 le_rfl).symm.trans hrun)
  exact absurd (hv fun _ => 1) (by decide)

end process

end Simp.Chain
