import Path64.Lib.Flagged
import Path64.Simp.Arith

/-! # The rules for NEG, ADD, SUB, MPY, DIV and SELECT

`simp_neg`, `simp_times`, `simp_div` and `simp_add_sub`, with what they
call, written over a `Creator`, the three functions
`SIMPNODE_SimpCreateExp1` to `3`; `creator` ties the knot, to a bound on
the depth of the recursion. Steps that do not preserve values for all
operands carry a `check`, which has no influence on the tree. -/

namespace Simp.Arith

open Flagged

/-! ## The context of a run -/

/-- The options of the simplifier, and `WN_Simp_Fold_LDA`. -/
structure Options where
  aggressive : Bool
  canonicalize : Bool
  reassociate : Bool
  foldLda : Bool

/-- The options, the comparison of trees, and what becomes of `SELECT(c,1,0)` and, negated, of
`SELECT(c,0,1)`; the assignment is for checks. -/
structure Ctx (W : Width) where
  opts : Options
  compareTrees : Expr → Expr → Int
  truth : Cond → Bool → Expr
  env : Env W

/-- `SIMPNODE_SimpCreateExp1` for NEG, `Exp2`, and `Exp3` for SELECT. -/
structure Creator where
  exp1 : Sgn → Expr → Flagged Expr
  exp2 : Bop → Sgn → Expr → Expr → Flagged Expr
  exp3 : Sgn → Cond → Expr → Expr → Flagged Expr

variable {W : Width} (X : Ctx W) (C : Creator)

/-- The minimal value of the signed type. -/
def isIntMin (W : Width) (k : Expr) : Bool :=
  k.isConst && k.constVal.setWidth W.bits == BitVec.intMin W.bits

/-! ## `simp_neg`, `simp_times` and `simp_div` -/

/-- `simp_neg`. Negating a quotient is checked: `INT_MIN / 1` becomes `INT_MIN / -1`. -/
def simpNeg (ty : Sgn) (k0 : Expr) : Flagged (Option Expr) :=
  match k0 with
  | .neg ty0 k => pure (if ty = ty0 then some k else none)
  | .bin .sub ty0 a b => some <$> C.exp2 .sub ty0 b a
  | .bin .mpy ty0 a b =>
    if b.isConst && ty0 == .signed then do
      let r ← C.exp1 .signed b
      some <$> C.exp2 .mpy ty0 a r
    else pure none
  | .bin .div ty0 a b =>
    if b.isConst && ty0 == .signed then do
      check (!isIntMin W b && !(isIntMin W a && b.constVal.setWidth W.bits == 1))
      -- an unsigned constant is negated in the complementary type
      let r ← C.exp1 .signed b
      some <$> C.exp2 .div ty0 a r
    else if a.isConst && ty0 == .signed then do
      check (!isIntMin W a)
      let r ← C.exp1 a.rtype a
      some <$> C.exp2 .div ty0 r b
    else pure none
  | _ => pure none

/-- The part of `simp_times` for a constant second operand. -/
def simpTimesConst (ty : Sgn) (k0 k1 : Expr) : Flagged (Option Expr) :=
  if k1.constVal = 1 then pure (some k0)
  else if k1.constVal = -1 && ty == .signed then some <$> C.exp1 ty k0
  else if k1.constVal = 0 then pure (some (simpIntconst W ty 0))
  else
    match k0 with
    | .bin op ty0 a b =>
      if (op == .add || op == .sub) && ty0 == ty && k1.rtype == ty then
        if b.isConst then do
          let addend ← C.exp2 .mpy ty b k1
          let r ← C.exp2 .mpy ty a k1
          some <$> C.exp2 op ty0 r addend
        else if a.isConst then do
          let addend ← C.exp2 .mpy ty a k1
          let r ← C.exp2 .mpy ty b k1
          some <$> C.exp2 op ty0 addend r
        else pure none
      else pure none
    | _ => pure none

def simpTimes (ty : Sgn) (k0 k1 : Expr) : Flagged (Option Expr) :=
  if k0.isConst then pure none
  else
    match k0, k1 with
    | .neg _ a, .neg _ b => some <$> C.exp2 .mpy ty a b
    | .neg _ a, k1 =>
      if !k1.isConst then do
        let r ← C.exp2 .mpy ty a k1
        some <$> C.exp1 ty r
      else if ty = .signed then do
        let r ← C.exp1 ty k1
        some <$> C.exp2 .mpy ty a r
      else simpTimesConst (W := W) C ty k0 k1
    | k0, .neg _ b => do
      let r ← C.exp2 .mpy ty k0 b
      some <$> C.exp1 ty r
    | k0, k1 => if k1.isConst then simpTimesConst (W := W) C ty k0 k1 else pure none

/-- `(-x) / (-y)` and `x / y` agree: not unsigned, nor for a minimal `x` unless `y` is minimal. -/
def negationsCancel (ty : Sgn) (a b : Expr) : Bool :=
  ty == .signed &&
    (eval X.env a != some (BitVec.intMin W.bits) || eval X.env b == some (BitVec.intMin W.bits))

/-- The rules of `simp_div` for a constant divisor and for equal operands. -/
def simpDivPlain (ty : Sgn) (k0 k1 : Expr) : Flagged (Option Expr) :=
  if k1.isConst && k1.constVal == 1 then pure (some k0)
  else if k1.isConst && k1.constVal == -1 && ty == .signed then some <$> C.exp1 ty k0
  else if X.opts.aggressive && X.compareTrees k0 k1 == 0 then pure (some (simpIntconst W ty 1))
  else pure none

/-- `simp_div`. The first rule is checked. -/
def simpDiv (ty : Sgn) (k0 k1 : Expr) : Flagged (Option Expr) :=
  match k0, k1 with
  | .neg _ a, .neg _ b => do
    check (negationsCancel X ty a b)
    some <$> C.exp2 .div ty a b
  | k0, k1 => simpDivPlain X C ty k0 k1

/-! ## Differences and common factors -/

/-- `simp_diff_value` of two trees that are not LDAs of one symbol. -/
def diffByTrees (k0 k1 : Expr) : Option Expr :=
  if X.compareTrees k0 k1 = 0 then some (simpIntconst W k0.rtype 0) else none

/-- `simp_diff_value`; the `INT32` difference of LDA offsets is checked where that matters. -/
def simpDiffValue (k0 k1 : Expr) (negateResult : Bool) : Flagged (Option Expr) :=
  match k0, k1 with
  | .lda t0 s0 o0, .lda t1 s1 o1 =>
    if s0 = s1 then do
      let resultval : BitVec 64 := (o0 - o1).signExtend 64
      check (resultval.setWidth W.bits == o0.signExtend W.bits - o1.signExtend W.bits)
      pure (some (simpIntconst W .signed (if negateResult then -resultval else resultval)))
    else pure (diffByTrees X (.lda t0 s0 o0) (.lda t1 s1 o1))
  | k0, k1 => pure (diffByTrees X k0 k1)

/-- `FACTOR_11` to `FACTOR_22`. -/
structure FactorFlags where
  f11 : Bool
  f12 : Bool
  f21 : Bool
  f22 : Bool

def factorAll : FactorFlags := ⟨true, true, true, true⟩

/-- `simp_factor`: `z*x op z*y` and its mirror images. -/
def simpFactor (k0 k1 : Expr) (op1 op2 : Bop) (ty : Sgn) (flag : FactorFlags) :
    Flagged (Option Expr) :=
  if !X.opts.aggressive then pure none
  else
    match k0, k1 with
    | .bin p0 t0 a0 b0, .bin p1 t1 a1 b1 =>
      if p0 = op1 ∧ t0 = ty ∧ p1 = op1 ∧ t1 = ty then
        if flag.f11 && X.compareTrees a0 a1 == 0 then do
          let r ← C.exp2 op2 ty b0 b1
          some <$> C.exp2 op1 ty a0 r
        else if flag.f22 && X.compareTrees b0 b1 == 0 then do
          let r ← C.exp2 op2 ty a0 a1
          some <$> C.exp2 op1 ty r b0
        else if flag.f21 && X.compareTrees b0 a1 == 0 then do
          let r ← C.exp2 op2 ty a0 b1
          some <$> C.exp2 op1 ty b0 r
        else if flag.f12 && X.compareTrees a0 b1 == 0 then do
          let r ← C.exp2 op2 ty b0 a1
          some <$> C.exp2 op1 ty a0 r
        else pure none
      else pure none
    | _, _ => pure none

/-- `make_identity`, for the arithmetic operators. -/
def makeIdentity (W : Width) (op : Bop) (ty : Sgn) : Expr :=
  match op with
  | .add | .sub => simpIntconst W ty 0
  | .mpy | .div => simpIntconst W ty 1

/-- The second half of `simp_factor_idty`: `z op z*y` and `z op y*z`. -/
def factorIdtyRight (k0 k1 : Expr) (op1 op2 : Bop) (ty : Sgn) (constOnly : Bool) :
    Flagged (Option Expr) :=
  match k1 with
  | .bin p1 t1 a1 b1 =>
    if p1 = op1 ∧ t1 = ty then
      if X.compareTrees k0 a1 = 0 then
        if !constOnly || b1.isConst then do
          let r ← C.exp2 op2 ty (makeIdentity W op1 ty) b1
          some <$> C.exp2 op1 ty a1 r
        else pure none
      else if X.compareTrees k0 b1 = 0 then
        if !constOnly || a1.isConst then do
          let r ← C.exp2 op2 ty (makeIdentity W op1 ty) a1
          some <$> C.exp2 op1 ty r b1
        else pure none
      else pure none
    else pure none
  | _ => pure none

/-- `simp_factor_idty`: `z*x op z` and its mirror images. -/
def simpFactorIdty (k0 k1 : Expr) (op1 op2 : Bop) (ty : Sgn) (constOnly : Bool) :
    Flagged (Option Expr) :=
  if !X.opts.aggressive then pure none
  else
    match k0 with
    | .bin p0 t0 a0 b0 =>
      if p0 = op1 ∧ t0 = ty then
        if X.compareTrees a0 k1 = 0 then
          if !constOnly || b0.isConst then do
            let r ← C.exp2 op2 ty b0 (makeIdentity W op1 ty)
            some <$> C.exp2 op1 ty a0 r
          else pure none
        else if X.compareTrees b0 k1 = 0 then
          if !constOnly || a0.isConst then do
            let r ← C.exp2 op2 ty a0 (makeIdentity W op1 ty)
            some <$> C.exp2 op1 ty r b0
          else pure none
        else pure none
      else factorIdtyRight X C (.bin p0 t0 a0 b0) k1 op1 op2 ty constOnly
    | k0 => factorIdtyRight X C k0 k1 op1 op2 ty constOnly

/-! ## `simp_add_sub` -/

/-- An operand with its sign, `true` when it is subtracted. -/
abbrev Term := Bool × Expr

/-- The operands `x[]` and signs `s[]` of a sum of three or four; none where it is not tried. -/
def operands (issub : Bool) (k0 k1 : Expr) : List Term :=
  match k0, k1 with
  | .bin .add _ a b, .bin .add _ c d => [(false, a), (false, b), (issub, c), (issub, d)]
  | .bin .add _ a b, .bin .sub _ c d => [(false, a), (false, b), (issub, c), (!issub, d)]
  | .bin .sub _ a b, .bin .add _ c d => [(false, a), (true, b), (issub, c), (issub, d)]
  | .bin .sub _ a b, .bin .sub _ c d => [(false, a), (true, b), (issub, c), (!issub, d)]
  | .bin .add _ a b, k1 => [(false, a), (false, b), (issub, k1)]
  | .bin .sub _ a b, k1 => [(false, a), (true, b), (issub, k1)]
  | k0, .bin .add _ c d =>
    -- `c - x - y` with neither `x` nor `y` constant would loop
    if k0.isConst && !c.isConst && !d.isConst && issub then []
    else [(false, k0), (issub, c), (issub, d)]
  | k0, .bin .sub _ c d => [(false, k0), (issub, c), (!issub, d)]
  | _, _ => []

/-- Constants go to the right: the operands, the number of constants and `constant_moved`. -/
def collectConsts : List Term → List Term → List Term × Nat × Bool
  | [], consts => (consts, consts.length, false)
  | t :: ts, consts =>
    if t.2.isConst then
      let (xs, n, moved) := collectConsts ts (t :: consts)
      (xs, n, moved || !ts.isEmpty)
    else
      let (xs, n, moved) := collectConsts ts consts
      (t :: xs, n, moved)

/-- The types of `subop`, `addop` and `negop`. -/
structure SumTypes where
  sub : Sgn
  add : Sgn

/-- `ConstantFold2` of a constant and a signed constant. -/
def foldTerm (W : Width) (T : SumTypes) (r : Expr) (t : Term) : Expr :=
  let (op, ty) := if t.1 then (Bop.sub, T.sub) else (Bop.add, T.add)
  (constantFold2 W op ty r t.2).getD r

/-- The first of a row of constants, with its sign. -/
def foldFirst (W : Width) (T : SumTypes) (t : Term) : Expr :=
  if t.1 then constantFold1 W T.add t.2 else t.2

/-- `SimpCreateExp2(SELECT_ADD_SUB(s),r,x)`. -/
def addTerm (T : SumTypes) (r : Expr) (t : Term) : Flagged Expr :=
  if t.1 then C.exp2 .sub T.sub r t.2 else C.exp2 .add T.add r t.2

/-- An operand with its sign. -/
def withSign (T : SumTypes) (t : Term) : Flagged Expr :=
  if t.1 then C.exp1 T.add t.2 else pure t.2

/-- The sum of two signed operands. -/
def addPair (T : SumTypes) (ti tj : Term) : Flagged Expr :=
  if ti.1 then
    if tj.1 then do
      let r ← C.exp2 .add T.add ti.2 tj.2
      C.exp1 T.add r
    else C.exp2 .sub T.sub tj.2 ti.2
  else addTerm C T ti.2 tj

/-- The first pair of operands of opposite signs with a difference that is known, and the others. -/
def firstCancel : List (Term × Term × List Term) → Flagged (Option (Expr × List Term))
  | [] => pure none
  | (ta, tb, rest) :: more =>
    if ta.1 != tb.1 then do
      match ← simpDiffValue X ta.2 tb.2 ta.1 with
      | some dt => pure (some (dt, rest))
      | none => firstCancel more
    else firstCancel more

/-- The case of three remaining operands. -/
def sumOfThree (T : SumTypes) (t0 t1 t2 : Term) (constLast : Bool) : Flagged (Option Expr) :=
  if constLast then
    if t0.1 then
      if t1.1 then do
        let r ← C.exp2 .add T.add t0.2 t1.2
        let c ← withSign C T t2
        some <$> C.exp2 .sub T.sub c r
      else do
        let r ← C.exp2 .sub T.sub t1.2 t0.2
        some <$> addTerm C T r t2
    else do
      let r ← addTerm C T t0.2 t1
      some <$> addTerm C T r t2
  else if X.opts.aggressive then do
    match ← firstCancel X [(t0, t1, [t2]), (t1, t2, [t0]), (t2, t0, [t1])] with
    | some (dt, [t]) => some <$> addTerm C T dt t
    | _ => pure none
  else pure none

/-- The case of four remaining operands. -/
def sumOfFour (T : SumTypes) (t0 t1 t2 t3 : Term) (constLast : Bool) : Flagged (Option Expr) :=
  if X.opts.aggressive then do
    let pairs :=
      if constLast then [(t0, t1, [t2, t3]), (t1, t2, [t0, t3]), (t2, t0, [t1, t3])]
      else [(t0, t1, [t2, t3]), (t0, t2, [t1, t3]), (t0, t3, [t1, t2]),
        (t1, t2, [t0, t3]), (t1, t3, [t0, t2]), (t2, t3, [t0, t1])]
    match ← firstCancel X pairs with
    | some (dt, [ti, tj]) => do
      let r ← addPair C T ti tj
      some <$> C.exp2 .add T.add r dt
    | _ => pure none
  else pure none

/-- The general reassociation of three or four operands. -/
def reassociate (T : SumTypes) (ts : List Term) : Flagged (Option Expr) :=
  let (xs, numConst, moved) := collectConsts ts []
  match xs with
  | [t0, t1, t2] =>
    if numConst = 3 then pure (some (foldTerm W T (foldTerm W T (foldFirst W T t0) t1) t2))
    else if numConst = 2 then
      let c := foldTerm W T (foldFirst W T t1) t2
      if t0.1 then some <$> C.exp2 .sub T.sub c t0.2 else some <$> C.exp2 .add T.add t0.2 c
    else sumOfThree X C T t0 t1 t2 (numConst == 1 && moved)
  | [t0, t1, t2, t3] =>
    if numConst = 4 then
      pure (some (foldTerm W T (foldTerm W T (foldTerm W T (foldFirst W T t0) t1) t2) t3))
    else if numConst = 3 then
      let r := foldTerm W T (foldTerm W T (foldFirst W T t1) t2) t3
      if t0.1 then some <$> C.exp2 .sub T.sub r t0.2 else some <$> C.exp2 .add T.add t0.2 r
    else if numConst = 2 then
      let c := foldTerm W T (foldFirst W T t2) t3
      sumOfThree X C T t0 t1 (false, c) moved
    else sumOfFour X C T t0 t1 t2 t3 (numConst == 1)
  | _ => pure none

/-- The rules that are tried before the reassociation: zero and negations. -/
def simpAddSubSimple (issub : Bool) (T : SumTypes) (ty : Sgn) (k0 k1 : Expr) :
    Flagged (Option Expr) :=
  if k1.isConst && k1.constVal == 0 then pure (some k0)
  else if k1.isConst && issub && ty == .signed then
    some <$> C.exp2 .add T.add k0 (constantFold1 W ty k1)
  else if k0.isConst && issub && k0.constVal == 0 then some <$> C.exp1 ty k1
  else if issub then
    match k0, k1 with
    | k0, .neg _ y => some <$> C.exp2 .add T.add k0 y
    | .neg _ x, k1 =>
      if k1.isConst && ty == .signed then
        some <$> C.exp2 .sub T.sub (constantFold1 W ty k1) x
      else do
        let r ← C.exp2 .add T.add x k1
        some <$> C.exp1 ty r
    | _, _ => pure none
  else
    match k0, k1 with
    | .neg _ x, k1 => some <$> C.exp2 .sub T.sub k1 x
    | k0, .neg _ y => some <$> C.exp2 .sub T.sub k0 y
    | _, _ => pure none

/-- The last rule: a constant is added to the offset of an LDA. -/
def foldLda (issub : Bool) (k0 k1 : Expr) : Option Expr :=
  match k0 with
  | .lda ty s o =>
    if k1.isConst && X.opts.foldLda then
      let k1val := if issub then -k1.constVal else k1.constVal
      let newoffset := k1val + o.signExtend 64
      -- `is_add_ok` for MTYPE_I4
      if -2 ^ 31 ≤ newoffset.toInt ∧ newoffset.toInt < 2 ^ 31 then
        some (.lda ty s (newoffset.setWidth 32))
      else none
    else none
  | _ => none

def simpAddSub (issub : Bool) (ty : Sgn) (k0 k1 : Expr) : Flagged (Option Expr) := do
  let op := if issub then Bop.sub else Bop.add
  let T : SumTypes :=
    { sub := if issub then ty
        else if k0.rtype = .signed ∨ k1.rtype = .signed then .signed else ty
      add := ty }
  match ← simpAddSubSimple (W := W) C issub T ty k0 k1 with
  | some r => pure (some r)
  | none =>
    match ← (if X.opts.aggressive && issub then simpDiffValue X k0 k1 false else pure none) with
    | some r => pure (some r)
    | none =>
      match operands issub k0 k1 with
      | [] =>
        match ← simpFactor X C k0 k1 .mpy op ty factorAll with
        | some r => pure (some r)
        | none =>
          match ← simpFactorIdty X C k0 k1 .mpy op ty true with
          | some r => pure (some r)
          | none => pure (foldLda X issub k0 k1)
      | ts => reassociate X C T ts

/-! ## The dispatchers -/

/-- `Fold2_Into_Select`; for DIV it is checked that neither arm faults. -/
def fold2IntoSelect (op : Bop) (ty : Sgn) (k0 k1 : Expr) : Flagged (Option Expr) :=
  match k0, k1 with
  | .select _ c sk1 sk2, k1 =>
    if sk1.isConst && sk2.isConst then do
      check ((constantFold2 W op ty sk1 k1).isSome && (constantFold2 W op ty sk2 k1).isSome)
      let r1 ← C.exp2 op ty sk1 k1
      let r2 ← C.exp2 op ty sk2 k1
      some <$> C.exp3 ty c r1 r2
    else pure none
  | k0, .select _ c sk1 sk2 =>
    if sk1.isConst && sk2.isConst then do
      check ((constantFold2 W op ty k0 sk1).isSome && (constantFold2 W op ty k0 sk2).isSome)
      let r1 ← C.exp2 op ty k0 sk1
      let r2 ← C.exp2 op ty k0 sk2
      some <$> C.exp3 ty c r1 r2
    else pure none
  | _, _ => pure none

/-- `OPCODE_commutative_op` and `is_ok_to_reassociate` hold of ADD and MPY. -/
def Bop.commutes : Bop → Bool
  | add | mpy => true
  | sub | div => false

/-- Reassociation 2b: a constant on the right of the second operand. -/
def reassocRight (op : Bop) (ty : Sgn) (k0 k1 : Expr) : Flagged (Option Expr) :=
  match k1 with
  | .bin p1 t1 a1 b1 =>
    if p1 = op ∧ t1 = ty ∧ b1.isConst then do
      let r ← C.exp2 op ty a1 k0
      some <$> C.exp2 op ty r b1
    else pure none
  | _ => pure none

/-- Reassociation 1 to 3: constants to the right. The third rule is never reached. -/
def reassocConsts (op : Bop) (ty : Sgn) (k0 k1 : Expr) : Flagged (Option Expr) :=
  match k0 with
  | .bin p0 t0 a0 b0 =>
    if p0 = op ∧ t0 = ty ∧ b0.isConst then
      if k1.isConst then do
        let r ← C.exp2 op ty b0 k1
        some <$> C.exp2 op ty a0 r
      else do
        let r ← C.exp2 op ty a0 k1
        some <$> C.exp2 op ty r b0
    else reassocRight C op ty (.bin p0 t0 a0 b0) k1
  | k0 => reassocRight C op ty k0 k1

/-- Reassociation 4a and 4b: an LDID and loads of arrays of different rank, for any operator. -/
def reassocArrays (op : Bop) (ty : Sgn) (k0 k1 : Expr) : Flagged (Option Expr) :=
  match k0, k1 with
  | .leaf _ _ .ldid, .bin p1 t1 k10 k11 =>
    match k10, k11 with
    | .leaf _ _ (.iloadArray n10), .leaf _ _ (.iloadArray n11) =>
      if p1 = op ∧ t1 = ty ∧ X.opts.reassociate then
        if n10 + 4 ≤ n11 then do
          check op.commutes
          let r ← C.exp2 op ty k0 k10
          some <$> C.exp2 op ty r k11
        else if n11 + 4 ≤ n10 then do
          check op.commutes
          let r ← C.exp2 op ty k0 k11
          some <$> C.exp2 op ty r k10
        else pure none
      else pure none
    | _, _ => pure none
  | _, _ => pure none

/-- The entry of `simplify_function_table`. -/
def simpFunction (op : Bop) (ty : Sgn) (k0 k1 : Expr) : Flagged (Option Expr) :=
  match op with
  | .add => simpAddSub X C false ty k0 k1
  | .sub => simpAddSub X C true ty k0 k1
  | .mpy => simpTimes (W := W) C ty k0 k1
  | .div => simpDiv X C ty k0 k1

/-- The canonicalisation of `SIMPNODE_SimplifyExp2_h`. -/
def canonicalize (op : Bop) (ty : Sgn) (k0 k1 : Expr) : Flagged (Option Expr) :=
  if k0.isConst && op.commutes then some <$> C.exp2 op ty k1 k0
  else if !k0.isConst && !k1.isConst && op.commutes && X.opts.aggressive &&
      X.compareTrees k0 k1 == 1 then
    some <$> C.exp2 op ty k1 k0
  else do
    match ← (if op.commutes then reassocConsts C op ty k0 k1 else pure none) with
    | some r => pure (some r)
    | none => reassocArrays X C op ty k0 k1

/-- `SIMPNODE_SimplifyExp2_h`. -/
def simplifyExp2 (op : Bop) (ty : Sgn) (k0 k1 : Expr) : Flagged (Option Expr) :=
  if k0.isConst && k1.isConst then pure (constantFold2 W op ty k0 k1)
  else do
    match ← (if k0.isConst || k1.isConst then fold2IntoSelect (W := W) C op ty k0 k1
        else pure none) with
    | some r => pure (some r)
    | none =>
      match ← (if X.opts.canonicalize then canonicalize X C op ty k0 k1 else pure none) with
      | some r => pure (some r)
      | none => simpFunction X C op ty k0 k1

/-- `SIMPNODE_SimplifyExp1` for NEG. -/
def simplifyExp1 (ty : Sgn) (k0 : Expr) : Flagged (Option Expr) :=
  match k0 with
  | .select _ c k1 k2 =>
    if k1.isConst && k2.isConst then do
      let r1 ← C.exp1 ty k1
      let r2 ← C.exp1 ty k2
      some <$> C.exp3 ty c r1 r2
    else pure none
  | k0 => if k0.isConst then pure (some (constantFold1 W ty k0)) else simpNeg (W := W) C ty k0

/-- The last rule for SELECT: `x ? y : y`. -/
def equalArms (k1 k2 : Expr) : Option Expr :=
  if X.opts.aggressive && X.compareTrees k1 k2 == 0 then some k1 else none

/-- `SIMPNODE_SimplifyExp3` for SELECT. -/
def simplifyExp3 (c : Cond) (k1 k2 : Expr) : Option Expr :=
  match c.kind with
  | .const b => some (if b then k1 else k2)
  | .cand => equalArms X k1 k2
  | _ =>
    if k1.isConst && k2.isConst && k1.constVal == 1 && k2.constVal == 0 then
      some (X.truth c false)
    else if k1.isConst && k2.isConst && k1.constVal == 0 && k2.constVal == 1 then
      some (X.truth c true)
    else equalArms X k1 k2

/-- `SIMPNODE_SimpCreateExp1` to `3`, to the given depth: the simplified tree, or a new node. -/
def creator : Nat → Creator
  | 0 =>
    { exp1 := fun ty k => ⟨.neg ty k, false⟩
      exp2 := fun op ty k0 k1 => ⟨.bin op ty k0 k1, false⟩
      exp3 := fun ty c k1 k2 => ⟨.select ty c k1 k2, false⟩ }
  | n + 1 =>
    { exp1 := fun ty k =>
        (fun r => r.getD (.neg ty k)) <$> simplifyExp1 (W := W) (creator n) ty k
      exp2 := fun op ty k0 k1 =>
        (fun r => r.getD (.bin op ty k0 k1)) <$> simplifyExp2 X (creator n) op ty k0 k1
      exp3 := fun ty c k1 k2 => pure ((simplifyExp3 X c k1 k2).getD (.select ty c k1 k2)) }

end Simp.Arith
