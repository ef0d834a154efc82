import Mathlib.Data.List.Basic
import Mathlib.Algebra.Order.Ring.Nat

/-! # WHIRL trees and their comparison

`Wn` is a node with its address, its opcode, its attributes and its kids,
as far as `SIMPNODE_Simp_Compare_Trees` reads them. `eval` gives a tree
its value under an arbitrary interpretation of the operators. -/

namespace Simp

/-! ## Opcodes -/

/-- The operators with a treatment of their own. -/
inductive Operator where
  | array | arrayexp | arrsection | comma | const | cselect | cvtl
  | idname | ilda | ildbits | iload | iloadx | intconst | intrinsicOp | ioItem
  | lda | ldbits | ldid | mload | rcomma | ldma | asmExpr | asmInput
  | ldaLabel | extractBits | composeBits | pureCallOp | shuffle
  | expr
  | stmt
  deriving DecidableEq

/-- `OPERATOR_PROPERTY_expression` of the operators without a constructor of their own. -/
def plainExpressions : List Nat :=
  [1, 2, 8, 11, 12, 14, 15, 16, 18, 20, 21, 25, 28, 30, 31, 34, 39, 42, 44, 45,
   46, 54, 64, 68, 69, 70, 71, 72, 73, 74, 75, 76, 77, 78, 79, 80, 82, 83, 85,
   86, 87, 88, 89, 90, 93, 94, 100, 101, 104, 107, 108, 109, 110, 111, 114, 116,
   118, 120, 125, 128, 134, 139, 140, 141, 142, 143, 146]

/-- The operator of an opcode, `opr | rtype << 8 | desc << 14`. -/
def operatorOf (opcode : Nat) : Operator :=
  match opcode % 256 with
  | 5 => .array
  | 6 => .arrayexp
  | 7 => .arrsection
  | 22 => .comma
  | 26 => .const
  | 27 => .cselect
  | 29 => .cvtl
  | 48 => .idname
  | 50 => .ilda
  | 51 => .ildbits
  | 52 => .iload
  | 53 => .iloadx
  | 55 => .intconst
  | 57 => .intrinsicOp
  | 59 => .ioItem
  | 65 => .lda
  | 66 => .ldbits
  | 67 => .ldid
  | 81 => .mload
  | 99 => .rcomma
  | 130 => .ldma
  | 132 => .asmExpr
  | 133 => .asmInput
  | 135 => .ldaLabel
  | 137 => .extractBits
  | 138 => .composeBits
  | 144 => .pureCallOp
  | 145 => .shuffle
  | n => if n ∈ plainExpressions then .expr else .stmt

/-- The descriptor type of an opcode. -/
def descOf (opcode : Nat) : Nat := opcode / 2 ^ 14 % 64

/-- `MTYPE_M`: a memory chunk. -/
def mtypeM : Nat := 16

/-- `MTYPE_BS`: a bit field named by its field id. -/
def mtypeBS : Nat := 21

/-! ## Trees -/

/-- The attributes that are compared or that the value depends on. -/
structure Attrs where
  constVal : Int := 0
  cvtlBits : Int := 0
  bitOffset : Int := 0
  bitSize : Int := 0
  offset : Int := 0
  fieldId : Int := 0
  stIdx : Int := 0
  elementSize : Int := 0
  intrinsic : Int := 0
  label : Int := 0
  ty : Int := 0
  asmFlags : Int := 0
  deriving DecidableEq

/-- A WHIRL node at its address. -/
inductive Wn where
  | node (addr : BitVec 64) (opcode : Nat) (attrs : Attrs) (kids : List Wn)

namespace Wn

def addr : Wn → BitVec 64
  | node a _ _ _ => a

theorem treeInduct {P : Wn → Prop}
    (h : ∀ a opcode attrs kids, (∀ k ∈ kids, P k) → P (node a opcode attrs kids))
    (t : Wn) : P t := by
  refine @Wn.rec P (fun ks => ∀ k ∈ ks, P k) ?_ ?_ ?_ t
  · intro a opcode attrs kids ih
    exact h a opcode attrs kids ih
  · simp
  · intro k ks hk hks k' hmem
    rcases List.mem_cons.mp hmem with rfl | hmem
    · exact hk
    · exact hks k' hmem

end Wn

/-! ## `SIMPNODE_Simp_Compare_Trees` -/

/-- `if (a < b) return (-1); if (a > b) return (1);`, then the rest. -/
def compareBy (a b : Int) (rest : Option Int) : Option Int :=
  if a < b then some (-1) else if a > b then some 1 else rest

/-- `rv = ...; if (rv != 0) return (rv);` over a sequence of comparisons. -/
def compareSeq : List (Option Int) → Option Int
  | [] => some 0
  | none :: _ => none
  | some rv :: rest => if rv ≠ 0 then some rv else compareSeq rest

/-- `(INTPS)t1 - (INTPS)t2`, returned as an `INT32`. -/
def addressDiff (a₁ a₂ : BitVec 64) : Int := ((a₁ - a₂).setWidth 32).toInt

/-- The kids of an ARRAY: the base, then `array_index(i)` and `array_dim(i)`. -/
def arrayVisits (numDim : Nat) : List Nat :=
  0 :: (List.range numDim).flatMap fun i => [numDim + i + 1, i + 1]

mutual

/-- `SIMPNODE_Simp_Compare_Trees`. -/
def compareTrees : Wn → Wn → Option Int
  | .node a₁ opc₁ x₁ kids₁, .node a₂ opc₂ x₂ kids₂ =>
    let rv := compareKids kids₁ kids₂
    let kid (i : Nat) : Option Int := rv.getD i none
    let kids := compareSeq ((List.range kids₁.length).map kid)
    if a₁ = a₂ then some 0
    else if opc₁ < opc₂ then some (-1)
    else if opc₁ > opc₂ then some 1
    else
      match operatorOf opc₁ with
      | .intconst => compareBy x₁.constVal x₂.constVal (some 0)
      | .cvtl => compareBy x₁.cvtlBits x₂.cvtlBits (kid 0)
      | .extractBits =>
        compareBy x₁.bitOffset x₂.bitOffset <|
        compareBy x₁.bitSize x₂.bitSize (kid 0)
      | .composeBits =>
        compareBy x₁.bitOffset x₂.bitOffset <|
        compareBy x₁.bitSize x₂.bitSize (compareSeq [kid 0, kid 1])
      | .const => compareBy x₁.stIdx x₂.stIdx (some 0)
      | .iload =>
        compareBy x₁.offset x₂.offset <|
        if descOf opc₁ = mtypeBS ∨ descOf opc₂ = mtypeBS
        then compareBy x₁.fieldId x₂.fieldId (kid 0)
        else kid 0
      | .ildbits =>
        compareBy x₁.offset x₂.offset <|
        compareBy x₁.bitOffset x₂.bitOffset (kid 0)
      | .mload | .iloadx =>
        compareBy x₁.offset x₂.offset (compareSeq [kid 0, kid 1])
      | .ldid =>
        compareBy x₁.offset x₂.offset <|
        if descOf opc₁ = mtypeBS ∨ descOf opc₂ = mtypeBS
        then compareBy x₁.fieldId x₂.fieldId (compareBy x₁.stIdx x₂.stIdx (some 0))
        else compareBy x₁.stIdx x₂.stIdx (some 0)
      | .ldbits =>
        compareBy x₁.offset x₂.offset <|
        compareBy x₁.bitOffset x₂.bitOffset <|
        compareBy x₁.stIdx x₂.stIdx (some 0)
      | .idname | .lda =>
        compareBy x₁.offset x₂.offset (compareBy x₁.stIdx x₂.stIdx (some 0))
      | .array =>
        -- `WN_num_dim` is `kid_count >> 1`
        compareBy (kids₁.length / 2 : Nat) (kids₂.length / 2 : Nat) <|
        compareBy x₁.elementSize x₂.elementSize <|
        compareSeq ((arrayVisits (kids₁.length / 2)).map kid)
      | .intrinsicOp =>
        compareBy x₁.intrinsic x₂.intrinsic <|
        compareBy kids₁.length kids₂.length kids
      | .comma | .rcomma | .cselect => some (addressDiff a₁ a₂)
      | .pureCallOp =>
        compareBy x₁.stIdx x₂.stIdx <|
        compareBy kids₁.length kids₂.length kids
      | .arrayexp | .arrsection | .ilda | .ioItem | .ldma | .asmExpr | .asmInput
      | .ldaLabel | .shuffle | .expr => kids
      | .stmt => some (addressDiff a₁ a₂)

/-- The comparisons of the kids of two nodes, place by place. -/
def compareKids : List Wn → List Wn → List (Option Int)
  | k₁ :: ks₁, k₂ :: ks₂ => compareTrees k₁ k₂ :: compareKids ks₁ ks₂
  | _, _ => []

end

/-! ## Values -/

/-- The attributes that the comparison of two nodes of this opcode reads, in its order. -/
def comparedAttrs (opcode : Nat) (x : Attrs) (kidCount : Nat) : List Int :=
  match operatorOf opcode with
  | .intconst => [x.constVal]
  | .cvtl => [x.cvtlBits]
  | .extractBits | .composeBits => [x.bitOffset, x.bitSize]
  | .const => [x.stIdx]
  | .iload =>
    if descOf opcode = mtypeBS then [x.offset, x.fieldId] else [x.offset]
  | .ildbits => [x.offset, x.bitOffset]
  | .mload | .iloadx => [x.offset]
  | .ldid =>
    if descOf opcode = mtypeBS then [x.offset, x.fieldId, x.stIdx] else [x.offset, x.stIdx]
  | .ldbits => [x.offset, x.bitOffset, x.stIdx]
  | .idname | .lda => [x.offset, x.stIdx]
  | .array => [((kidCount / 2 : Nat) : Int), x.elementSize]
  | .intrinsicOp => [x.intrinsic, kidCount]
  | .pureCallOp => [x.stIdx, kidCount]
  | _ => []

/-- The attributes that the value of a node depends on and that the comparison does not read. -/
def uncomparedAttrs (opcode : Nat) (x : Attrs) : List Int :=
  match operatorOf opcode with
  | .ldbits | .ildbits => [x.bitSize]
  | .ldid | .iload => if descOf opcode = mtypeM then [x.ty] else []
  | .ilda => [x.offset]
  | .ldma => [x.stIdx, x.offset]
  | .ldaLabel => [x.label]
  | .arrsection => [x.elementSize]
  | .shuffle => [x.offset]
  | .asmExpr => [x.stIdx, x.asmFlags]
  | .asmInput => [x.stIdx]
  | .ioItem => [x.intrinsic]
  | _ => []

/-- The nodes compared by their addresses: they hold statements. -/
def byAddress (opcode : Nat) : Bool :=
  match operatorOf opcode with
  | .comma | .rcomma | .cselect | .stmt => true
  | _ => false

/-- What a node computes from its attributes and its kids' values, in the current state, and what
one that runs statements yields. -/
structure Interp (V : Type) where
  op : Nat → List Int → List V → V
  run : Nat → BitVec 64 → V

mutual

/-- The value of a tree, in one state: an `ALLOCA`, which is volatile, has the same value wherever it
stands in trees that are compared. -/
def eval {V : Type} (I : Interp V) : Wn → V
  | .node a opc x kids =>
    if byAddress opc then I.run opc a
    else
      I.op opc (comparedAttrs opc x kids.length ++ uncomparedAttrs opc x)
        (evalKids I kids)

/-- The values of a list of kids. -/
def evalKids {V : Type} (I : Interp V) : List Wn → List V
  | [] => []
  | k :: ks => eval I k :: evalKids I ks

end

/-! ## Trees in memory -/

/-- The kid counts relied on: those of the opcode table, and `2 * num_dim + 1` for an ARRAY. -/
def kidsFit (opcode kidCount : Nat) : Bool :=
  match operatorOf opcode with
  | .intconst | .const | .ldid | .ldbits | .idname | .lda => kidCount == 0
  | .cvtl | .extractBits | .iload | .ildbits => kidCount == 1
  | .composeBits | .mload | .iloadx => kidCount == 2
  | .array => kidCount % 2 == 1
  | _ => true

mutual

/-- The tree is well formed, and every node is the one that `mem` has at its address. -/
def InMemory (mem : BitVec 64 → Option Wn) : Wn → Prop
  | .node a opc x kids =>
    mem a = some (.node a opc x kids) ∧ kidsFit opc kids.length ∧ KidsInMemory mem kids

/-- All trees of the list lie in the memory `mem`. -/
def KidsInMemory (mem : BitVec 64 → Option Wn) : List Wn → Prop
  | [] => True
  | k :: ks => InMemory mem k ∧ KidsInMemory mem ks

end

variable {mem : BitVec 64 → Option Wn}

theorem kidsInMemory_iff (ks : List Wn) : KidsInMemory mem ks ↔ ∀ k ∈ ks, InMemory mem k:= by
  induction ks with
  | nil => simp [KidsInMemory]
  | cons k ks ih => simp [KidsInMemory, ih]

theorem InMemory.eq_of_addr {s t : Wn} (hs : InMemory mem s) (ht : InMemory mem t)
    (h : s.addr = t.addr) : s = t := by
  cases s with
  | node a1 opc1 x1 kids1 =>
    cases t with
    | node a2 opc2 x2 kids2 =>
      rw [InMemory] at hs ht
      have ha : a1 = a2 := h
      subst ha
      exact Option.some.inj (hs.1.symm.trans ht.1)

end Simp
