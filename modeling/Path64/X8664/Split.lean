import Path64.X8664.Machine

/-! # 64-bit operations on pairs of 32-bit registers

Under `-m32` a 64-bit value lives in two TNs, and `Expand_Split_*`
emits 32-bit instructions for a 64-bit operation.

A source that has no second TN counts as zero-extended; an operand may
share its TNs with the result. -/

namespace X8664

open BitVec

/-! ## Pairs -/

/-- A 64-bit value from its halves. -/
def pair (h l : BitVec 32) : BitVec 64 := h ++ l

/-- The value in a pair of TNs. -/
@[simp] def State.pairVal (s : State) (t : TN) : BitVec 64 := pair (s.read 32 t.hi) (s.read 32 t)

/-- A register source: a pair, or a TN without a second one. -/
inductive RegSrc where
  | pair (t : TN)
  | low (t : TN)
  deriving DecidableEq

/-- A source: registers or a literal. -/
inductive Src where
  | reg (r : RegSrc)
  | lit (v : BitVec 64)
  deriving DecidableEq

@[simp] def RegSrc.lo : RegSrc → TN
  | .pair t | .low t => t

@[simp] def RegSrc.val (s : State) : RegSrc → BitVec 64
  | .pair t => s.pairVal t
  | .low t => (s.read 32 t).setWidth 64

@[simp] def Src.val (s : State) : Src → BitVec 64
  | .reg r => r.val s
  | .lit v => v

/-- `Get_TN_Pair`, or a new TN `spare` that is set to 0. -/
@[simp] def RegSrc.upper (spare : TN) : RegSrc → List Instr × TN
  | .pair t => ([], t.hi)
  | .low _ => ([.ldc 32 spare 0], spare)

/-- The literals for `( val << 32 ) >> 32` and `val >> 32`. -/
def litLo (v : BitVec 64) : Int := ((v <<< 32).sshiftRight 32).toInt

def litHi (v : BitVec 64) : Int := (v.sshiftRight 32).toInt

/-- The two halves of an operand that may be a literal. -/
@[simp] def Src.halves (spare : TN) : Src → List Instr × Opnd × Opnd
  | .reg r => ((r.upper spare).1, .tn r.lo, .tn (r.upper spare).2)
  | .lit v => ([], .lit (litLo v), .lit (litHi v))

/-- The two halves of an operand of a comparison; a literal is compared low as it is. -/
def Src.cmpHalves (spare : TN) : Src → List Instr × Opnd × Opnd
  | .reg r => ((r.upper spare).1, .tn r.lo, .tn (r.upper spare).2)
  | .lit v => ([], .lit v.toInt, .lit (litHi v))

/-! ## The expansions -/

/-- The operators of `Expand_Split_UOP` on registers. -/
inductive Uop where
  | bnot
  | neg
  | lda
  deriving DecidableEq

/-- `Expand_Split_UOP` of a register source. -/
def expandSplitUop (site : Nat) (opr : Uop) (result : TN) (src : RegSrc) : List Instr :=
  let h := src.upper (.tmp site 0)
  h.1 ++ match opr with
  | .bnot => [.not 32 result src.lo, .not 32 result.hi h.2]
  | .neg =>
    [.neg 32 result src.lo,
     .bin .adc 32 (.tmp site 1) h.2 (.lit 0),
     .neg 32 result.hi (.tmp site 1)]
  | .lda => [.mov 32 result src.lo, .mov 32 result.hi h.2]

/-- `Expand_Split_UOP` of `OPR_INTCONST`. -/
def expandSplitIntconst (signed : Bool) (result : TN) (v : BitVec 64) : List Instr :=
  if signed then [.ldc 32 result (litLo v), .ldc 32 result.hi (litHi v)]
  else
    [.ldc 32 result ((v <<< 32) >>> 32).toNat, .ldc 32 result.hi (v >>> 32).toNat]

/-- The operators of `Expand_Split_BOP`. -/
inductive Bop where
  | add
  | sub
  | band
  | bxor
  | bior
  deriving DecidableEq

/-- The instructions for the low and for the high half. -/
@[simp] def Bop.tops : Bop → BinOp × BinOp
  | .add => (.add, .adc)
  | .sub => (.sub, .sbb)
  | .band => (.and, .and)
  | .bxor => (.xor, .xor)
  | .bior => (.or, .or)

def expandSplitBop (site : Nat) (opr : Bop) (result : TN) (src1 : RegSrc) (src2 : Src) :
    List Instr :=
  let h2 := src2.halves (.tmp site 0)
  let h1 := src1.upper (.tmp site 1)
  h2.1 ++ h1.1 ++
    [.bin opr.tops.1 32 result src1.lo h2.2.1, .bin opr.tops.2 32 result.hi h1.2 h2.2.2]

def expandSplitMultiply (site : Nat) (result : TN) (src1 src2 : RegSrc) : List Instr :=
  let tmp := TN.tmp site 0
  let tmp1 := TN.tmp site 1
  let tmpHi := TN.tmp site 2
  let h2 := src2.upper (.tmp site 3)
  let first : List Instr := match src1 with
    | .pair t => [.bin .imul 32 tmp t.hi src2.lo]
    | .low _ => []
  let sum : List Instr × TN := match src1 with
    | .pair _ => ([.bin .add 32 (.tmp site 4) tmp tmp1], .tmp site 4)
    | .low _ => ([], tmp1)
  first ++ h2.1 ++ [.bin .imul 32 tmp1 h2.2 src1.lo] ++ sum.1 ++
    [.mul false 32 result tmpHi src1.lo src2.lo, .bin .add 32 result.hi tmpHi sum.2]

/-- The directions of a shift. -/
inductive ShiftDir where
  | left
  | aright
  | lright
  deriving DecidableEq

/-- `Expand_Split_Shift` by a literal. -/
def expandSplitShiftLit (site : Nat) (dir : ShiftDir) (result : TN) (src : RegSrc) (amt : Int) :
    List Instr :=
  let h := src.upper (.tmp site 0)
  h.1 ++
  if amt ≥ 32 then
    match dir with
    | .left => [.bin .shl 32 result.hi src.lo (.lit (amt - 32)), .ldc 32 result 0]
    | .aright => [.bin .sar 32 result h.2 (.lit (amt - 32)), .bin .sar 32 result.hi h.2 (.lit 31)]
    | .lright => [.bin .shr 32 result h.2 (.lit (amt - 32)), .ldc 32 result.hi 0]
  else
    match dir with
    | .left =>
      [.shd true result.hi h.2 src.lo (.lit amt), .bin .shl 32 result src.lo (.lit amt)]
    | .aright =>
      [.shd false result src.lo h.2 (.lit amt), .bin .sar 32 result.hi h.2 (.lit amt)]
    | .lright =>
      [.shd false result src.lo h.2 (.lit amt), .bin .shr 32 result.hi h.2 (.lit amt)]

/-- `Expand_Split_Shift` by a register, modulo 32; `bb_then` moves the half that is left when bit 5
is set. -/
def expandSplitShift (site : Nat) (dir : ShiftDir) (dedicated : Bool) (result : TN)
    (src : RegSrc) (shift : TN) : List Instr :=
  let h := src.upper (.tmp site 0)
  let r := if dedicated then TN.tmp site 1 else result
  let bbExit := 0
  h.1 ++
  (match dir with
    | .left => [.shd true r.hi h.2 src.lo shift, .bin .shl 32 r src.lo shift]
    | .aright => [.shd false r src.lo h.2 shift, .bin .sar 32 r.hi h.2 shift]
    | .lright => [.shd false r src.lo h.2 shift, .bin .shr 32 r.hi h.2 shift]) ++
  [.test 32 shift (.lit 32), .jcc .e bbExit] ++
  (match dir with
    | .left => [.mov 32 r.hi r, .ldc 32 r 0]
    | .aright => [.mov 32 r r.hi, .bin .sar 32 r.hi r.hi (.lit 31)]
    | .lright => [.mov 32 r r.hi, .ldc 32 r.hi 0]) ++
  [.label bbExit] ++
  if dedicated then expandSplitUop site .lda result (.pair r) else []

/-- The extensions that `Expand_Split_Cvtl` knows. -/
inductive Cvtl where
  | movsbq
  | movswq
  | movslq
  | movzbq
  | movzwq
  | mov32
  deriving DecidableEq

def Cvtl.signed : Cvtl → Bool
  | .movsbq | .movswq | .movslq => true
  | _ => false

/-- The number of bits that are extended. -/
def Cvtl.from : Cvtl → Nat
  | .movsbq | .movzbq => 8
  | .movswq | .movzwq => 16
  | .movslq | .mov32 => 32

def expandSplitCvtl (top : Cvtl) (result src : TN) : List Instr :=
  match top with
  | .movsbq => [.movx true 8 32 result src, .bin .sar 32 result.hi src (.lit 31)]
  | .movswq => [.movx true 16 32 result src, .bin .sar 32 result.hi src (.lit 31)]
  | .movslq => [.mov 32 result src, .bin .sar 32 result.hi src (.lit 31)]
  | .movzbq => [.movx false 8 32 result src, .ldc 32 result.hi 0]
  | .movzwq => [.movx false 16 32 result src, .ldc 32 result.hi 0]
  | .mov32 => [.mov 32 result src, .ldc 32 result.hi 0]

/-- `Expand_Split_Abs`, which branches on the sign of the second TN. -/
def expandSplitAbs (site : Nat) (dedicated : Bool) (dest src : TN) : List Instr :=
  let result := if dedicated then TN.tmp site 2 else dest
  let bbExit := 0
  expandSplitUop site .lda result (.pair src) ++
  [.test 32 src.hi src.hi, .jcc .ge bbExit] ++
  expandSplitUop site .neg result (.pair src) ++
  [.label bbExit] ++
  if dedicated then expandSplitUop site .lda dest (.pair result) else []

/-- `Expand_Cmov` of the condition `e`; a processor without `cmov` branches around a move. -/
def expandCmovE (hasCmov : Bool) (bbExit : Nat) (result src : TN) : List Instr :=
  if hasCmov then [.cmov .e result src]
  else [.jcc .ne bbExit, .mov 32 result src, .label bbExit]

def expandSplitLeadingZeros (site : Nat) (hasCmov safezero : Bool) (dest src : TN) : List Instr :=
  let tmp1 := TN.tmp site 1
  let tmp2 := TN.tmp site 2
  let tmp3 := TN.tmp site 3
  let tmp4 := TN.tmp site 4
  (if safezero then [.ldc 32 tmp1 127] else []) ++
  [.bsr tmp2 src] ++
  (if safezero then expandCmovE hasCmov 0 tmp2 tmp1 else []) ++
  [.bin .xor 32 tmp3 tmp2 (.lit 32), .bsr tmp4 src.hi] ++
  expandCmovE hasCmov 1 tmp4 tmp3 ++
  [.bin .xor 32 dest tmp4 (.lit 31)]

/-- The 64-bit comparisons and tests, replaced by the 32-bit ones. -/
inductive CmpOp where
  | cmp
  | test
  deriving DecidableEq

def CmpOp.instr (op : CmpOp) (n : Nat) (a : TN) (b : Opnd) : Instr :=
  match op with
  | .cmp => .cmp n a b
  | .test => .test n a b

/-- The ten conditions of integer comparisons, by the suffix of `set` and `j`. -/
inductive CmpCond where
  | e
  | ne
  | l
  | le
  | g
  | ge
  | b
  | be
  | a
  | ae
  deriving DecidableEq

def CmpCond.cond : CmpCond → Cond
  | .e => .e | .ne => .ne | .l => .l | .le => .le | .g => .g | .ge => .ge
  | .b => .b | .be => .be | .a => .a | .ae => .ae

/-- The jump that decides for the condition on the high halves. -/
def CmpCond.hiYes : CmpCond → Option Cond
  | .e => none
  | .g | .ge => some .g
  | .a | .ae => some .a
  | .l | .le => some .l
  | .b | .be => some .b
  | .ne => some .ne

/-- The jump that decides against the condition on the high halves. -/
def CmpCond.hiNo : CmpCond → Option Cond
  | .ne => none
  | .g | .ge => some .l
  | .a | .ae => some .b
  | .l | .le => some .g
  | .b | .be => some .a
  | .e => some .ne

/-- The jump on the low halves, which are unsigned. -/
def CmpCond.low : CmpCond → Cond
  | .g | .a => .a
  | .ge | .ae => .ae
  | .l | .b => .b
  | .le | .be => .be
  | .ne => .ne
  | .e => .e

/-- A source that shares its TN with the result `d` is copied. -/
def RegSrc.apart (site k : Nat) (d : TN) (src : RegSrc) : List Instr × RegSrc :=
  if d = src.lo then (expandSplitUop site .lda (.tmp site k) src, .pair (.tmp site k))
  else ([], src)

def Src.apart (site k : Nat) (d : TN) : Src → List Instr × Src
  | .reg q => ((q.apart site k d).1, .reg (q.apart site k d).2)
  | .lit v => ([], .lit v)

def expandSplitIntCmp (site : Nat) (op : CmpOp) (src1 : RegSrc) (src2 : Src) (set : CmpCond)
    (dedicated paired : Bool) (result : TN) : List Instr :=
  let bbNonSet := 0
  let bbExit := 1
  let r := if dedicated then TN.tmp site 6 else result
  let c1 := src1.apart site 2 r
  let c2 := src2.apart site 3 r
  let h1 := c1.2.upper (.tmp site 4)
  let h2 := c2.2.cmpHalves (.tmp site 5)
  let cmpHi := op.instr 32 h1.2 h2.2.2
  c1.1 ++ c2.1 ++ [.ldc 32 r 1] ++ h1.1 ++ h2.1 ++
  (match set.hiYes with
    | some c => [cmpHi, .jcc c bbExit]
    | none => []) ++
  (match set.hiNo with
    | some c => [cmpHi, .jcc c bbNonSet]
    | none => []) ++
  [op.instr 32 c1.2.lo h2.2.1, .jcc set.low bbExit, .label bbNonSet] ++
  [.ldc 32 r 0, .label bbExit] ++
  (if dedicated then
    .mov 32 result r :: if paired then [.ldc 32 result.hi 0] else []
  else [.ldc 32 result.hi 0])

/-- `CGTARG_Invert`. -/
def CmpCond.invert : CmpCond → CmpCond
  | .e => .ne | .ne => .e | .l => .ge | .ge => .l | .le => .g | .g => .le
  | .b => .ae | .ae => .b | .be => .a | .a => .be

/-- The condition without equality. -/
def CmpCond.strict : CmpCond → CmpCond
  | .ge => .g | .ae => .a | .le => .l | .be => .b
  | c => c

/-- `Expand_Split_Branch`; `targ` is the label of the branch. -/
def expandSplitBranch (site : Nat) (op : CmpOp) (src1 : RegSrc) (src2 : Src) (jmp : CmpCond)
    (targ : Nat) : List Instr :=
  let bbExit := targ + 1
  let h2 := src2.cmpHalves (.tmp site 0)
  let h1 := src1.upper (.tmp site 1)
  let cmpHi := op.instr 32 h1.2 h2.2.2
  h2.1 ++ h1.1 ++
  (if jmp ≠ .e then [cmpHi, .jcc jmp.strict.cond targ] else []) ++
  (if jmp ≠ .ne then [cmpHi, .jcc jmp.invert.strict.cond bbExit] else []) ++
  [op.instr 32 src1.lo h2.2.1, .jcc jmp.low targ, .label bbExit]

/-! ## Halves -/

/-- Run `code` from `s` to its end, with `v` in the pair of `t`. -/
def Produces (code : List Instr) (s : State) (t : TN) (v : BitVec 64) : Prop :=
  ∃ s', exec code s = some s' ∧ s'.pairVal t = v

theorem toNat_pair (h l : BitVec 32) : (pair h l).toNat = h.toNat * 2 ^ 32 + l.toNat := by
  unfold pair
  rw [toNat_append, ← Nat.shiftLeft_add_eq_or_of_lt l.isLt, Nat.shiftLeft_eq]

theorem getLsbD_pair (h l : BitVec 32) (i : Nat) :
    (pair h l).getLsbD i = if i < 32 then l.getLsbD i else h.getLsbD (i - 32) :=
  getLsbD_append

theorem pair_inj {h l h' l' : BitVec 32} : pair h l = pair h' l' ↔ h = h' ∧ l = l' := by
  constructor
  · intro heq
    have hn := congrArg BitVec.toNat heq
    rw [toNat_pair, toNat_pair] at hn
    have := l.isLt
    have := l'.isLt
    exact ⟨eq_of_toNat_eq (by omega), eq_of_toNat_eq (by omega)⟩
  · rintro ⟨rfl, rfl⟩
    rfl

variable {n c : Nat} {s : State} {v : BitVec 64} {src1 : RegSrc}

theorem ofInt_toInt {m : Nat} (v : BitVec n) (h : m ≤ n) : BitVec.ofInt m v.toInt = v.setWidth m:=
  signExtend_eq_setWidth_of_le v h

theorem pair_halves (v : BitVec 64) : pair ((v >>> 32).setWidth 32) (v.setWidth 32) = v := by
  apply eq_of_toNat_eq
  rw [toNat_pair, toNat_setWidth, toNat_setWidth, toNat_ushiftRight,
    Nat.shiftRight_eq_div_pow]
  have := v.isLt
  omega

theorem ofInt_litHi (v : BitVec 64) : BitVec.ofInt 32 (litHi v) = (v >>> 32).setWidth 32 := by
  unfold litHi
  rw [ofInt_toInt _ (by decide)]
  apply eq_of_getLsbD_eq
  intro i hi
  simp only [getLsbD_setWidth, getLsbD_sshiftRight, getLsbD_ushiftRight]
  simp [show ¬ 64 ≤ i by omega, show 32 + i < 64 by omega]

theorem ofInt_litLo (v : BitVec 64) : BitVec.ofInt 32 (litLo v) = v.setWidth 32 := by
  unfold litLo
  rw [ofInt_toInt _ (by decide)]
  apply eq_of_getLsbD_eq
  intro i hi
  simp only [getLsbD_setWidth, getLsbD_sshiftRight, getLsbD_shiftLeft]
  simp [show ¬ 64 ≤ i by omega, show 32 + i < 64 by omega]

/-- A register source of the caller, whose second TN is not the result's. -/
def RegSrc.Named (r : Nat) : RegSrc → Prop
  | .pair (.var _) => True
  | .low (.var x) => x ≠ r
  | _ => False

def Src.Named (r : Nat) : Src → Prop
  | .reg q => q.Named r
  | .lit _ => True

/-- What the operators compute. -/
@[simp] def Uop.apply (v : BitVec 64) : Uop → BitVec 64
  | .bnot => ~~~v
  | .neg => -v
  | .lda => v

@[simp] def Bop.apply (v v' : BitVec 64) : Bop → BitVec 64
  | .add => v + v'
  | .sub => v - v'
  | .band => v &&& v'
  | .bxor => v ^^^ v'
  | .bior => v ||| v'

/-- A shift takes its count modulo 64. -/
@[simp] def ShiftDir.apply (v : BitVec 64) (c : Nat) : ShiftDir → BitVec 64
  | .left => v <<< (c % 64)
  | .aright => v.sshiftRight (c % 64)
  | .lright => v >>> (c % 64)

/-- The extension of the low bits of a 32-bit source. -/
def Cvtl.apply (v : BitVec 32) (top : Cvtl) : BitVec 64 :=
  if top.signed then (v.setWidth top.from).signExtend 64 else (v.setWidth top.from).setWidth 64

/-! ## Straight-line expansions -/

theorem setWidth_eq_pair (l : BitVec 32) : l.setWidth 64 = pair 0#32 l := by
  apply eq_of_toNat_eq
  rw [toNat_pair, toNat_setWidth]
  have := l.isLt
  simp only [toNat_ofNat]
  omega

theorem not_pair (h l : BitVec 32) : pair (~~~h) (~~~l) = ~~~pair h l := not_append.symm

section

variable (h l h' l' : BitVec 32)
include h l h' l'

theorem and_pair : pair (h &&& h') (l &&& l') = pair h l &&& pair h' l':= and_append.symm

theorem or_pair : pair (h ||| h') (l ||| l') = pair h l ||| pair h' l':= or_append.symm

theorem xor_pair : pair (h ^^^ h') (l ^^^ l') = pair h l ^^^ pair h' l':= xor_append.symm

theorem add_pair :
    pair (h + h' + BitVec.ofNat 32 (decide (2 ^ 32 ≤ l.toNat + l'.toNat)).toNat) (l + l')
      = pair h l + pair h' l' := by
  apply eq_of_toNat_eq
  simp only [toNat_pair, toNat_add, toNat_ofNat]
  have := l.isLt
  have := l'.isLt
  by_cases hc : 2 ^ 32 ≤ l.toNat + l'.toNat
  · simp only [hc, decide_true, Bool.toNat_true]
    omega
  · simp only [hc, decide_false, Bool.toNat_false]
    omega

theorem sub_pair :
    pair (h - h' - BitVec.ofNat 32 (l.ult l').toNat) (l - l') = pair h l - pair h' l' := by
  apply eq_of_toNat_eq
  rw [ult_eq_decide]
  simp only [toNat_pair, toNat_sub, toNat_ofNat]
  have := h.isLt
  have := h'.isLt
  have := l.isLt
  have := l'.isLt
  by_cases hc : l.toNat < l'.toNat
  · simp only [hc, decide_true, Bool.toNat_true]
    omega
  · simp only [hc, decide_false, Bool.toNat_false]
    omega

end

theorem neg_pair (h l : BitVec 32) :
    pair (-(h + BitVec.ofNat 32 (BitVec.ult 0#32 l).toNat)) (-l) = -pair h l := by
  apply eq_of_toNat_eq
  rw [ult_eq_decide]
  simp only [toNat_pair, toNat_neg, toNat_add, toNat_ofNat]
  have := h.isLt
  have := l.isLt
  by_cases hl : 0 % 2 ^ 32 < l.toNat
  · simp only [hl, decide_true, Bool.toNat_true]
    omega
  · simp only [hl, decide_false, Bool.toNat_false]
    omega

theorem mul_pair (h l h' l' : BitVec 32) :
    pair ((product false l l' >>> 32).setWidth 32 + (h * l' + h' * l))
      ((product false l l').setWidth 32) = pair h l * pair h' l' := by
  apply eq_of_toNat_eq
  have hp : (product false l l').toNat = l.toNat * l'.toNat := by
    have := Nat.mul_lt_mul'' l.isLt l'.isLt
    show (BitVec.ofNat 64 (l.toNat * l'.toNat)).toNat = _
    rw [toNat_ofNat]
    exact Nat.mod_eq_of_lt this
  have hexp : (h.toNat * 2 ^ 32 + l.toNat) * (h'.toNat * 2 ^ 32 + l'.toNat)
      = 2 ^ 64 * (h.toNat * h'.toNat) + 2 ^ 32 * (h.toNat * l'.toNat + h'.toNat * l.toNat)
        + l.toNat * l'.toNat := by ring
  simp only [toNat_pair, toNat_mul, toNat_add, toNat_setWidth,
    toNat_ushiftRight, Nat.shiftRight_eq_div_pow, hp, hexp]
  generalize h.toNat * h'.toNat = a
  generalize h.toNat * l'.toNat = b
  generalize h'.toNat * l.toNat = c
  generalize l.toNat * l'.toNat = d
  omega

theorem RegSrc.named_cases {r : Nat} {src : RegSrc} (h : src.Named r) :
    (∃ x, src = .pair (.var x)) ∨ (∃ x, x ≠ r ∧ src = .low (.var x)) := by
  rcases src with ⟨x | _ | _⟩ | ⟨x | _ | _⟩
  · exact .inl ⟨x, rfl⟩
  · exact h.elim
  · exact h.elim
  · exact .inr ⟨x, h, rfl⟩
  · exact h.elim
  · exact h.elim

theorem splitUop_ok (site : Nat) (opr : Uop) (r : Nat) {src : RegSrc} (hsrc : src.Named r)
    (s : State) :
    Produces (expandSplitUop site opr (.var r) src) s (.var r) (opr.apply (src.val s)) := by
  unfold Produces expandSplitUop
  cases opr with
  | bnot =>
    rcases RegSrc.named_cases hsrc with ⟨x, rfl⟩ | ⟨x, -, rfl⟩
    · simpa using not_pair _ _
    · simpa [setWidth_eq_pair] using not_pair 0#32 _
  | neg =>
    rcases RegSrc.named_cases hsrc with ⟨x, rfl⟩ | ⟨x, -, rfl⟩
    · simpa [subFlags] using neg_pair _ _
    · simpa [subFlags, setWidth_eq_pair] using neg_pair 0#32 _
  | lda =>
    rcases RegSrc.named_cases hsrc with ⟨x, rfl⟩ | ⟨x, -, rfl⟩
    · simp
    · simp [setWidth_eq_pair]

theorem splitIntconst_ok (signed : Bool) (r : Nat) (v : BitVec 64) (s : State) :
    Produces (expandSplitIntconst signed (.var r) v) s (.var r) v := by
  unfold Produces expandSplitIntconst
  cases signed with
  | true => simp [ofInt_litHi, ofInt_litLo, pair_halves]
  | false =>
    have hlo : BitVec.ofInt 32 ((v <<< 32) >>> 32).toNat = v.setWidth 32 := by
      apply eq_of_toNat_eq
      rw [ofInt_natCast, toNat_ofNat, toNat_setWidth, toNat_ushiftRight,
        toNat_shiftLeft, Nat.shiftRight_eq_div_pow, Nat.shiftLeft_eq]
      omega
    have hhi : BitVec.ofInt 32 (v >>> 32).toNat = (v >>> 32).setWidth 32 := by
      rw [ofInt_natCast]
      rfl
    simp only [Bool.false_eq_true, if_false, hlo, hhi, exec, run, Instr.exec]
    simp [pair_halves]

theorem bop_core (opr : Bop) (r : Nat) {a ah : TN} {b bh : Opnd} (hah : ah ≠ .var r)
    (hbh : bh ≠ .tn (.var r)) (s : State) :
    Produces [.bin opr.tops.1 32 (.var r) a b, .bin opr.tops.2 32 (.hi (.var r)) ah bh] s (.var r)
      (opr.apply (pair (s.read 32 ah) (s.read 32 a)) (pair (s.opnd 32 bh) (s.opnd 32 b))) := by
  have hread : ∀ (v : BitVec 32) (f : Flags),
      ((s.write (.var r) v).setFlags f).opnd 32 bh = s.opnd 32 bh := by
    intro v f
    cases bh with
    | tn t =>
      have ht : t ≠ .var r := fun h => hbh (h ▸ rfl)
      simp [ht]
    | lit v => rfl
  unfold Produces
  cases opr with
  | add => simpa [-State.opnd, hah, hread] using add_pair _ _ _ _
  | sub => simpa [-State.opnd, hah, hread, subFlags] using sub_pair _ _ _ _
  | band => simpa [-State.opnd, hah, hread] using and_pair _ _ _ _
  | bxor => simpa [-State.opnd, hah, hread] using xor_pair _ _ _ _
  | bior => simpa [-State.opnd, hah, hread] using or_pair _ _ _ _

theorem produces_ldc {t : TN} {c : Int} {code : List Instr} {r : TN} :
    Produces (.ldc 32 t c :: code) s r v ↔ Produces code (s.write t (BitVec.ofInt 32 c)) r v :=
  Iff.rfl

theorem Produces.of_eq {code : List Instr} {r : TN} {v' : BitVec 64}
    (h : Produces code s r v) (heq : v = v') : Produces code s r v' := heq ▸ h

theorem splitBop_ok (site : Nat) (opr : Bop) (r : Nat) {src2 : Src}
    (hsrc1 : src1.Named r) (hsrc2 : src2.Named r) (s : State) :
    Produces (expandSplitBop site opr (.var r) src1 src2) s (.var r)
      (opr.apply (src1.val s) (src2.val s)) := by
  rcases RegSrc.named_cases hsrc1 with ⟨x, rfl⟩ | ⟨x, -, rfl⟩
  · rcases src2 with q | v
    · rcases RegSrc.named_cases hsrc2 with ⟨y, rfl⟩ | ⟨y, -, rfl⟩
      · exact bop_core opr r (by simp) (by simp) s
      · exact produces_ldc.mpr ((bop_core opr r (by simp) (by simp) _).of_eq
          (by simp [setWidth_eq_pair]))
    · exact (bop_core opr r (by simp) (by simp) s).of_eq
        (by simp [ofInt_litHi, ofInt_litLo, pair_halves])
  · rcases src2 with q | v
    · rcases RegSrc.named_cases hsrc2 with ⟨y, rfl⟩ | ⟨y, -, rfl⟩
      · exact produces_ldc.mpr ((bop_core opr r (by simp) (by simp) _).of_eq
          (by simp [setWidth_eq_pair]))
      · exact produces_ldc.mpr (produces_ldc.mpr ((bop_core opr r (by simp) (by simp) _).of_eq
          (by simp [setWidth_eq_pair])))
    · exact produces_ldc.mpr ((bop_core opr r (by simp) (by simp) _).of_eq
        (by simp [ofInt_litHi, ofInt_litLo, pair_halves, setWidth_eq_pair]))

theorem splitMultiply_ok (site r : Nat) {src2 : RegSrc} (hsrc1 : src1.Named r)
    (hsrc2 : src2.Named r) (s : State) :
    Produces (expandSplitMultiply site (.var r) src1 src2) s (.var r) (src1.val s * src2.val s):= by
  unfold Produces expandSplitMultiply
  rcases RegSrc.named_cases hsrc1 with ⟨x, rfl⟩ | ⟨x, -, rfl⟩
  · rcases RegSrc.named_cases hsrc2 with ⟨y, rfl⟩ | ⟨y, -, rfl⟩
    · simpa using mul_pair _ _ _ _
    · simpa [setWidth_eq_pair] using mul_pair _ _ 0#32 _
  · rcases RegSrc.named_cases hsrc2 with ⟨y, rfl⟩ | ⟨y, -, rfl⟩
    · simpa [setWidth_eq_pair] using mul_pair 0#32 _ _ _
    · simpa [setWidth_eq_pair] using mul_pair 0#32 _ 0#32 _

/-! ## Shifts -/

section

variable (h l : BitVec 32)
include h l

theorem msb_pair : (pair h l).msb = h.msb := by
  rw [msb_eq_getLsbD_last, msb_eq_getLsbD_last, getLsbD_pair]
  rfl

theorem shl_pair_lt (hc : c < 32) : pair (shiftDouble true h l c) (l <<< c) = pair h l <<< c := by
  apply eq_of_getLsbD_eq
  intro i hi
  simp only [shiftDouble, if_true, getLsbD_pair, getLsbD_shiftLeft, getLsbD_or,
    getLsbD_ushiftRight]
  by_cases h32 : i < 32
  · simp [h32, hi, show i - c < 32 by omega]
  · by_cases hlow : i - c < 32
    · simp [h32, hi, hlow, show i - 32 < c by omega, show ¬ i < c by omega,
        show 32 - c + (i - 32) = i - c by omega]
    · simp [h32, hi, hlow, show ¬ i - 32 < c by omega, show ¬ i < c by omega,
        show i - 32 < 32 by omega, show i - 32 - c = i - c - 32 by omega,
        getLsbD_of_ge l (32 - c + (i - 32)) (by omega)]

theorem shl_pair_ge (c : Nat) : pair (l <<< c) 0#32 = pair h l <<< (c + 32) := by
  apply eq_of_getLsbD_eq
  intro i hi
  simp only [getLsbD_pair, getLsbD_shiftLeft]
  by_cases h32 : i < 32
  · simp [h32, show i < c + 32 by omega]
  · by_cases hc : i - 32 < c
    · simp [h32, hc, show i < c + 32 by omega]
    · simp [h32, hi, hc, show ¬ i < c + 32 by omega, show i - 32 < 32 by omega,
        show i - (c + 32) < 32 by omega, show i - 32 - c = i - (c + 32) by omega]

theorem shr_low {i : Nat} (hc : c < 32) (hi : i < 32) :
    (shiftDouble false l h c).getLsbD i = (pair h l).getLsbD (c + i) := by
  simp only [shiftDouble, Bool.false_eq_true, if_false, getLsbD_pair, getLsbD_shiftLeft,
    getLsbD_or, getLsbD_ushiftRight]
  by_cases hlow : c + i < 32
  · simp [hlow, show i < 32 - c by omega]
  · simp [hlow, hi, show ¬ i < 32 - c by omega, show i - (32 - c) = c + i - 32 by omega,
      getLsbD_of_ge l (c + i) (by omega)]

theorem lshr_pair_lt (hc : c < 32) :
    pair (h >>> c) (shiftDouble false l h c) = pair h l >>> c := by
  apply eq_of_getLsbD_eq
  intro i hi
  rw [getLsbD_pair, getLsbD_ushiftRight (pair h l)]
  by_cases h32 : i < 32
  · rw [if_pos h32, shr_low h l hc h32]
  · rw [if_neg h32, getLsbD_ushiftRight, getLsbD_pair, if_neg (by omega),
      show c + i - 32 = c + (i - 32) by omega]

theorem lshr_pair_ge (c : Nat) : pair 0#32 (h >>> c) = pair h l >>> (c + 32):= by
  apply eq_of_getLsbD_eq
  intro i hi
  simp only [getLsbD_pair, getLsbD_ushiftRight]
  by_cases h32 : i < 32
  · simp [h32, show ¬ c + 32 + i < 32 by omega, show c + 32 + i - 32 = c + i by omega]
  · simp [h32, show ¬ c + 32 + i < 32 by omega,
      getLsbD_of_ge h (c + 32 + i - 32) (by omega)]

theorem ashr_pair_lt (hc : c < 32) :
    pair (h.sshiftRight c) (shiftDouble false l h c) = (pair h l).sshiftRight c := by
  apply eq_of_getLsbD_eq
  intro i hi
  rw [getLsbD_pair, getLsbD_sshiftRight (pair h l), msb_pair]
  by_cases h32 : i < 32
  · rw [if_pos h32, shr_low h l hc h32]
    simp [show ¬ 64 ≤ i by omega, show c + i < 64 by omega]
  · rw [if_neg h32, getLsbD_sshiftRight, getLsbD_pair]
    by_cases h64 : c + i < 64
    · simp [h64, show c + (i - 32) < 32 by omega, show ¬ 32 ≤ i - 32 by omega,
        show ¬ 64 ≤ i by omega, show ¬ c + i < 32 by omega,
        show c + i - 32 = c + (i - 32) by omega]
    · simp [h64, show ¬ c + (i - 32) < 32 by omega, show ¬ 32 ≤ i - 32 by omega,
        show ¬ 64 ≤ i by omega]

theorem ashr_pair_ge (c : Nat) :
    pair (h.sshiftRight 31) (h.sshiftRight c) = (pair h l).sshiftRight (c + 32) := by
  apply eq_of_getLsbD_eq
  intro i hi
  simp only [getLsbD_pair, getLsbD_sshiftRight, msb_pair]
  by_cases h32 : i < 32
  · by_cases hlow : c + i < 32
    · simp [h32, hlow, show ¬ 32 ≤ i by omega, show ¬ 64 ≤ i by omega,
        show c + 32 + i < 64 by omega, show ¬ c + 32 + i < 32 by omega,
        show c + 32 + i - 32 = c + i by omega]
    · simp [h32, hlow, show ¬ 32 ≤ i by omega, show ¬ 64 ≤ i by omega,
        show ¬ c + 32 + i < 64 by omega]
  · have hmsb : (if 31 + (i - 32) < 32 then h.getLsbD (31 + (i - 32)) else h.msb) = h.msb := by
      by_cases hlast : i = 32
      · subst hlast
        simp [msb_eq_getLsbD_last]
      · rw [if_neg (by omega)]
    rw [if_neg h32, hmsb]
    simp [show ¬ c + 32 + i < 64 by omega, show ¬ 32 ≤ i - 32 by omega, show ¬ 64 ≤ i by omega]

end

theorem count_lit (hc : c < 32) : count (BitVec.ofNat 32 c) = c := by
  unfold count
  rw [toNat_ofNat]
  omega

section

variable (site : Nat) (dir : ShiftDir) (r : Nat) {src : RegSrc} (hsrc : src.Named r)
include site dir r hsrc

theorem splitShiftLit_ge (hc : c < 32) (s : State) :
    Produces (expandSplitShiftLit site dir (.var r) src (c + 32 : Nat)) s (.var r)
      (dir.apply (src.val s) (c + 32)) := by
  have hmod : (c + 32) % 64 = c + 32 := Nat.mod_eq_of_lt (by omega)
  have hlit : ((c + 32 : Nat) : Int) - 32 = c := by omega
  have h31 : count 31#32 = 31 := rfl
  have hge : ((c + 32 : Nat) : Int) ≥ 32 := by omega
  unfold Produces expandSplitShiftLit
  simp only [if_pos hge, hlit]
  cases dir with
  | left =>
    rcases RegSrc.named_cases hsrc with ⟨x, rfl⟩ | ⟨x, -, rfl⟩
    · simpa [count_lit hc, hmod] using shl_pair_ge _ _ c
    · simpa [count_lit hc, hmod, setWidth_eq_pair] using shl_pair_ge 0#32 _ c
  | aright =>
    rcases RegSrc.named_cases hsrc with ⟨x, rfl⟩ | ⟨x, -, rfl⟩
    · simpa [count_lit hc, hmod, h31] using ashr_pair_ge _ _ c
    · simpa [count_lit hc, hmod, h31, setWidth_eq_pair] using ashr_pair_ge 0#32 _ c
  | lright =>
    rcases RegSrc.named_cases hsrc with ⟨x, rfl⟩ | ⟨x, -, rfl⟩
    · simpa [count_lit hc, hmod] using lshr_pair_ge _ _ c
    · simpa [count_lit hc, hmod, setWidth_eq_pair] using lshr_pair_ge 0#32 _ c

theorem splitShiftLit_lt (hc : c < 32) (s : State) :
    Produces (expandSplitShiftLit site dir (.var r) src c) s (.var r) (dir.apply (src.val s) c):= by
  have hmod : c % 64 = c := Nat.mod_eq_of_lt (by omega)
  have hlt : ¬ (c : Int) ≥ 32 := by omega
  unfold Produces expandSplitShiftLit
  simp only [if_neg hlt]
  cases dir with
  | left =>
    rcases RegSrc.named_cases hsrc with ⟨x, rfl⟩ | ⟨x, -, rfl⟩
    · simpa [count_lit hc, hmod] using shl_pair_lt _ _ hc
    · simpa [count_lit hc, hmod, setWidth_eq_pair] using shl_pair_lt 0#32 _ hc
  | aright =>
    rcases RegSrc.named_cases hsrc with ⟨x, rfl⟩ | ⟨x, -, rfl⟩
    · simpa [count_lit hc, hmod] using ashr_pair_lt _ _ hc
    · simpa [count_lit hc, hmod, setWidth_eq_pair] using ashr_pair_lt 0#32 _ hc
  | lright =>
    rcases RegSrc.named_cases hsrc with ⟨x, rfl⟩ | ⟨x, -, rfl⟩
    · simpa [count_lit hc, hmod] using lshr_pair_lt _ _ hc
    · simpa [count_lit hc, hmod, setWidth_eq_pair] using lshr_pair_lt 0#32 _ hc

theorem splitShiftLit_ok (hn : n < 64) (s : State) :
    Produces (expandSplitShiftLit site dir (.var r) src n) s (.var r) (dir.apply (src.val s) n):= by
  by_cases hbig : n < 32
  · exact splitShiftLit_lt site dir r hsrc hbig s
  · obtain ⟨c, rfl⟩ : ∃ c, n = c + 32 := ⟨n - 32, by omega⟩
    exact splitShiftLit_ge site dir r hsrc (by omega) s

end

end X8664
