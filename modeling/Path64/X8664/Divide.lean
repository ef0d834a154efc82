import Path64.Lib.Magic
import Path64.X8664.SplitBlocks

/-! # Division by a constant

`Expand_Integer_Divide_By_Constant` and what it calls: the multipliers
that the compiler computes, and the code that it emits.

Compile-time numbers are the `UINT` and `UINT64` of the source; a
`UINT64` that the source may push over its top is cut by `word`. -/

namespace X8664

open Nat BitVec

/-! ## Types and options -/

/-- The integer types of a division. -/
inductive Mtype where
  | I4
  | U4
  | I8
  | U8
  deriving DecidableEq

def Mtype.isSigned : Mtype → Bool
  | .I4 | .I8 => true
  | .U4 | .U8 => false

def Mtype.isDouble : Mtype → Bool
  | .I8 | .U8 => true
  | .I4 | .U4 => false

/-- `MTYPE_size_reg`. -/
def Mtype.bits (t : Mtype) : Nat := if t.isDouble then 64 else 32

/-- The options of integer division, the target, and whether it has `cmov`. -/
structure Options where
  cvrtIntDivToMult : Bool
  idivbyconstOpt : Bool
  target32bit : Bool
  hasCmov : Bool
  deriving DecidableEq

/-- What the expansion comes to: a stop of the compiler, `FALSE`, or code. -/
inductive Expanded where
  | stop
  | no
  | yes (code : List Instr)
  deriving DecidableEq

/-- A `UINT64`. -/
def word (n : Nat) : Nat := n % 2 ^ 64

/-- The assertion of `Expand_Shift`: a literal count is below the size of the operand. -/
def Instr.countOk : Instr → Bool
  | .bin .shl n _ _ (.lit c) | .bin .shr n _ _ (.lit c) | .bin .sar n _ _ (.lit c) =>
    decide (0 ≤ c) && decide (c < n)
  | _ => true

def emit (code : List Instr) : Expanded := if code.all Instr.countOk then .yes code else .stop

/-! ## Powers of two -/

/-- `IS_POWER_OF_2`. -/
def bitPowerOf2 (v : BitVec 64) : Bool := v != 0 && v &&& (v - 1) == 0

/-- The value that `Is_Power_Of_2` and `Get_Power_Of_2` look at. -/
def powerVal (val : Int) (t : Mtype) : Int :=
  let val := if t.isSigned ∧ val < 0 then -val else val
  if t = .U4 then val % 2 ^ 32 else val

def isPowerOf2 (val : Int) (t : Mtype) : Bool := bitPowerOf2 (BitVec.ofInt 64 (powerVal val t))

/-- `Get_Power_Of_2`; nothing where its assertion fails. -/
def getPowerOf2 (val : Int) (t : Mtype) : Option Nat :=
  (List.range t.bits).find? fun i => BitVec.ofInt 64 (powerVal val t) == 1#64 <<< i

def expandPowerOf2Divide (site : Nat) (result numer : TN) (dvsr : Int) (t : Mtype) : Expanded :=
  match getPowerOf2 dvsr t with
  | none => .stop
  | some n =>
    if t.isSigned then
      let absdvsr := if dvsr < 0 then -dvsr else dvsr
      let t1 := TN.tmp site 1
      let t2 := TN.tmp site 2
      let t3 := TN.tmp site 3
      let t4 := TN.tmp site 4
      let t5 := if dvsr < 0 then TN.tmp site 5 else result
      emit ([.bin .sar t.bits t1 numer (.lit (t.bits - 1)),
        .ldc t.bits t2 (absdvsr - 1),
        .bin .and t.bits t3 t1 (.tn t2),
        .bin .add t.bits t4 t3 (.tn numer),
        .bin .sar t.bits t5 t4 (.lit n)] ++
        if dvsr < 0 then [.neg t.bits result t5] else [])
    else emit [.bin .shr t.bits result numer (.lit n)]

/-! ## Multipliers for 32-bit divisors -/

/-- The loop of `log2`, on a `UINT`. -/
def log2Loop : Nat → Nat → Nat → Nat
  | 0, _, t => t
  | fuel + 1, i, t => if i = 0 then t else log2Loop fuel (i >>> 1) (t + 1)

def log2 (i : Nat) : Nat := log2Loop 32 (i >>> 1) 0

/-- The loop that halves a multiplier while it stays above the quotient. -/
def halveLoop : Nat → Nat → Nat → Nat × Nat
  | mHigh, _, 0 => (mHigh, 0)
  | mHigh, mLow, l + 1 =>
    if mLow >>> 1 < mHigh >>> 1 then halveLoop (mHigh >>> 1) (mLow >>> 1) l else (mHigh, l + 1)

/-- The multiplier of `d` for dividends up to `top`: `m_high` and `l`, if there is no division by
zero. -/
def searchMultiplier (top d l : Nat) : Option (Nat × Nat) :=
  let j := top % d
  if top - j = 0 then none
  else
    let p := word (1 <<< (32 + l))
    let k := p / (top - j)
    some (halveLoop (word (p + k) / d) (p / d) l)

/-- The multiplier of a signed divisor; `labs` takes a 64-bit `long`. -/
def signedMultiplier (denom : Int) : Option (Nat × Nat) :=
  let d := (denom % 2 ^ 32).toNat
  searchMultiplier 0x80000000 d (log2 d)

/-- `m`, `s` and `a` of an unsigned divisor below 2 ^ 31, and `n`, the number of factors 2. -/
structure UnsignedMultiplier where
  m : Nat
  s : Nat
  a : Bool
  deriving DecidableEq

/-- `while (!(t & 1)) { t >>= 1; n++; }` on a `UINT` that is not 0. -/
def stripLoop : Nat → Nat → Nat → Nat × Nat
  | 0, t, n => (t, n)
  | fuel + 1, t, n => if t % 2 = 0 then stripLoop fuel (t >>> 1) (n + 1) else (t, n)

def unsignedMultiplier (d : Nat) : Option UnsignedMultiplier :=
  let (t, n) := stripLoop 32 d 0
  (searchMultiplier 0xffffffff t (log2 t + 1)).map fun (mHigh, l) =>
    if mHigh >>> 32 = 0 then ⟨mHigh % 2 ^ 32, l + n, false⟩
    else
      let s := log2 t
      let p := word (1 <<< (32 + s))
      let mLow := p / t
      let r := p % t % 2 ^ 32
      let m := if r < (t >>> 1) + 1 then mLow % 2 ^ 32 else (mLow % 2 ^ 32 + 1) % 2 ^ 32
      ⟨m, s + n, true⟩

/-! ## The steps of the emitted code -/

/-- `Expand_Convert_Length` from 32 to 64 bits, signed. -/
def expandConvertLength (m32 : Bool) (dest src : TN) : List Instr :=
  if m32 then expandSplitCvtl .movslq dest src else [.movx true 32 64 dest src]

/-- `Expand_Immediate` into a 64-bit TN. -/
def expandImmediate8 (m32 : Bool) (dest : TN) (v : Int) : List Instr :=
  if m32 then expandSplitIntconst true dest (BitVec.ofInt 64 v) else [.ldc 64 dest v]

/-- `Expand_Multiply` of `MTYPE_I8`; `src1` is a pair on a 32-bit target, or a 32-bit TN. -/
def expandMultiply8 (m32 : Bool) (site : Nat) (dest : TN) (src1 : RegSrc) (src2 : TN) : List Instr:=
  if m32 then expandSplitMultiply site dest src1 (.pair src2)
  else [.bin .imul 64 dest src1.lo (.tn src2)]

/-- `Expand_Shift` of `MTYPE_I8` by 32, `shift_lright`. -/
def expandHighWord (m32 : Bool) (site : Nat) (dest src : TN) : List Instr :=
  if m32 then expandSplitShiftLit site .lright dest (.pair src) 32
  else [.bin .shr 64 dest src (.lit 32)]

/-- `Expand_Cmov` of two registers; a processor without `cmov` branches around a move. -/
def expandCmov (hasCmov : Bool) (w : Nat) (bbExit : Nat) (c inverse : Cond) (result src : TN) :
    List Instr :=
  if hasCmov then [.cmov c result src]
  else [.jcc inverse bbExit, .mov w result src, .label bbExit]

/-! ## 32-bit divisors -/

/-- A signed division by `e` with the multiplier `mHigh`. -/
def expandSignedMultiplier (o : Options) (site : Nat) (result numer : TN) (e : Int)
    (mHigh s : Nat) : Expanded :=
  let m : Nat := mHigh % 2 ^ 32
  if mHigh >>> 31 ≠ 0 then
    let tmp1 := TN.tmp site 1
    let mult := TN.tmp site 2
    let d := TN.tmp site 3
    let shift := TN.tmp site 4
    let tmp2 := TN.tmp site 5
    let tmp3 := TN.tmp site 6
    let tmp4 := TN.tmp site 7
    emit (expandConvertLength o.target32bit tmp1 numer ++
      expandImmediate8 o.target32bit d (BitVec.ofNat 32 m).toInt ++
      expandMultiply8 o.target32bit (site + 1) mult (.pair tmp1) d ++
      expandHighWord o.target32bit (site + 2) shift mult ++
      [.bin .add 32 tmp2 shift (.tn numer),
       .bin .sar 32 tmp3 numer (.lit 31),
       .bin .sar 32 tmp4 tmp2 (.lit s),
       .bin .sub 32 result tmp4 (.tn tmp3)] ++
      if e > 0 then [.bin .sub 32 result tmp4 (.tn tmp3)]
      else [.bin .sub 32 result tmp3 (.tn tmp4)])
  else if o.target32bit then
    let eax := TN.tmp site 1
    let edx := TN.tmp site 2
    emit ([.ldc 32 eax m, .mul true 32 eax edx eax numer, .mov 32 eax numer] ++
      (if s ≠ 0 then [.bin .sar 32 edx edx (.lit s)] else []) ++
      [.bin .shr 32 eax eax (.lit 31), .bin .add 32 edx edx (.tn eax)] ++
      (if e < 0 then [.neg 32 edx edx] else []) ++
      [.mov 32 result edx])
  else
    let tmp1 := TN.tmp site 1
    let tmp2 := TN.tmp site 2
    let mult := TN.tmp site 3
    let d := TN.tmp site 4
    let shift := TN.tmp site 5
    let tmp3 := TN.tmp site 6
    emit (expandConvertLength false tmp1 numer ++
      [.bin .sar 32 tmp2 numer (.lit 31)] ++
      expandImmediate8 false d m ++
      expandMultiply8 false (site + 1) mult (.pair tmp1) d ++
      expandHighWord false (site + 2) shift mult ++
      (if s ≠ 0 then [.bin .sar 32 tmp3 shift (.lit s)] else [.mov 32 tmp3 shift]) ++
      if e < 0 then [.bin .sub 32 result tmp2 (.tn tmp3)]
      else [.bin .sub 32 result tmp3 (.tn tmp2)])

/-- An unsigned division with a multiplier. -/
def expandUnsignedMultiplier (o : Options) (site : Nat) (result numer : TN)
    (u : UnsignedMultiplier) : Expanded :=
  let tmp1 := TN.tmp site 1
  let tmp2 := TN.tmp site 2
  let tmp3 := TN.tmp site 3
  let tmp4 := TN.tmp site 4
  let d := TN.tmp site 5
  let mult := TN.tmp site 6
  -- on a 32-bit target the dividend has no second TN
  let src := RegSrc.low numer
  if u.a then
    let m : Nat := (2 * u.m + 1) % 2 ^ 32
    emit (expandImmediate8 o.target32bit d m ++
      expandMultiply8 o.target32bit (site + 1) mult src d ++
      expandHighWord o.target32bit (site + 2) tmp1 mult ++
      [.bin .sub 32 tmp2 numer (.tn tmp1),
       .bin .shr 32 tmp3 tmp2 (.lit 1),
       .bin .add 32 tmp4 tmp3 (.tn tmp1),
       .bin .shr 32 result tmp4 (.lit u.s)])
  else
    emit (expandImmediate8 o.target32bit d u.m ++
      expandMultiply8 o.target32bit (site + 1) mult src d ++
      expandHighWord o.target32bit (site + 2) tmp1 mult ++
      [.bin .shr 32 result tmp1 (.lit u.s)])

/-- An unsigned division by 2 ^ 31 or more: one or zero. -/
def expandCompareDivide (site : Nat) (result numer : TN) (denom : Int) : Expanded :=
  let tmp1 := TN.tmp site 1
  let tmp2 := TN.tmp site 2
  let tmp3 := TN.tmp site 3
  emit [.ldc 32 tmp1 denom, .cmp 32 numer (.tn tmp1), .ldc 32 tmp2 0, .ldc 32 tmp3 (-1),
    .bin .sbb 32 result tmp2 (.tn tmp3)]

/-! ## The pseudo-inverse -/

/-- `while(m < b1) { n++; m = (m<<1) | 1; }`. -/
def widthLoop (b1 : Nat) : Nat → Nat → Nat → Nat × Nat
  | 0, n, m => (n, m)
  | fuel + 1, n, m => if m < b1 then widthLoop b1 fuel (n + 1) (word (2 * m + 1)) else (n, m)

/-- The bit-serial division; it gives `q`. -/
def inverseLoop (b : Nat) : Nat → Nat → Nat → Nat
  | 0, q, _ => q
  | steps + 1, q, m =>
    if m ≥ b then inverseLoop b steps (word (2 * q) + 1) (word (2 * (m - b) + 1))
    else inverseLoop b steps (word (2 * q)) (word (2 * m + 1))

/-- `determine_pseudo_inverse`: the pseudo-inverse and `*pn`. -/
def determinePseudoInverse (b maxbits : Nat) : Nat × Nat :=
  let w := widthLoop (word (b + 2 ^ 64 - 1)) 64 1 1
  (word (1 + inverseLoop b (maxbits + 1) 0 w.2), w.1)

/-- A signed division through the pseudo-inverse. -/
def expandSignedInverse (o : Options) (site : Nat) (result numer : TN) (denom : Int)
    (t : Mtype) : Expanded :=
  let w := t.bits
  let b := denom.natAbs
  let (d, n) := determinePseudoInverse b (w - 1)
  if n > w - 1 then .no
  else
    let dTn := TN.tmp site 1
    let negTn := TN.tmp site 2
    let mult := TN.tmp site 3
    let low := TN.tmp site 4
    let tmpNumer := TN.tmp site 5
    let shift := if n > 0 then TN.tmp site 6 else mult
    let numer' := if result = numer then tmpNumer else numer
    emit ([.ldc w dTn d, .neg w negTn numer] ++
      expandCmov o.hasCmov w 0 .s .ns negTn numer ++
      [.mul false w low mult negTn dTn] ++
      (if n > 0 then [.bin .sar w shift mult (.lit (n - 1))] else []) ++
      (if result = numer then [.mov w tmpNumer numer] else []) ++
      [.neg w result shift, .test w numer' (.tn numer')] ++
      if denom > 0 then expandCmov o.hasCmov w 1 .ge .l result shift
      else expandCmov o.hasCmov w 1 .l .ge result shift)

/-- An unsigned division through the pseudo-inverse; `b` is `denom_val`. -/
def expandUnsignedInverse (site : Nat) (result numer : TN) (b : Nat) (t : Mtype) : Expanded :=
  let w := t.bits
  let odd := b % 2 = 1
  let precision := if odd then w else w - 1
  let pre := TN.tmp site 1
  let numer' := if odd then numer else pre
  let (d, n) := determinePseudoInverse (if odd then b else b >>> 1) precision
  if n > precision then .no
  else
    let dTn := TN.tmp site 2
    let mult := TN.tmp site 3
    let low := TN.tmp site 4
    let tmp1 := TN.tmp site 5
    let tmp2 := TN.tmp site 6
    let tmp3 := TN.tmp site 7
    emit ((if odd then [] else [.bin .shr w pre numer (.lit 1)]) ++
      [.ldc w dTn d, .mul false w low mult numer' dTn] ++
      if odd then
        [.bin .sub w tmp1 numer' (.tn mult),
         .bin .shr w tmp2 tmp1 (.lit 1),
         .bin .add w tmp3 mult (.tn tmp2),
         .bin .shr w result tmp3 (.lit (n - 1))]
      else [.bin .shr w result mult (.lit (n - 1))])

/-! ## The expansion -/

def expandIntegerDivideByConstant (o : Options) (site : Nat) (result numer : TN) (denom : Int)
    (t : Mtype) : Expanded :=
  if denom = 1 then .yes [.mov t.bits result numer]
  else if t.isSigned ∧ denom = -1 then .yes [.neg t.bits result numer]
  else if isPowerOf2 denom t then expandPowerOf2Divide site result numer denom t
  else if ¬ o.cvrtIntDivToMult then .no
  else if ¬ t.isDouble ∧ o.idivbyconstOpt then
    if t.isSigned then
      match signedMultiplier denom with
      | none => .stop
      | some (mHigh, s) => expandSignedMultiplier o site result numer denom mHigh s
    else if denom % 2 ^ 32 < 0x80000000 then
      match unsignedMultiplier (denom % 2 ^ 32).toNat with
      | none => .stop
      | some u => expandUnsignedMultiplier o site result numer u
    else expandCompareDivide site result numer denom
  else if t.isSigned then expandSignedInverse o site result numer denom t
  else expandUnsignedInverse site result numer (denom % 2 ^ 64).toNat t

/-! ## The compile-time loops -/

theorem log2Loop_eq {fuel i : Nat} (h : i < 2 ^ fuel) (t : Nat) :
    log2Loop fuel i t = t + if i = 0 then 0 else i.log2 + 1 := by
  induction fuel generalizing i t with
  | zero =>
    have hi : i = 0 := by simpa using h
    simp [log2Loop, hi]
  | succ fuel ih =>
    unfold log2Loop
    by_cases hi : i = 0
    · simp [hi]
    · have hhalf : i >>> 1 = i / 2 := shiftRight_one i
      have hlt : i / 2 < 2 ^ fuel := by
        rw [pow_succ] at h
        omega
      rw [if_neg hi, if_neg hi, hhalf, ih hlt]
      by_cases h1 : i / 2 = 0
      · obtain rfl : i = 1 := by omega
        rfl
      · rw [if_neg h1, log2_def i, if_pos (by omega)]
        omega

theorem log2_eq {i : Nat} (hi : 0 < i) (h : i < 2 ^ 32) : log2 i = i.log2 := by
  unfold log2
  have hhalf : i >>> 1 = i / 2 := shiftRight_one i
  rw [hhalf, log2Loop_eq (by omega)]
  by_cases h1 : i / 2 = 0
  · obtain rfl : i = 1 := by omega
    rfl
  · rw [if_neg h1, log2_def i, if_pos (by omega)]
    omega

theorem log2_bounds {i : Nat} (hi : 0 < i) (h : i < 2 ^ 32) :
    2 ^ log2 i ≤ i ∧ i < 2 ^ (log2 i + 1) := by
  rw [log2_eq hi h]
  exact (log2_eq_iff (by omega)).mp rfl

theorem halveLoop_spec {d w : Nat} (base : Nat) : ∀ (l K : Nat), K * w ≤ 2 ^ (base + l) →
    2 ^ (base + l) / d < (2 ^ (base + l) + K) / d → ∃ l' K', l' ≤ l ∧ K' * w ≤ 2 ^ (base + l') ∧
      halveLoop ((2 ^ (base + l) + K) / d) (2 ^ (base + l) / d) l
        = ((2 ^ (base + l') + K') / d, l') ∧ 2 ^ (base + l') / d < (2 ^ (base + l') + K') / d:= by
  intro l
  induction l with
  | zero => exact fun K hK hlt => ⟨0, K, le_rfl, hK, rfl, hlt⟩
  | succ l ih =>
    intro K hK hlt
    have hpow : 2 ^ (base + (l + 1)) = 2 ^ (base + l) * 2 := by rw [← add_assoc, pow_succ]
    have hlow : (2 ^ (base + (l + 1)) / d) >>> 1 = 2 ^ (base + l) / d := by
      rw [Nat.shiftRight_one, Nat.div_div_eq_div_mul, Nat.mul_comm d, ← Nat.div_div_eq_div_mul,
        hpow, Nat.mul_div_cancel _ (by decide)]
    have hhigh : ((2 ^ (base + (l + 1)) + K) / d) >>> 1 = (2 ^ (base + l) + K / 2) / d := by
      rw [Nat.shiftRight_one, Nat.div_div_eq_div_mul, Nat.mul_comm d, ← Nat.div_div_eq_div_mul,
        hpow, Nat.mul_comm (2 ^ (base + l)), Nat.mul_add_div (by decide)]
    unfold halveLoop
    rw [hlow, hhigh]
    by_cases hcond : 2 ^ (base + l) / d < (2 ^ (base + l) + K / 2) / d
    · have hK' : K / 2 * w ≤ 2 ^ (base + l) := by
        have h2 : K / 2 * w * 2 ≤ K * w := by
          calc K / 2 * w * 2 = K / 2 * 2 * w := by ring
            _ ≤ K * w := mul_le_mul_right w (by omega)
        omega
      obtain ⟨l', K', hl', rest⟩ := ih (K / 2) hK' hcond
      rw [if_pos hcond]
      exact ⟨l', K', by omega, rest⟩
    · rw [if_neg hcond]
      exact ⟨l + 1, K, le_rfl, hK, rfl, hlt⟩

/-- The error is positive, and small against the largest multiple of `d`. -/
structure Multiplier (top d m s : Nat) : Prop where
  error : ∃ e, m * d = 2 ^ (32 + s) + e ∧ 0 < e ∧ e * (top - top % d) ≤ 2 ^ (32 + s)

theorem multiplier_of_form {top d s K : Nat} (hd : 0 < d) (hK : K * (top - top % d) ≤ 2 ^ (32 + s))
    (hlt : 2 ^ (32 + s) / d < (2 ^ (32 + s) + K) / d) :
    Multiplier top d ((2 ^ (32 + s) + K) / d) s := by
  have hm := div_mul_le_self (2 ^ (32 + s) + K) d
  have habove : 2 ^ (32 + s) < (2 ^ (32 + s) + K) / d * d := by
    have h1 := mul_le_mul_right d hlt
    have h2 := lt_mul_div_succ (2 ^ (32 + s)) hd
    have h3 : (2 ^ (32 + s) / d).succ * d = d * (2 ^ (32 + s) / d + 1) := mul_comm _ _
    omega
  refine ⟨(2 ^ (32 + s) + K) / d * d - 2 ^ (32 + s), by omega, by omega, ?_⟩
  refine le_trans (mul_le_mul_right _ ?_) hK
  omega

section

variable {top d l : Nat} (hd : 1 < d) (hdt : d ≤ top) (hl : l < 32)
  (hwide : d * (top - top % d) ≤ 2 ^ (32 + l))
include hd hdt hl hwide

theorem searchMultiplier_eq : searchMultiplier top d l
        = some (halveLoop ((2 ^ (32 + l) + 2 ^ (32 + l) / (top - top % d)) / d)
            (2 ^ (32 + l) / d) l) ∧
      2 ^ (32 + l) / d < (2 ^ (32 + l) + 2 ^ (32 + l) / (top - top % d)) / d := by
  have hdpos : 0 < d := by omega
  have hmod := mod_lt top hdpos
  -- the largest multiple of the divisor is at least the divisor
  have hw : d ≤ top - top % d := by
    have hq : 1 ≤ top / d := div_pos hdt hdpos
    have hle := mul_le_mul_left d hq
    have := div_add_mod top d
    omega
  have hp : 2 ^ (32 + l) ≤ 2 ^ 63 := Nat.pow_le_pow_right (by decide) (by omega)
  have hword : word (1 <<< (32 + l)) = 2 ^ (32 + l) := by
    rw [word, one_shiftLeft]
    omega
  have hk : 2 ^ (32 + l) / (top - top % d) ≤ 2 ^ (32 + l) / 2 :=
    div_le_div_left (by omega) (by decide)
  have hsum : word (2 ^ (32 + l) + 2 ^ (32 + l) / (top - top % d))
      = 2 ^ (32 + l) + 2 ^ (32 + l) / (top - top % d) :=
    Nat.mod_eq_of_lt (lt_of_le_of_lt (Nat.add_le_add_left hk _) (by omega))
  have hdk : d ≤ 2 ^ (32 + l) / (top - top % d) := (Nat.le_div_iff_mul_le (by omega)).mpr hwide
  constructor
  · unfold searchMultiplier
    simp only [hword, hsum, if_neg (show ¬ top - top % d = 0 by omega)]
  · have hone : (2 ^ (32 + l) + d) / d = 2 ^ (32 + l) / d + 1 := Nat.add_div_right _ hdpos
    have := Nat.div_le_div_right (c := d) (Nat.add_le_add_left hdk (2 ^ (32 + l)))
    omega

theorem searchMultiplier_spec :
    ∃ m s, searchMultiplier top d l = some (m, s) ∧ s ≤ l ∧ Multiplier top d m s := by
  obtain ⟨hsearch, hlt⟩ := searchMultiplier_eq hd hdt hl hwide
  obtain ⟨s, K, hs, hK, hloop, hlt'⟩ := halveLoop_spec 32 l _ (div_mul_le_self _ _) hlt
  exact ⟨_, s, by rw [hsearch, hloop], hs, multiplier_of_form (by omega) hK hlt'⟩

end

theorem multiplier_lt {d m s e : Nat} (hm : m * d = 2 ^ (32 + s) + e) (he : e < 2 ^ 32)
    (hd : 2 ^ s < d) : m < 2 ^ 32 := by
  by_contra hge
  have h1 : 2 ^ 32 * d ≤ m * d := mul_le_mul_right d (by omega)
  have h2 : 2 ^ 32 * (2 ^ s + 1) ≤ 2 ^ 32 * d := mul_le_mul_left _ hd
  have h3 : 2 ^ 32 * (2 ^ s + 1) = 2 ^ (32 + s) + 2 ^ 32 := by
    rw [Nat.mul_add, Nat.mul_one, Nat.pow_add]
  omega

theorem half_lt_multiple {top d : Nat} (hd : 0 < d) (hdt : d ≤ top) : top < 2 * (top - top % d):= by
  obtain ⟨hq, hr⟩ := Magic.quot_mul (x := top) hd
  have hle := mul_le_mul_right d (div_pos hdt hd : 1 ≤ top / d)
  omega

/-! ## The steps, on either target -/

/-- A division is right from `s`: no stop, and code that leaves `v` in the result. -/
def Expanded.Right {w : Nat} (s : State) (r : TN) (v : BitVec w) : Expanded → Prop
  | .stop => False
  | .no => True
  | .yes code => ∃ s', exec code s = some s' ∧ s'.read w r = v

theorem emit_right {w : Nat} {code : List Instr} {s : State} {r : TN} {v : BitVec w}
    (hcount : code.all Instr.countOk = true)
    (h : ∃ s', exec code s = some s' ∧ s'.read w r = v) : (emit code).Right s r v := by
  unfold emit
  rw [if_pos hcount]
  exact h

theorem exec_append {a b : List Instr} {s s' : State} (h : run a none s = some (s', none)) :
    exec (a ++ b) s = exec b s' := by
  unfold exec
  rw [run_append, h]
  rfl

/-- A 64-bit value: in a register, or in a pair on a 32-bit target. -/
def State.wide (m32 : Bool) (s : State) (t : TN) : BitVec 64 :=
  if m32 then s.pairVal t else s.reg t

/-- Only the given TN, its second one and the temporaries of a site change. -/
def Frame (d : TN) (site : Nat) (s s' : State) : Prop :=
  ∀ t, t ≠ d → t ≠ d.hi → (∀ k, t ≠ .tmp site k) → s'.reg t = s.reg t

theorem Frame.read {d t : TN} {site : Nat} {s s' : State} (h : Frame d site s s') (h1 : t ≠ d)
    (h2 : t ≠ d.hi) (h3 : ∀ k, t ≠ .tmp site k) (n : Nat) : s'.read n t = s.read n t := by
  unfold State.read
  rw [h t h1 h2 h3]

theorem Frame.wide {d t : TN} {site : Nat} {s s' : State} (h : Frame d site s s') (m32 : Bool)
    (h1 : t ≠ d) (h2 : t ≠ d.hi) (h3 : t.hi ≠ d) (h4 : ∀ k, t ≠ .tmp site k) :
    s'.wide m32 t = s.wide m32 t := by
  have hhi : s'.reg t.hi = s.reg t.hi := h t.hi h3 (fun heq => h1 (TN.hi.inj heq)) (by simp)
  cases m32 with
  | false => exact h t h1 h2 h4
  | true => simp [State.wide, State.read, h t h1 h2 h4, hhi]

theorem run_convertLength (m32 : Bool) {d : TN} {x : Nat} (hd : d ≠ .var x) (site : Nat)
    (s : State) : ∃ s', run (expandConvertLength m32 d (.var x)) none s = some (s', none) ∧
      s'.wide m32 d = (s.read 32 (.var x)).signExtend 64 ∧ Frame d site s s' := by
  cases m32 with
  | false => exact ⟨_, rfl, by simp [State.wide], fun t h1 h2 _ => by simp [h1]⟩
  | true =>
    refine ⟨_, rfl, ?_, fun t h1 h2 _ => by simp [h1, h2]⟩
    have h31 : count 31#32 = 31 := rfl
    rw [signExtend_eq_pair _ (by decide)]
    simp [State.wide, hd.symm, sshiftRight_31, h31]

theorem run_immediate8 (m32 : Bool) (d : TN) (v : Int) (site : Nat) (s : State) :
    ∃ s', run (expandImmediate8 m32 d v) none s = some (s', none) ∧
      s'.wide m32 d = BitVec.ofInt 64 v ∧ Frame d site s s' := by
  cases m32 with
  | false => exact ⟨_, rfl, by simp [State.wide], fun t h1 h2 _ => by simp [h1]⟩
  | true =>
    refine ⟨_, rfl, ?_, fun t h1 h2 _ => by simp [h1, h2]⟩
    simp [State.wide, ofInt_litHi, ofInt_litLo, pair_halves]

/-- The value of a factor. -/
def RegSrc.wide (m32 : Bool) (s : State) (q : RegSrc) : BitVec 64 :=
  if m32 then q.val s else s.reg q.lo

theorem run_multiply8 (m32 : Bool) (site : Nat) {d b : TN} {a : RegSrc}
    (ha : ∀ k, a.Avoids (.tmp site k)) (hb : ∀ k, b ≠ .tmp site k) (hd : ∀ k, d ≠ .tmp site k)
    (s : State) : ∃ s', run (expandMultiply8 m32 site d a b) none s = some (s', none) ∧
      s'.wide m32 d = a.wide m32 s * s.wide m32 b ∧ Frame d site s s' := by
  cases m32 with
  | false => exact ⟨_, rfl, by simp [State.wide, RegSrc.wide], fun t h1 h2 _ => by simp [h1]⟩
  | true =>
    have hd' : ∀ k, TN.tmp site k ≠ d := fun k => (hd k).symm
    cases a with
    | pair a =>
      refine ⟨_, rfl, ?_, fun t h1 h2 h3 => by simp [h1, h2, h3]⟩
      have hat : ∀ k, a ≠ .tmp site k := fun k => (ha k).1
      have hak := mul_pair (s.read 32 a.hi) (s.read 32 a) (s.read 32 b.hi) (s.read 32 b)
      simpa [State.wide, RegSrc.wide, hat, hb, hd, hd'] using hak
    | low a =>
      refine ⟨_, rfl, ?_, fun t h1 h2 h3 => by simp [h1, h2, h3]⟩
      have hat : ∀ k, a ≠ .tmp site k := fun k => ha k
      have hak := mul_pair 0#32 (s.read 32 a) (s.read 32 b.hi) (s.read 32 b)
      simpa [State.wide, RegSrc.wide, hat, hb, hd, hd', setWidth_eq_pair] using hak

theorem run_highWord (m32 : Bool) (site : Nat) (d a : TN) (s : State) :
    ∃ s', run (expandHighWord m32 site d a) none s = some (s', none) ∧
      s'.read 32 d = hiHalf (s.wide m32 a) ∧ Frame d site s s' := by
  cases m32 with
  | false =>
    refine ⟨_, rfl, ?_, fun t h1 h2 _ => by simp [h1]⟩
    have h32 : count 32#64 = 32 := rfl
    simp [State.wide, hiHalf, h32]
  | true =>
    refine ⟨_, rfl, ?_, fun t h1 h2 _ => by simp [h1, h2]⟩
    have h0 : count 0#32 = 0 := rfl
    simp [State.wide, hiHalf_pair, h0]

/-! ## Powers of two -/

theorem bitPowerOf2_iff (v : BitVec 64) : bitPowerOf2 v = true ↔ v.toNat.isPowerOfTwo := by
  rw [← ne_zero_and_sub_one_eq_zero_iff_isPowerOfTwo]
  unfold bitPowerOf2
  by_cases h0 : v = 0
  · simp [h0]
  · have hne : v.toNat ≠ 0 := fun h => h0 (eq_of_toNat_eq h)
    have hsub : (v - 1).toNat = v.toNat - 1 := by
      have h1 : (1 : BitVec 64).toNat = 1 := rfl
      have := v.isLt
      rw [toNat_sub, h1]
      omega
    have hand : v &&& (v - 1) = 0 ↔ v.toNat &&& (v.toNat - 1) = 0 := by
      rw [← toNat_inj, toNat_and, hsub]
      rfl
    simp only [bne_iff_ne, ne_eq, h0, not_false_eq_true, Bool.and_eq_true, beq_iff_eq, hand, hne,
      true_and]

theorem getPowerOf2_eq {val : Int} {t : Mtype} {n : Nat} (h : powerVal val t = 2 ^ n)
    (hn : n < t.bits) : getPowerOf2 val t = some n := by
  have hbits : t.bits ≤ 64 := by cases t <;> decide
  have hpow : ∀ i < 64, (1#64 <<< i).toNat = 2 ^ i := by
    intro i hi
    have := Nat.pow_lt_pow_right (show 1 < 2 by decide) hi
    rw [toNat_shiftLeft, Nat.shiftLeft_eq]
    simpa using mod_eq_of_lt this
  have hval : (BitVec.ofInt 64 (powerVal val t)).toNat = 2 ^ n := by
    have := Nat.pow_lt_pow_right (show 1 < 2 by decide) (show n < 64 by omega)
    rw [h, show ((2 : Int) ^ n) = ((2 ^ n : Nat) : Int) by push_cast; rfl, ofInt_natCast,
      toNat_ofNat]
    exact mod_eq_of_lt this
  unfold getPowerOf2
  rw [List.find?_range_eq_some]
  refine ⟨?_, List.mem_range.mpr hn, fun j hj => ?_⟩
  · rw [beq_iff_eq, ← toNat_inj, hval, hpow n (by omega)]
  · have hne : 2 ^ n ≠ 2 ^ j := fun heq => by
      have := Nat.pow_right_injective (le_refl 2) heq
      omega
    rw [Bool.not_eq_true', beq_eq_false_iff_ne, ne_eq, ← toNat_inj, hval, hpow j (by omega)]
    exact hne

end X8664
