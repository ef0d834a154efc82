import Path64.X8664.PseudoInverse

/-! # Remainders by powers of two

`Expand_Power_Of_2_Rem` and `Expand_Fast_Power_Of_2_Rem`, with the steps
that they take: on a 32-bit target those of a 64-bit remainder go through
the expansions on register pairs.

The fast form splits on the sign of the dividend, and the branch looks at
32 bits of it, whatever the type is. -/

namespace X8664

open Int
open BitVec (ofInt allOnes setWidth_eq eq_of_toNat_eq toNat_ofInt)

/-! ## Jumps and divisions -/

/-- The other instructions, and those of remainders. -/
inductive Insn where
  | op (i : Instr)
  | jmp (label : Nat)
  | extend (n : Nat) (lo hi a : TN)
  | div (signed : Bool) (n : Nat) (quot rem lo hi d : TN)
  deriving DecidableEq

/-- Quotient and remainder of a double dividend; zero and overflow raise an exception. -/
def divide {n : Nat} (signed : Bool) (hi lo d : BitVec n) : Option (BitVec n × BitVec n) :=
  let a : Int := (if signed then hi.toInt else hi.toNat) * 2 ^ n + lo.toNat
  let b : Int := if signed then d.toInt else d.toNat
  let q := a.tdiv b
  let fits := if signed then -2 ^ (n - 1) ≤ q ∧ q < 2 ^ (n - 1) else 0 ≤ q ∧ q < 2 ^ n
  if b ≠ 0 ∧ fits then some (ofInt n q, ofInt n (a.tmod b)) else none

/-- One instruction that is not a jump or a label. -/
@[simp] def Insn.exec (s : State) : Insn → Option State
  | .op i => i.exec s
  | .jmp _ => none
  | .extend n lo hi a =>
    some ((s.write lo (s.read n a)).write hi
      (if (s.read n a).msb then allOnes n else 0))
  | .div signed n quot rem lo hi d =>
    (divide signed (s.read n hi) (s.read n lo) (s.read n d)).map fun r =>
      ((s.write quot r.1).write rem r.2).setFlags .unknown

/-- `run`, with unconditional jumps. -/
@[simp] def runInsns : List Insn → Option Nat → State → Option (State × Option Nat)
  | [], skip, s => some (s, skip)
  | .op (.label l) :: is, skip, s => runInsns is (if skip = some l then none else skip) s
  | _ :: is, some l, s => runInsns is (some l) s
  | .op (.jcc c l) :: is, none, s =>
    (c.eval s.flags).bind fun taken => runInsns is (if taken then some l else none) s
  | .jmp l :: is, none, s => runInsns is (some l) s
  | i :: is, none, s => (i.exec s).bind fun s' => runInsns is none s'

def ops (code : List Instr) : List Insn := code.map Insn.op

/-- What an expansion comes to: the compiler stops at an assertion, or it emits code. -/
inductive Emitted where
  | stop
  | yes (code : List Insn)
  deriving DecidableEq

theorem runInsns_ops (a : List Instr) (b : List Insn) (skip : Option Nat) (s : State) :
    runInsns (ops a ++ b) skip s = (run a skip s).bind fun r => runInsns b r.2 r.1 := by
  induction a generalizing skip s with
  | nil => rfl
  | cons i is ih =>
    have hcons : ops (i :: is) ++ b = .op i :: (ops is ++ b) := rfl
    rw [hcons]
    cases i with
    | label l => simpa using ih _ s
    | jcc c l =>
      cases skip with
      | some l' => simpa using ih _ s
      | none =>
        cases hc : c.eval s.flags with
        | none => simp [hc]
        | some taken => simpa [hc] using ih _ s
    | _ =>
      cases skip with
      | some l' => simpa using ih _ s
      | none =>
        simp only [runInsns, run, Insn.exec, Option.bind_assoc]
        exact congrArg _ (funext fun s' => ih _ s')

variable {a d : TN} {s s' : State} {w n k : Nat} {t : Mtype}

theorem runInsns_append {a : List Instr} {b : List Insn}
    (h : run a none s = some (s', none)) : runInsns (ops a ++ b) none s = runInsns b none s' := by
  rw [runInsns_ops, h]
  rfl

/-- Running two pieces of code one after the other, a pending jump included. -/
theorem runInsns_bind (a b : List Insn) (skip : Option Nat) (s : State) :
    runInsns (a ++ b) skip s = (runInsns a skip s).bind fun r => runInsns b r.2 r.1 := by
  induction a generalizing skip s with
  | nil => rfl
  | cons i is ih =>
    rw [List.cons_append]
    cases skip with
    | some l' =>
      cases i with
      | op i =>
        cases i with
        | label l => simpa using ih _ s
        | _ => simpa using ih _ s
      | _ => simpa using ih _ s
    | none =>
      cases i with
      | jmp l => simpa using ih _ s
      | op i =>
        cases i with
        | label l => simpa using ih _ s
        | jcc c l =>
          cases hc : c.eval s.flags with
          | none => simp [hc]
          | some taken => simpa [hc] using ih _ s
        | _ =>
          simp only [runInsns, Option.bind_assoc]
          exact congrArg _ (funext fun s' => ih _ s')
      | _ =>
        simp only [runInsns, Option.bind_assoc]
        exact congrArg _ (funext fun s' => ih _ s')

theorem run_skip {a : List Instr} {l : Nat} (h : ∀ k, Instr.label k ∉ a) (s : State) :
    run a (some l) s = some (s, some l) := by
  induction a with
  | nil => rfl
  | cons i is ih =>
    have hrest := ih fun k hk => h k (List.mem_cons_of_mem _ hk)
    cases i with
    | label k => exact absurd List.mem_cons_self (h k)
    | _ => simpa using hrest

/-! ## The steps, on either target -/

def opNeedPair (m32 : Bool) (t : Mtype) : Bool := t.isDouble && m32

/-- `LC_simm32`. -/
def simm32 (v : Int) : Prop := -2 ^ 31 ≤ v ∧ v < 2 ^ 31

instance (v : Int) : Decidable (simm32 v) := inferInstanceAs (Decidable (_ ∧ _))

/-- `Expand_Shift` to the right by all bits but one, `shift_aright`. -/
def expandSignShift (m32 : Bool) (site : Nat) (t : Mtype) (dest src : TN) : List Instr :=
  if opNeedPair m32 t then expandSplitShiftLit site .aright dest (.pair src) 63
  else [.bin .sar t.bits dest src (.lit (t.bits - 1))]

def expandImmediate (m32 : Bool) (t : Mtype) (dest : TN) (v : Int) : List Instr :=
  if t.isDouble then expandImmediate8 m32 dest v else [.ldc 32 dest v]

/-- `Expand_Add`, `Expand_Sub` and `Expand_Binary_And` of registers. -/
def expandBop (m32 : Bool) (site : Nat) (opr : Bop) (t : Mtype) (dest src1 src2 : TN) : List Instr:=
  if opNeedPair m32 t then expandSplitBop site opr dest (.pair src1) (.reg (.pair src2))
  else [.bin opr.tops.1 t.bits dest src1 (.tn src2)]

def expandNeg (m32 : Bool) (site : Nat) (t : Mtype) (dest src : TN) : List Instr :=
  if opNeedPair m32 t then expandSplitUop site .neg dest (.pair src)
  else [.neg t.bits dest src]

def expandCopy (m32 : Bool) (site : Nat) (t : Mtype) (dest src : TN) : List Instr :=
  if opNeedPair m32 t then expandSplitUop site .lda dest (.pair src)
  else [.mov t.bits dest src]

/-- `Expand_Binary_And` of a literal. -/
def expandBinaryAndLit (m32 : Bool) (site : Nat) (t : Mtype) (dest src : TN) (val : Int) :
    List Instr :=
  if val = -1 ∨ (t.isDouble = false ∧ val % 2 ^ 32 = 2 ^ 32 - 1) then
    expandCopy m32 site t dest src
  else if val = 0xff then
    if opNeedPair m32 t then expandSplitCvtl .movzbq dest src
    else [.movx false 8 t.bits dest src]
  else if val = 0xffff then
    if opNeedPair m32 t then expandSplitCvtl .movzwq dest src
    else [.movx false 16 t.bits dest src]
  else if t.isDouble = false ∨ simm32 val then
    if opNeedPair m32 t then
      expandSplitBop site .band dest (.pair src) (.lit (ofInt 64 val))
    else [.bin .and t.bits dest src (.lit val)]
  else
    expandImmediate8 m32 (.tmp site 2) val ++ expandBop m32 site .band t dest src (.tmp site 2)

/-! ## The expansions -/

structure RemOptions extends Options where
  /-- `CG_use_setcc`. -/
  useSetcc : Bool

/-- The sequence without a branch, which both functions have. -/
def branchFreeRem (m32 : Bool) (site : Nat) (t : Mtype) (result src1 : TN) (absdvsr : Int) :
    List Instr :=
  let t1 := TN.tmp site 1
  let t2 := TN.tmp site 2
  let t3 := TN.tmp site 3
  let t4 := TN.tmp site 4
  let t5 := TN.tmp site 5
  expandSignShift m32 (site + 1) t t1 src1 ++
  expandImmediate m32 t t2 (absdvsr - 1) ++
  expandBop m32 (site + 1) .band t t3 t1 t2 ++
  expandBop m32 (site + 1) .add t t4 t3 src1 ++
  expandBop m32 (site + 1) .band t t5 t4 t2 ++
  expandBop m32 (site + 1) .sub t result t5 t3

/-- `Expand_Fast_Power_Of_2_Rem`, of a `dedicated` result or not; always `V_BR_I4GE`. -/
def expandFastPowerOf2Rem (site : Nat) (dedicated : Bool) (result src1 : TN) (src2Val : Int)
    (t : Mtype) : Emitted :=
  let absdvsr := if src2Val < 0 then -src2Val else src2Val
  let bbElse := 0
  let bbExit := 1
  if dedicated then .stop
  else if ¬ simm32 src2Val then .stop
  else
    .yes (ops [.test 32 src1 src1, .jcc .ge bbElse] ++
      (ops (branchFreeRem false site t result src1 absdvsr) ++
      (.jmp bbExit :: .op (.label bbElse) ::
      (ops (expandBinaryAndLit false (site + 1) t result src1 (src2Val - 1)) ++
      [.op (.label bbExit)]))))

def expandPowerOf2Rem (o : RemOptions) (site : Nat) (dedicated : Bool) (result src1 : TN)
    (src2Val : Int) (t : Mtype) : Emitted :=
  match getPowerOf2 src2Val t with
  | none => .stop
  | some n =>
    let nMask : Int := 2 ^ n - 1
    if t.isSigned then
      if o.useSetcc || o.target32bit || decide (src2Val < 0) then
        let absdvsr := if src2Val < 0 then -src2Val else src2Val
        .yes (ops (branchFreeRem o.target32bit site t result src1 absdvsr))
      else expandFastPowerOf2Rem site dedicated result src1 src2Val t
    else .yes (ops (expandBinaryAndLit o.target32bit (site + 1) t result src1 nMask))

/-! ## What the steps compute -/

/-- The value of a TN of a type. -/
def State.val (m32 : Bool) (s : State) (x : TN) : (t : Mtype) → BitVec t.bits
  | .I4 | .U4 => s.read 32 x
  | .I8 | .U8 => s.wide m32 x

/-- A TN that is not the second of a pair, and no temporary of a site. -/
def TN.Apart (site : Nat) (t : TN) : Prop := (∀ u, t ≠ .hi u) ∧ ∀ k, t ≠ .tmp site k

theorem apart_var (site x : Nat) : (TN.var x).Apart site := ⟨by simp, by simp⟩

theorem apart_tmp {site site' : Nat} (h : site' ≠ site) (k : Nat) : (TN.tmp site' k).Apart site :=
  ⟨by simp, by simp [h]⟩

/-- Only the given TN and the temporaries of a site change, with the second TNs of these. -/
def Kept (d : TN) (site : Nat) (s s' : State) : Prop :=
  ∀ t, t ≠ d → t ≠ d.hi → (∀ k, t ≠ .tmp site k) → (∀ k, t ≠ (TN.tmp site k).hi) →
    s'.reg t = s.reg t

theorem Frame.kept {site : Nat} (h : Frame d site s s') :
    Kept d site s s' := fun t h1 h2 h3 _ => h t h1 h2 h3

/-- A step computes `v` into `d`, and keeps everything else but temporaries. -/
def Computes (m32 : Bool) (t : Mtype) (site : Nat) (code : List Instr) (s : State) (d : TN)
    (v : BitVec t.bits) : Prop :=
  ∃ s', run code none s = some (s', none) ∧ s'.val m32 d t = v ∧ Kept d site s s'

theorem Kept.val {d x : TN} {site : Nat} {s s' : State} (h : Kept d site s s') (m32 : Bool)
    (t : Mtype) (hne : x ≠ d) (hd : ∀ u, d ≠ .hi u) (hx : x.Apart site) :
    s'.val m32 x t = s.val m32 x t := by
  have hlo : s'.reg x = s.reg x := h x hne (hx.1 d) hx.2 fun k => hx.1 _
  have hhi : s'.reg x.hi = s.reg x.hi :=
    h x.hi (hd x).symm (fun heq => hne (TN.hi.inj heq)) (by simp)
      fun k heq => hx.2 k (TN.hi.inj heq)
  cases t with
  | I4 | U4 => exact congrArg (BitVec.setWidth 32) hlo
  | I8 | U8 =>
    cases m32 with
    | false => exact hlo
    | true =>
      show s'.pairVal x = s.pairVal x
      simp [State.read, hlo, hhi]

/-- What an operator does at a width. -/
def Bop.word {n : Nat} (v v' : BitVec n) : Bop → BitVec n
  | .add => v + v'
  | .sub => v - v'
  | .band => v &&& v'
  | .bxor => v ^^^ v'
  | .bior => v ||| v'

theorem run_bin (opr : Bop) (n : Nat) (d a : TN) (b : Opnd) (site : Nat) (s : State) :
    ∃ s', run [.bin opr.tops.1 n d a b] none s = some (s', none) ∧
      s'.reg d = (opr.word (s.read n a) (s.opnd n b)).setWidth 64 ∧ Frame d site s s' := by
  cases opr <;> exact ⟨_, rfl, by simp [Bop.word], fun t h1 _ _ => by simp [h1]⟩

theorem run_bin_pair (opr : Bop) {c : TN} {b e : Opnd} (hc : c ≠ d) (he : e ≠ .tn d)
    (hd : d ≠ d.hi) (site : Nat) (s : State) :
    ∃ s', run [.bin opr.tops.1 32 d a b, .bin opr.tops.2 32 d.hi c e] none s = some (s', none) ∧
      s'.pairVal d = opr.word (pair (s.read 32 c) (s.read 32 a))
        (pair (s.opnd 32 e) (s.opnd 32 b)) ∧ Frame d site s s' := by
  have hread : ∀ (v : BitVec 32) (f : Flags),
      ((s.write d v).setFlags f).opnd 32 e = s.opnd 32 e := by
    intro v f
    cases e with
    | tn t =>
      have ht : t ≠ d := fun h => he (h ▸ rfl)
      simp [ht]
    | lit v => rfl
  cases opr with
  | add =>
    refine ⟨_, rfl, ?_, fun t h1 h2 _ => by simp [h1, h2]⟩
    simpa [-State.opnd, Bop.word, hc, hread, hd] using add_pair _ _ _ _
  | sub =>
    refine ⟨_, rfl, ?_, fun t h1 h2 _ => by simp [h1, h2]⟩
    simpa [-State.opnd, Bop.word, hc, hread, hd, subFlags] using sub_pair _ _ _ _
  | band =>
    refine ⟨_, rfl, ?_, fun t h1 h2 _ => by simp [h1, h2]⟩
    simpa [-State.opnd, Bop.word, hc, hread, hd] using and_pair _ _ _ _
  | bxor =>
    refine ⟨_, rfl, ?_, fun t h1 h2 _ => by simp [h1, h2]⟩
    simpa [-State.opnd, Bop.word, hc, hread, hd] using xor_pair _ _ _ _
  | bior =>
    refine ⟨_, rfl, ?_, fun t h1 h2 _ => by simp [h1, h2]⟩
    simpa [-State.opnd, Bop.word, hc, hread, hd] using or_pair _ _ _ _

section

variable (m32 : Bool) (site : Nat)
include m32 site

/-- An operator split into two halves computes the 64-bit one. -/
theorem computes_bop (opr : Bop) (t : Mtype) {b : TN} (hd : d.Apart site) (s : State) :
    Computes m32 t site (expandBop m32 site opr t d a b) s d
      (opr.word (s.val m32 a t) (s.val m32 b t)) := by
  have hword : ∀ n, n ≤ 64 → ∀ v : BitVec n, (v.setWidth 64).setWidth n = v := fun n hn v => by
    rw [BitVec.setWidth_setWidth_of_le v hn, setWidth_eq]
  cases t with
  | I4 | U4 =>
    obtain ⟨s', hrun, hval, hframe⟩ := run_bin opr 32 d a (.tn b) site s
    refine ⟨s', ?_, ?_, hframe.kept⟩
    · rw [expandBop, if_neg (by simp [opNeedPair, Mtype.isDouble])]
      exact hrun
    · show (s'.reg d).setWidth 32 = _
      rw [hval, hword 32 (by decide)]
      rfl
  | I8 | U8 =>
    cases m32 with
    | false =>
      obtain ⟨s', hrun, hval, hframe⟩ := run_bin opr 64 d a (.tn b) site s
      refine ⟨s', ?_, ?_, hframe.kept⟩
      · rw [expandBop, if_neg (by simp [opNeedPair])]
        exact hrun
      · show s'.reg d = _
        rw [hval, setWidth_eq, read_64]
        exact congrArg (fun v => opr.word (s.reg a) v) (read_64 s b)
    | true =>
      obtain ⟨s', hrun, hval, hframe⟩ := run_bin_pair opr (d := d) (a := a) (c := a.hi)
        (b := .tn b) (e := .tn b.hi) (hd.1 a).symm
        (fun h => hd.1 b (Opnd.tn.inj h).symm) (hd.1 d) site s
      refine ⟨s', ?_, hval, hframe.kept⟩
      rw [expandBop, if_pos (by simp [opNeedPair, Mtype.isDouble])]
      exact hrun

theorem computes_signShift (t : Mtype) (hd : d.Apart site) (s : State) :
    Computes m32 t site (expandSignShift m32 site t d a) s d
      ((s.val m32 a t).sshiftRight (t.bits - 1)) := by
  have h31 : count 31#32 = 31 := rfl
  have h63 : count 63#64 = 63 := rfl
  cases t with
  | I4 | U4 =>
    refine ⟨_, rfl, ?_, fun t h1 _ _ _ => by simp [h1]⟩
    show State.read _ 32 d = (s.read 32 a).sshiftRight 31
    simp [Mtype.bits, Mtype.isDouble, h31]
  | I8 | U8 =>
    cases m32 with
    | false =>
      refine ⟨_, rfl, ?_, fun t h1 _ _ _ => by simp [h1]⟩
      show State.reg _ d = (s.reg a).sshiftRight 63
      simp [Mtype.bits, Mtype.isDouble, h63]
    | true =>
      refine ⟨_, rfl, ?_, fun t h1 h2 _ _ => by simp [h1, h2]⟩
      have hash := ashr_pair_ge (s.read 32 a.hi) (s.read 32 a) 31
      have hne : a.hi ≠ d := (hd.1 a).symm
      show State.pairVal _ d = (s.pairVal a).sshiftRight 63
      simpa [h31, hne, hd.1 d] using hash

theorem computes_immediate (t : Mtype) (d : TN) (v : Int) (s : State) :
    Computes m32 t site (expandImmediate m32 t d v) s d (ofInt t.bits v) := by
  cases t with
  | I4 | U4 =>
    refine ⟨_, rfl, ?_, fun t h1 _ _ _ => by simp [h1]⟩
    show State.read _ 32 d = ofInt 32 v
    simp
  | I8 | U8 =>
    obtain ⟨s', hrun, hval, hframe⟩ := run_immediate8 m32 d v site s
    exact ⟨s', hrun, hval, hframe.kept⟩

theorem computes_neg (t : Mtype) (hd : d.Apart site)
    (s : State) : Computes m32 t site (expandNeg m32 site t d a) s d (-s.val m32 a t) := by
  cases t with
  | I4 | U4 =>
    refine ⟨_, rfl, ?_, fun t h1 _ _ _ => by simp [h1]⟩
    show State.read _ 32 d = -s.read 32 a
    simp [Mtype.bits, Mtype.isDouble]
    rfl
  | I8 | U8 =>
    cases m32 with
    | false =>
      refine ⟨_, rfl, ?_, fun t h1 _ _ _ => by simp [h1]⟩
      show State.reg _ d = -s.reg a
      simp [Mtype.bits, Mtype.isDouble]
      rfl
    | true =>
      refine ⟨_, rfl, ?_, fun t h1 h2 h3 _ => by simp [h1, h2, h3]⟩
      have hneg := neg_pair (s.read 32 a.hi) (s.read 32 a)
      have hne : a.hi ≠ d := (hd.1 a).symm
      have htmp : ∀ k, TN.tmp site k ≠ d := fun k => (hd.2 k).symm
      show State.pairVal _ d = -s.pairVal a
      simpa [subFlags, hne, hd.1 d, hd.2, htmp] using hneg

theorem computes_copy (t : Mtype) (hd : d.Apart site)
    (s : State) : Computes m32 t site (expandCopy m32 site t d a) s d (s.val m32 a t) := by
  cases t with
  | I4 | U4 =>
    refine ⟨_, rfl, ?_, fun t h1 _ _ _ => by simp [h1]⟩
    show State.read _ 32 d = s.read 32 a
    simp [Mtype.bits, Mtype.isDouble]
  | I8 | U8 =>
    cases m32 with
    | false =>
      refine ⟨_, rfl, ?_, fun t h1 _ _ _ => by simp [h1]⟩
      show State.reg _ d = s.reg a
      simp [Mtype.bits, Mtype.isDouble]
    | true =>
      refine ⟨_, rfl, ?_, fun t h1 h2 _ _ => by simp [h1, h2]⟩
      have hne : a.hi ≠ d := (hd.1 a).symm
      show State.pairVal _ d = s.pairVal a
      simp [hne, hd.1 d]

end

/-! ## Masks -/

theorem and_mask (hn : n ≤ w) (z : Int) :
    ofInt w z &&& ofInt w (2 ^ n - 1) = ofInt w (z % 2 ^ n) := by
  have hpos : (0 : Int) < 2 ^ n := by positivity
  have hdvd : (2 : Int) ^ n ∣ 2 ^ w := pow_dvd_pow 2 hn
  have hle : (2 : Int) ^ n ≤ 2 ^ w := le_of_dvd (by positivity) hdvd
  have hcast : ((2 ^ w : Nat) : Int) = 2 ^ w := by push_cast; rfl
  have hmask : ((2 : Int) ^ n - 1) % 2 ^ w = ((2 ^ n - 1 : Nat) : Int) := by
    rw [emod_eq_of_lt (by omega) (by omega)]
    have := Nat.one_le_two_pow (n := n)
    push_cast [this]
    rfl
  apply eq_of_toNat_eq
  rw [BitVec.toNat_and, toNat_ofInt, toNat_ofInt, toNat_ofInt, hcast, hmask,
    toNat_natCast, Nat.and_two_pow_sub_one_eq_mod]
  have hz := emod_nonneg z (show (2 : Int) ^ w ≠ 0 by positivity)
  have hzn := emod_nonneg z hpos.ne'
  have hlt := emod_lt_of_pos z hpos
  rw [emod_eq_of_lt hzn (by omega)]
  zify
  rw [toNat_of_nonneg hz, toNat_of_nonneg hzn, emod_emod_of_dvd z hdvd]

theorem sshiftRight_sign (x : BitVec w) :
    x.sshiftRight (w - 1) = ofInt w (if x.toInt < 0 then -1 else 0) := by
  have hlt : x.toInt < 2 ^ (w - 1) := BitVec.toInt_lt
  have hge : -2 ^ (w - 1) ≤ x.toInt := BitVec.le_toInt x
  have hpos : (0 : Int) < 2 ^ (w - 1) := by positivity
  have hdiv : x.toInt / 2 ^ (w - 1) = if x.toInt < 0 then -1 else 0 := by
    split
    · next hneg => exact ediv_eq_neg_one_of_neg_of_le (by omega) (by omega)
    · next hneg => exact ediv_eq_zero_of_lt (by omega) hlt
  rw [← BitVec.ofInt_toInt (x := x.sshiftRight (w - 1)), BitVec.toInt_sshiftRight,
    shiftRight_eq_div_pow]
  congr 1

theorem emod_raised {X N : Int} (hN : 0 < N) :
    ((if X < 0 then N - 1 else 0) + X) % N - (if X < 0 then N - 1 else 0) = X.tmod N := by
  split
  · next hneg =>
    have hmod : X.tmod N = -((-X) % N) := by
      rw [← tmod_eq_emod_of_nonneg (by omega), neg_tmod, neg_neg]
    have hr := emod_nonneg (-X) hN.ne'
    have hlt := emod_lt_of_pos (-X) hN
    have hsum : (N - 1 + X) % N = N - 1 - (-X) % N := by
      have heq : N - 1 + X = N - 1 - (-X) % N + N * (-((-X) / N)) := by
        have := emod_add_mul_ediv (-X) N
        linarith
      rw [heq, add_mul_emod_self_left, emod_eq_of_lt (by omega) (by omega)]
    omega
  · next hneg => rw [zero_add, sub_zero, tmod_eq_emod_of_nonneg (by omega)]

theorem branchFree_value (hn : n ≤ w) (x : BitVec w) :
    (((x.sshiftRight (w - 1) &&& ofInt w (2 ^ n - 1)) + x) &&& ofInt w (2 ^ n - 1))
        - (x.sshiftRight (w - 1) &&& ofInt w (2 ^ n - 1))
      = ofInt w (x.toInt.tmod (2 ^ n)) := by
  have hpos : (0 : Int) < 2 ^ n := by positivity
  have hraise : (if x.toInt < 0 then (-1 : Int) else 0) % 2 ^ n
      = if x.toInt < 0 then 2 ^ n - 1 else 0 := by
    split
    · rw [show (-1 : Int) = 2 ^ n - 1 + 2 ^ n * (-1) by ring, add_mul_emod_self_left]
      exact emod_eq_of_lt (by omega) (by omega)
    · exact zero_emod _
  rw [sshiftRight_sign, and_mask hn, hraise]
  generalize hc : (if x.toInt < 0 then (2 : Int) ^ n - 1 else 0) = c
  rw [← BitVec.ofInt_toInt (x := x), ← BitVec.ofInt_add, and_mask hn, BitVec.ofInt_toInt,
    ← emod_raised hpos, hc, BitVec.sub_eq_add_neg, ← BitVec.ofInt_neg, ← BitVec.ofInt_add,
    ← sub_eq_add_neg]

theorem setWidth_mask (hk : k ≤ w) (x : BitVec w) :
    (x.setWidth k).setWidth w = x &&& ofInt w (2 ^ k - 1) := by
  rw [← BitVec.ofInt_toInt (x := x), and_mask hk]
  apply eq_of_toNat_eq
  have hlow := Nat.mod_lt (ofInt w x.toInt).toNat (Nat.two_pow_pos k)
  have hle : 2 ^ k ≤ 2 ^ w := Nat.pow_le_pow_right (by decide) hk
  have hdvd : (2 : Int) ^ k ∣ 2 ^ w := pow_dvd_pow 2 hk
  have hz := emod_nonneg x.toInt (show (2 : Int) ^ w ≠ 0 by positivity)
  have hzk := emod_nonneg x.toInt (show (2 : Int) ^ k ≠ 0 by positivity)
  have hzlt := emod_lt_of_pos x.toInt (show (0 : Int) < 2 ^ k by positivity)
  have hle' : (2 : Int) ^ k ≤ 2 ^ w := le_of_dvd (by positivity) hdvd
  rw [BitVec.toNat_setWidth, BitVec.toNat_setWidth, Nat.mod_eq_of_lt (by omega), toNat_ofInt,
    toNat_ofInt]
  zify
  rw [toNat_of_nonneg hz, emod_emod_of_dvd _ hdvd,
    emod_eq_of_lt hzk (by omega), toNat_of_nonneg hzk]

theorem computes_movz (m32 : Bool) (site : Nat) (t : Mtype) (hd : d.Apart site)
    (hk : k ≤ 32) {top : Cvtl}
    (htop : expandSplitCvtl top d a = [.movx false k 32 d a, .ldc 32 d.hi 0]) (s : State) :
    Computes m32 t site
      (if opNeedPair m32 t then expandSplitCvtl top d a else [.movx false k t.bits d a]) s d
      (s.val m32 a t &&& ofInt t.bits (2 ^ k - 1)) := by
  cases t with
  | I4 | U4 =>
    refine ⟨_, rfl, ?_, fun t h1 _ _ _ => by simp [h1]⟩
    show State.read _ 32 d = s.read 32 a &&& ofInt 32 (2 ^ k - 1)
    rw [← setWidth_mask hk]
    simp [Mtype.bits, Mtype.isDouble]
  | I8 | U8 =>
    cases m32 with
    | false =>
      refine ⟨_, rfl, ?_, fun t h1 _ _ _ => by simp [h1]⟩
      show State.reg _ d = s.reg a &&& ofInt 64 (2 ^ k - 1)
      rw [← setWidth_mask (show k ≤ 64 by omega)]
      have hlow : (s.read 32 a).setWidth k = (s.reg a).setWidth k :=
        BitVec.setWidth_setWidth_of_le _ hk
      simp [Mtype.bits, Mtype.isDouble, hlow]
    | true =>
      show Computes true _ site (expandSplitCvtl top d a) s d _
      rw [htop]
      refine ⟨_, rfl, ?_, fun t h1 h2 _ _ => by simp [h1, h2]⟩
      show State.pairVal _ d = s.pairVal a &&& ofInt 64 (2 ^ k - 1)
      have hlow : (s.pairVal a).setWidth k = (s.read 32 a).setWidth k := by
        rw [← BitVec.setWidth_setWidth_of_le (s.pairVal a) hk]
        congr 1
        exact loHalf_pair _ _
      rw [← setWidth_mask (show k ≤ 64 by omega), hlow]
      have hlow32 : (((s.read 32 a).setWidth k).setWidth 32).setWidth 64
          = ((s.read 32 a).setWidth k).setWidth 64 := BitVec.setWidth_setWidth (by omega)
      rw [setWidth_eq_pair] at hlow32
      simpa [hd.1 d] using hlow32

theorem ofInt_allOnes {v : Int} (h : v % 2 ^ w = 2 ^ w - 1) :
    ofInt w v = allOnes w := by
  apply eq_of_toNat_eq
  have hpos := Nat.two_pow_pos w
  rw [toNat_ofInt, BitVec.toNat_allOnes]
  push_cast
  rw [h]
  zify [hpos]
  omega

theorem computes_andi (m32 : Bool) (site : Nat) (t : Mtype) (hd : d.Apart site)
    (v : Int) (s : State) : Computes m32 t site
      (if opNeedPair m32 t then expandSplitBop site .band d (.pair a) (.lit (ofInt 64 v))
        else [.bin .and t.bits d a (.lit v)]) s d (s.val m32 a t &&& ofInt t.bits v) := by
  cases t with
  | I4 | U4 =>
    refine ⟨_, rfl, ?_, fun t h1 _ _ _ => by simp [h1]⟩
    show State.read _ 32 d = s.read 32 a &&& ofInt 32 v
    simp [Mtype.bits, Mtype.isDouble]
    rfl
  | I8 | U8 =>
    cases m32 with
    | false =>
      refine ⟨_, rfl, ?_, fun t h1 _ _ _ => by simp [h1]⟩
      show State.reg _ d = s.reg a &&& ofInt 64 v
      simp [Mtype.bits, Mtype.isDouble]
      rfl
    | true =>
      obtain ⟨s', hrun, hval, hframe⟩ := run_bin_pair .band (d := d) (a := a) (c := a.hi)
        (b := .lit (litLo (ofInt 64 v))) (e := .lit (litHi (ofInt 64 v)))
        (hd.1 a).symm (by simp) (hd.1 d) site s
      refine ⟨s', hrun, ?_, hframe.kept⟩
      show s'.pairVal d = s.pairVal a &&& ofInt 64 v
      rw [hval]
      simp only [State.opnd, ofInt_litHi, ofInt_litLo, pair_halves]
      rfl

theorem computes_binaryAndLit (m32 : Bool) (site : Nat) (t : Mtype)
    (hd : d.Apart site) (ha : a.Apart site) (v : Int) (s : State) :
    Computes m32 t site (expandBinaryAndLit m32 site t d a v) s d
      (s.val m32 a t &&& ofInt t.bits v) := by
  unfold expandBinaryAndLit
  by_cases hones : v = -1 ∨ (t.isDouble = false ∧ v % 2 ^ 32 = 2 ^ 32 - 1)
  · have hmask : ofInt t.bits v = allOnes t.bits := by
      refine ofInt_allOnes ?_
      rcases hones with rfl | ⟨hs, hv⟩
      · cases t <;> decide
      · rwa [show t.bits = 32 by simp [Mtype.bits, hs]]
    rw [if_pos hones, hmask, BitVec.and_allOnes]
    exact computes_copy m32 site t hd s
  rw [if_neg hones]
  by_cases h8 : v = 0xff
  · subst h8
    exact computes_movz m32 site t hd (k := 8) (by decide) rfl s
  rw [if_neg h8]
  by_cases h16 : v = 0xffff
  · subst h16
    exact computes_movz m32 site t hd (k := 16) (by decide) rfl s
  rw [if_neg h16]
  by_cases himm : t.isDouble = false ∨ simm32 v
  · rw [if_pos himm]
    exact computes_andi m32 site t hd v s
  · -- the literal goes through a register
    rw [if_neg himm]
    have hdouble : t.isDouble = true := by
      cases hs : t.isDouble with
      | true => rfl
      | false => exact absurd (.inl hs) himm
    obtain ⟨s1, hrun1, hval1, hkept1⟩ := computes_immediate m32 site t (.tmp site 2) v s
    obtain ⟨s2, hrun2, hval2, hkept2⟩ :=
      computes_bop m32 site .band t (a := a) (b := .tmp site 2) hd s1
    have ha1 : s1.val m32 a t = s.val m32 a t := hkept1.val m32 t (ha.2 2) (by simp) ha
    refine ⟨s2, ?_, by rw [hval2, ha1, hval1]; rfl, fun u h1 h2 h3 h4 => ?_⟩
    · have himmediate : expandImmediate8 m32 (.tmp site 2) v = expandImmediate m32 t (.tmp site 2) v :=
        (if_pos hdouble).symm
      rw [run_append, himmediate, hrun1]
      exact hrun2
    · rw [hkept2 u h1 h2 h3 h4, hkept1 u (h3 2) (h4 2) h3 h4]

/-! ## The sequences -/

/-- The sequence without branches, for every dividend. -/
theorem branchFree_right (m32 : Bool) (site : Nat) (t : Mtype) (r x : Nat)
    (hn : n ≤ t.bits) (s : State) :
    ∃ s', run (branchFreeRem m32 site t (.var r) (.var x) (2 ^ n)) none s = some (s', none) ∧
      s'.val m32 (.var r) t = ofInt t.bits ((s.val m32 (.var x) t).toInt.tmod (2 ^ n)):= by
  have htmp : ∀ k, (TN.tmp site k).Apart (site + 1) := fun k => apart_tmp (by omega) k
  have hvar : ∀ y, (TN.var y).Apart (site + 1) := fun y => apart_var _ y
  obtain ⟨s1, hrun1, hval1, hk1⟩ :=
    computes_signShift m32 (site + 1) t (d := .tmp site 1) (a := .var x) (htmp 1) s
  obtain ⟨s2, hrun2, hval2, hk2⟩ :=
    computes_immediate m32 (site + 1) t (.tmp site 2) (2 ^ n - 1) s1
  obtain ⟨s3, hrun3, hval3, hk3⟩ := computes_bop m32 (site + 1) .band t (d := .tmp site 3)
    (a := .tmp site 1) (b := .tmp site 2) (htmp 3) s2
  obtain ⟨s4, hrun4, hval4, hk4⟩ := computes_bop m32 (site + 1) .add t (d := .tmp site 4)
    (a := .tmp site 3) (b := .var x) (htmp 4) s3
  obtain ⟨s5, hrun5, hval5, hk5⟩ := computes_bop m32 (site + 1) .band t (d := .tmp site 5)
    (a := .tmp site 4) (b := .tmp site 2) (htmp 5) s4
  obtain ⟨s6, hrun6, hval6, -⟩ := computes_bop m32 (site + 1) .sub t (d := .var r)
    (a := .tmp site 5) (b := .tmp site 3) (hvar r) s5
  refine ⟨s6, ?_, ?_⟩
  · unfold branchFreeRem
    simp only [run_append, hrun1, hrun2, hrun3, hrun4, hrun5, hrun6, Option.bind_some]
  -- the operands are where the steps before left them
  · have hx : s3.val m32 (.var x) t = s.val m32 (.var x) t := by
      rw [hk3.val m32 t (by simp) (htmp 3).1 (hvar x), hk2.val m32 t (by simp) (htmp 2).1 (hvar x),
        hk1.val m32 t (by simp) (htmp 1).1 (hvar x)]
    have ht1 : s2.val m32 (.tmp site 1) t = s1.val m32 (.tmp site 1) t :=
      hk2.val m32 t (by simp) (htmp 2).1 (htmp 1)
    have ht2 : s4.val m32 (.tmp site 2) t = s2.val m32 (.tmp site 2) t := by
      rw [hk4.val m32 t (by simp) (htmp 4).1 (htmp 2), hk3.val m32 t (by simp) (htmp 3).1 (htmp 2)]
    have ht3 : s5.val m32 (.tmp site 3) t = s3.val m32 (.tmp site 3) t := by
      rw [hk5.val m32 t (by simp) (htmp 5).1 (htmp 3), hk4.val m32 t (by simp) (htmp 4).1 (htmp 3)]
    rw [hval6, ht3, hval5, ht2, hval4, hx, hval3, ht1, hval1, hval2]
    exact branchFree_value hn _

/-- Masking gives the truncated remainder of a dividend that is not negative, or of a multiple. -/
theorem ofInt_emod_eq_tmod (hn : n < w) (X : Int) :
    ofInt w (X % 2 ^ n) = ofInt w (X.tmod (2 ^ n)) ↔ 0 ≤ X ∨ X % 2 ^ n = 0 := by
  have hpos : (0 : Int) < 2 ^ n := by positivity
  rcases le_or_gt 0 X with hX | hX
  · rw [tmod_eq_emod_of_nonneg hX]
    exact iff_of_true rfl (.inl hX)
  have hmod : X.tmod (2 ^ n) = -((-X) % 2 ^ n) := by
    rw [← tmod_eq_emod_of_nonneg (by omega), neg_tmod, neg_neg]
  have hsum : (X % 2 ^ n + (-X) % 2 ^ n) % 2 ^ n = 0 := by
    rw [← add_emod, add_neg_cancel, zero_emod]
  have h1 := emod_nonneg X hpos.ne'
  have h2 := emod_lt_of_pos X hpos
  have h3 := emod_nonneg (-X) hpos.ne'
  have h4 := emod_lt_of_pos (-X) hpos
  have hlt : (2 : Int) ^ n < 2 ^ w := pow_lt_pow_right₀ (by decide) hn
  obtain ⟨k, hk⟩ := dvd_of_emod_eq_zero hsum
  have hk0 : 0 ≤ k := by
    by_contra hneg
    have : (2 : Int) ^ n * k ≤ 2 ^ n * (-1) := mul_le_mul_of_nonneg_left (by omega) hpos.le
    omega
  have hk1 : k < 2 := by
    by_contra hge
    have : (2 : Int) ^ n * 2 ≤ 2 ^ n * k := mul_le_mul_of_nonneg_left (by omega) hpos.le
    omega
  rw [hmod]
  constructor
  · intro heq
    right
    by_contra hne
    -- the two differ by one divisor, which is no multiple of the word
    obtain rfl : k = 1 := by
      rcases (show k = 0 ∨ k = 1 by omega) with rfl | rfl
      · omega
      · rfl
    have hmods := congrArg BitVec.toNat heq
    rw [toNat_ofInt, toNat_ofInt] at hmods
    have hcast : ((2 ^ w : Nat) : Int) = 2 ^ w := by push_cast; rfl
    rw [hcast, show -((-X) % 2 ^ n) = X % 2 ^ n - 2 ^ n by omega] at hmods
    have hn1 := emod_nonneg (X % 2 ^ n) (show (2 : Int) ^ w ≠ 0 by positivity)
    have hn2 := emod_nonneg (X % 2 ^ n - 2 ^ n) (show (2 : Int) ^ w ≠ 0 by positivity)
    have hemod : X % 2 ^ n % 2 ^ w = (X % 2 ^ n - 2 ^ n) % 2 ^ w := by omega
    have hzero := emod_eq_emod_iff_emod_sub_eq_zero.mp hemod
    rw [show X % 2 ^ n - (X % 2 ^ n - 2 ^ n) = 2 ^ n by ring, emod_eq_of_lt hpos.le hlt] at hzero
    omega
  · rintro (h | h)
    · omega
    · have : k = 0 := by
        rcases (show k = 0 ∨ k = 1 by omega) with rfl | rfl
        · rfl
        · omega
      subst this
      rw [show (-X) % 2 ^ n = 0 by omega, h]
      rfl

theorem val_setFlags (m32 : Bool) (s : State) (f : Flags) (x : TN) (t : Mtype) :
    (s.setFlags f).val m32 x t = s.val m32 x t := by
  cases t with
  | I4 | U4 => rfl
  | I8 | U8 => cases m32 <;> rfl

theorem branchFree_noLabel (site : Nat) (t : Mtype) (r x : TN) (v : Int) (k : Nat) :
    Instr.label k ∉ branchFreeRem false site t r x v := by
  cases t <;>
    simp [branchFreeRem, expandSignShift, expandImmediate, expandImmediate8, expandBop, opNeedPair,
      Mtype.isDouble]

theorem binaryAndLit_noLabel (site : Nat) (t : Mtype) (r x : TN) (v : Int) (k : Nat) :
    Instr.label k ∉ expandBinaryAndLit false site t r x v := by
  have hpair : opNeedPair false t = false := by cases t <;> rfl
  unfold expandBinaryAndLit expandCopy expandBop expandImmediate8
  rw [hpair]
  split_ifs <;> simp_all

/-- The sign of the dividend chooses between the sequence without branches and a single AND. -/
theorem run_fast (site : Nat) (t : Mtype) (r x : Nat) (absdvsr d : Int) {s1 s2 : State}
    (hthen : run (branchFreeRem false site t (.var r) (.var x) absdvsr) none
      (s.setFlags (testFlags (s.read 32 (.var x)))) = some (s1, none))
    (helse : run (expandBinaryAndLit false (site + 1) t (.var r) (.var x) d) none
      (s.setFlags (testFlags (s.read 32 (.var x)))) = some (s2, none)) :
    runInsns (ops [.test 32 (.var x) (TN.var x), .jcc .ge 0] ++
      (ops (branchFreeRem false site t (.var r) (.var x) absdvsr) ++ (.jmp 1 :: .op (.label 0) ::
      (ops (expandBinaryAndLit false (site + 1) t (.var r) (.var x) d) ++
      [.op (.label 1)])))) none s = some (if (s.read 32 (.var x)).msb then s1 else s2, none) := by
  obtain ⟨s0, hs0⟩ : ∃ s0, s0 = s.setFlags (testFlags (s.read 32 (.var x))) := ⟨_, rfl⟩
  rw [← hs0] at hthen helse
  have hge : Cond.ge.eval s0.flags = some (!(s.read 32 (.var x)).msb) := by
    rw [hs0, flags_setFlags]
    simp [Cond.eval, testFlags]
  have htest : run [.test 32 (.var x) (TN.var x), .jcc .ge 0] none s
      = some (s0, if (s.read 32 (.var x)).msb then none else some 0) := by
    have hself : s.setFlags (testFlags (s.read 32 (.var x) &&& s.opnd 32 (TN.var x))) = s0 := by
      rw [hs0, State.opnd, BitVec.and_self]
    simp only [run, Instr.exec, Option.bind_some, hself, hge]
    cases (s.read 32 (.var x)).msb <;> rfl
  rw [runInsns_ops, htest, Option.bind_some]
  cases hm : (s.read 32 (.var x)).msb with
  | true =>
    -- `bb_then` jumps over `bb_else`
    rw [if_pos rfl, if_pos rfl, runInsns_append hthen]
    show runInsns (ops _ ++ _) (some 1) s1 = _
    rw [runInsns_ops, run_skip fun k => binaryAndLit_noLabel _ t _ _ _ k]
    rfl
  | false =>
    rw [if_neg (by decide), if_neg (by decide), runInsns_ops,
      run_skip fun k => branchFree_noLabel site t _ _ _ k]
    show runInsns (ops _ ++ _) none s0 = _
    rw [runInsns_append helse]
    rfl

/-! ## Remainders by powers of two -/

/-- What an expansion comes to is right from `s`. -/
def Emitted.Right (m32 : Bool) (t : Mtype) (s : State) (r : TN) (v : BitVec t.bits) : Emitted → Prop
  | .stop => False
  | .yes code => ∃ s', runInsns code none s = some (s', none) ∧ s'.val m32 r t = v

/-- `d` is a divisor `2 ^ n`, or `- 2 ^ n`, of the type. -/
def PowerDivisor (t : Mtype) (d : Int) (n : Nat) : Prop :=
  if t.isSigned then (d = 2 ^ n ∧ n < t.bits - 1) ∨ (d = -2 ^ n ∧ n < t.bits)
  else d % 2 ^ t.bits = 2 ^ n ∧ n < t.bits

/-- The remainder of the C language. -/
def remainder (t : Mtype) (x : BitVec t.bits) (d : Int) : BitVec t.bits :=
  if t.isSigned then ofInt t.bits (x.toInt.tmod d)
  else ofInt t.bits ((x.toNat : Int) % (d % 2 ^ t.bits))

/-- The fast form is taken. -/
def FastRem (o : RemOptions) (t : Mtype) (d : Int) : Prop :=
  t.isSigned = true ∧ o.useSetcc = false ∧ o.target32bit = false ∧ 0 ≤ d

theorem PowerDivisor.lt {d : Int} (h : PowerDivisor t d n) : n < t.bits := by
  unfold PowerDivisor at h
  split at h
  · rcases h with ⟨_, h⟩ | ⟨_, h⟩ <;> omega
  · exact h.2

theorem PowerDivisor.getPowerOf2 {t : Mtype} {d : Int} {n : Nat} (h : PowerDivisor t d n) :
    X8664.getPowerOf2 d t = some n := by
  have hlt := h.lt
  have hpos : (0 : Int) < 2 ^ n := by positivity
  unfold PowerDivisor at h
  cases t with
  | I4 | I8 =>
    refine getPowerOf2_eq ?_ hlt
    rw [if_pos (by rfl)] at h
    unfold powerVal
    rcases h with ⟨rfl, _⟩ | ⟨rfl, _⟩
    · simp [Mtype.isSigned, hpos.le]
    · simp [Mtype.isSigned, hpos]
  | U4 =>
    refine getPowerOf2_eq ?_ hlt
    rw [if_neg (by decide)] at h
    simpa [powerVal, Mtype.isSigned, Mtype.bits, Mtype.isDouble] using h.1
  | U8 =>
    rw [if_neg (by decide)] at h
    have hword : ofInt 64 (powerVal d .U8) = ofInt 64 (powerVal (2 ^ n) .U8) := by
      apply eq_of_toNat_eq
      rw [toNat_ofInt, toNat_ofInt]
      have hmod : d % 2 ^ 64 = 2 ^ n := h.1
      have hlt64 : (2 : Int) ^ n < 2 ^ 64 := pow_lt_pow_right₀ (by decide) hlt
      have hd : powerVal d .U8 = d := rfl
      have hn : powerVal (2 ^ n) .U8 = 2 ^ n := rfl
      rw [hd, hn]
      omega
    have heq := @getPowerOf2_eq (2 ^ n) .U8 n rfl hlt
    unfold X8664.getPowerOf2 at heq ⊢
    rw [hword]
    exact heq

theorem remainder_unsigned (ht : t.isSigned = false) {d : Int}
    (hd : PowerDivisor t d n) (x : BitVec t.bits) :
    remainder t x d = x &&& ofInt t.bits (2 ^ n - 1) := by
  have hn := hd.lt
  unfold PowerDivisor at hd
  rw [if_neg (by simp [ht])] at hd
  unfold remainder
  rw [if_neg (by simp [ht]), hd.1]
  have hmask := and_mask hn.le (x.toNat : Int)
  rw [BitVec.ofInt_natCast, BitVec.ofNat_toNat, setWidth_eq] at hmask
  exact hmask.symm

theorem remainder_signed (ht : t.isSigned = true) {d : Int}
    (hd : PowerDivisor t d n) (x : BitVec t.bits) :
    remainder t x d = ofInt t.bits (x.toInt.tmod (2 ^ n)) := by
  unfold PowerDivisor at hd
  rw [if_pos ht] at hd
  unfold remainder
  rw [if_pos ht]
  rcases hd with ⟨rfl, _⟩ | ⟨rfl, _⟩
  · rfl
  · rw [tmod_neg]

theorem read32_eq_val (s : State) (x : TN) (t : Mtype) :
    s.read 32 x = (s.val false x t).setWidth 32 := by
  cases t with
  | I4 | U4 => exact (setWidth_eq _).symm
  | I8 | U8 => rfl

theorem low_msb_of_single (ht : t.isDouble = false) (x : BitVec t.bits) :
    (x.setWidth 32).msb = decide (x.toInt < 0) := by
  cases t with
  | I8 | U8 => exact absurd ht (by decide)
  | I4 | U4 =>
    have hself : x.setWidth 32 = x := setWidth_eq x
    rw [hself]
    exact BitVec.msb_eq_toInt

theorem fastPowerOf2Rem_right_iff (site : Nat) (dedicated : Bool) (r x : Nat)
    (hn : n < t.bits - 1) (s : State) :
    (expandFastPowerOf2Rem site dedicated (.var r) (.var x) (2 ^ n) t).Right false t s (.var r)
        (ofInt t.bits ((s.val false (.var x) t).toInt.tmod (2 ^ n))) ↔
      ¬ (dedicated = true ∨ (2 : Int) ^ 31 ≤ 2 ^ n ∨
        (t.isDouble = true ∧ (s.val false (.var x) t).toInt < 0 ∧
          ((s.val false (.var x) t).setWidth 32).msb = false ∧
          (s.val false (.var x) t).toInt % 2 ^ n ≠ 0)) := by
  have hpos : (0 : Int) < 2 ^ n := by positivity
  unfold expandFastPowerOf2Rem
  dsimp only
  by_cases hded : dedicated = true
  · rw [if_pos hded]
    exact iff_of_false id fun h => h (.inl hded)
  rw [if_neg hded]
  by_cases hbig : (2 : Int) ^ 31 ≤ 2 ^ n
  · -- so does a divisor that is no immediate
    rw [if_pos (fun h : simm32 (2 ^ n) => absurd h.2 (by omega))]
    exact iff_of_false id fun h => h (.inr (.inl hbig))
  have himm : simm32 (2 ^ n) := ⟨by omega, by omega⟩
  rw [if_neg (not_not_intro himm), if_neg (show ¬ (2 : Int) ^ n < 0 by omega)]
  obtain ⟨f, hf⟩ : ∃ f, f = testFlags (s.read 32 (.var x)) := ⟨_, rfl⟩
  obtain ⟨s1, hrun1, hval1⟩ :=
    branchFree_right false site t r x (show n ≤ t.bits by omega) (s.setFlags f)
  obtain ⟨s2, hrun2, hval2, -⟩ := computes_binaryAndLit false (site + 1) t
    (apart_var _ r) (apart_var _ x) (2 ^ n - 1) (s.setFlags f)
  rw [val_setFlags] at hval1 hval2
  rw [hf] at hrun1 hrun2
  have hrun := run_fast site t r x (2 ^ n) (2 ^ n - 1) hrun1 hrun2
  have hlow := read32_eq_val s (.var x) t
  -- the code leaves one of the two values
  have hright : ∀ (s' : State) (v : BitVec t.bits), (s.read 32 (.var x)).msb = true ∧ s' = s1 ∨
      (s.read 32 (.var x)).msb = false ∧ s' = s2 → (Emitted.Right false t s (.var r) v
        (.yes (ops [.test 32 (.var x) (TN.var x), .jcc .ge 0] ++
          (ops (branchFreeRem false site t (.var r) (.var x) (2 ^ n)) ++
          (.jmp 1 :: .op (.label 0) ::
          (ops (expandBinaryAndLit false (site + 1) t (.var r) (.var x) (2 ^ n - 1)) ++
          [.op (.label 1)]))))) ↔ s'.val false (.var r) t = v) := by
    intro s' v hs'
    have hif : (if (s.read 32 (.var x)).msb then s1 else s2) = s' := by
      rcases hs' with ⟨h, rfl⟩ | ⟨h, rfl⟩
      · rw [if_pos h]
      · rw [if_neg (by simp [h])]
    rw [hif] at hrun
    constructor
    · rintro ⟨s'', hrun'', hval⟩
      obtain rfl : s' = s'' := congrArg Prod.fst (Option.some.inj (hrun.symm.trans hrun''))
      exact hval
    · exact fun hval => ⟨s', hrun, hval⟩
  cases hm : (s.read 32 (.var x)).msb with
  | true =>
    -- below zero: the sequence without branches
    refine (hright s1 _ (.inl ⟨hm, rfl⟩)).trans (iff_of_true hval1 ?_)
    rintro (h | h | ⟨_, _, h, _⟩)
    · exact hded h
    · exact hbig h
    · rw [← hlow, hm] at h
      cases h
  | false =>
    -- otherwise the mask alone
    refine (hright s2 _ (.inr ⟨hm, rfl⟩)).trans ?_
    have hmask := and_mask (show n ≤ t.bits by omega) (s.val false (.var x) t).toInt
    rw [BitVec.ofInt_toInt] at hmask
    rw [hval2, hmask, ofInt_emod_eq_tmod (by omega)]
    rw [hlow] at hm
    constructor
    · rintro hX (h | h | ⟨_, hneg, _, hne⟩)
      · exact hded h
      · exact hbig h
      · rcases hX with hX | hX
        · omega
        · exact hne hX
    · intro h
      by_cases hneg : (s.val false (.var x) t).toInt < 0
      · right
        by_contra hne
        refine h (.inr (.inr ⟨?_, hneg, hm, hne⟩))
        by_contra hs
        rw [low_msb_of_single (by simpa using hs), decide_eq_false_iff_not] at hm
        exact hm hneg
      · left
        omega

/-- The remainder by a power of two is exact: but the fast form stops at a dedicated result and at a
divisor from 2 ^ 31 on, and takes a 64-bit dividend below 0 for one above when bit 31 is clear. -/
theorem powerOf2Rem_right_iff (o : RemOptions) (site : Nat) (dedicated : Bool) (r x : Nat)
    (t : Mtype) {d : Int} {n : Nat} (hd : PowerDivisor t d n) (s : State) :
    (expandPowerOf2Rem o site dedicated (.var r) (.var x) d t).Right o.target32bit t s (.var r)
        (remainder t (s.val o.target32bit (.var x) t) d) ↔
      ¬ (FastRem o t d ∧ (dedicated = true ∨ 2 ^ 31 ≤ d ∨
        (t.isDouble = true ∧ (s.val o.target32bit (.var x) t).toInt < 0 ∧
          ((s.val o.target32bit (.var x) t).setWidth 32).msb = false ∧
          (s.val o.target32bit (.var x) t).toInt % 2 ^ n ≠ 0))) := by
  have hn := hd.lt
  unfold expandPowerOf2Rem
  rw [hd.getPowerOf2]
  dsimp only
  cases ht : t.isSigned with
  | false =>
    -- a mask
    rw [if_neg (by decide), remainder_unsigned ht hd]
    refine iff_of_true ?_ fun h => by simp [FastRem, ht] at h
    obtain ⟨s', hrun, hval, -⟩ := computes_binaryAndLit o.target32bit (site + 1) t
      (apart_var _ r) (apart_var _ x) (2 ^ n - 1) s
    refine ⟨s', ?_, hval⟩
    have happ := runInsns_append (b := []) hrun
    rwa [List.append_nil] at happ
  | true =>
    rw [if_pos rfl, remainder_signed ht hd]
    have habs : (if d < 0 then -d else d) = 2 ^ n := by
      have hpos : (0 : Int) < 2 ^ n := by positivity
      unfold PowerDivisor at hd
      rw [if_pos ht] at hd
      rcases hd with ⟨rfl, _⟩ | ⟨rfl, _⟩
      · rw [if_neg (by omega)]
      · rw [if_pos (by omega), neg_neg]
    by_cases hfast : FastRem o t d
    · obtain ⟨_, hsetcc, hm32, hnonneg⟩ := id hfast
      have hd2 : d = 2 ^ n ∧ n < t.bits - 1 := by
        have hpos : (0 : Int) < 2 ^ n := by positivity
        unfold PowerDivisor at hd
        rw [if_pos ht] at hd
        exact hd.resolve_right fun h => by omega
      rw [if_neg (by simp [hsetcc, hm32, hnonneg]), hm32]
      obtain ⟨rfl, hn1⟩ := hd2
      rw [fastPowerOf2Rem_right_iff site dedicated r x hn1 s]
      exact not_congr ⟨fun h => ⟨hfast, h⟩, fun h => h.2⟩
    · have hform : (o.useSetcc || o.target32bit || decide (d < 0)) = true := by
        by_contra hnot
        simp only [Bool.or_eq_true, decide_eq_true_eq, not_or, Bool.not_eq_true] at hnot
        exact hfast ⟨ht, hnot.1.1, hnot.1.2, by omega⟩
      rw [if_pos hform, habs]
      refine iff_of_true ?_ fun h => hfast h.1
      obtain ⟨s', hrun, hval⟩ := branchFree_right o.target32bit site t r x hn.le s
      refine ⟨s', ?_, hval⟩
      have happ := runInsns_append (b := []) hrun
      rwa [List.append_nil] at happ

theorem powerOf2Rem_right_iff_four :
    (expandPowerOf2Rem ⟨⟨true, true, false, true⟩, false⟩ 0 false (.var 0) (.var 1) 4 .I4).Right
      false .I4 ⟨fun _ => 0xfffffff9, .unknown, 0⟩ (.var 0) (ofInt 32 (-3)) := by
  have h := powerOf2Rem_right_iff ⟨⟨true, true, false, true⟩, false⟩ 0 false 0 1 .I4 (d := 4)
    (n := 2) (.inl ⟨rfl, by decide⟩) ⟨fun _ => 0xfffffff9, .unknown, 0⟩
  have hval : remainder .I4 (State.val false ⟨fun _ => 0xfffffff9, .unknown, 0⟩ (.var 1) .I4) 4
      = ofInt 32 (-3) := rfl
  rw [hval] at h
  refine h.mpr ?_
  rintro ⟨_, hd | hd | ⟨hd, _⟩⟩
  · cases hd
  · exact absurd hd (by decide)
  · cases hd

/-- The remainder of -4294967295 by 4 comes out as 1: bit 31 is clear. -/
theorem powerOf2Rem_low_half_wrong : ¬ ∀ (o : RemOptions) (site r x : Nat) (t : Mtype) (d : Int)
    (n : Nat), PowerDivisor t d n → ∀ s : State,
      (expandPowerOf2Rem o site false (.var r) (.var x) d t).Right o.target32bit t s (.var r)
        (remainder t (s.val o.target32bit (.var x) t) d) := by
  intro h
  have hright := h ⟨⟨true, true, false, true⟩, false⟩ 0 0 1 .I8 4 2 (.inl ⟨rfl, by decide⟩)
    ⟨fun _ => 0xffffffff00000001, .unknown, 0⟩
  have hfast : expandPowerOf2Rem ⟨⟨true, true, false, true⟩, false⟩ 0 false (.var 0) (.var 1) 4 .I8
      = expandFastPowerOf2Rem 0 false (.var 0) (.var 1) (2 ^ 2) .I8 := by decide
  rw [hfast] at hright
  refine (fastPowerOf2Rem_right_iff 0 false 0 1 (t := .I8) (n := 2) (by decide)
    ⟨fun _ => 0xffffffff00000001, .unknown, 0⟩).mp hright (.inr (.inr ?_))
  exact ⟨rfl, by decide, by decide, by decide⟩

end X8664
