import Path64.X8664.DivideSigned
import Path64.X8664.Remainder

/-! # The modulus

`Expand_Mod`: the masks of a power of two, or a remainder that is
adjusted by the divisor. The adjustment asks with two tests whether the
operands have different signs and whether the remainder is zero, and the
second test looks at 32 bits whatever the type is. -/

namespace X8664

open Int Option
open BitVec (setWidth toInt_lt le_toInt ofInt toNat_ofInt msb_eq_toInt msb_xor allOnes toInt_ofInt)

/-! ## The expansions -/

/-- The division of `Expand_Rem`, of a dividend in two new registers. -/
def divideRem (site : Nat) (result src1 src2 : TN) (t : Mtype) : List Insn :=
  let lo := TN.tmp site 1
  let hi := TN.tmp site 2
  let result1 := TN.tmp site 3
  if t.isSigned then
    [.extend t.bits lo hi src1, .div true t.bits result1 result lo hi src2]
  else [.op (.ldc 32 hi 0), .div false t.bits result1 result src1 hi src2]

/-- `Expand_Rem` by a register; `known` is its value for `TN_Value_At_Op`, `divTn` the quotient's
TN. -/
def expandRem (o : RemOptions) (site : Nat) (divTn : TN) (dedicated : Bool)
    (result src1 src2 : TN) (known : Option Int) (t : Mtype) : Emitted :=
  if src1 = src2 then .yes [.op (.ldc t.bits result 0)]
  else
    match known with
    | none => .yes (divideRem (site + 3) result src1 src2 t)
    | some src2Val =>
      if isPowerOf2 src2Val t then
        expandPowerOf2Rem o site dedicated result src1 src2Val t
      else if o.cvrtIntDivToMult ∧ src2Val ≠ 0 then
        let mult := TN.tmp (site + 3) 0
        match expandIntegerDivideByConstant o.toOptions site divTn src1 src2Val t with
        | .stop => .stop
        | .no => .yes (divideRem (site + 3) result src1 src2 t)
        | .yes code =>
          .yes (ops (code ++ [.bin .imul t.bits mult divTn (.tn src2),
            .bin .sub t.bits result src1 (.tn mult)]))
      else .yes (divideRem (site + 3) result src1 src2 t)

def expandPowerOf2Mod (o : RemOptions) (site : Nat) (result src1 : TN) (src2Val : Int)
    (t : Mtype) : Emitted :=
  let m32 := o.target32bit
  let absval := if src2Val < 0 then -src2Val else src2Val
  match getPowerOf2 absval t with
  | none => .stop
  | some n =>
    let nMask : Int := 2 ^ n - 1
    if t.isSigned ∧ src2Val < 0 then
      let tmp1 := TN.tmp site 1
      let tmp2 := TN.tmp site 2
      .yes (ops (expandNeg m32 (site + 1) t tmp1 src1 ++
        expandBinaryAndLit m32 (site + 1) t tmp2 tmp1 nMask ++
        expandNeg m32 (site + 1) t result tmp2))
    else .yes (ops (expandBinaryAndLit m32 (site + 1) t result src1 nMask))

/-- The adjustment of a remainder in `result`. -/
def adjustRem (hasCmov : Bool) (site : Nat) (result src1 src2 : TN) (t : Mtype) : List Instr :=
  let src1XorSrc2 := TN.tmp site 1
  let divisorOrZero := TN.tmp site 2
  let remainderPlusDivisor := TN.tmp site 3
  [.bin .xor t.bits src1XorSrc2 src1 (.tn src2),
   .test t.bits src1XorSrc2 (.tn src1XorSrc2),
   .ldc t.bits divisorOrZero 0] ++
  expandCmov hasCmov t.bits 2 .l .ge divisorOrZero src2 ++
  [.bin .add t.bits remainderPlusDivisor result (.tn divisorOrZero),
   .test 32 result (.tn result)] ++
  expandCmov hasCmov t.bits 3 .ne .e result remainderPlusDivisor

/-- `Expand_Mod` of a divisor in a register, as constants are loaded for `OPR_MOD`. -/
def expandMod (o : RemOptions) (site : Nat) (divTn : TN) (dedicated : Bool)
    (result src1 src2 : TN) (known : Option Int) (t : Mtype) : Emitted :=
  let byRem :=
    match expandRem o site divTn dedicated result src1 src2 known t with
    | .stop => .stop
    | .yes code => .yes (code ++ ops (adjustRem o.hasCmov (site + 4) result src1 src2 t))
  match known with
  | none => byRem
  | some src2Val =>
    if isPowerOf2 src2Val t then expandPowerOf2Mod o site result src1 src2Val t
    else if src2Val = 0 then .stop
    else byRem

/-! ## The adjustment -/

/-- The code after the division: the divisor is added where the remainder is not zero and the two
signs differ. -/
theorem run_adjustRem (hasCmov : Bool) (site : Nat) (r x y : Nat) (t : Mtype) (s : State) :
    ∃ s', run (adjustRem hasCmov site (.var r) (.var x) (.var y) t) none s = some (s', none) ∧
      s'.read t.bits (.var r)
        = if s.read 32 (.var r) = 0 then s.read t.bits (.var r)
          else s.read t.bits (.var r)
            + if (s.read t.bits (.var x) ^^^ s.read t.bits (.var y)).msb then
                s.read t.bits (.var y)
              else 0 := by
  have hbits : t.bits ≤ 64 := by cases t <;> decide
  generalize hxor : s.read t.bits (.var x) ^^^ s.read t.bits (.var y) = z
  -- the signs
  obtain ⟨s1, hs1⟩ : ∃ s1, s1 = ((((s.write (.tmp site 1) z).setFlags (testFlags z)).setFlags
    (testFlags z)).write (.tmp site 2) (0 : BitVec t.bits)) := ⟨_, rfl⟩
  have hrun1 : run [.bin .xor t.bits (.tmp site 1) (.var x) (.tn (.var y)),
      .test t.bits (.tmp site 1) (.tn (.tmp site 1)), .ldc t.bits (.tmp site 2) 0] none s
        = some (s1, none) := by
    simp [hs1, hxor, hbits]
  have hl : Cond.l.eval s1.flags = some z.msb := by simp [hs1, Cond.eval, testFlags]
  have hge : Cond.ge.eval s1.flags = some (!z.msb) := by simp [hs1, Cond.eval, testFlags]
  obtain ⟨s2, hrun2, hval2, hkept2⟩ := run_cmov hasCmov hbits 2 (.tmp site 2)
    (.var y) hl hge
  -- the sum, and whether the low word is zero
  obtain ⟨s3, hrun3, hval3, hflags3, hkept3⟩ : ∃ s3,
      run [.bin .add t.bits (.tmp site 3) (.var r) (.tn (.tmp site 2)),
        .test 32 (.var r) (.tn (.var r))] none s2 = some (s3, none) ∧
      s3.read t.bits (.tmp site 3) = s2.read t.bits (.var r) + s2.read t.bits (.tmp site 2) ∧
      s3.flags = testFlags (s2.read 32 (.var r)) ∧
      ∀ u, u ≠ .tmp site 3 → s3.reg u = s2.reg u :=
    ⟨_, rfl, by simp [hbits], by simp, fun u hu => by simp [hu]⟩
  have hne : Cond.ne.eval s3.flags = some (!(s2.read 32 (.var r) == 0)) := by
    simp [hflags3, Cond.eval, testFlags]
  have he : Cond.e.eval s3.flags = some (!!(s2.read 32 (.var r) == 0)) := by
    simp [hflags3, Cond.eval, testFlags]
  obtain ⟨s4, hrun4, hval4, -⟩ := run_cmov hasCmov hbits 3 (.var r)
    (.tmp site 3) hne he
  -- the remainder and the divisor are still there
  have hreg2 : ∀ u, s2.reg (.var u) = s.reg (.var u) := fun u => by
    rw [hkept2 _ (by simp), hs1]
    simp
  have hread2 : ∀ n u, s2.read n (.var u) = s.read n (.var u) := fun n u =>
    congrArg (setWidth n) (hreg2 u)
  have hread3 : s3.read t.bits (.var r) = s.read t.bits (.var r) :=
    congrArg (setWidth t.bits) ((hkept3 _ (by simp)).trans (hreg2 r))
  have hzero : s1.read t.bits (.tmp site 2) = 0 := by simp [hs1, hbits]
  have hy : s1.read t.bits (.var y) = s.read t.bits (.var y) := by simp [hs1, hbits]
  refine ⟨s4, ?_, ?_⟩
  · unfold adjustRem
    simp only [run_append, hrun1, hrun2, hrun3, bind_some]
    exact hrun4
  · rw [hval4, hval3, hread3, hread2, hread2, hval2, hzero, hy]
    by_cases h0 : s.read 32 (.var r) = 0
    · rw [if_pos h0, h0]
      rfl
    · rw [if_neg h0, if_pos (by simpa using h0)]

/-! ## The floored modulus -/

variable {X Y v : Int} {w q site x y : Nat} {t : Mtype} {s : State} {o : Options} {numer : TN}

theorem tmod_neg_iff (h : X.tmod Y ≠ 0) : X.tmod Y < 0 ↔ X < 0 := by
  have hsign := sign_tmod X Y
  rw [if_neg (fun hd => h (tmod_eq_zero_of_dvd hd))] at hsign
  rw [← sign_eq_neg_one_iff_neg, ← sign_eq_neg_one_iff_neg, hsign]

theorem fmod_eq_adjusted (X Y : Int) :
    X.fmod Y = X.tmod Y + if X.tmod Y ≠ 0 ∧ ¬ (X < 0 ↔ Y < 0) then Y else 0 := by
  rw [fmod_eq_tmod]
  congr 1
  by_cases hdvd : Y ∣ X
  · rw [if_pos hdvd, if_neg (fun h => h.1 (tmod_eq_zero_of_dvd hdvd))]
  · have hne : X.tmod Y ≠ 0 := fun h => hdvd (dvd_of_tmod_eq_zero h)
    rw [if_neg hdvd]
    split_ifs <;> omega

theorem tmod_bounds (x y : BitVec w) :
    -2 ^ (w - 1) ≤ x.toInt.tmod y.toInt ∧ x.toInt.tmod y.toInt < 2 ^ (w - 1) := by
  have h1 : x.toInt < 2 ^ (w - 1) := toInt_lt
  have h2 : -2 ^ (w - 1) ≤ x.toInt := le_toInt x
  have hpos : (0 : Int) < 2 ^ (w - 1) := by positivity
  have habs : (x.toInt.tmod y.toInt).natAbs ≤ x.toInt.natAbs := by
    rw [natAbs_tmod]
    exact Nat.mod_le _ _
  by_cases h0 : x.toInt.tmod y.toInt = 0
  · omega
  · have hsign := tmod_neg_iff h0
    omega

/-- The truncated remainder, adjusted, is the modulus with the sign of the divisor. -/
theorem adjusted_value {x y : BitVec t.bits} (x' y' : BitVec t.bits) (same : Bool)
    (hy : y ≠ 0) (hx' : x' = x ∨ x' = ofInt t.bits (x.toInt.tmod y.toInt))
    (hy' : y' = if same then ofInt t.bits (x.toInt.tmod y.toInt) else y) :
    (if ofInt 32 (x.toInt.tmod y.toInt) = 0 then ofInt t.bits (x.toInt.tmod y.toInt)
      else ofInt t.bits (x.toInt.tmod y.toInt) + if (x' ^^^ y').msb then y' else 0)
        = ofInt t.bits (x.toInt.fmod y.toInt) ↔
      x.toInt.tmod y.toInt = 0 ∨ (x.toInt < 0 ↔ y.toInt < 0) ∨
        (same = false ∧ x.toInt.tmod y.toInt % 2 ^ 32 ≠ 0) := by
  have hw : 0 < t.bits := by cases t <;> decide
  have hy0 : y.toInt ≠ 0 := fun h => hy (BitVec.eq_of_toInt_eq (by simpa using h))
  obtain ⟨hR1, hR2⟩ := tmod_bounds x y
  have hword : ∀ z : Int, ofInt 32 z = 0 ↔ z % 2 ^ 32 = 0 := by
    intro z
    have hzero : (0 : BitVec 32).toNat = 0 := rfl
    rw [← BitVec.toNat_inj, toNat_ofInt, hzero]
    omega
  rw [fmod_eq_adjusted]
  generalize hR : x.toInt.tmod y.toInt = R at *
  have hRint := BitVec.toInt_ofInt_eq_self hw hR1 hR2
  have hysum : ∀ z, ofInt t.bits (z + y.toInt) ≠ ofInt t.bits z := by
    intro z heq
    rw [BitVec.ofInt_add, BitVec.ofInt_toInt] at heq
    exact hy (by simpa using heq)
  by_cases h0 : R = 0
  · subst h0
    simp
  have hRneg : R < 0 ↔ x.toInt < 0 := hR ▸ tmod_neg_iff (hR ▸ h0)
  have hmsbx : x'.msb = decide (x.toInt < 0) := by
    rcases hx' with rfl | rfl
    · exact msb_eq_toInt
    · rw [msb_eq_toInt, hRint]
      exact decide_eq_decide.mpr hRneg
  -- without a carry from the divisor the remainder stays
  have hkeep : ∀ v : BitVec t.bits, v.msb = false →
      (if ofInt 32 R = 0 then ofInt t.bits R
        else ofInt t.bits R + if v.msb then y' else 0) = ofInt t.bits R := by
    intro v hv
    rw [hv]
    split
    · rfl
    · exact BitVec.add_zero _
  by_cases hsigns : x.toInt < 0 ↔ y.toInt < 0
  · have hmsby : y'.msb = decide (x.toInt < 0) := by
      rw [hy', msb_eq_toInt]
      split
      · rw [hRint]
        exact decide_eq_decide.mpr hRneg
      · exact decide_eq_decide.mpr hsigns.symm
    have hadd : (if R ≠ 0 ∧ ¬ (x.toInt < 0 ↔ y.toInt < 0) then y.toInt else 0) = 0 :=
      if_neg fun h => h.2 hsigns
    rw [hkeep _ (by rw [msb_xor, hmsbx, hmsby, Bool.xor_self]), hadd, add_zero]
    exact iff_of_true rfl (.inr (.inl hsigns))
  · have hadd : (if R ≠ 0 ∧ ¬ (x.toInt < 0 ↔ y.toInt < 0) then y.toInt else 0) = y.toInt :=
      if_pos ⟨h0, hsigns⟩
    rw [hadd]
    cases same with
    | true =>
      -- the divisor is lost: its place has the remainder
      have hmsby : y'.msb = decide (x.toInt < 0) := by
        rw [hy', if_pos rfl, msb_eq_toInt, hRint]
        exact decide_eq_decide.mpr hRneg
      rw [hkeep _ (by rw [msb_xor, hmsbx, hmsby, Bool.xor_self])]
      exact iff_of_false (fun heq => hysum R heq.symm) (by simp [h0, hsigns])
    | false =>
      rw [if_neg (by decide)] at hy'
      have hmsb : (x' ^^^ y').msb = true := by
        rw [msb_xor, hmsbx, hy', msb_eq_toInt]
        by_cases hx : x.toInt < 0 <;> by_cases hyn : y.toInt < 0 <;> simp_all
      have hraise : (if (x' ^^^ y').msb then y' else 0) = y := by rw [if_pos hmsb, hy']
      rw [hraise]
      by_cases hlow : R % 2 ^ 32 = 0
      · rw [if_pos ((hword R).mpr hlow)]
        refine iff_of_false (fun heq => hysum R heq.symm) ?_
        rintro (h | h | ⟨_, h⟩)
        · exact h0 h
        · exact hsigns h
        · exact h hlow
      · rw [if_neg (fun h => hlow ((hword R).mp h)), BitVec.ofInt_add, BitVec.ofInt_toInt]
        exact iff_of_true rfl (.inr (.inr ⟨rfl, hlow⟩))

/-! ## What a division keeps -/

/-- The TNs that an instruction writes. -/
def Instr.dests : Instr → List TN
  | .mov _ d _ | .ldc _ d _ | .movx _ _ _ d _ | .not _ d _ | .neg _ d _ | .bin _ _ d _ _
  | .shd _ d _ _ _ | .bsr d _ | .cmov _ d _ => [d]
  | .mul _ _ lo hi _ _ => [lo, hi]
  | .cmp .. | .test .. | .jcc .. | .label _ => []

theorem exec_kept {i : Instr} {t : TN} (ht : t ∉ i.dests) {s' : State}
    (h : i.exec s = some s') : s'.reg t = s.reg t := by
  cases i with
  | bin op n d a b =>
    simp only [Instr.dests, List.mem_singleton] at ht
    simp only [Instr.exec, map_eq_some_iff] at h
    obtain ⟨q, _, rfl⟩ := h
    simp [ht]
  | cmov c d a =>
    simp only [Instr.dests, List.mem_singleton] at ht
    simp only [Instr.exec, map_eq_some_iff] at h
    obtain ⟨taken, _, rfl⟩ := h
    cases taken <;> simp [ht]
  | jcc c l => cases h
  | label l => cases h
  | cmp n a b | test n a b =>
    cases h
    rfl
  | _ =>
    simp only [Instr.exec, some.injEq] at h
    simp only [Instr.dests, List.mem_cons, List.not_mem_nil, or_false, not_or] at ht
    subst h
    simp [ht]

theorem run_kept {code : List Instr} {t : TN} (ht : ∀ i ∈ code, t ∉ i.dests)
    {skip : Option Nat} {r : State × Option Nat}
    (h : run code skip s = some r) : r.1.reg t = s.reg t := by
  induction code generalizing skip s with
  | nil =>
    simp only [run, some.injEq] at h
    rw [← h]
  | cons i is ih =>
    have hrest : ∀ j ∈ is, t ∉ j.dests := fun j hj => ht j (List.mem_cons_of_mem i hj)
    cases i with
    | label l =>
      rw [run] at h
      exact ih hrest h
    | jcc c l =>
      cases skip with
      | some l' => exact ih hrest h
      | none =>
        simp only [run, bind_eq_some_iff] at h
        obtain ⟨taken, _, h⟩ := h
        exact ih hrest h
    | _ =>
      cases skip with
      | some l' => exact ih hrest h
      | none =>
        simp only [run, bind_eq_some_iff] at h
        obtain ⟨s', hexec, h⟩ := h
        rw [ih hrest h]
        exact exec_kept (ht _ List.mem_cons_self) hexec

theorem emit_yes {l code : List Instr} (h : emit l = .yes code) : code = l := by
  unfold emit at h
  split at h
  · exact (Expanded.yes.inj h).symm
  · cases h

/-- No named TN but the result is written. -/
def WritesOnly (q : Nat) (code : List Instr) : Prop :=
  ∀ i ∈ code, ∀ u, TN.var u ∈ i.dests → u = q

@[simp] theorem writesOnly_nil (q : Nat) : WritesOnly q [] ↔ True := by
  simp [WritesOnly]

@[simp] theorem writesOnly_cons (q : Nat) (i : Instr) (is : List Instr) :
    WritesOnly q (i :: is) ↔ (∀ u, TN.var u ∈ i.dests → u = q) ∧ WritesOnly q is :=
  List.forall_mem_cons

@[simp] theorem writesOnly_append (q : Nat) (a b : List Instr) :
    WritesOnly q (a ++ b) ↔ WritesOnly q a ∧ WritesOnly q b :=
  List.forall_mem_append

@[simp] theorem writesOnly_ite (q : Nat) (c : Prop) [Decidable c] (a b : List Instr) :
    WritesOnly q (if c then a else b) ↔ (c → WritesOnly q a) ∧ (¬ c → WritesOnly q b) := by
  split <;> simp_all

theorem cmov_writes (hasCmov : Bool) {l : Nat} {c inverse : Cond} {d a : TN}
    (hd : ∀ u, d = .var u → u = q) : WritesOnly q (expandCmov hasCmov w l c inverse d a) := by
  have hd' : ∀ u, TN.var u = d → u = q := fun u h => hd u h.symm
  cases hasCmov <;> simpa [expandCmov, Instr.dests] using hd'

theorem signedMultiplier_writes {e : Int} {mHigh sh : Nat} {code : List Instr}
    (h : expandSignedMultiplier o site (.var q) numer e mHigh sh = .yes code) :
    WritesOnly q code := by
  unfold expandSignedMultiplier at h
  dsimp only at h
  split at h
  · rw [emit_yes h]
    cases o.target32bit <;>
      simp [expandConvertLength, expandImmediate8, expandMultiply8, expandHighWord,
        expandSplitCvtl, expandSplitIntconst, expandSplitMultiply, expandSplitShiftLit, Instr.dests]
  split at h
  · rw [emit_yes h]
    simp [Instr.dests]
  · rw [emit_yes h]
    simp [expandConvertLength, expandImmediate8, expandMultiply8, expandHighWord, Instr.dests]

theorem signedInverse_writes {denom : Int}
    {code : List Instr} (h : expandSignedInverse o site (.var q) numer denom t = .yes code) :
    WritesOnly q code := by
  unfold expandSignedInverse at h
  extract_lets w b at h
  -- the inverse is not computed here
  generalize determinePseudoInverse b (w - 1) = p at h
  obtain ⟨d, n⟩ := p
  have habs : WritesOnly q (expandCmov o.hasCmov w 0 .s .ns (.tmp site 2) numer) :=
    cmov_writes _ (by simp)
  have hres : ∀ (l : Nat) (c c' : Cond) (a : TN),
      WritesOnly q (expandCmov o.hasCmov w l c c' (.var q) a) :=
    fun l c c' a => cmov_writes _ (by simp)
  dsimp only at h
  split at h
  · cases h
  · rw [emit_yes h]
    by_cases hn : n > 0
    · simpa [hres, Instr.dests, hn] using habs
    · simpa [hres, Instr.dests, hn] using habs

/-! ## The remainder -/

theorem signedMultiplier_ne_no (o : Options) (site : Nat) (result numer : TN) (e : Int)
    (mHigh sh : Nat) : expandSignedMultiplier o site result numer e mHigh sh ≠ .no := by
  have hemit : ∀ l, emit l ≠ .no := fun l h => by
    unfold emit at h
    split at h <;> cases h
  unfold expandSignedMultiplier
  dsimp only
  split
  · exact hemit _
  split
  · exact hemit _
  · exact hemit _

/-- The compiler stops at the division: its search for a multiplier divides by zero. -/
def DivideStops (o : Options) (t : Mtype) (v : Int) : Prop :=
  t = .I4 ∧ o.idivbyconstOpt = true ∧ v < 0

/-- A signed value of a type. -/
def InType (t : Mtype) (v : Int) : Prop := -2 ^ (t.bits - 1) ≤ v ∧ v < 2 ^ (t.bits - 1)

/-- The code of the quotient. -/
structure DividesBy (code : List Instr) (q x : Nat) (t : Mtype) (v : Int) : Prop where
  writes : WritesOnly q code
  right : ∀ s : State, ∃ s', exec code s = some s' ∧
    s'.read t.bits (.var q) = ofInt t.bits ((s.read t.bits (.var x)).toInt.tdiv v)

theorem isPowerOf2_signed (ht : t.isSigned = true) (hv : InType t v) :
    isPowerOf2 v t = true ↔ v.natAbs.isPowerOfTwo := by
  cases t with
  | U4 | U8 => cases ht
  | I4 => exact isPowerOf2_I4 hv.1 hv.2
  | I8 => exact isPowerOf2_64 rfl hv.1 hv.2

theorem divide_signed (o : Options) (ho : o.cvrtIntDivToMult = true) (site q x : Nat)
    (ht : t.isSigned = true) (hv : InType t v) (h0 : v ≠ 0)
    (hpow : ¬ isPowerOf2 v t = true) : (DivideStops o t v →
      expandIntegerDivideByConstant o site (.var q) (.var x) v t = .stop) ∧
    (¬ DivideStops o t v → ∃ code,
      expandIntegerDivideByConstant o site (.var q) (.var x) v t = .yes code ∧
      DividesBy code q x t v) := by
  have hpow' : ¬ v.natAbs.isPowerOfTwo := fun h => hpow ((isPowerOf2_signed ht hv).mpr h)
  have h1 : v ≠ 1 := fun h => hpow' ⟨0, by rw [h]; rfl⟩
  have hm1 : v ≠ -1 := fun h => hpow' ⟨0, by rw [h]; rfl⟩
  have habs : 1 < v.natAbs := by omega
  unfold expandIntegerDivideByConstant
  rw [if_neg h1, if_neg (fun h => hm1 h.2), if_neg hpow, if_neg (by simp [ho])]
  by_cases hmult : ¬ t.isDouble ∧ o.idivbyconstOpt
  · -- the search for a multiplier
    obtain rfl : t = .I4 := by
      cases t with
      | I4 => rfl
      | U4 | U8 => cases ht
      | I8 => exact absurd rfl hmult.1
    have hlow : -2 ^ 31 ≤ v := hv.1
    have hhigh : v < 2 ^ 31 := hv.2
    rw [if_pos hmult, if_pos ht]
    rcases lt_or_gt_of_ne h0 with hneg | hpos
    · -- a negative divisor other than the least
      have hlow' : -2 ^ 31 < v := by
        rcases lt_or_eq_of_le hlow with h | h
        · exact h
        · exact (hpow' ⟨31, by omega⟩).elim
      rw [signedMultiplier_neg hlow' hneg]
      exact ⟨fun _ => rfl, fun h => (h ⟨rfl, hmult.2, hneg⟩).elim⟩
    · refine ⟨fun h => absurd h.2.2 (by omega), fun _ => ?_⟩
      obtain ⟨d, rfl⟩ : ∃ d : Nat, v = d := ⟨v.toNat, by omega⟩
      obtain ⟨m, sh, hm, hs, hm32, hq⟩ := signedMultiplier_spec (d := d) (by omega) (by omega)
        (fun k hk => hpow' ⟨k, by simpa using hk⟩)
      rw [hm]
      have hright := fun s0 : State => @expand_positive o site q x d (by omega) m sh hs hm32 s0
        (hq _ (le_toInt _) toInt_lt)
      dsimp only
      cases hcode : expandSignedMultiplier o site (.var q) (.var x) d m sh with
      | stop =>
        rw [hcode] at hright
        exact (hright ⟨fun _ => 0, .unknown, 0⟩).elim
      | no => exact absurd hcode (signedMultiplier_ne_no o site _ _ _ _ _)
      | yes code =>
        rw [hcode] at hright
        exact ⟨code, rfl, signedMultiplier_writes hcode, hright⟩
  · -- the pseudo-inverse
    rw [if_neg hmult, if_pos ht]
    refine ⟨fun h => ?_, fun _ => ?_⟩
    · obtain ⟨rfl, hopt, _⟩ := h
      exact absurd ⟨by decide, hopt⟩ hmult
    have hbits : t.bits - 1 ≤ 63 := by cases t <;> decide
    have hle : v.natAbs ≤ 2 ^ (t.bits - 1) := by
      obtain ⟨hlow, hhigh⟩ := hv
      have hcast : ((2 ^ (t.bits - 1) : Nat) : Int) = 2 ^ (t.bits - 1) := by push_cast; rfl
      omega
    have h64 : v.natAbs < 2 ^ 64 :=
      lt_of_le_of_lt (hle.trans (Nat.pow_le_pow_right (by decide) hbits)) (by decide)
    obtain ⟨n, heq, hn, hinv⟩ := determinePseudoInverse_eq habs h64 hpow' (.inl ⟨hbits, hle⟩)
    have hword : word ((2 ^ (n + (t.bits - 1)) - 1) / v.natAbs + 1)
        = (2 ^ (n + (t.bits - 1)) - 1) / v.natAbs + 1 :=
      Nat.mod_eq_of_lt (lt_of_lt_of_le hinv.high (Nat.pow_le_pow_right (by decide) (by omega)))
    rw [hword] at heq
    have hright := signedInverse_right o site q x h0 heq hn hinv
    obtain ⟨code, _, hcode, _, _⟩ := hright ⟨fun _ => 0, .unknown, 0⟩
    refine ⟨code, hcode, signedInverse_writes hcode, fun s => ?_⟩
    obtain ⟨code', s', hcode', hexec, hval⟩ := hright s
    obtain rfl : code = code' := Expanded.yes.inj (hcode.symm.trans hcode')
    exact ⟨s', hexec, hval⟩

theorem extended_dividend (hw : 0 < w) (x : BitVec w) :
    (if x.msb then allOnes w else 0).toInt * 2 ^ w + x.toNat = x.toInt := by
  have hcond := BitVec.toInt_eq_msb_cond x
  have hcast : ((2 ^ w : Nat) : Int) = 2 ^ w := by push_cast; rfl
  have hones : (allOnes w).toInt = -1 := by simp [hw.ne']
  have hzero : (0 : BitVec w).toInt = 0 := by simp
  cases hm : x.msb with
  | false =>
    rw [hm, if_neg (by decide)] at hcond
    rw [if_neg (by decide), hzero, hcond, zero_mul, zero_add]
  | true =>
    rw [hm, if_pos rfl, hcast] at hcond
    rw [if_pos rfl, hones, hcond]
    ring

theorem tdiv_fits (hX : -2 ^ (w - 1) ≤ X)
    (hX' : X < 2 ^ (w - 1)) (hmin : ¬ (X = -2 ^ (w - 1) ∧ Y = -1)) :
    -2 ^ (w - 1) ≤ X.tdiv Y ∧ X.tdiv Y < 2 ^ (w - 1) := by
  have hpos : (0 : Int) < 2 ^ (w - 1) := by positivity
  by_cases h1 : Y = 1
  · rw [h1, Int.tdiv_one]
    exact ⟨hX, hX'⟩
  by_cases hm1 : Y = -1
  · rw [hm1, Int.tdiv_neg, Int.tdiv_one]
    omega
  have hq : (X.tdiv Y).natAbs ≤ X.natAbs / 2 := by
    rw [natAbs_tdiv]
    by_cases h0 : Y = 0
    · rw [h0]
      exact (Nat.div_zero X.natAbs).le.trans (Nat.zero_le _)
    · exact Nat.div_le_div_left (by omega) (by decide)
  omega

theorem divideRem_right (site : Nat) (r x y : Nat) (ht : t.isSigned = true) (s : State)
    (hY : (s.read t.bits (.var y)).toInt ≠ 0)
    (hmin : ¬ ((s.read t.bits (.var x)).toInt = -2 ^ (t.bits - 1) ∧
      (s.read t.bits (.var y)).toInt = -1)) :
    ∃ s', runInsns (divideRem site (.var r) (.var x) (.var y) t) none s = some (s', none) ∧
      s'.read t.bits (.var r) = ofInt t.bits
        ((s.read t.bits (.var x)).toInt.tmod (s.read t.bits (.var y)).toInt) ∧
      ∀ u, u ≠ r → s'.reg (.var u) = s.reg (.var u) := by
  have hw : t.bits ≤ 64 := by cases t <;> decide
  have hw1 : 1 < t.bits := by cases t <;> decide
  obtain ⟨hfit, hfit'⟩ := tdiv_fits (le_toInt (s.read t.bits (.var x)))
    toInt_lt hmin
  unfold divideRem
  rw [if_pos ht]
  generalize t.bits = w at *
  have hext := extended_dividend (show 0 < w by omega) (s.read w (.var x))
  obtain ⟨s1, hs1⟩ : ∃ s1, s1 = (s.write (.tmp site 1) (s.read w (.var x))).write (.tmp site 2)
    (if (s.read w (.var x)).msb then allOnes w else 0) := ⟨_, rfl⟩
  have hlo : s1.read w (.tmp site 1) = s.read w (.var x) := by simp [hs1, hw]
  have hhi : s1.read w (.tmp site 2)
      = if (s.read w (.var x)).msb then allOnes w else 0 := by simp [hs1, hw]
  have hy : s1.read w (.var y) = s.read w (.var y) := by simp [hs1, hw]
  have hdiv : divide true (s1.read w (.tmp site 2)) (s1.read w (.tmp site 1)) (s1.read w (.var y))
      = some (ofInt w ((s.read w (.var x)).toInt.tdiv (s.read w (.var y)).toInt),
        ofInt w ((s.read w (.var x)).toInt.tmod (s.read w (.var y)).toInt)) := by
    unfold divide
    rw [hlo, hhi, hy]
    simp only [if_true, hext]
    rw [if_pos ⟨hY, hfit, hfit'⟩]
  have hrun : runInsns [.extend w (.tmp site 1) (.tmp site 2) (.var x),
      .div true w (.tmp site 3) (.var r) (.tmp site 1) (.tmp site 2) (.var y)] none s
      = (divide true (s1.read w (.tmp site 2)) (s1.read w (.tmp site 1))
          (s1.read w (.var y))).bind fun p => some (((s1.write (.tmp site 3) p.1).write (.var r)
            p.2).setFlags .unknown, none) := by
    rw [hs1]
    simp only [runInsns, Insn.exec, bind_some, bind_map]
    rfl
  rw [hdiv] at hrun
  refine ⟨_, hrun, by simp [hw], fun u hu => ?_⟩
  simp [hu, hs1]

/-- The compiler stops in `Expand_Rem`. -/
def RemStops (o : RemOptions) (x y : Nat) (known : Option Int) (t : Mtype) : Prop :=
  x ≠ y ∧ o.cvrtIntDivToMult = true ∧ ∃ v, known = some v ∧ DivideStops o.toOptions t v

/-- Code that leaves a remainder in `r`, and keeps the operands elsewhere. -/
def LeavesRem (code : List Insn) (r x y : Nat) (t : Mtype) (s : State) : Prop :=
  ∃ s', runInsns code none s = some (s', none) ∧
    s'.read t.bits (.var r) = ofInt t.bits
      ((s.read t.bits (.var x)).toInt.tmod (s.read t.bits (.var y)).toInt) ∧
    ∀ u, u = x ∨ u = y → u ≠ r → s'.reg (.var u) = s.reg (.var u)

theorem quotientRem_right {code : List Instr}
    (hcode : DividesBy code q x t v) (site r : Nat) (hqx : q ≠ x) (hqy : q ≠ y)
    (hv : InType t v) (hy : s.read t.bits (.var y) = ofInt t.bits v) :
    LeavesRem (ops (code ++ [.bin .imul t.bits (.tmp site 0) (.var q) (TN.var y),
      .bin .sub t.bits (.var r) (.var x) (TN.tmp site 0)])) r x y t s := by
  have hw : t.bits ≤ 64 := by cases t <;> decide
  have hw0 : 0 < t.bits := by cases t <;> decide
  obtain ⟨s1, hexec, hquot⟩ := hcode.right s
  have hrun : run code none s = some (s1, none) := by
    unfold exec at hexec
    cases hr : run code none s with
    | none => rw [hr] at hexec; cases hexec
    | some p =>
      rw [hr, bind_some] at hexec
      split at hexec
      · next h0 =>
        rw [← some.inj hexec, ← h0]
      · cases hexec
  have hkept : ∀ u, u ≠ q → s1.reg (.var u) = s.reg (.var u) := fun u hu =>
    run_kept (fun i hi hd => hu (hcode.writes i hi u hd)) hrun
  have hx1 : s1.read t.bits (.var x) = s.read t.bits (.var x) :=
    congrArg (setWidth t.bits) (hkept x hqx.symm)
  have hy1 : s1.read t.bits (.var y) = ofInt t.bits v :=
    (congrArg (setWidth t.bits) (hkept y hqy.symm)).trans hy
  have hYv : (s.read t.bits (.var y)).toInt = v := by
    rw [hy, BitVec.toInt_ofInt_eq_self hw0 hv.1 hv.2]
  -- dividend less quotient times divisor
  have hvalue : s.read t.bits (.var x)
        - ofInt t.bits ((s.read t.bits (.var x)).toInt.tdiv v) * ofInt t.bits v
      = ofInt t.bits ((s.read t.bits (.var x)).toInt.tmod v) := by
    rw [← BitVec.ofInt_mul, sub_eq_ofInt, tmod_def, mul_comm v]
    apply BitVec.eq_of_toInt_eq
    rw [toInt_ofInt, toInt_ofInt, toInt_ofInt, sub_bmod_bmod]
  obtain ⟨s2, hrun2, hval2, hkept2⟩ : ∃ s2,
      run [.bin .imul t.bits (.tmp site 0) (.var q) (TN.var y),
        .bin .sub t.bits (.var r) (.var x) (TN.tmp site 0)] none s1 = some (s2, none) ∧
      s2.read t.bits (.var r) = s1.read t.bits (.var x)
        - s1.read t.bits (.var q) * s1.read t.bits (.var y) ∧
      ∀ u, u ≠ r → s2.reg (.var u) = s1.reg (.var u) :=
    ⟨_, rfl, by simp [hw], fun u hu => by simp [hu]⟩
  refine ⟨s2, ?_, ?_, fun u hu hr => ?_⟩
  · have happ := runInsns_ops (code ++ [.bin .imul t.bits (.tmp site 0) (.var q) (TN.var y),
      .bin .sub t.bits (.var r) (.var x) (TN.tmp site 0)]) [] none s
    rw [List.append_nil, run_append, hrun, bind_some, hrun2] at happ
    exact happ
  · rw [hval2, hx1, hquot, hy1, hvalue, hYv]
  · rw [hkept2 u hr, hkept u (by rcases hu with rfl | rfl; exacts [hqx.symm, hqy.symm])]

theorem rem_right (o : RemOptions) (site q : Nat) (dedicated : Bool) (r : Nat)
    {known : Option Int} (ht : t.isSigned = true) (hqx : q ≠ x) (hqy : q ≠ y)
    (hknown : ∀ v, known = some v → InType t v ∧ s.read t.bits (.var y) = ofInt t.bits v ∧
      ¬ isPowerOf2 v t = true) (hY : (s.read t.bits (.var y)).toInt ≠ 0)
    (hmin : ¬ ((s.read t.bits (.var x)).toInt = -2 ^ (t.bits - 1) ∧
      (s.read t.bits (.var y)).toInt = -1)) : (RemStops o x y known t →
      expandRem o site (.var q) dedicated (.var r) (.var x) (.var y) known t = .stop) ∧
    (¬ RemStops o x y known t → ∃ code,
      expandRem o site (.var q) dedicated (.var r) (.var x) (.var y) known t = .yes code ∧
      LeavesRem code r x y t s) := by
  have hw : t.bits ≤ 64 := by cases t <;> decide
  have hmachine : LeavesRem (divideRem (site + 3) (.var r) (.var x) (.var y) t) r x y t s := by
    obtain ⟨s', hrun, hval, hkept⟩ := divideRem_right (site + 3) r x y ht s hY hmin
    exact ⟨s', hrun, hval, fun u _ hu => hkept u hu⟩
  unfold expandRem
  by_cases hxy : x = y
  · -- a register by itself
    rw [if_pos (congrArg TN.var hxy)]
    refine ⟨fun h => absurd hxy h.1, fun _ => ⟨_, rfl, ?_⟩⟩
    refine ⟨_, rfl, ?_, fun u _ hu => by simp [hu]⟩
    rw [hxy, tmod_self]
    simp [hw]
  rw [if_neg (fun h => hxy (TN.var.inj h))]
  cases known with
  | none =>
    refine ⟨?_, fun _ => ⟨_, rfl, hmachine⟩⟩
    rintro ⟨_, _, v, hv, _⟩
    cases hv
  | some v =>
    obtain ⟨hv, hy, hpow⟩ := hknown v rfl
    dsimp only
    rw [if_neg hpow]
    by_cases hc : o.cvrtIntDivToMult = true ∧ v ≠ 0
    · rw [if_pos hc]
      obtain ⟨hstop, hyes⟩ := divide_signed o.toOptions hc.1 site q x ht hv hc.2 hpow
      refine ⟨?_, fun hno => ?_⟩
      · rintro ⟨_, _, v', hv', hs⟩
        obtain rfl := some.inj hv'
        rw [hstop hs]
      · obtain ⟨code, hcode, hdiv⟩ := hyes fun hs => hno ⟨hxy, hc.1, v, rfl, hs⟩
        rw [hcode]
        exact ⟨_, rfl, quotientRem_right hdiv (site + 3) r hqx hqy hv hy⟩
    · rw [if_neg hc]
      refine ⟨?_, fun _ => ⟨_, rfl, hmachine⟩⟩
      rintro ⟨_, hcvrt, v', hv', hs⟩
      obtain rfl := some.inj hv'
      exact absurd ⟨hcvrt, by have := hs.2.2; omega⟩ hc

/-! ## Powers of two -/

theorem powerOf2Mod_right (o : RemOptions) (site r x : Nat) (ht : t.isSigned = true)
    (hv : InType t v) (hpow : isPowerOf2 v t = true) (s : State) :
    (expandPowerOf2Mod o site (.var r) (.var x) v t).Right o.target32bit t s (.var r)
      (ofInt t.bits ((s.val o.target32bit (.var x) t).toInt.fmod v)) := by
  obtain ⟨n, hn⟩ := (isPowerOf2_signed ht hv).mp hpow
  have hpos : (0 : Int) < 2 ^ n := by positivity
  have hnat : ((v.natAbs : Nat) : Int) = 2 ^ n := by rw [hn]; push_cast; rfl
  have habs : (if v < 0 then -v else v) = 2 ^ n := by
    rw [← hnat]
    split <;> omega
  have hnw : n < t.bits := by
    have hw0 : 0 < t.bits := by cases t <;> decide
    obtain ⟨hlow, hhigh⟩ := hv
    by_contra hge
    have h1 := Nat.pow_le_pow_right (n := 2) (by decide) (show t.bits ≤ n by omega)
    have h2 := Nat.two_pow_pred_mul_two hw0
    have h3 : ((2 ^ (t.bits - 1) : Nat) : Int) = 2 ^ (t.bits - 1) := by push_cast; rfl
    have h4 := Nat.two_pow_pos (t.bits - 1)
    omega
  have hget : getPowerOf2 (2 ^ n) t = some n := by
    refine getPowerOf2_eq ?_ hnw
    cases t with
    | U4 | U8 => cases ht
    | I4 | I8 => simp [powerVal, Mtype.isSigned, hpos.le]
  have hx := apart_var (site + 1) x
  have hr := apart_var (site + 1) r
  have htmp : ∀ k, (TN.tmp site k).Apart (site + 1) := fun k => apart_tmp (by omega) k
  obtain ⟨X, hX⟩ : ∃ X, X = (s.val o.target32bit (.var x) t).toInt := ⟨_, rfl⟩
  have hword : s.val o.target32bit (.var x) t = ofInt t.bits X := by
    rw [hX, BitVec.ofInt_toInt]
  unfold expandPowerOf2Mod
  dsimp only
  rw [habs, hget, ← hX]
  dsimp only
  by_cases hneg : v < 0
  · -- a negative divisor: negated, masked and negated again
    rw [if_pos ⟨ht, hneg⟩]
    obtain ⟨s1, hrun1, hval1, -⟩ :=
      computes_neg o.target32bit (site + 1) t (d := .tmp site 1) (a := .var x) (htmp 1) s
    obtain ⟨s2, hrun2, hval2, -⟩ := computes_binaryAndLit o.target32bit (site + 1) t
      (d := .tmp site 2) (a := .tmp site 1) (htmp 2) (htmp 1) (2 ^ n - 1) s1
    obtain ⟨s3, hrun3, hval3, -⟩ :=
      computes_neg o.target32bit (site + 1) t (d := .var r) (a := .tmp site 2) hr s2
    have hvn : v = -2 ^ n := by omega
    have hmod : X.fmod v = -((-X) % 2 ^ n) := by
      have := Int.neg_fmod_neg (-X) (2 ^ n)
      rw [neg_neg] at this
      rw [hvn, this, fmod_eq_emod_of_nonneg _ hpos.le]
    refine ⟨s3, ?_, ?_⟩
    · have happ := runInsns_ops (expandNeg o.target32bit (site + 1) t (.tmp site 1) (.var x) ++
        expandBinaryAndLit o.target32bit (site + 1) t (.tmp site 2) (.tmp site 1) (2 ^ n - 1) ++
        expandNeg o.target32bit (site + 1) t (.var r) (.tmp site 2)) [] none s
      simp only [List.append_nil, run_append, hrun1, hrun2, hrun3, bind_some] at happ
      exact happ
    · rw [hval3, hval2, hval1, hword, ← BitVec.ofInt_neg, and_mask hnw.le, ← BitVec.ofInt_neg, hmod]
  · rw [if_neg (fun h => hneg h.2)]
    obtain ⟨s1, hrun1, hval1, -⟩ := computes_binaryAndLit o.target32bit (site + 1) t
      (d := .var r) (a := .var x) hr hx (2 ^ n - 1) s
    have hvn : v = 2 ^ n := by omega
    refine ⟨s1, ?_, ?_⟩
    · have happ := runInsns_append (b := []) hrun1
      rwa [List.append_nil] at happ
    · rw [hval1, hword, and_mask hnw.le, hvn, fmod_eq_emod_of_nonneg _ hpos.le]

/-! ## The modulus -/

theorem val_eq_read {m32 : Bool} (h : ¬ opNeedPair m32 t = true) (s : State) (u : TN) :
    s.val m32 u t = s.read t.bits u := by
  cases t with
  | I4 | U4 => rfl
  | I8 | U8 =>
    cases m32 with
    | true => exact absurd rfl h
    | false => exact (read_64 s u).symm

theorem setWidth_ofInt {k : Nat} (h : k ≤ w) (z : Int) :
    (ofInt w z).setWidth k = ofInt k z := by
  have hdvd : (2 : Int) ^ k ∣ 2 ^ w := pow_dvd_pow 2 h
  have hw := emod_nonneg z (show (2 : Int) ^ w ≠ 0 by positivity)
  have hk := emod_nonneg z (show (2 : Int) ^ k ≠ 0 by positivity)
  apply BitVec.eq_of_toNat_eq
  rw [BitVec.toNat_setWidth, toNat_ofInt, toNat_ofInt]
  zify
  rw [toNat_of_nonneg hw, toNat_of_nonneg hk, emod_emod_of_dvd _ hdvd]

/-- Where the modulus is right: a known power of two, or the remainder is 0, or the signs agree, or
the tests see both. -/
def ModRight (o : RemOptions) (r x y : Nat) (known : Option Int) (t : Mtype) (X Y : Int) : Prop :=
  (∃ v, known = some v ∧ isPowerOf2 v t = true) ∨
  (¬ RemStops o x y known t ∧
    (X.tmod Y = 0 ∨ (X < 0 ↔ Y < 0) ∨ (r ≠ y ∧ X.tmod Y % 2 ^ 32 ≠ 0)))

theorem adjusted_right {code : List Insn} {o : RemOptions} (site : Nat) {r : Nat}
    (hpair : ¬ opNeedPair o.target32bit t = true) (hcode : LeavesRem code r x y t s)
    (hY : (s.read t.bits (.var y)).toInt ≠ 0) :
    (Emitted.yes (code ++ ops (adjustRem o.hasCmov site (.var r) (.var x) (.var y) t))).Right
        o.target32bit t s (.var r) (ofInt t.bits
          ((s.read t.bits (.var x)).toInt.fmod (s.read t.bits (.var y)).toInt)) ↔
      (s.read t.bits (.var x)).toInt.tmod (s.read t.bits (.var y)).toInt = 0 ∨
        ((s.read t.bits (.var x)).toInt < 0 ↔ (s.read t.bits (.var y)).toInt < 0) ∨
        (r ≠ y ∧ (s.read t.bits (.var x)).toInt.tmod (s.read t.bits (.var y)).toInt % 2 ^ 32
          ≠ 0) := by
  obtain ⟨s1, hrun1, hval1, hkept1⟩ := hcode
  obtain ⟨s2, hrun2, hval2⟩ := run_adjustRem o.hasCmov site r x y t s1
  have hbits : 32 ≤ t.bits := by cases t <;> decide
  have hrun : runInsns (code ++ ops (adjustRem o.hasCmov site (.var r) (.var x) (.var y) t)) none s
      = some (s2, none) := by
    have happ := runInsns_append (b := []) hrun2
    rw [List.append_nil] at happ
    rw [runInsns_bind, hrun1, bind_some]
    exact happ
  have hiff : (Emitted.yes (code ++ ops (adjustRem o.hasCmov site (.var r) (.var x) (.var y)
      t))).Right o.target32bit t s (.var r) (ofInt t.bits
        ((s.read t.bits (.var x)).toInt.fmod (s.read t.bits (.var y)).toInt)) ↔
      s2.read t.bits (.var r) = ofInt t.bits
        ((s.read t.bits (.var x)).toInt.fmod (s.read t.bits (.var y)).toInt) := by
    rw [← val_eq_read hpair s2]
    constructor
    · rintro ⟨s', hrun', hval'⟩
      obtain rfl : s2 = s' := congrArg Prod.fst (some.inj (hrun.symm.trans hrun'))
      exact hval'
    · exact fun h => ⟨s2, hrun, h⟩
  have hy : s.read t.bits (.var y) ≠ 0 := fun h => hY (by rw [h]; simp)
  have hread : ∀ u, u = x ∨ u = y → s1.read t.bits (.var u) = if u = r then ofInt t.bits
          ((s.read t.bits (.var x)).toInt.tmod (s.read t.bits (.var y)).toInt)
        else s.read t.bits (.var u) := by
    intro u hu
    by_cases hur : u = r
    · rw [if_pos hur, hur, hval1]
    · rw [if_neg hur]
      exact congrArg (setWidth t.bits) (hkept1 u hu hur)
  have hlow : s1.read 32 (.var r) = ofInt 32
      ((s.read t.bits (.var x)).toInt.tmod (s.read t.bits (.var y)).toInt) := by
    have h32 : s1.read 32 (.var r) = (s1.read t.bits (.var r)).setWidth 32 :=
      (BitVec.setWidth_setWidth_of_le _ hbits).symm
    rw [h32, hval1, setWidth_ofInt hbits]
  have hadj := adjusted_value (t := t) (x := s.read t.bits (.var x)) (y := s.read t.bits (.var y))
    (s1.read t.bits (.var x)) (s1.read t.bits (.var y)) (decide (y = r)) hy
    (by
      rw [hread x (.inl rfl)]
      by_cases hxr : x = r
      · rw [if_pos hxr]
        exact .inr rfl
      · rw [if_neg hxr]
        exact .inl rfl)
    (by
      rw [hread y (.inr rfl)]
      by_cases hyr : y = r
      · rw [if_pos hyr, if_pos (decide_eq_true hyr)]
      · rw [if_neg hyr, if_neg (by simpa using hyr)])
  rw [hiff, hval2, hlow, hval1, hadj]
  simp only [decide_eq_false_iff_not, ne_comm (a := r), ne_eq]

/-- The modulus is the floored one just where the condition holds: its second test misses remainders
that are multiples of 2 ^ 32. -/
theorem mod_right_iff (o : RemOptions) (site q : Nat) (dedicated : Bool) (r x y : Nat)
    (known : Option Int) {t : Mtype} (ht : t.isSigned = true) (hqx : q ≠ x) (hqy : q ≠ y)
    {s : State} (hknown : ∀ v, known = some v → InType t v ∧
      s.val o.target32bit (.var y) t = ofInt t.bits v)
    (hpair : opNeedPair o.target32bit t = true → ∃ v, known = some v ∧ isPowerOf2 v t = true)
    (hY : (s.val o.target32bit (.var y) t).toInt ≠ 0)
    (hmin : ¬ ((s.val o.target32bit (.var x) t).toInt = -2 ^ (t.bits - 1) ∧
      (s.val o.target32bit (.var y) t).toInt = -1)) :
    (expandMod o site (.var q) dedicated (.var r) (.var x) (.var y) known t).Right o.target32bit t s
        (.var r) (ofInt t.bits ((s.val o.target32bit (.var x) t).toInt.fmod
          (s.val o.target32bit (.var y) t).toInt)) ↔
      ModRight o r x y known t (s.val o.target32bit (.var x) t).toInt
        (s.val o.target32bit (.var y) t).toInt := by
  have hw0 : 0 < t.bits := by cases t <;> decide
  by_cases hpow : ∃ v, known = some v ∧ isPowerOf2 v t = true
  · -- the masks
    refine iff_of_true ?_ (.inl hpow)
    obtain ⟨v, rfl, hp⟩ := hpow
    obtain ⟨hv, hy⟩ := hknown v rfl
    have hYv : (s.val o.target32bit (.var y) t).toInt = v := by
      rw [hy, BitVec.toInt_ofInt_eq_self hw0 hv.1 hv.2]
    unfold expandMod
    dsimp only
    rw [if_pos hp, hYv]
    exact powerOf2Mod_right o site r x ht hv hp s
  have hsingle : ¬ opNeedPair o.target32bit t = true := fun h => hpow (hpair h)
  rw [val_eq_read hsingle, val_eq_read hsingle] at *
  have hknown' : ∀ v, known = some v → InType t v ∧
      s.read t.bits (.var y) = ofInt t.bits v ∧ ¬ isPowerOf2 v t = true := by
    intro v hv
    obtain ⟨h1, h2⟩ := hknown v hv
    exact ⟨h1, h2, fun hp => hpow ⟨v, hv, hp⟩⟩
  obtain ⟨hstop, hyes⟩ :=
    rem_right o site q dedicated r ht hqx hqy hknown' hY hmin
  -- a known divisor is no power of two and not zero
  have hbyRem : expandMod o site (.var q) dedicated (.var r) (.var x) (.var y) known t
      = match expandRem o site (.var q) dedicated (.var r) (.var x) (.var y) known t with
        | .stop => .stop
        | .yes code =>
          .yes (code ++ ops (adjustRem o.hasCmov (site + 4) (.var r) (.var x) (.var y) t)) := by
    cases known with
    | none => rfl
    | some v =>
      obtain ⟨hv, hy, hp⟩ := hknown' v rfl
      have h0 : v ≠ 0 := by
        rintro rfl
        exact hY (by rw [hy]; simp)
      unfold expandMod
      dsimp only
      rw [if_neg hp, if_neg h0]
  rw [hbyRem]
  by_cases hs : RemStops o x y known t
  · rw [hstop hs]
    refine iff_of_false id ?_
    rintro (h | h)
    · exact hpow h
    · exact h.1 hs
  · obtain ⟨code, hcode, hleaves⟩ := hyes hs
    rw [hcode]
    dsimp only
    rw [adjusted_right (site + 4) hsingle hleaves hY]
    constructor
    · exact fun h => .inr ⟨hs, h⟩
    · rintro (h | h)
      · exact absurd h hpow
      · exact h.2

/-- A dividend in `var 1` and a divisor in `var 2`. -/
def operands (x y : BitVec 64) : State := ⟨fun t => if t = .var 2 then y else x, .unknown, 0⟩

theorem mod_right_iff_three :
    (expandMod ⟨⟨true, true, false, true⟩, true⟩ 0 (.var 3) false (.var 0) (.var 1) (.var 2) none
      .I4).Right false .I4 (operands 0xfffffff9 3) (.var 0) (ofInt 32 2) := by
  have h := mod_right_iff ⟨⟨true, true, false, true⟩, true⟩ 0 3 false 0 1 2 none (t := .I4)
    rfl (by decide) (by decide) (s := operands 0xfffffff9 3) (fun v hv => by cases hv)
    (fun hp => by cases hp) (by decide) (by decide)
  have hval : ((operands 0xfffffff9 3).val false (.var 1) .I4).toInt.fmod
      ((operands 0xfffffff9 3).val false (.var 2) .I4).toInt = 2 := by decide
  have hfmod : (ofInt Mtype.I4.bits (((operands 0xfffffff9 3).val false (.var 1) .I4).toInt.fmod
      ((operands 0xfffffff9 3).val false (.var 2) .I4).toInt)) = ofInt Mtype.I4.bits 2 :=
    congrArg (ofInt Mtype.I4.bits) hval
  refine hfmod ▸ h.mpr (.inr ⟨?_, .inr (.inr ⟨by decide, by decide⟩)⟩)
  rintro ⟨_, _, v, hv, _⟩
  cases hv

/-- -2 ^ 32 modulo 2 ^ 33 stays -2 ^ 32. -/
theorem mod_multiple_of_word_wrong : ¬ ∀ (o : RemOptions) (site q r x y : Nat) (known : Option Int)
    (t : Mtype), t.isSigned = true → q ≠ x → q ≠ y → r ≠ y → ∀ s : State,
      (∀ v, known = some v → InType t v ∧ s.val o.target32bit (.var y) t = ofInt t.bits v) →
      (opNeedPair o.target32bit t = true → ∃ v, known = some v ∧ isPowerOf2 v t = true) →
      (s.val o.target32bit (.var y) t).toInt ≠ 0 →
      ¬ ((s.val o.target32bit (.var x) t).toInt = -2 ^ (t.bits - 1) ∧
        (s.val o.target32bit (.var y) t).toInt = -1) →
      (expandMod o site (.var q) false (.var r) (.var x) (.var y) known t).Right o.target32bit t s
        (.var r) (ofInt t.bits ((s.val o.target32bit (.var x) t).toInt.fmod
          (s.val o.target32bit (.var y) t).toInt)) := by
  intro h
  have hright := h ⟨⟨true, true, false, true⟩, true⟩ 0 3 0 1 2 none .I8 rfl (by decide) (by decide)
    (by decide) (operands 0xffffffff00000000 0x200000000) (fun v hv => by cases hv)
    (fun hp => by cases hp) (by decide) (by decide)
  have hcode : expandMod ⟨⟨true, true, false, true⟩, true⟩ 0 (.var 3) false (.var 0) (.var 1)
      (.var 2) none .I8 = .yes (divideRem 3 (.var 0) (.var 1) (.var 2) .I8 ++
        ops (adjustRem true 4 (.var 0) (.var 1) (.var 2) .I8)) := by decide
  rw [hcode] at hright
  obtain ⟨s', hrun, hval, hkept⟩ := divideRem_right 3 0 1 2 (t := .I8) rfl
    (operands 0xffffffff00000000 0x200000000) (by decide) (by decide)
  have hiff := adjusted_right (o := ⟨⟨true, true, false, true⟩, true⟩) 4 (x := 1) (y := 2) (t := .I8)
    (by decide) ⟨s', hrun, hval, fun u _ hu => hkept u hu⟩ (by decide)
  rcases hiff.mp hright with h0 | hsign | ⟨_, hlow⟩
  · exact absurd h0 (by decide)
  · exact absurd hsign (by decide)
  · exact absurd hlow (by decide)

end X8664
