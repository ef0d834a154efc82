import Path64.X8664.Divide

/-! # Division by a 32-bit signed constant

The multiplier that the search finds has an error that is small enough
for all dividends, whichever way the product is taken. The search
itself divides by zero for a negative divisor that is no power of two,
whose absolute value `labs` does not take. -/

namespace X8664

open Nat Int
open BitVec (toInt_lt le_toInt ofInt ofNat toNat_ofNat)

/-! ## The multiplier -/

/-- The search for the multiplier ends, with a shift of at most 30. -/
theorem signedMultiplier_spec {d : Nat} (hd : 1 < d) (hd31 : d < 2 ^ 31) (hpow : ∀ n, d ≠ 2 ^ n) :
    ∃ m s, signedMultiplier d = some (m, s) ∧ s ≤ 30 ∧ m < 2 ^ 32 ∧
      ∀ X : Int, -2 ^ 31 ≤ X → X < 2 ^ 31 →
        X * m / 2 ^ (32 + s) + (if X < 0 then 1 else 0) = X.tdiv d := by
  have hdpos : 0 < d := by omega
  have hdt : d ≤ 0x80000000 := by omega
  obtain ⟨hlo, hhi⟩ := log2_bounds hdpos (by omega)
  have hl : log2 d ≤ 30 := by
    by_contra hgt
    have := Nat.pow_le_pow_right (n := 2) (by decide) (show 31 ≤ log2 d by omega)
    omega
  have hwide : d * (0x80000000 - 0x80000000 % d) ≤ 2 ^ (32 + log2 d) := by
    calc d * (0x80000000 - 0x80000000 % d) ≤ 2 ^ (log2 d + 1) * 2 ^ 31 :=
          Nat.mul_le_mul hhi.le (Nat.sub_le _ _)
      _ = 2 ^ (32 + log2 d) := by rw [← Nat.pow_add]; congr 1; omega
  obtain ⟨m, s, hsearch, hs, e, hm, he, hew⟩ :=
    searchMultiplier_spec hd hdt (by omega) hwide
  have hhalf := half_lt_multiple hdpos hdt
  have hs2 : 2 ^ s ≤ 2 ^ log2 d := Nat.pow_le_pow_right (by decide) hs
  have hsd : 2 ^ s < d := by
    have := hpow s
    omega
  have hP : 2 ^ (32 + s) = 0x80000000 * 2 ^ (s + 1) := by
    rw [show 0x80000000 = 2 ^ 31 from rfl, ← pow_add]
    congr 1
    omega
  have helt : e < 2 ^ 32 := by
    by_contra hge
    have h1 : 2 ^ 32 * (2 ^ 30 + 1) ≤ e * (0x80000000 - 0x80000000 % d) :=
      Nat.mul_le_mul (by omega) (by omega)
    have h2 : 2 ^ (32 + s) ≤ 2 ^ 62 := Nat.pow_le_pow_right (by decide) (by omega)
    omega
  have hcast : signedMultiplier d = some (m, s) := by
    have hnat : ((d : Int) % 2 ^ 32).toNat = d := by omega
    unfold signedMultiplier
    rw [hnat]
    exact hsearch
  refine ⟨m, s, hcast, by omega, multiplier_lt hm helt hsd, fun X hlow hhigh => ?_⟩
  rw [show ((2 : Int) ^ (32 + s)) = ((2 ^ (32 + s) : Nat) : Int) by push_cast; rfl]
  refine Magic.tdiv_eq hdpos hm he X (fun _ => ?_) (fun hneg => ?_)
  · exact Magic.fits_of_multiple (Nat.two_pow_pos _) hdt hdpos hew (.inl (by omega))
  · by_cases htop : X.natAbs < 0x80000000
    · exact (Magic.lt_quot_succ hdpos hm
        (Magic.fits_of_multiple (Nat.two_pow_pos _) hdt hdpos hew (.inl htop))).le
    · -- the least dividend
      have habs : X.natAbs = 0x80000000 := by omega
      rw [habs, hP]
      rw [hP] at hm hew
      have hcd : 2 ^ (s + 1) ≤ 2 * d := by
        rw [pow_succ]
        omega
      exact Magic.top_le hd hdt rfl (Nat.two_pow_pos _) hcd hm hew

/-! ## The values of the emitted code -/

theorem toInt_hiHalf (v : BitVec 64) : (hiHalf v).toInt = v.toInt / 2 ^ 32 := by
  have h := toInt_pair (hiHalf v) (loHalf v)
  rw [pair_hiHalf_loHalf] at h
  have := (loHalf v).isLt
  omega

theorem toInt_hiHalf_mul (a b : BitVec 32) :
    (hiHalf (a.signExtend 64 * b.signExtend 64)).toInt = a.toInt * b.toInt / 2 ^ 32 := by
  have ha : a.toInt < 2 ^ 31 := toInt_lt
  have ha' : -2 ^ 31 ≤ a.toInt := le_toInt a
  have hb : b.toInt < 2 ^ 31 := toInt_lt
  have hb' : -2 ^ 31 ≤ b.toInt := le_toInt b
  have hea : (a.signExtend 64).toInt = a.toInt := BitVec.toInt_signExtend_of_le (by decide)
  have heb : (b.signExtend 64).toInt = b.toInt := BitVec.toInt_signExtend_of_le (by decide)
  rw [toInt_hiHalf, BitVec.toInt_mul, hea, heb]
  congr 1
  have habs : (a.toInt * b.toInt).natAbs ≤ 2 ^ 31 * 2 ^ 31 := by
    rw [Int.natAbs_mul]
    exact Nat.mul_le_mul (by omega) (by omega)
  exact Int.bmod_eq_of_le (by omega) (by omega)

theorem toInt_sshiftRight_div (v : BitVec 32) (n : Nat) :
    (v.sshiftRight n).toInt = v.toInt / 2 ^ n := by
  rw [BitVec.toInt_sshiftRight, Int.shiftRight_eq_div_pow]
  push_cast
  rfl

theorem toInt_sar31 (v : BitVec 32) : (v.sshiftRight 31).toInt = if v.toInt < 0 then -1 else 0 := by
  have h : v.toInt < 2 ^ 31 := toInt_lt
  have h' : -2 ^ 31 ≤ v.toInt := le_toInt v
  rw [toInt_sshiftRight_div]
  split <;> omega

variable {d q : Int} {n x m s r : Nat} {s0 : State}

theorem sub_eq_ofInt (a b : BitVec n) : a - b = ofInt n (a.toInt - b.toInt) := by
  apply BitVec.eq_of_toInt_eq
  rw [BitVec.toInt_sub, BitVec.toInt_ofInt]

theorem smallMultiplier_value {x : BitVec 32} (hm : m < 2 ^ 31)
    (hq : x.toInt * m / 2 ^ (32 + s) + (if x.toInt < 0 then 1 else 0) = q) :
    (hiHalf (x.signExtend 64 * (ofNat 32 m).signExtend 64)).sshiftRight s
      - x.sshiftRight 31 = ofInt 32 q := by
  have hmi : (ofNat 32 m).toInt = m := by
    rw [BitVec.toInt_eq_toNat_cond, toNat_ofNat]
    split <;> omega
  rw [sub_eq_ofInt, toInt_sshiftRight_div, toInt_hiHalf_mul, hmi, toInt_sar31,
    ediv_ediv_of_nonneg (by norm_num), ← pow_add, ← hq]
  congr 1
  split <;> omega

theorem largeMultiplier_value {x : BitVec 32} (hm : 2 ^ 31 ≤ m)
    (hm32 : m < 2 ^ 32) (hq : x.toInt * m / 2 ^ (32 + s) + (if x.toInt < 0 then 1 else 0) = q) :
    (hiHalf (x.signExtend 64 * (ofNat 32 m).signExtend 64) + x).sshiftRight s
      - x.sshiftRight 31 = ofInt 32 q := by
  have hmi : (ofNat 32 m).toInt = m - 2 ^ 32 := by
    rw [BitVec.toInt_eq_toNat_cond, toNat_ofNat]
    split <;> omega
  have hx : x.toInt < 2 ^ 31 := toInt_lt
  have hx' : -2 ^ 31 ≤ x.toInt := le_toInt x
  -- the sum does not leave the word
  have hsum : (hiHalf (x.signExtend 64 * (ofNat 32 m).signExtend 64) + x).toInt
      = x.toInt * m / 2 ^ 32 := by
    have hexp : x.toInt * ((m : Int) - 2 ^ 32) / 2 ^ 32 + x.toInt = x.toInt * m / 2 ^ 32 := by
      rw [← add_mul_ediv_right _ _ (by norm_num)]
      congr 1
      ring
    rw [BitVec.toInt_add, toInt_hiHalf_mul, hmi, hexp]
    have h1 : x.toInt * m / 2 ^ 32 < 2 ^ 31 := by
      refine Int.ediv_lt_of_lt_mul (by norm_num) ?_
      have : x.toInt * m ≤ (2 ^ 31 - 1) * m := mul_le_mul_of_nonneg_right (by omega) (by omega)
      omega
    have h2 : -2 ^ 31 ≤ x.toInt * m / 2 ^ 32 := by
      refine Int.le_ediv_of_mul_le (by norm_num) ?_
      have : -2 ^ 31 * m ≤ x.toInt * m := mul_le_mul_of_nonneg_right (by omega) (by omega)
      omega
    exact bmod_eq_of_le (by omega) (by omega)
  rw [sub_eq_ofInt, toInt_sshiftRight_div, hsum, toInt_sar31,
    ediv_ediv_of_nonneg (by norm_num), ← pow_add, ← hq]
  congr 1
  split <;> omega

theorem ushiftRight_31 (x : BitVec 32) : x >>> 31 = - x.sshiftRight 31 := by
  rw [sshiftRight_31]
  cases hm : x.msb with
  | false =>
    have hlt : x.toNat < 2 ^ 31 := BitVec.msb_eq_false_iff_two_mul_lt.mp hm |> fun h => by omega
    apply BitVec.eq_of_toNat_eq
    rw [BitVec.toNat_ushiftRight, Nat.shiftRight_eq_div_pow, Nat.div_eq_of_lt hlt]
    rfl
  | true =>
    have hge : 2 ^ 31 ≤ x.toNat := BitVec.msb_eq_true_iff_two_mul_ge.mp hm |> fun h => by omega
    have hlt := x.isLt
    apply BitVec.eq_of_toNat_eq
    rw [BitVec.toNat_ushiftRight, Nat.shiftRight_eq_div_pow]
    show x.toNat / 2 ^ 31 = 1
    omega

/-! ## The emitted code -/

/-- The sequence for a larger one, which is negative as a word: the dividend is added back. -/
theorem largeMultiplier_right (o : Options) (site : Nat) (hd : 0 < d)
    (hs : s < 32) (hm : 2 ^ 31 ≤ m) (hm32 : m < 2 ^ 32)
    (hq : (s0.read 32 (.var x)).toInt * m / 2 ^ (32 + s)
      + (if (s0.read 32 (.var x)).toInt < 0 then 1 else 0) = q) :
    (expandSignedMultiplier o site (.var r) (.var x) d m s).Right s0 (.var r)
      (ofInt 32 q) := by
  have ha : m >>> 31 ≠ 0 := by
    rw [Nat.shiftRight_eq_div_pow]
    omega
  have hmod : m % 2 ^ 32 = m := mod_eq_of_lt hm32
  unfold expandSignedMultiplier
  simp only [if_pos ha, hmod, if_pos hd]
  refine emit_right ?_ ?_
  · cases o.target32bit <;>
      simp [expandConvertLength, expandImmediate8, expandMultiply8, expandHighWord,
        expandSplitCvtl, expandSplitIntconst, expandSplitMultiply, expandSplitShiftLit,
        Instr.countOk, hs]
  obtain ⟨s1, hrun1, hval1, hf1⟩ := run_convertLength o.target32bit (d := .tmp site 1) (x := x)
    (by simp) (site + 1) s0
  obtain ⟨s2, hrun2, hval2, hf2⟩ := run_immediate8 o.target32bit (.tmp site 3)
    (ofNat 32 m).toInt (site + 1) s1
  obtain ⟨s3, hrun3, hval3, hf3⟩ := run_multiply8 o.target32bit (site + 1) (d := .tmp site 2)
    (b := .tmp site 3) (a := .pair (.tmp site 1)) (by simp [RegSrc.Avoids]) (by simp) (by simp) s2
  obtain ⟨s4, hrun4, hval4, hf4⟩ := run_highWord o.target32bit (site + 2) (.tmp site 4)
    (.tmp site 2) s3
  have hc : ofInt 64 (ofNat 32 m).toInt = (ofNat 32 m).signExtend 64 := rfl
  have hhigh : s4.read 32 (.tmp site 4)
      = hiHalf ((s0.read 32 (.var x)).signExtend 64 * (ofNat 32 m).signExtend 64) := by
    have hfac : s2.wide o.target32bit (.tmp site 1) = s1.wide o.target32bit (.tmp site 1) :=
      hf2.wide _ (by simp) (by simp) (by simp) (by simp)
    have hsrc : (RegSrc.pair (.tmp site 1)).wide o.target32bit s2
        = s2.wide o.target32bit (.tmp site 1) := rfl
    rw [hval4, hval3, hsrc, hfac, hval1, hval2, hc]
  have hx : s4.read 32 (.var x) = s0.read 32 (.var x) := by
    rw [hf4.read (by simp) (by simp) (by simp), hf3.read (by simp) (by simp) (by simp),
      hf2.read (by simp) (by simp) (by simp), hf1.read (by simp) (by simp) (by simp)]
  have hlarge := largeMultiplier_value hm hm32 hq
  rw [← hhigh, ← hx] at hlarge
  simp only [List.append_assoc]
  rw [exec_append hrun1, exec_append hrun2, exec_append hrun3, exec_append hrun4]
  refine ⟨_, rfl, ?_⟩
  have h31 : count 31#32 = 31 := rfl
  simpa [h31, count_lit hs] using hlarge

/-- The sequence for a multiplier below `2 ^ 31`. -/
theorem smallMultiplier_right (o : Options) (ho : o.target32bit = false) (site : Nat)
    (hd : 0 < d) (hs : s < 32) (hm : m < 2 ^ 31)
    (hq : (s0.read 32 (.var x)).toInt * m / 2 ^ (32 + s)
      + (if (s0.read 32 (.var x)).toInt < 0 then 1 else 0) = q) :
    (expandSignedMultiplier o site (.var r) (.var x) d m s).Right s0 (.var r)
      (ofInt 32 q) := by
  have ha : ¬ m >>> 31 ≠ 0 := by
    rw [Nat.shiftRight_eq_div_pow]
    omega
  have hmod : m % 2 ^ 32 = m := mod_eq_of_lt (by omega)
  have hneg : ¬ d < 0 := by omega
  unfold expandSignedMultiplier
  simp only [if_neg ha, hmod, if_neg hneg, ho, Bool.false_eq_true, if_false]
  refine emit_right ?_ ?_
  · by_cases h0 : s = 0 <;>
      simp [expandConvertLength, expandImmediate8, expandMultiply8, expandHighWord,
        Instr.countOk, h0, hs]
  obtain ⟨s1, hrun1, hval1, hf1⟩ := run_convertLength false (d := .tmp site 1) (x := x)
    (by simp) (site + 1) s0
  -- the sign of the dividend
  obtain ⟨s2, hs2⟩ : ∃ s2, s2 = (s1.write (.tmp site 2)
    ((s1.read 32 (.var x)).sshiftRight 31)).setFlags .unknown := ⟨_, rfl⟩
  have h31 : count 31#32 = 31 := rfl
  have hrun2 : run [.bin .sar 32 (.tmp site 2) (.var x) (.lit 31)] none s1 = some (s2, none) := by
    simp [hs2, h31]
  have hf2 : Frame (.tmp site 2) (site + 1) s1 s2 := fun t h1 _ _ => by simp [hs2, h1]
  obtain ⟨s3, hrun3, hval3, hf3⟩ := run_immediate8 false (.tmp site 4) m (site + 1) s2
  obtain ⟨s4, hrun4, hval4, hf4⟩ := run_multiply8 false (site + 1) (d := .tmp site 3)
    (b := .tmp site 4) (a := .pair (.tmp site 1)) (by simp [RegSrc.Avoids]) (by simp) (by simp) s3
  obtain ⟨s5, hrun5, hval5, hf5⟩ := run_highWord false (site + 2) (.tmp site 5) (.tmp site 3) s4
  have hc : ofInt 64 (m : Int) = (ofNat 32 m).signExtend 64 := by
    have hmi : (ofNat 32 m).toInt = m := by
      rw [BitVec.toInt_eq_toNat_cond, toNat_ofNat]
      split <;> omega
    exact congrArg (ofInt 64) hmi.symm
  have hhigh : s5.read 32 (.tmp site 5)
      = hiHalf ((s0.read 32 (.var x)).signExtend 64 * (ofNat 32 m).signExtend 64) := by
    have hfac : s3.wide false (.tmp site 1) = s1.wide false (.tmp site 1) :=
      (hf3.wide _ (by simp) (by simp) (by simp) (by simp)).trans
        (hf2.wide _ (by simp) (by simp) (by simp) (by simp))
    have hsrc : (RegSrc.pair (.tmp site 1)).wide false s3 = s3.wide false (.tmp site 1) := rfl
    rw [hval5, hval4, hsrc, hfac, hval1, hval3, hc]
  have hsign : s5.read 32 (.tmp site 2) = (s0.read 32 (.var x)).sshiftRight 31 := by
    rw [hf5.read (by simp) (by simp) (by simp), hf4.read (by simp) (by simp) (by simp),
      hf3.read (by simp) (by simp) (by simp), hs2, read_setFlags, read_write _ _ _ _ (by decide),
      if_pos rfl, BitVec.setWidth_eq, hf1.read (by simp) (by simp) (by simp)]
  have hsmall := smallMultiplier_value hm hq
  rw [← hhigh, ← hsign] at hsmall
  simp only [List.append_assoc]
  rw [exec_append hrun1, exec_append hrun2, exec_append hrun3, exec_append hrun4,
    exec_append hrun5]
  by_cases h0 : s = 0
  · subst h0
    rw [BitVec.sshiftRight_zero] at hsmall
    rw [if_neg (by simp)]
    exact ⟨_, rfl, by simpa using hsmall⟩
  · rw [if_pos h0]
    exact ⟨_, rfl, by simpa [count_lit hs] using hsmall⟩

theorem smallMultiplier32_right (o : Options) (ho : o.target32bit = true) (site : Nat)
    (hd : 0 < d) (hs : s < 32) (hm : m < 2 ^ 31)
    (hq : (s0.read 32 (.var x)).toInt * m / 2 ^ (32 + s)
      + (if (s0.read 32 (.var x)).toInt < 0 then 1 else 0) = q) :
    (expandSignedMultiplier o site (.var r) (.var x) d m s).Right s0 (.var r)
      (ofInt 32 q) := by
  have ha : ¬ m >>> 31 ≠ 0 := by
    rw [Nat.shiftRight_eq_div_pow]
    omega
  have hmod : m % 2 ^ 32 = m := mod_eq_of_lt (by omega)
  have hneg : ¬ d < 0 := by omega
  unfold expandSignedMultiplier
  simp only [if_neg ha, hmod, if_neg hneg, ho, if_true]
  refine emit_right ?_ ?_
  · by_cases h0 : s = 0 <;> simp [Instr.countOk, h0, hs]
  have hprod : (product true (ofNat 32 m) (s0.read 32 (.var x)) : BitVec 64)
      = (s0.read 32 (.var x)).signExtend 64 * (ofNat 32 m).signExtend 64 := by
    show ofInt 64 _ = ofInt 64 _ * ofInt 64 _
    rw [← BitVec.ofInt_mul, mul_comm]
  have hsmall := smallMultiplier_value hm hq
  rw [← hprod, BitVec.sub_eq_add_neg, ← ushiftRight_31] at hsmall
  have h31 : count 31#32 = 31 := rfl
  by_cases h0 : s = 0
  · subst h0
    rw [BitVec.sshiftRight_zero] at hsmall
    rw [if_neg (by simp)]
    exact ⟨_, rfl, by simpa [hiHalf, h31] using hsmall⟩
  · rw [if_pos h0]
    exact ⟨_, rfl, by simpa [hiHalf, h31, count_lit hs] using hsmall⟩

/-! ## Powers of two -/

theorem powerVal_I4 (d : Int) : powerVal d .I4 = d.natAbs := by
  unfold powerVal
  rw [if_neg (show ¬ Mtype.I4 = .U4 by decide)]
  by_cases hneg : d < 0
  · rw [if_pos ⟨rfl, hneg⟩]
    omega
  · rw [if_neg (fun h => hneg h.2)]
    omega

theorem isPowerOf2_I4 (hlow : -2 ^ 31 ≤ d) (hhigh : d < 2 ^ 31) :
    isPowerOf2 d .I4 = true ↔ d.natAbs.isPowerOfTwo := by
  have hval : (ofInt 64 (d.natAbs : Int)).toNat = d.natAbs := by
    rw [BitVec.ofInt_natCast, toNat_ofNat]
    exact mod_eq_of_lt (by omega)
  unfold isPowerOf2
  rw [powerVal_I4, bitPowerOf2_iff, hval]

theorem tdiv_by_raising {X b : Int} (hb : 0 < b) :
    ((if X < 0 then b - 1 else 0) + X) / b = X.tdiv b := by
  rcases lt_or_ge X 0 with hX | hX
  · have hneg : X.tdiv b = -((-X) / b) := by
      rw [← Int.tdiv_eq_ediv_of_nonneg (by omega), Int.neg_tdiv, neg_neg]
    have hmod := Int.emod_add_mul_ediv (-X) b
    have hnonneg := emod_nonneg (-X) (show b ≠ 0 by omega)
    have hlt := emod_lt_of_pos (-X) hb
    have hval : b - 1 + X = (b - 1 - (-X) % b) + -((-X) / b) * b := by linarith
    rw [if_pos hX, hneg, hval, add_mul_ediv_right _ _ (by omega),
      ediv_eq_zero_of_lt (by omega) (by omega), zero_add]
  · rw [if_neg (by omega), zero_add, tdiv_eq_ediv_of_nonneg hX]

theorem powerOf2_value (hn : n < 32) (x : BitVec 32) :
    ((x.sshiftRight 31 &&& ofInt 32 (2 ^ n - 1)) + x).sshiftRight n
      = ofInt 32 (x.toInt.tdiv (2 ^ n)) := by
  have hx : x.toInt < 2 ^ 31 := toInt_lt
  have hx' : -2 ^ 31 ≤ x.toInt := le_toInt x
  have hpow : (2 : Int) ^ n ≤ 2 ^ 31 := by
    exact_mod_cast Nat.pow_le_pow_right (show 0 < 2 by decide) (show n ≤ 31 by omega)
  have hpos : (0 : Int) < 2 ^ n := by positivity
  have hmask : (ofInt 32 (2 ^ n - 1)).toInt = 2 ^ n - 1 := by
    rw [BitVec.toInt_ofInt]
    exact bmod_eq_of_le (by omega) (by omega)
  have hand : (x.sshiftRight 31 &&& ofInt 32 (2 ^ n - 1)).toInt
      = if x.toInt < 0 then 2 ^ n - 1 else 0 := by
    rw [sshiftRight_31, BitVec.msb_eq_toInt]
    by_cases hneg : x.toInt < 0
    · rw [decide_eq_true hneg, if_pos hneg, signWord, if_pos rfl, BitVec.allOnes_and, hmask]
    · rw [decide_eq_false hneg, if_neg hneg, signWord, if_neg (by decide), BitVec.zero_and]
      rfl
  have hsum : ((x.sshiftRight 31 &&& ofInt 32 (2 ^ n - 1)) + x).toInt
      = (if x.toInt < 0 then 2 ^ n - 1 else 0) + x.toInt := by
    rw [BitVec.toInt_add, hand]
    split
    · exact bmod_eq_of_le (by omega) (by omega)
    · exact bmod_eq_of_le (by omega) (by omega)
  rw [← BitVec.ofInt_toInt (x := BitVec.sshiftRight _ _), toInt_sshiftRight_div, hsum,
    tdiv_by_raising hpos]

theorem powerOf2Divide_right (site : Nat) (hn : n < 32) (hd : d.natAbs = 2 ^ n) (s : State) :
    (expandPowerOf2Divide site (.var r) (.var x) d .I4).Right s (.var r)
      (ofInt 32 ((s.read 32 (.var x)).toInt.tdiv d)) := by
  have hval : powerVal d .I4 = 2 ^ n := by
    rw [powerVal_I4, hd]
    push_cast
    rfl
  have hpow : ((2 ^ n : Nat) : Int) = 2 ^ n := by push_cast; rfl
  have habs : (if d < 0 then -d else d) = 2 ^ n := by
    rw [← hpow, ← hd]
    split <;> omega
  have h31 : count 31#32 = 31 := rfl
  have hq := powerOf2_value hn (s.read 32 (.var x))
  have hbits : Mtype.I4.bits = 32 := rfl
  unfold expandPowerOf2Divide
  rw [getPowerOf2_eq hval hn]
  simp only [Mtype.isSigned, if_true, habs, hbits]
  by_cases hneg : d < 0
  · have hdn : d = -2 ^ n := by omega
    have hresult : -(ofInt 32 ((s.read 32 (.var x)).toInt.tdiv (2 ^ n)))
        = ofInt 32 ((s.read 32 (.var x)).toInt.tdiv d) := by
      rw [hdn, Int.tdiv_neg, BitVec.ofInt_neg]
    simp only [if_pos hneg]
    refine emit_right (by simp [Instr.countOk, hn]) ⟨_, rfl, ?_⟩
    rw [← hresult, ← hq]
    simp [h31, count_lit hn]
  · have hdn : d = 2 ^ n := by omega
    simp only [if_neg hneg, List.append_nil]
    refine emit_right (by simp [Instr.countOk, hn]) ⟨_, rfl, ?_⟩
    rw [hdn, ← hq]
    simp [h31, count_lit hn]

/-! ## The expansion -/

/-- The search divides by zero for a negative divisor: as a `UINT` it is above 2 ^ 31. -/
theorem signedMultiplier_neg (hlow : -2 ^ 31 < d) (hneg : d < 0) : signedMultiplier d = none := by
  have hbig : 0x80000000 < (d % 2 ^ 32).toNat := by omega
  have hj : 0x80000000 - 0x80000000 % (d % 2 ^ 32).toNat = 0 := by
    rw [mod_eq_of_lt hbig]
  unfold signedMultiplier searchMultiplier
  simp only [hj, if_true]

theorem expand_positive (o : Options) (site : Nat) {r x : Nat} {d : Int} (hd : 1 < d) {m s : Nat}
    (hs : s ≤ 30) (hm32 : m < 2 ^ 32) {s0 : State}
    (hq : (s0.read 32 (.var x)).toInt * m / 2 ^ (32 + s)
      + (if (s0.read 32 (.var x)).toInt < 0 then 1 else 0) = (s0.read 32 (.var x)).toInt.tdiv d) :
    (expandSignedMultiplier o site (.var r) (.var x) d m s).Right s0 (.var r)
      (ofInt 32 ((s0.read 32 (.var x)).toInt.tdiv d)) := by
  by_cases hlarge : 2 ^ 31 ≤ m
  · exact largeMultiplier_right o site (by omega) (by omega) hlarge hm32 hq
  · cases ho : o.target32bit with
    | false => exact smallMultiplier_right o ho site (by omega) (by omega) (by omega) hq
    | true => exact smallMultiplier32_right o ho site (by omega) (by omega) (by omega) hq

theorem expand_one_right (r x : Nat) (s : State) :
    (Expanded.yes [.mov 32 (.var r) (.var x)]).Right s (.var r)
      (ofInt 32 ((s.read 32 (.var x)).toInt.tdiv 1)) := by
  refine ⟨_, rfl, ?_⟩
  simp

theorem expand_neg_one_right (r x : Nat) (s : State) :
    (Expanded.yes [.neg 32 (.var r) (.var x)]).Right s (.var r)
      (ofInt 32 ((s.read 32 (.var x)).toInt.tdiv (-1))) := by
  refine ⟨_, rfl, ?_⟩
  simp [Int.tdiv_neg, BitVec.ofInt_neg]

/-- Division by a 32-bit signed constant other than 0 is exact, and the compiler gets through it,
unless the divisor is negative and no power of two up to the sign. -/
theorem divideI4_right_iff (o : Options) (ho : o.idivbyconstOpt = true) (site r x : Nat) {d : Int}
    (hlow : -2 ^ 31 ≤ d) (hhigh : d < 2 ^ 31) (hd0 : d ≠ 0) (s : State) :
    (expandIntegerDivideByConstant o site (.var r) (.var x) d .I4).Right s (.var r)
        (ofInt 32 ((s.read 32 (.var x)).toInt.tdiv d)) ↔
      0 < d ∨ d.natAbs.isPowerOfTwo ∨ o.cvrtIntDivToMult = false := by
  unfold expandIntegerDivideByConstant
  by_cases h1 : d = 1
  · rw [if_pos h1, h1]
    exact iff_of_true (expand_one_right r x s) (.inl (by decide))
  rw [if_neg h1]
  by_cases hm1 : d = -1
  · rw [if_pos ⟨rfl, hm1⟩, hm1]
    exact iff_of_true (expand_neg_one_right r x s) (.inr (.inl ⟨0, rfl⟩))
  rw [if_neg (fun h => hm1 h.2)]
  by_cases hpow : d.natAbs.isPowerOfTwo
  · obtain ⟨n, hn⟩ := hpow
    have hn32 : n < 32 := by
      by_contra hge
      have := Nat.pow_le_pow_right (n := 2) (by decide) (show 32 ≤ n by omega)
      omega
    rw [if_pos ((isPowerOf2_I4 hlow hhigh).mpr ⟨n, hn⟩)]
    exact iff_of_true (powerOf2Divide_right site hn32 hn s) (.inr (.inl ⟨n, hn⟩))
  rw [if_neg (fun h => hpow ((isPowerOf2_I4 hlow hhigh).mp h))]
  by_cases hcvrt : o.cvrtIntDivToMult = false
  · rw [if_pos (by simp [hcvrt])]
    exact iff_of_true trivial (.inr (.inr hcvrt))
  rw [if_neg (by simpa using hcvrt), if_pos ⟨by decide, ho⟩,
    if_pos (show Mtype.I4.isSigned = true from rfl)]
  rcases lt_or_gt_of_ne hd0 with hneg | hpos
  · -- the compiler divides by zero
    have hlow' : -2 ^ 31 < d := by
      rcases lt_or_eq_of_le hlow with h | h
      · exact h
      · exact (hpow ⟨31, by omega⟩).elim
    rw [signedMultiplier_neg hlow' hneg]
    refine iff_of_false (fun h => h) ?_
    rintro (h | h | h)
    · omega
    · exact hpow h
    · exact hcvrt h
  · obtain ⟨n, rfl⟩ : ∃ n : Nat, d = n := ⟨d.toNat, by omega⟩
    obtain ⟨m, sh, hm, hs, hm32, hq⟩ := signedMultiplier_spec (d := n) (by omega) (by omega)
      (fun k hk => hpow ⟨k, by simpa using hk⟩)
    rw [hm]
    exact iff_of_true (expand_positive o site (by omega) hs hm32
      (hq _ (le_toInt _) toInt_lt)) (.inl hpos)

theorem divideI4_right_iff_seven :
    (expandIntegerDivideByConstant ⟨true, true, false, true⟩ 0 (.var 0) (.var 1) 7 .I4).Right
        ⟨fun _ => 0xffffff9c, .unknown, 0⟩ (.var 0) (ofInt 32 (-14)) ↔
      0 < (7 : Int) ∨ (7 : Int).natAbs.isPowerOfTwo ∨ true = false := by
  have hx : ((State.mk (fun _ => 0xffffff9c) .unknown 0).read 32 (.var 1)).toInt.tdiv 7 = -14 := by
    decide
  have h := divideI4_right_iff ⟨true, true, false, true⟩ rfl 0 0 1 (d := 7) (by decide)
    (by decide) (by decide) ⟨fun _ => 0xffffff9c, .unknown, 0⟩
  rw [hx] at h
  exact h

/-- No code for a division by -7: the compiler divides by zero. -/
theorem divideI4_neg_seven_stops : ¬ ∀ (o : Options), o.idivbyconstOpt = true →
    ∀ (site r x : Nat) (d : Int), -2 ^ 31 ≤ d → d < 2 ^ 31 → d ≠ 0 → ∀ s : State,
      (s.read 32 (.var x) = BitVec.intMin 32 → d ≠ -1) →
      (expandIntegerDivideByConstant o site (.var r) (.var x) d .I4).Right s (.var r)
        (ofInt 32 ((s.read 32 (.var x)).toInt.tdiv d)) := by
  intro h
  have hstop := h ⟨true, true, false, true⟩ rfl 0 0 1 (-7) (by decide) (by decide) (by decide)
    ⟨fun _ => 100, .unknown, 0⟩ (fun _ => by decide)
  have hexp : expandIntegerDivideByConstant ⟨true, true, false, true⟩ 0 (.var 0) (.var 1) (-7) .I4
      = .stop := by decide
  rw [hexp] at hstop
  exact hstop

end X8664
