import Path64.Simp.Whirl
import Path64.X8664.Modulus

/-! # Integer moduli and remainders

`simp_mod_rem`: a modulus or remainder by a constant power of two becomes
a mask. For a negative power the mask is followed by a subtraction of the
power; the code generator's sequence for the same operator negates the
dividend before the mask and the result after it. -/

namespace Simp.Whirl

open Int

/-! ## The rules -/

/-- `simp_mod_rem`, with the constructors that simplify as `create`. -/
def simpModRem (create : Expr → Expr) (op : Bop) (ty : Mtype) (k0 k1 : Expr) : Option Expr :=
  let isrem := op = .rem
  let isunsigned := ty.isUnsigned
  if k0.isConst then
    if k0.constVal = 0 then some (intConst ty 0) else none
  else if !k1.isConst then none
  else
    let c1 := k1.constVal
    if c1 = 1 ∨ (c1 = -1 ∧ !isunsigned) then some (intConst ty 0)
    else if ¬ isrem ∧ isPowerOf2 c1 then
      if isunsigned ∨ (!isunsigned ∧ 0 < c1.toInt) then
        some (create (.binary .band ty k0 (intConst ty (c1 - 1))))
      else none
    else if ¬ isrem ∧ isPowerOf2 (-c1) ∧ !isunsigned then
      -- the comment claims the largest negative integer, but the rule above takes it
      let c1 := -c1
      let r := create (.binary .band ty k0 (intConst ty (c1 - 1)))
      some (create (.binary .sub ty r (intConst ty c1)))
    else if isrem ∧ isPowerOf2 c1 ∧ isunsigned then
      some (create (.binary .band ty k0 (intConst ty (c1 - 1))))
    else none

/-! ## Divisors -/

/-- The constant with number `c` and stored value `v`; unsigned ones may be stored sign-extended. -/
def ConstantOf (ty : Mtype) (v : BitVec 64) (c : Int) : Prop :=
  ty.Holds c ∧ (v.toInt = c ∨
    (ty.isUnsigned = true ∧ 2 ^ (ty.bits - 1) ≤ c ∧ v.toInt = c - 2 ^ ty.bits))

section divisor
variable {ty : Mtype} {v : BitVec 64} {c : Int}

theorem isPowerOf2_iff (v : BitVec 64) : isPowerOf2 v = true ↔ v.toNat.isPowerOfTwo :=
  X8664.bitPowerOf2_iff v

theorem ConstantOf.emod (h : ConstantOf ty v c) : v.toInt % 2 ^ ty.bits = c % 2 ^ ty.bits := by
  obtain ⟨-, h | ⟨-, -, h⟩⟩ := h
  · rw [h]
  · rw [h, sub_emod_right]

theorem exponent_lt {n : Nat} (h : ty.Holds (2 ^ n)) :
    n < ty.bits ∧ (ty.isUnsigned = false → n < ty.bits - 1) := by
  unfold Mtype.Holds at h
  have hlt : ∀ k : Nat, (2 : Int) ^ n < 2 ^ k → n < k := fun k hk =>
    (pow_lt_pow_iff_right₀ (by decide : (1 : Int) < 2)).mp hk
  cases hu : ty.isUnsigned with
  | true =>
    rw [hu, if_pos rfl] at h
    exact ⟨hlt _ h.2, nofun⟩
  | false =>
    rw [hu, if_neg Bool.false_ne_true] at h
    have hn := hlt _ h.2
    exact ⟨by omega, fun _ => hn⟩

theorem positive_power (h : ConstantOf ty v c) (hpow : isPowerOf2 v = true)
    (hpos : ty.isUnsigned = true ∨ 0 < v.toInt) : ∃ n, c = 2 ^ n := by
  obtain ⟨n, hn⟩ := (isPowerOf2_iff v).mp hpow
  have hcast : (v.toNat : Int) = 2 ^ n := by exact_mod_cast hn
  have hint := BitVec.toInt_eq_toNat_cond v
  have hbits := ty.bits_pos
  have hhalf := ty.two_pow_half
  obtain ⟨hholds, heq⟩ := h
  unfold Mtype.Holds at hholds
  refine ⟨n, ?_⟩
  split at hint
  · -- the stored value is not negative
    rcases heq with heq | ⟨hu, -, heq⟩
    · omega
    · rw [if_pos hu] at hholds
      have : (0 : Int) ≤ v.toNat := natCast_nonneg _
      omega
  · -- only 2 ** 63 is stored as a negative number
    rename_i hneg
    have hlt := v.isLt
    have h63 : n = 63 := by
      have hlo : 2 ^ 63 ≤ 2 ^ n := by omega
      have hhi : 2 ^ n < 2 ^ 64 := by omega
      have := (Nat.pow_le_pow_iff_right (by decide)).mp hlo
      have := (Nat.pow_lt_pow_iff_right (by decide)).mp hhi
      omega
    subst h63
    rcases heq with heq | ⟨hu, hc, heq⟩
    · rcases hpos with hu | hpos
      · rw [if_pos hu] at hholds
        omega
      · omega
    · cases ty with
      | I1 | I2 | I4 | I8 => cases hu
      | U1 | U2 | U4 => norm_num [Mtype.bits] at hc heq; omega
      | U8 => norm_num [Mtype.bits] at heq ⊢; omega

theorem negative_power (h : v.toInt = c) (hnot : ¬ isPowerOf2 v = true) :
    isPowerOf2 (-v) = true ↔ ∃ n, n < 63 ∧ c = -2 ^ n := by
  rw [isPowerOf2_iff] at hnot ⊢
  have hint := BitVec.toInt_eq_toNat_cond v
  have hlt := v.isLt
  have hneg : (-v).toNat = (2 ^ 64 - v.toNat) % 2 ^ 64 := BitVec.toNat_neg v
  constructor
  · rintro ⟨n, hn⟩
    rw [hneg] at hn
    have hpos := Nat.two_pow_pos n
    have hn64 : 2 ^ n < 2 ^ 64 := by rw [← hn]; exact Nat.mod_lt _ (by decide)
    have hcast : ((2 ^ n : Nat) : Int) = 2 ^ n := by push_cast; rfl
    have hv : v.toNat + 2 ^ n = 2 ^ 64 := by omega
    have hlt64 := (Nat.pow_lt_pow_iff_right (by decide)).mp hn64
    have hne : n ≠ 63 := fun h63 => hnot ⟨63, by rw [h63] at hv; omega⟩
    have hle : 2 ^ n ≤ 2 ^ 62 := Nat.pow_le_pow_right (by decide) (by omega)
    refine ⟨n, by omega, ?_⟩
    split at hint <;> omega
  · rintro ⟨n, hn, rfl⟩
    have hle : 2 ^ n ≤ 2 ^ 62 := Nat.pow_le_pow_right (by decide) (by omega)
    have hcast : ((2 ^ n : Nat) : Int) = 2 ^ n := by push_cast; rfl
    have hpos := Nat.two_pow_pos n
    refine ⟨n, ?_⟩
    rw [hneg]
    split at hint <;> omega

end divisor

/-! ## Masks -/

section mask
variable {ty : Mtype} {n : Nat}

theorem holds_small (hn : n < ty.bits) (hs : ty.isUnsigned = false → n < ty.bits - 1) {x : Int}
    (hlo : 0 ≤ x) (hhi : x < 2 ^ n) : ty.Holds x := by
  unfold Mtype.Holds
  cases hu : ty.isUnsigned with
  | true =>
    rw [if_pos rfl]
    have : (2 : Int) ^ n ≤ 2 ^ ty.bits := by gcongr; omega
    omega
  | false =>
    rw [if_neg Bool.false_ne_true]
    have := hs hu
    have : (2 : Int) ^ n ≤ 2 ^ (ty.bits - 1) := by gcongr; omega
    omega

theorem eval_mask (ρ : Env) (k0 : Expr) {m : BitVec 64} (hn : n ≤ ty.bits)
    (hm : m.toInt % 2 ^ ty.bits = (2 ^ n - 1) % 2 ^ ty.bits) :
    eval ρ (.binary .band ty k0 (intConst ty m)) = ty.wrap (ty.wrap (eval ρ k0) % 2 ^ n) := by
  have hdvd : (2 : Int) ^ n ∣ 2 ^ ty.bits := pow_dvd_pow 2 hn
  have hlow : ty.wrap (eval ρ k0) % 2 ^ n = eval ρ k0 % 2 ^ n := by
    rw [← emod_emod_of_dvd _ hdvd, Mtype.wrap_emod, emod_emod_of_dvd _ hdvd]
  have hword : ty.word m.toInt = ty.word (2 ^ n - 1) := Mtype.word_eq_iff.mpr hm
  rw [eval, eval_intConst, hlow]
  show ty.ofWord (ty.word (eval ρ k0) &&& ty.word (ty.wrap m.toInt)) = _
  rw [Mtype.word_wrap, hword]
  exact congrArg ty.ofWord (X8664.and_mask hn (eval ρ k0))

theorem pred_emod {v : BitVec 64} {c : Int} (hv : v.toInt % 2 ^ ty.bits = c % 2 ^ ty.bits) :
    (v - 1).toInt % 2 ^ ty.bits = (c - 1) % 2 ^ ty.bits := by
  have hof : v - 1 = BitVec.ofInt 64 (v.toInt - 1) := by
    rw [Int.sub_eq_add_neg, BitVec.ofInt_add, BitVec.ofInt_toInt, BitVec.sub_eq_add_neg]
    rfl
  rw [hof, ← Mtype.wrap_eq_iff, wrap_toInt_ofInt, Mtype.wrap_eq_iff, sub_emod, hv,
    ← sub_emod]

theorem eval_powerMask (ρ : Env) (k0 : Expr) {v : BitVec 64} {c : Int} (hc : ty.Holds c)
    (hv : v.toInt % 2 ^ ty.bits = c % 2 ^ ty.bits) (hn : c = 2 ^ n) :
    eval ρ (.binary .band ty k0 (intConst ty (v - 1))) = ty.wrap (eval ρ k0) % 2 ^ n := by
  subst hn
  obtain ⟨hlt, hsigned⟩ := exponent_lt hc
  have hpos : (0 : Int) < 2 ^ n := by positivity
  rw [eval_mask ρ k0 hlt.le (pred_emod hv)]
  apply Mtype.wrap_of_holds
  exact holds_small hlt hsigned (emod_nonneg _ hpos.ne') (emod_lt_of_pos _ hpos)

end mask

/-! ## The modulus of a tree -/

/-- What the operator stands for. -/
def modulus (op : Bop) (j c : Int) : Int := if op = .rem then j.tmod c else j.fmod c

/-- The type of the registers of the code generator. -/
def regType : Mtype → Option X8664.Mtype
  | .I4 => some .I4
  | .U4 => some .U4
  | .I8 => some .I8
  | .U8 => some .U8
  | _ => none

/-- The sequence of the code generator leaves the value of `r`. -/
def SameAsSequence (ρ : Env) (ty : Mtype) (k0 : Expr) (v : BitVec 64) (r : Expr) : Prop :=
  ∀ (t : X8664.Mtype), regType ty = some t →
    ∀ (o : X8664.RemOptions) (site dst x : Nat) (s : X8664.State),
      s.val o.target32bit (.var x) t = BitVec.ofInt t.bits (eval ρ k0) →
      (X8664.expandPowerOf2Mod o site (.var dst) (.var x) v.toInt t).Right o.target32bit t s
        (.var dst) (BitVec.ofInt t.bits (eval ρ r))

/-- The rule for negative powers, at a multiple of the power. -/
def MissesMultiple (ρ : Env) (op : Bop) (ty : Mtype) (k0 : Expr) (c : Int) : Prop :=
  op ≠ .rem ∧ ty.isUnsigned = false ∧ k0.isConst = false ∧ c ∣ ty.wrap (eval ρ k0) ∧
    ∃ n, 0 < n ∧ n < 63 ∧ c = -2 ^ n

/-- A tree that is right for the operator and for the code generator. -/
def Agrees (ρ : Env) (op : Bop) (ty : Mtype) (k0 : Expr) (v : BitVec 64) (c : Int) (r : Expr) :
    Prop :=
  eval ρ r = modulus op (ty.wrap (eval ρ k0)) c ∧
    (c.natAbs.isPowerOfTwo → SameAsSequence ρ ty k0 v r)

section rule
variable {ρ : Env} {create : Expr → Expr} {op : Bop} {ty : Mtype} {k0 r : Expr} {v : BitVec 64}
  {c : Int}

theorem fmod_neg_two_pow (j : Int) (n : Nat) :
    j.fmod (-2 ^ n) = if (2 : Int) ^ n ∣ j then 0 else j % 2 ^ n - 2 ^ n := by
  have hpos : (0 : Int) < 2 ^ n := by positivity
  have hneg := Int.neg_fmod_neg (-j) (2 ^ n)
  rw [neg_neg] at hneg
  rw [hneg, fmod_eq_emod_of_nonneg _ hpos.le, neg_emod]
  split
  · rfl
  · rw [natAbs_of_nonneg hpos.le]
    ring

theorem eval_negativePower (hkeeps : Keeps ρ create) (hc : ty.Holds c)
    (hu : ty.isUnsigned = false) (hv : v.toInt = c) {n : Nat} (hn : n < 63) (hcn : c = -2 ^ n) :
    eval ρ (create (.binary .sub ty (create (.binary .band ty k0 (intConst ty (-v - 1))))
      (intConst ty (-v)))) = ty.wrap (eval ρ k0) % 2 ^ n - 2 ^ n := by
  have hpos : (0 : Int) < 2 ^ n := by positivity
  have hle : (2 : Int) ^ n ≤ 2 ^ 62 := pow_le_pow_right₀ (by decide) (by omega)
  have hlo : (2 : Int) ^ n ≤ 2 ^ (ty.bits - 1) := by
    unfold Mtype.Holds at hc
    rw [hu, if_neg Bool.false_ne_true] at hc
    omega
  have hnb : n ≤ ty.bits := by
    have : n ≤ ty.bits - 1 := (pow_le_pow_iff_right₀ (by decide : (1 : Int) < 2)).mp hlo
    omega
  have hneg : -v = BitVec.ofInt 64 (2 ^ n) := by
    rw [show v = BitVec.ofInt 64 c by rw [← hv, BitVec.ofInt_toInt], hcn, BitVec.ofInt_neg, neg_neg]
  have hint : (-v).toInt = 2 ^ n := by
    rw [hneg]
    exact toInt_ofInt_64 (by omega) (by omega)
  have hlow := emod_nonneg (ty.wrap (eval ρ k0)) hpos.ne'
  have hhigh := emod_lt_of_pos (ty.wrap (eval ρ k0)) hpos
  rw [hkeeps, eval, hkeeps, eval_mask ρ k0 hnb (pred_emod (by rw [hint])), eval_intConst, hint]
  show ty.wrap (ty.wrap _ - ty.wrap _) = _
  have hcong : ty.wrap (ty.wrap (ty.wrap (eval ρ k0) % 2 ^ n) - ty.wrap (2 ^ n)) =
      ty.wrap (ty.wrap (eval ρ k0) % 2 ^ n - 2 ^ n) := by
    rw [Mtype.wrap_eq_iff, sub_emod, Mtype.wrap_emod, Mtype.wrap_emod, ← sub_emod]
  rw [hcong]
  apply Mtype.wrap_of_holds
  unfold Mtype.Holds
  rw [hu, if_neg Bool.false_ne_true]
  omega

/-- What the rewrite returns is a zero, a mask or a mask less the power, each with the divisor it is
made for. -/
theorem simpModRem_cases (hkeeps : Keeps ρ create) (hc : ConstantOf ty v c)
    (h : simpModRem create op ty k0 (.intconst ty v) = some r) :
    (eval ρ r = 0 ∧ c ∣ ty.wrap (eval ρ k0)) ∨
    (∃ n, c = 2 ^ n ∧ (op ≠ .rem ∨ ty.isUnsigned = true) ∧ eval ρ r = ty.wrap (eval ρ k0) % 2 ^ n) ∨
    (op ≠ .rem ∧ ty.isUnsigned = false ∧ k0.isConst = false ∧ ∃ n, 0 < n ∧ n < 63 ∧ c = -2 ^ n ∧
      eval ρ r = ty.wrap (eval ρ k0) % 2 ^ n - 2 ^ n) := by
  have hzero : eval ρ (intConst ty 0) = 0 := by
    rw [eval_intConst]
    exact ty.wrap_zero
  have hsigned : ¬ ty.isUnsigned = true → v.toInt = c := fun hu =>
    hc.2.resolve_right fun hr => hu hr.1
  generalize hk1 : Expr.intconst ty v = k1 at h
  obtain rfl : v = k1.constVal := by rw [← hk1, Expr.constVal_intconst]
  have hconst1 : ¬ (!k1.isConst) = true := by rw [← hk1]; exact Bool.false_ne_true
  unfold simpModRem at h
  dsimp only at h
  split at h
  · -- a constant dividend
    rename_i hconst
    cases k0 with
    | intconst ty0 v0 =>
      split at h
      · rename_i hv0
        have hv0 : v0 = 0 := hv0
        obtain rfl := Option.some.inj h
        refine .inl ⟨hzero, ?_⟩
        rw [eval, hv0, BitVec.ofNat_eq_ofNat, BitVec.toInt_zero, Mtype.wrap_zero, Mtype.wrap_zero]
        exact dvd_zero c
      · cases h
    | _ => cases hconst
  rename_i hk0
  have hk0 : k0.isConst = false := by simpa using hk0
  split at h
  · -- `j mod 1` and `j mod -1`
    rename_i hone
    obtain rfl := Option.some.inj h
    refine .inl ⟨hzero, ?_⟩
    rcases hone with hone | ⟨hone, hu⟩
    · have hv : k1.constVal.toInt = 1 := by rw [hone]; rfl
      have hc1 : c = 1 := by
        rcases hc.2 with hr | ⟨hu, hlo, hr⟩
        · omega
        · have hlt := hc.1
          unfold Mtype.Holds at hlt
          rw [if_pos hu] at hlt
          omega
      exact hc1 ▸ one_dvd _
    · have hc1 : c = -1 := by
        rw [← hsigned (by simpa using hu), hone]
        rfl
      exact hc1 ▸ (neg_dvd.mpr (one_dvd _))
  rename_i hone
  split at h
  · -- a positive power under a modulus
    rename_i hpow
    split at h
    · rename_i hpos
      obtain rfl := Option.some.inj h
      obtain ⟨n, hn⟩ := positive_power hc hpow.2 (by simpa using hpos.imp_right And.right)
      refine .inr (.inl ⟨n, hn, .inl hpow.1, ?_⟩)
      rw [hkeeps, eval_powerMask ρ k0 hc.1 hc.emod hn]
    · cases h
  rename_i hpow
  split at h
  · -- a negative power under a modulus
    rename_i hneg
    obtain rfl := Option.some.inj h
    have hu : ¬ ty.isUnsigned = true := by simpa using hneg.2.2
    have hv := hsigned hu
    obtain ⟨n, hn, hcn⟩ := (negative_power hv fun h => hpow ⟨hneg.1, h⟩).mp hneg.2.1
    have hn0 : 0 < n := by
      rcases Nat.eq_zero_or_pos n with rfl | hn0
      · refine absurd (.inr ⟨?_, hneg.2.2⟩) hone
        rw [show k1.constVal = BitVec.ofInt 64 c by rw [← hv, BitVec.ofInt_toInt], hcn]
        rfl
      · exact hn0
    refine .inr (.inr ⟨hneg.1, by simpa using hu, hk0, n, hn0, hn, hcn, ?_⟩)
    exact eval_negativePower hkeeps hc.1 (by simpa using hu) hv hn hcn
  split at h
  · -- an unsigned remainder
    rename_i hrem
    obtain rfl := Option.some.inj h
    obtain ⟨n, hn⟩ := positive_power hc hrem.2.1 (.inl hrem.2.2)
    refine .inr (.inl ⟨n, hn, .inr hrem.2.2, ?_⟩)
    rw [hkeeps, eval_powerMask ρ k0 hc.1 hc.emod hn]
  · cases h

/-- Where it goes wrong, the result is the divisor itself in place of 0. -/
theorem misses_value (hkeeps : Keeps ρ create) (hc : ConstantOf ty v c)
    (hmiss : MissesMultiple ρ op ty k0 c) :
    ∃ r, simpModRem create op ty k0 (.intconst ty v) = some r ∧ eval ρ r = c := by
  obtain ⟨hop, hu, hk0, hdvd, n, hn0, hn, hcn⟩ := hmiss
  have hv : v.toInt = c := hc.2.resolve_right fun hr => Bool.false_ne_true (hu ▸ hr.1)
  have hpos : (2 : Int) ≤ 2 ^ n := by
    have := pow_le_pow_right₀ (by decide : (1 : Int) ≤ 2) hn0
    omega
  have hnotpow : ¬ isPowerOf2 v = true := by
    -- a negative stored value below which the sign bit does not stand alone
    rw [isPowerOf2_iff]
    intro hpow
    obtain ⟨m, hm⟩ := hpow
    have hint := BitVec.toInt_eq_toNat_cond v
    have hle : (2 : Int) ^ n ≤ 2 ^ 62 := pow_le_pow_right₀ (by decide) (by omega)
    have hlt := v.isLt
    have hm63 : m ≤ 63 := by
      have : 2 ^ m < 2 ^ 64 := by omega
      have := (Nat.pow_lt_pow_iff_right (by decide)).mp this
      omega
    have hmle : 2 ^ m ≤ 2 ^ 63 := Nat.pow_le_pow_right (by decide) hm63
    split at hint <;> omega
  have hone : ¬ (v = 1 ∨ (v = -1 ∧ (!ty.isUnsigned) = true)) := by
    intro h
    have : v.toInt = 1 ∨ v.toInt = -1 := by
      rcases h with h | ⟨h, -⟩
      · exact .inl (by rw [h]; rfl)
      · exact .inr (by rw [h]; rfl)
    omega
  refine ⟨create (.binary .sub ty (create (.binary .band ty k0 (intConst ty (-v - 1))))
    (intConst ty (-v))), ?_, ?_⟩
  rotate_left
  · rw [eval_negativePower hkeeps hc.1 hu hv hn hcn,
      emod_eq_zero_of_dvd (by rw [hcn] at hdvd; exact neg_dvd.mp hdvd), hcn]
    exact zero_sub _
  generalize hk1 : Expr.intconst ty v = k1
  obtain rfl : v = k1.constVal := by rw [← hk1, Expr.constVal_intconst]
  have hconst1 : ¬ (!k1.isConst) = true := by rw [← hk1]; exact Bool.false_ne_true
  unfold simpModRem
  dsimp only
  rw [if_neg (by rw [hk0]; exact Bool.false_ne_true), if_neg hconst1, if_neg hone, if_neg (fun h => hnotpow h.2),
    if_pos ⟨hop, (negative_power hv hnotpow).mpr ⟨n, hn, hcn⟩, by rw [hu]; rfl⟩]

theorem simpModRem_value (hkeeps : Keeps ρ create) (hc : ConstantOf ty v c)
    (h : simpModRem create op ty k0 (.intconst ty v) = some r)
    (hmiss : ¬ MissesMultiple ρ op ty k0 c) : eval ρ r = (ty.wrap (eval ρ k0)).fmod c ∧
      modulus op (ty.wrap (eval ρ k0)) c = (ty.wrap (eval ρ k0)).fmod c := by
  unfold MissesMultiple at hmiss
  have hcases := simpModRem_cases hkeeps hc h
  have hholds := ty.holds_wrap (eval ρ k0)
  unfold Mtype.Holds at hholds
  generalize ty.wrap (eval ρ k0) = j at hmiss hcases hholds ⊢
  rcases hcases with ⟨hval, hdvd⟩ | ⟨n, hcn, hrem, hval⟩ |
    ⟨hop, hu, hk0, n, hn0, hn, hcn, hval⟩
  · have hf : j.fmod c = 0 := fmod_eq_zero_of_dvd hdvd
    have ht : j.tmod c = 0 := tmod_eq_zero_of_dvd hdvd
    refine ⟨by rw [hval, hf], ?_⟩
    unfold modulus
    rw [hf, ht, ite_self]
  · have hpos : (0 : Int) ≤ 2 ^ n := by positivity
    have hf : j.fmod c = j % 2 ^ n := by rw [hcn, fmod_eq_emod_of_nonneg _ hpos]
    refine ⟨by rw [hval, hf], ?_⟩
    unfold modulus
    split
    · rename_i hop
      have hu := hrem.resolve_left fun h => h hop
      have hj0 : 0 ≤ j := by
        rw [if_pos hu] at hholds
        exact hholds.1
      rw [hf, hcn, tmod_eq_emod_of_nonneg hj0]
    · rfl
  · have hdvd : ¬ (2 : Int) ^ n ∣ j := fun hd =>
      hmiss ⟨hop, hu, hk0, by rw [hcn]; exact neg_dvd.mpr hd, n, hn0, hn, hcn⟩
    refine ⟨?_, if_neg hop⟩
    rw [hval, hcn, fmod_neg_two_pow, if_neg hdvd]

end rule

/-! ## The code generator -/

section sequence
open X8664 (RemOptions State TN)
variable {t : X8664.Mtype} {v c : Int}

theorem unsignedMod_right (o : RemOptions) (site r x : Nat) (ht : t.isSigned = false) {n : Nat}
    (hn : n < t.bits) (hv : (if v < 0 then -v else v) = 2 ^ n) (s : State) :
    (X8664.expandPowerOf2Mod o site (.var r) (.var x) v t).Right o.target32bit t s (.var r)
      (s.val o.target32bit (.var x) t &&& BitVec.ofInt t.bits (2 ^ n - 1)) := by
  have hpos : (0 : Int) < 2 ^ n := by positivity
  have hget : X8664.getPowerOf2 (2 ^ n) t = some n := by
    apply X8664.getPowerOf2_eq _ hn
    cases t with
    | I4 | I8 => cases ht
    | U4 =>
      have hlt : (2 : Int) ^ n < 2 ^ 32 := pow_lt_pow_right₀ (by decide) hn
      rw [X8664.powerVal_U4]
      exact emod_eq_of_lt hpos.le hlt
    | U8 => simp [X8664.powerVal, X8664.Mtype.isSigned]
  have hx := X8664.apart_var (site + 1) x
  have hr := X8664.apart_var (site + 1) r
  unfold X8664.expandPowerOf2Mod
  dsimp only
  rw [hv, hget]
  dsimp only
  rw [if_neg (fun h => by rw [ht] at h; exact Bool.false_ne_true h.1)]
  obtain ⟨s1, hrun1, hval1, -⟩ := X8664.computes_binaryAndLit o.target32bit (site + 1) t
    (d := .var r) (a := .var x) hr hx (2 ^ n - 1) s
  refine ⟨s1, ?_, hval1⟩
  have happ := X8664.runInsns_append (b := []) hrun1
  rwa [List.append_nil] at happ

end sequence

theorem sequence_right {ρ : Env} {ty : Mtype} {k0 r : Expr} {v : BitVec 64} {c : Int}
    (hc : ConstantOf ty v c) (hpow : c.natAbs.isPowerOfTwo)
    (hr : eval ρ r = (ty.wrap (eval ρ k0)).fmod c) : SameAsSequence ρ ty k0 v r := by
  intro t ht o site dst x s hx
  rw [hr]
  obtain ⟨n, hn⟩ := hpow
  have hbits : t.bits = ty.bits := by cases ty <;> cases ht <;> rfl
  cases hu : ty.isUnsigned with
  | false =>
    have hsigned : t.isSigned = true := by cases ty <;> cases ht <;> first | rfl | cases hu
    have hv : v.toInt = c := hc.2.resolve_right fun h => Bool.false_ne_true (hu ▸ h.1)
    have hin : X8664.InType t c := by
      have hholds := hc.1
      unfold Mtype.Holds at hholds
      rw [hu, if_neg Bool.false_ne_true] at hholds
      unfold X8664.InType
      rwa [hbits]
    have hright := X8664.powerOf2Mod_right o site dst x hsigned hin
      ((X8664.isPowerOf2_signed hsigned hin).mpr ⟨n, hn⟩) s
    have hj : (BitVec.ofInt t.bits (eval ρ k0)).toInt = ty.wrap (eval ρ k0) := by
      rw [Mtype.wrap_signed hu, BitVec.toInt_ofInt, hbits]
    rw [hx, hj, ← hv] at hright
    rw [← hv]
    exact hright
  | true =>
    have hunsigned : t.isSigned = false := by cases ty <;> cases ht <;> first | rfl | cases hu
    have hholds := hc.1
    unfold Mtype.Holds at hholds
    rw [if_pos hu] at hholds
    have hcn : c = 2 ^ n := by
      have : ((c.natAbs : Nat) : Int) = 2 ^ n := by exact_mod_cast hn
      omega
    have hnt : n < t.bits := by
      rw [hbits]
      exact (exponent_lt (hcn ▸ hc.1)).1
    have hv : (if v.toInt < 0 then -v.toInt else v.toInt) = 2 ^ n := by
      rcases hc.2 with h | ⟨-, hlo, h⟩
      · rw [h, if_neg (by omega), hcn]
      · -- the sign bit alone
        have hhalf := ty.two_pow_half
        have hn1 : n = ty.bits - 1 := by
          have : ty.bits - 1 ≤ n := (pow_le_pow_iff_right₀ (by decide : (1 : Int) < 2)).mp (hcn ▸ hlo)
          omega
        rw [h, if_pos (by omega), hcn, hn1]
        omega
    have hright := unsignedMod_right o site dst x hunsigned hnt hv s
    have hmod : (ty.wrap (eval ρ k0)).fmod c = eval ρ k0 % 2 ^ n := by
      have hdvd : (2 : Int) ^ n ∣ 2 ^ ty.bits := pow_dvd_pow 2 (by omega)
      rw [hcn, fmod_eq_emod_of_nonneg _ (by positivity), Mtype.wrap_unsigned hu,
        emod_emod_of_dvd _ hdvd]
    rw [hx, X8664.and_mask hnt.le] at hright
    rwa [hmod]

/-! ## The simplification is right -/

/-- The tree of a modulus or remainder by a constant is right for the operator and for the code
generator, but for multiples of a negative power. -/
theorem simpModRem_right_iff (ρ : Env) (create : Expr → Expr) (hkeeps : Keeps ρ create) (op : Bop)
    (ty : Mtype) (k0 : Expr) (v : BitVec 64) (c : Int) (hc : ConstantOf ty v c) (hc0 : c ≠ 0) :
    (∀ r, simpModRem create op ty k0 (.intconst ty v) = some r → Agrees ρ op ty k0 v c r) ↔
      ¬ MissesMultiple ρ op ty k0 c := by
  constructor
  · intro hall hmiss
    obtain ⟨r, hr, hval⟩ := misses_value hkeeps hc hmiss
    have hright := (hall r hr).1
    obtain ⟨hop, -, -, hdvd, -⟩ := hmiss
    unfold modulus at hright
    rw [if_neg hop, fmod_eq_zero_of_dvd hdvd, hval] at hright
    exact hc0 hright
  · intro hmiss r hr
    obtain ⟨hval, hmod⟩ := simpModRem_value hkeeps hc hr hmiss
    exact ⟨by rw [hval, hmod], fun hpow => sequence_right hc hpow hval⟩

theorem simpModRem_right_iff_three : ConstantOf .I4 (-8#64) (-8) ∧
    (∀ r, simpModRem id .mod .I4 (.leaf .other .I4 .I4 0) (.intconst .I4 (-8#64)) = some r →
      Agrees ⟨fun _ => 3, true⟩ .mod .I4 (.leaf .other .I4 .I4 0) (-8#64) (-8) r) := by
  have hc : ConstantOf .I4 (-8#64) (-8) := ⟨by decide, .inl (by decide)⟩
  refine ⟨hc, (simpModRem_right_iff ⟨fun _ => 3, true⟩ id (keeps_id _) .mod .I4
    (.leaf .other .I4 .I4 0) (-8#64) (-8) hc (by decide)).mpr ?_⟩
  intro hmiss
  have hdvd := hmiss.2.2.2.1
  revert hdvd
  decide

/-- 8 mod -8 becomes -8. -/
theorem multiple_of_negative_power_wrong : ¬ ∀ (ρ : Env) (create : Expr → Expr), Keeps ρ create →
    ∀ (op : Bop) (ty : Mtype) (k0 : Expr) (v : BitVec 64) (c : Int), ConstantOf ty v c → c ≠ 0 →
      ∀ r, simpModRem create op ty k0 (.intconst ty v) = some r → Agrees ρ op ty k0 v c r := by
  intro hall
  have hright := (hall ⟨fun _ => 8, true⟩ id (keeps_id _) .mod .I4 (.leaf .other .I4 .I4 0)
    (-8#64) (-8) ⟨by decide, .inl (by decide)⟩ (by decide) _ rfl).1
  revert hright
  decide

end Simp.Whirl
