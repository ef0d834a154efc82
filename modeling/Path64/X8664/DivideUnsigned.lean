import Mathlib.Data.Nat.Prime.Basic
import Path64.X8664.Divide

/-! # Division by a 32-bit unsigned constant

The factors 2 of a divisor go into the last shift. For the odd part
that is left the search gives a multiplier that fits into a word, or
its first test fails; then the remainder is small, and a multiplier of
one bit more than a word has a small error. -/

namespace X8664

open Nat
open BitVec (ofInt ofNat ofNat_toNat setWidth_eq)

/-! ## The search of an odd divisor -/

theorem stripLoop_spec {fuel t : Nat} (ht : 0 < t) (h : t < 2 ^ fuel) (n : Nat) :
    ∃ t' k, stripLoop fuel t n = (t', n + k) ∧ t = t' * 2 ^ k ∧ t' % 2 = 1 := by
  induction fuel generalizing t n with
  | zero => omega
  | succ fuel ih =>
    unfold stripLoop
    by_cases heven : t % 2 = 0
    · have hhalf : t >>> 1 = t / 2 := shiftRight_one t
      have hlt : t / 2 < 2 ^ fuel := by
        rw [pow_succ] at h
        omega
      obtain ⟨t', k, hloop, hval, hodd⟩ := ih (by omega) hlt (n + 1)
      refine ⟨t', k + 1, ?_, ?_, hodd⟩
      · rw [if_pos heven, hhalf, hloop]
        congr 1
        omega
      · have hdouble : t' * 2 ^ (k + 1) = t' * 2 ^ k * 2 := by ring
        omega
    · exact ⟨t, 0, by rw [if_neg heven, add_zero], by simp, by omega⟩

theorem halveLoop_le (mHigh mLow l : Nat) : (halveLoop mHigh mLow l).2 ≤ l := by
  induction l generalizing mHigh mLow with
  | zero => exact le_rfl
  | succ l ih =>
    unfold halveLoop
    split
    · exact le_trans (ih _ _) (le_succ l)
    · exact le_rfl

theorem halveLoop_stays {mHigh mLow l : Nat} (h : (halveLoop mHigh mLow (l + 1)).2 = l + 1) :
    ¬ mLow >>> 1 < mHigh >>> 1 := by
  intro hlt
  unfold halveLoop at h
  rw [if_pos hlt] at h
  have := halveLoop_le (mHigh >>> 1) (mLow >>> 1) l
  omega

variable {n m x : Nat} {s : State} {denom : Int}

theorem two_pow_lt_odd {t : Nat} (h1 : 1 < t) (hodd : t % 2 = 1) (hle : 2 ^ n ≤ t) :
    2 ^ n < t := by
  rcases lt_or_ge (2 ^ n) t with h | h
  · exact h
  · cases n with
    | zero => omega
    | succ n =>
      rw [pow_succ] at h hle
      omega

theorem odd_not_dvd_two_pow {t : Nat} (h1 : 1 < t) (hodd : t % 2 = 1) : ¬ t ∣ 2 ^ n := by
  intro hdvd
  obtain ⟨k, -, rfl⟩ := (dvd_prime_pow prime_two).mp hdvd
  have := two_pow_lt_odd h1 hodd le_rfl
  omega

/-- The odd part of a divisor below 2 ^ 31, and what the search needs of it. -/
structure OddPart (t : Nat) : Prop where
  one_lt : 1 < t
  odd : t % 2 = 1
  lt : t < 2 ^ 31

namespace OddPart

variable {t : Nat} (h : OddPart t)

include h

theorem log2_lt : 2 ^ log2 t < t ∧ t < 2 ^ (log2 t + 1) := by
  have h1 := h.one_lt
  have h2 := h.lt
  obtain ⟨hlo, hhi⟩ := log2_bounds (i := t) (by omega) (by omega)
  exact ⟨two_pow_lt_odd h1 h.odd hlo, hhi⟩

theorem log2_le : log2 t ≤ 30 := by
  by_contra hgt
  have hpow := Nat.pow_le_pow_right (n := 2) (by decide) (show 31 ≤ log2 t by omega)
  have := h.log2_lt.1
  have := h.lt
  omega

theorem wide : t * (0xffffffff - 0xffffffff % t) ≤ 2 ^ (32 + (log2 t + 1)) := by
  calc t * (0xffffffff - 0xffffffff % t) ≤ 2 ^ (log2 t + 1) * 2 ^ 32 :=
        Nat.mul_le_mul h.log2_lt.2.le (by omega)
    _ = 2 ^ (32 + (log2 t + 1)) := by rw [← Nat.pow_add, Nat.add_comm]

theorem last_word : 0xffffffff % t + 1 < t := by
  have h1 := h.one_lt
  have hmod := mod_lt 0xffffffff (show 0 < t by omega)
  by_contra hge
  have hdvd : t ∣ 2 ^ 32 := by
    have hdiv := div_add_mod 0xffffffff t
    refine ⟨0xffffffff / t + 1, ?_⟩
    rw [mul_add]
    omega
  exact odd_not_dvd_two_pow h1 h.odd hdvd

theorem multiplier_fits {s : Nat} (hm : Multiplier 0xffffffff t m s) (hs : s ≤ log2 t) :
    m < 2 ^ 32 := by
  obtain ⟨e, hme, -, hew⟩ := hm
  have h1 := h.one_lt
  have h2 := h.lt
  have hs2 : 2 ^ s ≤ 2 ^ log2 t := Nat.pow_le_pow_right (by decide) hs
  have hlt := h.log2_lt.1
  have hhalf : 0xffffffff < 2 * (0xffffffff - 0xffffffff % t) :=
    half_lt_multiple (by omega) (by omega)
  refine multiplier_lt hme ?_ (lt_of_le_of_lt hs2 hlt)
  by_contra hge
  have h3 : 2 ^ 32 * 2 ^ 31 ≤ e * (0xffffffff - 0xffffffff % t) :=
    Nat.mul_le_mul (by omega) (by omega)
  have h4 : 2 ^ (32 + s) ≤ 2 ^ 62 :=
    Nat.pow_le_pow_right (by decide) (by have := h.log2_le; omega)
  omega

theorem rem_small (hsearch : searchMultiplier 0xffffffff t (log2 t + 1) = some (m, log2 t + 1)) :
    2 * (2 ^ (32 + log2 t) % t) < t := by
  have h1 := h.one_lt
  have h2 := h.lt
  have hl := h.log2_le
  obtain ⟨hlo, hhi⟩ := h.log2_lt
  obtain ⟨heq, -⟩ := searchMultiplier_eq h1 (show t ≤ 0xffffffff by omega) (by omega) h.wide
  rw [hsearch] at heq
  have hfail := halveLoop_stays (congrArg Prod.snd (Option.some.inj heq)).symm
  obtain ⟨w, hw⟩ : ∃ w, w = 0xffffffff - 0xffffffff % t := ⟨_, rfl⟩
  have hhalf : 0xffffffff < 2 * (0xffffffff - 0xffffffff % t) :=
    half_lt_multiple (by omega) (by omega)
  rw [← hw] at hfail hhalf
  obtain ⟨P, hP⟩ : ∃ P, P = 2 ^ (32 + log2 t) := ⟨_, rfl⟩
  have hdouble : 2 ^ (32 + (log2 t + 1)) = P * 2 := by rw [hP, ← add_assoc, pow_succ]
  have hlow : (P * 2 / t) >>> 1 = P / t := by
    rw [Nat.shiftRight_one, Nat.div_div_eq_div_mul, Nat.mul_comm t, ← Nat.div_div_eq_div_mul,
      Nat.mul_div_cancel _ (by decide)]
  have hhigh : ((P * 2 + P * 2 / w) / t) >>> 1 = (P + P * 2 / w / 2) / t := by
    rw [Nat.shiftRight_one, Nat.div_div_eq_div_mul, Nat.mul_comm t, ← Nat.div_div_eq_div_mul,
      Nat.mul_comm P, Nat.mul_add_div (by decide)]
  rw [hdouble, hlow, hhigh] at hfail
  -- half of the first summand is a power of two at least
  have hK : 2 ^ log2 t ≤ P * 2 / w / 2 := by
    rw [Nat.div_div_eq_div_mul, Nat.le_div_iff_mul_le (by omega)]
    calc 2 ^ log2 t * (w * 2) ≤ 2 ^ log2 t * (2 ^ 32 * 2) := Nat.mul_le_mul_left _ (by omega)
      _ = P * 2 := by rw [hP, pow_add]; ring
  -- and the remainder takes it in
  have hrem : P % t + P * 2 / w / 2 < t := by
    by_contra hge
    have hdiv := div_add_mod P t
    apply hfail
    have : P / t + 1 ≤ (P + P * 2 / w / 2) / t := by
      rw [le_div_iff_mul_le (by omega), add_mul, mul_comm (P / t)]
      omega
    omega
  rw [← hP]
  rw [pow_succ] at hhi
  omega

end OddPart

/-! ## The multiplier -/

/-- The quotient that the emitted code takes, in numbers. -/
def UnsignedMultiplier.quot (u : UnsignedMultiplier) (x : Nat) : Nat :=
  if u.a then
    let high := x * ((2 * u.m + 1) % 2 ^ 32) / 2 ^ 32
    ((x - high) / 2 + high) / 2 ^ u.s
  else x * u.m / 2 ^ 32 / 2 ^ u.s

theorem OddPart.quot_short {t s : Nat} (h : OddPart t) (hm : Multiplier 0xffffffff t m s)
    (hx : x < 2 ^ 32) : UnsignedMultiplier.quot ⟨m, s + n, false⟩ x = x / (t * 2 ^ n):= by
  obtain ⟨e, hme, -, hew⟩ := hm
  have h1 := h.one_lt
  have h2 := h.lt
  have hlast := h.last_word
  have hfits : Magic.Fits t (2 ^ (32 + s)) e x :=
    Magic.fits_of_multiple (Nat.two_pow_pos _) (by omega) (by omega) hew (by omega)
  have hq := Magic.div_eq (by omega) hme hfits
  show x * m / 2 ^ 32 / 2 ^ (s + n) = x / (t * 2 ^ n)
  rw [← Nat.div_div_eq_div_mul, ← hq, Nat.div_div_eq_div_mul, Nat.div_div_eq_div_mul]
  congr 1
  rw [pow_add, pow_add, mul_assoc]

theorem OddPart.quot_long {t : Nat} (h : OddPart t) (hr : 2 * (2 ^ (32 + log2 t) % t) < t) :
    2 ^ (32 + log2 t) / t < 2 ^ 32 ∧ ∀ x < 2 ^ 32,
      UnsignedMultiplier.quot ⟨2 ^ (32 + log2 t) / t, log2 t + n, true⟩ x = x / (t * 2 ^ n) := by
  obtain ⟨hlo, hhi⟩ := h.log2_lt
  have h1 := h.one_lt
  obtain ⟨m, hm⟩ : ∃ m, m = 2 ^ (32 + log2 t) / t := ⟨_, rfl⟩
  have hdiv := div_add_mod (2 ^ (32 + log2 t)) t
  rw [← hm] at hdiv ⊢
  have hlt : m < 2 ^ 32 := by
    rw [hm, Nat.div_lt_iff_lt_mul (by omega), Nat.pow_add]
    exact Nat.mul_lt_mul_of_pos_left hlo (Nat.two_pow_pos _)
  refine ⟨hlt, fun x hx => ?_⟩
  have hP : 2 ^ (33 + log2 t) = 2 * 2 ^ (32 + log2 t) := by
    rw [show 33 + log2 t = 32 + log2 t + 1 by omega, pow_succ, mul_comm]
  -- the error is what the doubled remainder leaves of the divisor
  have herr : (2 * m + 1) * t = 2 ^ (33 + log2 t) + (t - 2 * (2 ^ (32 + log2 t) % t)) := by
    have : (2 * m + 1) * t = 2 * (t * m) + t := by ring
    omega
  have hwide : 2 ^ 32 ≤ 2 * m + 1 := by
    by_contra hlt
    have hle : (2 * m + 1) * t ≤ 2 ^ 32 * t := mul_le_mul_right t (by omega)
    have hlt' : 2 ^ 32 * t < 2 ^ 32 * 2 ^ (log2 t + 1) :=
      Nat.mul_lt_mul_of_pos_left hhi (Nat.two_pow_pos _)
    have : 2 ^ 32 * 2 ^ (log2 t + 1) = 2 ^ (33 + log2 t) := by
      rw [← pow_add]
      congr 1
      omega
    omega
  have hlow : (2 * m + 1) % 2 ^ 32 = 2 * m + 1 - 2 ^ 32 := by omega
  have hfits : Magic.Fits t (2 ^ (33 + log2 t)) (t - 2 * (2 ^ (32 + log2 t) % t)) x := by
    refine Magic.fits_of_lt (by omega) ?_
    calc x * (t - 2 * (2 ^ (32 + log2 t) % t)) ≤ x * 2 ^ (log2 t + 1) :=
          Nat.mul_le_mul_left x (by omega)
      _ < 2 ^ 32 * 2 ^ (log2 t + 1) := Nat.mul_lt_mul_of_pos_right hx (Nat.two_pow_pos _)
      _ = 2 ^ (33 + log2 t) := by
        rw [← pow_add]
        congr 1
        omega
  have hq := Magic.div_eq (by omega) herr hfits
  have hhigh : x * (2 * m + 1 - 2 ^ 32) / 2 ^ 32 ≤ x := by
    rw [div_le_iff_le_mul (by decide)]
    have := mul_le_mul_left x (show 2 * m + 1 - 2 ^ 32 ≤ 2 ^ 32 by omega)
    omega
  have hsum := Magic.add_high (x := x) (m := 2 * m + 1 - 2 ^ 32) (Nat.two_pow_pos 32)
  rw [show 2 ^ 32 + (2 * m + 1 - 2 ^ 32) = 2 * m + 1 by omega] at hsum
  show ((x - x * ((2 * m + 1) % 2 ^ 32) / 2 ^ 32) / 2 + x * ((2 * m + 1) % 2 ^ 32) / 2 ^ 32)
    / 2 ^ (log2 t + n) = x / (t * 2 ^ n)
  rw [hlow, Nat.add_comm (_ / 2), Magic.average hhigh, hsum, ← Nat.div_div_eq_div_mul, ← hq,
    Nat.div_div_eq_div_mul, Nat.div_div_eq_div_mul, Nat.div_div_eq_div_mul]
  congr 1
  rw [Nat.pow_add, show 33 + log2 t = 32 + 1 + log2 t by omega, Nat.pow_add, Nat.pow_add]
  ring

/-- The multiplier found is exact for every dividend of 32 bits. -/
theorem unsignedMultiplier_spec {d : Nat} (hd : 1 < d) (hd31 : d < 2 ^ 31)
    (hpow : ¬ d.isPowerOfTwo) : ∃ u, unsignedMultiplier d = some u ∧ u.s < 32 ∧ u.m < 2 ^ 32 ∧
      ∀ x < 2 ^ 32, u.quot x = x / d := by
  obtain ⟨t, n, hstrip, hval, hodd⟩ := stripLoop_spec (show 0 < d by omega)
    (show d < 2 ^ 32 by omega) 0
  rw [Nat.zero_add] at hstrip
  have hone : 1 ≤ 2 ^ n := Nat.two_pow_pos n
  have htd : t ≤ d := by
    rw [hval]
    exact Nat.le_mul_of_pos_right t hone
  have ht1 : t ≠ 1 := fun h => hpow ⟨n, by rw [hval, h, Nat.one_mul]⟩
  have h : OddPart t := ⟨by omega, hodd, by omega⟩
  obtain ⟨hlo, -⟩ := h.log2_lt
  -- the shift counts
  have hsn : log2 t + n ≤ 30 := by
    by_contra hgt
    have h1 : 2 ^ 31 ≤ 2 ^ (log2 t + n) := Nat.pow_le_pow_right (by decide) (by omega)
    have h2 : 2 ^ (log2 t + n) ≤ t * 2 ^ n := by
      rw [pow_add]
      exact mul_le_mul_right _ hlo.le
    omega
  obtain ⟨m, s, hsearch, hs, hm⟩ := searchMultiplier_spec h.one_lt
    (show t ≤ 0xffffffff by have := h.lt; omega) (by have := h.log2_le; omega) h.wide
  have heq : unsignedMultiplier d = some (if m >>> 32 = 0 then ⟨m % 2 ^ 32, s + n, false⟩
        else ⟨if word (1 <<< (32 + log2 t)) % t % 2 ^ 32 < t >>> 1 + 1
            then word (1 <<< (32 + log2 t)) / t % 2 ^ 32
            else (word (1 <<< (32 + log2 t)) / t % 2 ^ 32 + 1) % 2 ^ 32,
          log2 t + n, true⟩) := by
    unfold unsignedMultiplier
    rw [hstrip]
    simp only [hsearch]
    rfl
  by_cases hm32 : m < 2 ^ 32
  · have hshift : m >>> 32 = 0 := by
      rw [shiftRight_eq_div_pow]
      exact div_eq_of_lt hm32
    refine ⟨⟨m, s + n, false⟩, ?_, by show s + n < 32; omega, hm32, fun x hx => ?_⟩
    · rw [heq, if_pos hshift, mod_eq_of_lt hm32]
    · rw [hval]
      exact h.quot_short hm hx
  · have hshift : ¬ m >>> 32 = 0 := by
      rw [shiftRight_eq_div_pow]
      omega
    -- the loop did not halve
    obtain rfl : s = log2 t + 1 := by
      by_contra hne
      exact hm32 (h.multiplier_fits hm (by omega))
    have hr := h.rem_small hsearch
    obtain ⟨hfit, hquot⟩ := h.quot_long (n := n) hr
    have hword : word (1 <<< (32 + log2 t)) = 2 ^ (32 + log2 t) := by
      have : 2 ^ (32 + log2 t) ≤ 2 ^ 62 := Nat.pow_le_pow_right (by decide) (by omega)
      rw [word, Nat.one_shiftLeft]
      exact mod_eq_of_lt (lt_of_le_of_lt this (by norm_num))
    have hr32 : 2 ^ (32 + log2 t) % t % 2 ^ 32 < t >>> 1 + 1 := by
      have := mod_le (2 ^ (32 + log2 t) % t) (2 ^ 32)
      rw [shiftRight_one]
      omega
    refine ⟨⟨2 ^ (32 + log2 t) / t, log2 t + n, true⟩, ?_, by show log2 t + n < 32; omega, hfit,
      fun x hx => ?_⟩
    · rw [heq, if_neg hshift, hword, if_pos hr32, mod_eq_of_lt hfit]
    · rw [hval]
      exact hquot x hx

/-! ## The emitted code -/

/-- A shift by a literal: the size of what is shifted, and the count. -/
def Instr.litShift : Instr → Option (Nat × Int)
  | .bin .shl n _ _ (.lit c) | .bin .shr n _ _ (.lit c) | .bin .sar n _ _ (.lit c) => some (n, c)
  | .shd _ _ _ _ (.lit c) => some (32, c)
  | _ => none

/-- Every count is below 32, but for that of a 64-bit shift, which may be 32. -/
def ShiftsInRange (code : List Instr) : Prop :=
  ∀ i ∈ code, ∀ w c, i.litShift = some (w, c) → 0 ≤ c ∧ (c < 32 ∨ w = 64 ∧ c = 32)

theorem shiftsInRange_append {a b : List Instr} (ha : ShiftsInRange a) (hb : ShiftsInRange b) :
    ShiftsInRange (a ++ b) := by
  intro i hi
  rcases List.mem_append.mp hi with h | h
  · exact ha i h
  · exact hb i h

/-- The expansion has code, which leaves `v` in the result, and whose shifts are in range. -/
def Expanded.Exact (s : State) (r : TN) (v : BitVec 32) (e : Expanded) : Prop :=
  ∃ code s', e = .yes code ∧ exec code s = some s' ∧ s'.read 32 r = v ∧ ShiftsInRange code

theorem emit_exact {code : List Instr} {s' : State} {r : TN} {v : BitVec 32}
    (hcount : code.all Instr.countOk = true) (hexec : exec code s = some s')
    (hval : s'.read 32 r = v) (hshift : ShiftsInRange code) : (emit code).Exact s r v :=
  ⟨code, s', by rw [emit, if_pos hcount], hexec, hval, hshift⟩

/-- The product of the dividend with a constant, and its high word. -/
def expandHighProduct (m32 : Bool) (site : Nat) (d mult high : TN) (numer : TN) (m : Nat) :
    List Instr :=
  expandImmediate8 m32 d m ++ expandMultiply8 m32 (site + 1) mult (.low numer) d ++
    expandHighWord m32 (site + 2) high mult

theorem hiHalf_ofNat_mul (x : BitVec 32) (hm : m < 2 ^ 32) :
    (hiHalf (x.setWidth 64 * ofInt 64 m)).toNat = x.toNat * m / 2 ^ 32 := by
  have hx := x.isLt
  have hlt : x.toNat * m < 2 ^ 32 * 2 ^ 32 := Nat.mul_lt_mul'' hx hm
  have hq : x.toNat * m / 2 ^ 32 < 2 ^ 32 := Nat.div_lt_of_lt_mul hlt
  unfold hiHalf
  rw [BitVec.toNat_setWidth, BitVec.toNat_ushiftRight, BitVec.toNat_mul, BitVec.toNat_setWidth,
    BitVec.ofInt_natCast, BitVec.toNat_ofNat, mod_eq_of_lt (show x.toNat < 2 ^ 64 by omega),
    mod_eq_of_lt (show m < 2 ^ 64 by omega), mod_eq_of_lt (show x.toNat * m < 2 ^ 64 by omega),
    shiftRight_eq_div_pow]
  exact mod_eq_of_lt hq

/-- A dividend that is zero-extended in its register. -/
def ZeroExtended (s : State) (t : TN) : Prop := s.reg t = (s.read 32 t).setWidth 64

theorem run_highProduct (m32 : Bool) (site : Nat) (hm : m < 2 ^ 32)
    (hx : ZeroExtended s (.var x)) :
    ∃ s', run (expandHighProduct m32 site (.tmp site 5) (.tmp site 6) (.tmp site 1) (.var x) m)
        none s = some (s', none) ∧
      (s'.read 32 (.tmp site 1)).toNat = (s.read 32 (.var x)).toNat * m / 2 ^ 32 ∧
      s'.read 32 (.var x) = s.read 32 (.var x) := by
  obtain ⟨s1, hrun1, hval1, hf1⟩ := run_immediate8 m32 (.tmp site 5) m (site + 1) s
  obtain ⟨s2, hrun2, hval2, hf2⟩ := run_multiply8 m32 (site + 1) (d := .tmp site 6)
    (b := .tmp site 5) (a := .low (.var x)) (by simp [RegSrc.Avoids]) (by simp) (by simp) s1
  obtain ⟨s3, hrun3, hval3, hf3⟩ := run_highWord m32 (site + 2) (.tmp site 1) (.tmp site 6) s2
  have hsrc : (RegSrc.low (.var x)).wide m32 s1 = (s.read 32 (.var x)).setWidth 64 := by
    cases m32 with
    | false =>
      show s1.reg (.var x) = _
      rw [hf1 (.var x) (by simp) (by simp) (by simp), hx]
    | true =>
      show (s1.read 32 (.var x)).setWidth 64 = _
      rw [hf1.read (by simp) (by simp) (by simp)]
  refine ⟨s3, ?_, ?_, ?_⟩
  · unfold expandHighProduct
    rw [run_append, run_append, hrun1, Option.bind_some, hrun2, Option.bind_some, hrun3]
  · rw [hval3, hval2, hsrc, hval1, hiHalf_ofNat_mul _ hm]
  · rw [hf3.read (by simp) (by simp) (by simp), hf2.read (by simp) (by simp) (by simp),
      hf1.read (by simp) (by simp) (by simp)]

theorem highProduct_shifts (m32 : Bool) (site : Nat) (d mult high numer : TN) (m : Nat) :
    (expandHighProduct m32 site d mult high numer m).all Instr.countOk = true ∧
      ShiftsInRange (expandHighProduct m32 site d mult high numer m) := by
  cases m32 with
  | false =>
    simp [expandHighProduct, expandImmediate8, expandMultiply8, expandHighWord, ShiftsInRange,
      Instr.countOk, Instr.litShift]
  | true =>
    simp [expandHighProduct, expandImmediate8, expandMultiply8, expandHighWord,
      expandSplitIntconst, expandSplitMultiply, expandSplitShiftLit, ShiftsInRange,
      Instr.countOk, Instr.litShift]

theorem toNat_ushiftRight_div (v : BitVec 32) (n : Nat) : (v >>> n).toNat = v.toNat / 2 ^ n := by
  rw [BitVec.toNat_ushiftRight, shiftRight_eq_div_pow]

theorem average_word {x h : BitVec 32} (hle : h.toNat ≤ x.toNat) :
    ((x - h) >>> 1 + h).toNat = (x.toNat - h.toNat) / 2 + h.toNat := by
  have hx := x.isLt
  rw [BitVec.toNat_add, toNat_ushiftRight_div, BitVec.toNat_sub_of_le hle]
  omega

theorem unsignedMultiplier_exact (o : Options) (site r : Nat) {u : UnsignedMultiplier}
    (hs : u.s < 32) (hm : u.m < 2 ^ 32) (hx : ZeroExtended s (.var x)) :
    (expandUnsignedMultiplier o site (.var r) (.var x) u).Exact s (.var r)
      (ofNat 32 (u.quot (s.read 32 (.var x)).toNat)) := by
  obtain ⟨m, sh, a⟩ := u
  cases a with
  | true =>
    have hm' : (2 * m + 1) % 2 ^ 32 < 2 ^ 32 := mod_lt _ (by decide)
    obtain ⟨s', hrun, hhigh, hnumer⟩ := run_highProduct o.target32bit site hm' hx
    obtain ⟨hcount, hshift⟩ := highProduct_shifts o.target32bit site (.tmp site 5) (.tmp site 6)
      (.tmp site 1) (.var x) ((2 * m + 1) % 2 ^ 32)
    have hle : (s'.read 32 (.tmp site 1)).toNat ≤ (s'.read 32 (.var x)).toNat := by
      rw [hhigh, hnumer, div_le_iff_le_mul (by decide)]
      have := mul_le_mul_left (s.read 32 (.var x)).toNat hm'.le
      omega
    have hq : (((s'.read 32 (.var x) - s'.read 32 (.tmp site 1)) >>> 1
        + s'.read 32 (.tmp site 1)) >>> sh).toNat
        = UnsignedMultiplier.quot ⟨m, sh, true⟩ (s.read 32 (.var x)).toNat := by
      rw [toNat_ushiftRight_div, average_word hle, hhigh, hnumer]
      rfl
    rw [← hq, ofNat_toNat, setWidth_eq]
    have h1 : count 1#32 = 1 := rfl
    show (emit (expandHighProduct o.target32bit site (.tmp site 5) (.tmp site 6) (.tmp site 1)
      (.var x) ((2 * m + 1) % 2 ^ 32) ++ _)).Exact _ _ _
    refine emit_exact ?_ (by rw [exec_append hrun]; rfl) ?_ (shiftsInRange_append hshift ?_)
    · rw [List.all_append, hcount]
      simp [Instr.countOk, hs]
    · simp [h1, count_lit hs]
    · simp [ShiftsInRange, Instr.litShift]
      omega
  | false =>
    obtain ⟨s', hrun, hhigh, hnumer⟩ := run_highProduct o.target32bit site hm hx
    obtain ⟨hcount, hshift⟩ := highProduct_shifts o.target32bit site (.tmp site 5) (.tmp site 6)
      (.tmp site 1) (.var x) m
    have hq : (s'.read 32 (.tmp site 1) >>> sh).toNat
        = UnsignedMultiplier.quot ⟨m, sh, false⟩ (s.read 32 (.var x)).toNat := by
      rw [toNat_ushiftRight_div, hhigh]
      rfl
    rw [← hq, ofNat_toNat, setWidth_eq]
    show (emit (expandHighProduct o.target32bit site (.tmp site 5) (.tmp site 6) (.tmp site 1)
      (.var x) m ++ _)).Exact _ _ _
    refine emit_exact ?_ (by rw [exec_append hrun]; rfl) ?_ (shiftsInRange_append hshift ?_)
    · rw [List.all_append, hcount]
      simp [Instr.countOk, hs]
    · simp [count_lit hs]
    · simp [ShiftsInRange, Instr.litShift]
      omega

/-! ## The expansion -/

theorem powerVal_U4 (denom : Int) : powerVal denom .U4 = denom % 2 ^ 32 := by
  unfold powerVal
  rw [if_pos rfl, if_neg (fun h => Bool.false_ne_true h.1)]

theorem isPowerOf2_U4 (denom : Int) :
    isPowerOf2 denom .U4 = true ↔ (denom % 2 ^ 32).toNat.isPowerOfTwo := by
  have hval : (ofInt 64 (denom % 2 ^ 32)).toNat = (denom % 2 ^ 32).toNat := by
    rw [BitVec.toNat_ofInt]
    omega
  unfold isPowerOf2
  rw [powerVal_U4, bitPowerOf2_iff, hval]

theorem powerOf2DivideU4_exact (site r x : Nat)
    (hd : (denom % 2 ^ 32).toNat = 2 ^ n) (s : State) :
    (expandPowerOf2Divide site (.var r) (.var x) denom .U4).Exact s (.var r)
      (ofNat 32 ((s.read 32 (.var x)).toNat / (denom % 2 ^ 32).toNat)) := by
  have hn : n < 32 := by
    by_contra hge
    have := Nat.pow_le_pow_right (n := 2) (by decide) (show 32 ≤ n by omega)
    omega
  have hval : powerVal denom .U4 = 2 ^ n := by
    have hcast : ((2 ^ n : Nat) : Int) = 2 ^ n := by push_cast; rfl
    rw [powerVal_U4]
    omega
  have hq : (s.read 32 (.var x) >>> n).toNat
      = (s.read 32 (.var x)).toNat / (denom % 2 ^ 32).toNat := by
    rw [toNat_ushiftRight_div, hd]
  rw [← hq, ofNat_toNat, setWidth_eq]
  unfold expandPowerOf2Divide
  rw [getPowerOf2_eq hval hn]
  show (emit [.bin .shr 32 (.var r) (.var x) (.lit n)]).Exact _ _ _
  refine emit_exact ?_ rfl ?_ ?_
  · simp [Instr.countOk, hn]
  · simp [count_lit hn]
  · simp [ShiftsInRange, Instr.litShift]
    omega

theorem compareDivide_exact (site r x : Nat) (hd : 2 ^ 31 ≤ (denom % 2 ^ 32).toNat) (s : State) :
    (expandCompareDivide site (.var r) (.var x) denom).Exact s (.var r)
      (ofNat 32 ((s.read 32 (.var x)).toNat / (denom % 2 ^ 32).toNat)) := by
  have hval : (ofInt 32 denom).toNat = (denom % 2 ^ 32).toNat := by
    rw [BitVec.toNat_ofInt]
    rfl
  have hx := (s.read 32 (.var x)).isLt
  have hq : (0#32 - -1#32 - ofNat 32 ((s.read 32 (.var x)).ult (ofInt 32 denom)).toNat)
      = ofNat 32 ((s.read 32 (.var x)).toNat / (denom % 2 ^ 32).toNat) := by
    rw [BitVec.ult_eq_decide, hval]
    by_cases hlt : (s.read 32 (.var x)).toNat < (denom % 2 ^ 32).toNat
    · rw [div_eq_of_lt hlt, decide_eq_true hlt]
      rfl
    · have hone : (s.read 32 (.var x)).toNat / (denom % 2 ^ 32).toNat = 1 := by
        apply Nat.div_eq_of_lt_le <;> omega
      rw [hone, decide_eq_false hlt]
      rfl
  refine emit_exact (by simp [Instr.countOk]) rfl ?_ (by simp [ShiftsInRange, Instr.litShift])
  rw [← hq]
  simp [subFlags]

/-- Division by a 32-bit unsigned constant above 1 is exact; without the option for multiplications
only a power of two has code. -/
theorem divideU4_exact (o : Options) (ho : o.idivbyconstOpt = true) (site r x : Nat) {denom : Int}
    (hd : 2 ≤ denom % 2 ^ 32) (s : State) (hx : ZeroExtended s (.var x)) :
    (expandIntegerDivideByConstant o site (.var r) (.var x) denom .U4).Exact s (.var r)
        (ofNat 32 ((s.read 32 (.var x)).toNat / (denom % 2 ^ 32).toNat)) ∨
      o.cvrtIntDivToMult = false ∧
        expandIntegerDivideByConstant o site (.var r) (.var x) denom .U4 = .no := by
  have h1 : denom ≠ 1 := by
    rintro rfl
    omega
  unfold expandIntegerDivideByConstant
  rw [if_neg h1, if_neg (fun h => Bool.false_ne_true h.1)]
  by_cases hpow : (denom % 2 ^ 32).toNat.isPowerOfTwo
  · rw [if_pos ((isPowerOf2_U4 denom).mpr hpow)]
    obtain ⟨n, hn⟩ := hpow
    exact .inl (powerOf2DivideU4_exact site r x hn s)
  rw [if_neg (fun h => hpow ((isPowerOf2_U4 denom).mp h))]
  by_cases hcvrt : o.cvrtIntDivToMult = false
  · exact .inr ⟨hcvrt, if_pos (by simp [hcvrt])⟩
  rw [if_neg (by simpa using hcvrt), if_pos ⟨by decide, ho⟩,
    if_neg (show ¬ Mtype.U4.isSigned = true by decide)]
  refine .inl ?_
  by_cases hhalf : denom % 2 ^ 32 < 0x80000000
  · rw [if_pos hhalf]
    obtain ⟨u, hu, hs, hm, hquot⟩ := unsignedMultiplier_spec (d := (denom % 2 ^ 32).toNat)
      (by omega) (by omega) hpow
    rw [hu, ← hquot _ (s.read 32 (.var x)).isLt]
    exact unsignedMultiplier_exact o site r hs hm hx
  · rw [if_neg hhalf]
    exact compareDivide_exact site r x (by omega) s

theorem divideU4_exact_seven :
    (expandIntegerDivideByConstant ⟨true, true, false, true⟩ 0 (.var 0) (.var 1) 7 .U4).Exact
        ⟨fun _ => 100, .unknown, 0⟩ (.var 0) (ofNat 32 14) ∨ true = false ∧
        expandIntegerDivideByConstant ⟨true, true, false, true⟩ 0 (.var 0) (.var 1) 7 .U4 = .no :=
  divideU4_exact ⟨true, true, false, true⟩ rfl 0 0 1 (show 2 ≤ (7 : Int) % 2 ^ 32 by decide)
    ⟨fun _ => 100, .unknown, 0⟩ rfl

/-- The high word of a product is taken by a 64-bit shift, by 32. -/
theorem divideU4_shifts_by_32 : ¬ ∀ (o : Options), o.idivbyconstOpt = true →
    ∀ (site r x : Nat) (denom : Int), 2 ≤ denom % 2 ^ 32 → ∀ s : State,
      ZeroExtended s (.var x) → ∀ code,
      expandIntegerDivideByConstant o site (.var r) (.var x) denom .U4 = .yes code →
      ∀ i ∈ code, ∀ w c, i.litShift = some (w, c) → 0 ≤ c ∧ c < 32 := by
  intro h
  obtain ⟨code, hcode, hmem⟩ : ∃ code,
      expandIntegerDivideByConstant ⟨true, true, false, true⟩ 0 (.var 0) (.var 1) 7 .U4 = .yes code
        ∧ .bin .shr 64 (.tmp 0 1) (.tmp 0 6) (.lit 32) ∈ code := ⟨_, rfl, by decide⟩
  have := h ⟨true, true, false, true⟩ rfl 0 0 1 7 (by decide) ⟨fun _ => 100, .unknown, 0⟩ rfl code
    hcode _ hmem 64 32 rfl
  omega

end X8664
