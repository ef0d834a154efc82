import Path64.Arith.Coefficient
import Path64.Lib.Rounding
import Mathlib.Algebra.Order.Field.Power

/-! # Normalization and rounding of IEEE numbers

`ar_i32norm`, `ar_i64norm` and `ar_i128norm`: what comes out of an
operation is a coefficient with bits above it, three rounding bits below
it and an exponent, and is normalized, rounded and packed. The three are
one algorithm, with the bit fields of the formats. -/

namespace Ieee

open Nat Coeff Rounding

/-! ## Formats -/

/-- A format: the bit fields of its coefficient, the last one first, and its exponents. -/
structure Format where
  widths : List Nat
  expoBits : Nat
  coeffBits : Nat
  expoBias : Nat
  maxExpo : Nat
  widths_pos : ∀ w ∈ widths, 1 ≤ w
  sum_widths : widths.sum = coeffBits
  coeffBits_ge : 4 ≤ coeffBits
  maxExpo_eq : maxExpo = 2 * expoBias
  maxExpo_add : maxExpo + 2 = 2 ^ expoBits
  coeffBits_lt : coeffBits + 2 < expoBias

/-- `AR_IEEE_32`. -/
def ieee32 : Format where
  widths := [16, 7]
  expoBits := 8
  coeffBits := 23
  expoBias := 0o177
  maxExpo := 0o376
  widths_pos := by decide
  sum_widths := rfl
  coeffBits_ge := by decide
  maxExpo_eq := rfl
  maxExpo_add := rfl
  coeffBits_lt := by decide

/-- `AR_IEEE_64`. -/
def ieee64 : Format where
  widths := [16, 16, 16, 4]
  expoBits := 11
  coeffBits := 52
  expoBias := 0o1777
  maxExpo := 0o3776
  widths_pos := by decide
  sum_widths := rfl
  coeffBits_ge := by decide
  maxExpo_eq := rfl
  maxExpo_add := rfl
  coeffBits_lt := by decide

/-- `AR_IEEE_128`. -/
def ieee128 : Format where
  widths := [16, 16, 16, 16, 16, 16, 16]
  expoBits := 15
  coeffBits := 112
  expoBias := 0o37777
  maxExpo := 0o77776
  widths_pos := by decide
  sum_widths := rfl
  coeffBits_ge := by decide
  maxExpo_eq := rfl
  maxExpo_add := rfl
  coeffBits_lt := by decide

/-- A packed number. -/
structure Number (f : Format) where
  sign : Bool
  expo : BitVec f.expoBits
  coeff : Coeff f.widths

/-- The status bits. -/
structure Status where
  overflow : Bool := false
  underflow : Bool := false
  undefined : Bool := false
  inexact : Bool := false
  zero : Bool := false
  negative : Bool := false

inductive RoundMode
  | nearest
  | zero
  | plusInfinity
  | minusInfinity

inductive UnderflowMode
  | toDenorm
  | toPlusZero
  | toSignedZero
  | toSignedTiny
  deriving DecidableEq

/-- What the operations read of `ar_state_register`. -/
structure StateRegister where
  denormsTrap : Bool
  underflowMode : UnderflowMode

/-! ## The code -/

section code
variable {f : Format}

/-- The variables of the normalization. -/
structure Work (f : Format) where
  expo : Int
  lbits : Nat
  rbits : Nat
  coeff : Coeff f.widths

/-- One place to the left; the last rounding bit is sticky. -/
def Work.left (w : Work f) : Work f :=
  let r := w.coeff.shleft (w.rbits >>> 2)
  { expo := w.expo - 1
    lbits := r.2
    rbits := w.rbits <<< 1 &&& 7 ||| w.rbits &&& 1
    coeff := r.1 }

/-- One place to the right; the last rounding bit is sticky. -/
def Work.right (w : Work f) : Work f :=
  { expo := w.expo + 1
    lbits := w.lbits >>> 1
    rbits := w.rbits >>> 1 ||| w.rbits &&& 1 ||| (w.coeff.low w.lbits &&& 1) <<< 2
    coeff := w.coeff.shright w.lbits }

/-- `while (expo > 1 && !lbits)`, at most `fuel` times. -/
def Work.normalizeLeft : Nat → Work f → Work f
  | 0, w => w
  | fuel + 1, w => if w.expo > 1 ∧ w.lbits = 0 then normalizeLeft fuel w.left else w

/-- `while (lbits > 1 || expo < 0)`, at most `fuel` times. -/
def Work.normalizeRight : Nat → Work f → Work f
  | 0, w => w
  | fuel + 1, w => if w.lbits > 1 ∨ w.expo < 0 then normalizeRight fuel w.right else w

/-- The exponent of a denormalized number is 0, and that of another is not. -/
def Work.fixExpo (w : Work f) : Work f :=
  if w.expo = 1 ∧ w.lbits = 0 then { w with expo := 0 }
  else if w.expo = 0 ∧ w.lbits ≠ 0 then { w with expo := 1 }
  else w

/-- The rounding decision. -/
def Work.roundsUp (mode : RoundMode) (sign : Bool) (w : Work f) : Bool :=
  match mode with
  | .plusInfinity => (w.rbits == 0) != !sign
  | .minusInfinity => (w.rbits == 0) == !sign
  | .zero => false
  | .nearest => w.rbits >>> 2 != 0 && (w.rbits &&& 3 != 0 || w.coeff.low w.lbits &&& 1 != 0)

/-- Round up the coefficient. -/
def Work.roundUp (w : Work f) : Work f :=
  let r := w.coeff.inc 1
  { w with
    coeff := r.1
    lbits := w.lbits + r.2 }

/-- Shift right if necessary, after rounding. -/
def Work.renormalize (w : Work f) : Work f :=
  if w.lbits > 1 then
    { expo := w.expo + 1
      lbits := w.lbits >>> 1
      rbits := w.rbits >>> 1 ||| (w.coeff.low w.lbits &&& 1) <<< 2
      coeff := w.coeff.shright w.lbits }
  else if w.lbits ≠ 0 then
    if w.expo = 0 then { w with expo := 1 } else w
  else { w with expo := 0 }

/-- Test for out-of-range, inexact and unwanted denormalized results. -/
def Work.pack (st : StateRegister) (sign : Bool) (res : Status) (w : Work f) : Number f × Status :=
  let nonzero := w.lbits != 0 || w.coeff.isNonzero
  let expo := if nonzero then w.expo else 0
  let res := if nonzero then res else { res with zero := true, underflow := true }
  if expo > f.maxExpo then
    ({ sign := sign
       expo := BitVec.ofNat _ (f.maxExpo + 1)
       coeff := Coeff.zero f.widths }, { res with overflow := true })
  else
    let res := if w.rbits ≠ 0 then { res with inexact := true } else res
    if expo = 0 ∧ st.underflowMode ≠ .toDenorm ∧ w.coeff.isNonzero then
      ({ sign := if st.underflowMode = .toPlusZero then false else sign
         expo := if st.underflowMode = .toSignedTiny then BitVec.ofNat _ 1 else BitVec.ofNat _ 0
         coeff := Coeff.zero f.widths }, { res with zero := true, underflow := true })
    else
      ({ sign := sign
         expo := BitVec.ofInt _ expo
         coeff := w.coeff }, res)

/-- Normalize if necessary; shift right if carry. -/
def Work.normalize (w : Work f) : Work f :=
  let w := (w.normalizeLeft w.expo.toNat).fixExpo
  w.normalizeRight ((-w.expo).toNat + w.lbits)

/-- `ar_i32norm`, `ar_i64norm` and `ar_i128norm`. -/
def norm (st : StateRegister) (mode : RoundMode) (sign : Bool) (w : Work f) : Number f × Status :=
  let res : Status := { negative := sign }
  -- zero means zero
  if w.lbits = 0 ∧ w.coeff.isNonzero = false ∧ w.rbits = 0 then
    ({ sign := sign, expo := BitVec.ofNat _ 0, coeff := w.coeff }, { res with zero := true })
  else
    let w := w.normalize
    let w := if w.roundsUp mode sign then w.roundUp else w
    w.renormalize.pack st sign res

end code

/-! ## One step -/

variable {c n : Nat} {expo : Int} {q : ℚ}

section steps
variable {f : Format}

/-- All the bits of the normalization, the rounding bits the last three. -/
def Work.total (w : Work f) : Nat := 8 * (w.lbits * 2 ^ f.coeffBits + w.coeff.val) + w.rbits

theorem Format.widths_ne (f : Format) : f.widths ≠ [] := by
  intro h
  have hsum := f.sum_widths
  have hge := f.coeffBits_ge
  rw [h] at hsum
  simp only [List.sum_nil] at hsum
  omega

theorem coeff_lt (x : Coeff f.widths) : x.val < 2 ^ f.coeffBits := by
  have := val_lt x
  rwa [f.sum_widths] at this

theorem rbits_left : ∀ r < 8, (r <<< 1 &&& 7 ||| r &&& 1) + 8 * (r >>> 2) = 2 * r + r % 2 := by decide

theorem rbits_left_lt : ∀ r < 8, (r <<< 1 &&& 7 ||| r &&& 1) < 8 ∧ r >>> 2 ≤ 1 := by decide

theorem rbits_right : ∀ r < 8, ∀ b < 2,
    (r >>> 1 ||| r &&& 1 ||| b <<< 2) = jam (8 * b + r) ∧ jam (8 * b + r) < 8 := by decide

theorem jam_add (n r : Nat) : jam (16 * n + r) = 8 * n + jam r := by
  unfold jam
  rw [show (16 * n + r) % 4 = r % 4 by omega]
  split <;> omega

theorem Work.left_total {w : Work f} (hl : w.lbits = 0) (hr : w.rbits < 8) :
    w.left.total = 2 * w.total + w.total % 2 ∧ w.left.rbits < 8 ∧ w.left.lbits ≤ 1 := by
  obtain ⟨hlt, htop⟩ := rbits_left_lt w.rbits hr
  have hbits := rbits_left w.rbits hr
  obtain ⟨hval, hout⟩ := shleft_spec w.coeff (w.rbits >>> 2) f.widths_pos htop
  rw [f.sum_widths] at hval
  refine ⟨?_, hlt, hout⟩
  unfold Work.total Work.left
  simp only [hl]
  have : (w.coeff.shleft (w.rbits >>> 2)).2 * 2 ^ f.coeffBits
      = 2 ^ f.coeffBits * (w.coeff.shleft (w.rbits >>> 2)).2 := mul_comm _ _
  omega

theorem shright_value (x : Coeff f.widths) (lbits : Nat) :
    2 * (lbits >>> 1 * 2 ^ f.coeffBits + (x.shright lbits).val) + (x.low lbits &&& 1)
      = lbits * 2 ^ f.coeffBits + x.val := by
  have hval := shright_spec x lbits f.widths_pos
  rw [f.sum_widths] at hval
  have hsplit : lbits * 2 ^ f.coeffBits
      = 2 * (lbits >>> 1 * 2 ^ f.coeffBits) + 2 ^ f.coeffBits * (lbits % 2) := by
    rw [shiftRight_eq_div_pow, pow_one]
    calc lbits * 2 ^ f.coeffBits
        = (2 * (lbits / 2) + lbits % 2) * 2 ^ f.coeffBits := by rw [div_add_mod]
      _ = 2 * (lbits / 2 * 2 ^ f.coeffBits) + 2 ^ f.coeffBits * (lbits % 2) := by ring
  rw [and_one_is_mod]
  omega

theorem Work.right_total {w : Work f} (hr : w.rbits < 8) :
    w.right.total = jam w.total ∧ w.right.rbits < 8 := by
  have hb : (w.coeff.low w.lbits &&& 1) < 2 := by
    rw [and_one_is_mod]
    omega
  obtain ⟨hbits, hlt⟩ := rbits_right w.rbits hr _ hb
  have hval := shright_value w.coeff w.lbits
  refine ⟨?_, by simp only [Work.right, hbits]; exact hlt⟩
  have htotal : w.total = 16 * (w.lbits >>> 1 * 2 ^ f.coeffBits + (w.coeff.shright w.lbits).val) +
      (8 * (w.coeff.low w.lbits &&& 1) + w.rbits) := by
    unfold Work.total
    omega
  rw [htotal, jam_add]
  unfold Work.total Work.right
  simp only [hbits]

theorem Work.lbits_eq_zero_iff {w : Work f} (hr : w.rbits < 8) :
    w.lbits = 0 ↔ w.total < 8 * 2 ^ f.coeffBits := by
  have hlt := coeff_lt w.coeff
  unfold Work.total
  constructor
  · intro h
    rw [h]
    omega
  · intro h
    by_contra hne
    have : 1 * 2 ^ f.coeffBits ≤ w.lbits * 2 ^ f.coeffBits :=
      mul_le_mul_right _ (one_le_iff_ne_zero.mpr hne)
    omega

theorem Work.lbits_le_iff {w : Work f} (hr : w.rbits < 8) (k : Nat) :
    w.lbits ≤ k ↔ w.total < 8 * ((k + 1) * 2 ^ f.coeffBits) := by
  have hlt := coeff_lt w.coeff
  unfold Work.total
  constructor
  · intro h
    have := mul_le_mul_right (2 ^ f.coeffBits) h
    rw [add_mul]
    omega
  · intro h
    by_contra hgt
    have := mul_le_mul_right (2 ^ f.coeffBits) (show k + 1 ≤ w.lbits by omega)
    omega

theorem Work.total_eq_zero_iff {w : Work f} :
    (w.lbits = 0 ∧ w.coeff.isNonzero = false ∧ w.rbits = 0) ↔ w.total = 0 := by
  have hP := Nat.two_pow_pos f.coeffBits
  have hnz : w.coeff.isNonzero = false ↔ w.coeff.val = 0 := by
    rw [← Bool.not_eq_true, isNonzero_iff, not_not]
  have hmul : w.lbits * 2 ^ f.coeffBits = 0 ↔ w.lbits = 0 := by
    rw [mul_eq_zero]
    omega
  rw [hnz, ← hmul]
  unfold Work.total
  omega

theorem roundsUp_nearest {w : Work f} (sign : Bool) (hr : w.rbits < 8) :
    roundEighth w.total = w.lbits * 2 ^ f.coeffBits + w.coeff.val +
      (if w.roundsUp .nearest sign then 1 else 0) := by
  have hlow := low_parity w.coeff w.lbits f.widths_pos f.widths_ne
  have hP : 2 ^ f.coeffBits % 2 = 0 := by
    obtain ⟨d, hd⟩ : ∃ d, f.coeffBits = d + 1 := ⟨f.coeffBits - 1, by have := f.coeffBits_ge; omega⟩
    rw [hd, pow_succ]
    omega
  have hpar : (w.lbits * 2 ^ f.coeffBits + w.coeff.val) % 2 = w.coeff.low w.lbits % 2 := by
    rw [hlow, add_mod, mul_mod, hP]
    simp
  have hdecide : ∀ r < 8, ∀ b < 2,
      (r + 3 + b) / 8 = if (r >>> 2 != 0 && (r &&& 3 != 0 || b != 0)) = true then 1 else 0 := by decide
  have hb : w.coeff.low w.lbits &&& 1 < 2 := by
    rw [and_one_is_mod]
    omega
  have hcase := hdecide w.rbits hr _ hb
  unfold roundEighth Work.total Work.roundsUp
  rw [← hcase, and_one_is_mod, ← hpar]
  generalize w.lbits * 2 ^ f.coeffBits + w.coeff.val = m
  omega

end steps

/-! ## The loops -/

section loops
variable {f : Format}

/-- How often a number goes to the left. -/
def leftShifts (c : Nat) (expo : Int) (n : Nat) : Nat := min (expo - 1).toNat (c + 3 - Nat.log2 n)

theorem leftShifts_zero (hn : n ≠ 0)
    (h : ¬ (expo > 1 ∧ n < 8 * 2 ^ c)) : leftShifts c expo n = 0 := by
  unfold leftShifts
  by_cases hexpo : expo > 1
  · have hbig : 2 ^ (c + 3) ≤ n := by
      rw [pow_add]
      omega
    have := (le_log2 hn).mpr hbig
    omega
  · omega

theorem leftShifts_succ (hn : n ≠ 0) (hexpo : expo > 1)
    (hlt : n < 8 * 2 ^ c) : leftShifts c expo n = leftShifts c (expo - 1) (2 * n + n % 2) + 1 := by
  have hlog : Nat.log2 n < c + 3 := by
    rw [log2_lt hn, pow_add]
    omega
  have hdouble : Nat.log2 (2 * n + n % 2) = Nat.log2 n + 1 := by
    rw [log2_eq_iff (by omega)]
    have hlo := log2_self_le hn
    have hhi := lt_log2_self (n := n)
    rw [pow_succ] at hhi ⊢
    rw [pow_succ, pow_succ]
    omega
  unfold leftShifts
  rw [hdouble]
  omega

/-- The left shifts stop after `leftShifts` rounds, at the lead bit or at exponent 0; by induction
on the fuel. -/
theorem normalizeLeft_spec : ∀ (fuel : Nat) (w : Work f), w.expo.toNat ≤ fuel → w.rbits < 8 →
    w.total ≠ 0 → ∀ k, k = leftShifts f.coeffBits w.expo w.total →
    (w.normalizeLeft fuel).total = expand k w.total ∧ (w.normalizeLeft fuel).expo = w.expo - k ∧
      (w.normalizeLeft fuel).rbits < 8 ∧
      (k ≠ 0 → (w.normalizeLeft fuel).lbits ≤ 1 ∧ 1 ≤ (w.normalizeLeft fuel).expo) ∧
      (k = 0 → w.normalizeLeft fuel = w) ∧
      ((w.normalizeLeft fuel).expo ≤ 1 ∨ (w.normalizeLeft fuel).lbits ≠ 0) := by
  intro fuel
  induction fuel with
  | zero =>
    intro w hfuel hr hne k hk
    have hk0 : k = 0 := by
      rw [hk]
      exact leftShifts_zero hne fun h => by omega
    subst hk0
    simp only [Work.normalizeLeft]
    refine ⟨(expand_zero _).symm, by simp, hr, fun h => absurd rfl h, fun _ => trivial, .inl (by omega)⟩
  | succ fuel ih =>
    intro w hfuel hr hne k hk
    have hiff := Work.lbits_eq_zero_iff hr
    unfold Work.normalizeLeft
    by_cases hcond : w.expo > 1 ∧ w.lbits = 0
    · obtain ⟨hexpo, hl⟩ := hcond
      obtain ⟨htotal, hr', hl'⟩ := Work.left_total hl hr
      rw [if_pos ⟨hexpo, hl⟩]
      have hstep := leftShifts_succ hne hexpo (hiff.mp hl)
      rw [← hk] at hstep
      obtain ⟨h1, h2, h3, h4, h5, h6⟩ := ih w.left (by simp only [Work.left]; omega) hr' (by omega) _ rfl
      rw [htotal, show w.left.expo = w.expo - 1 from rfl] at h1 h2 h4 h5
      rw [hstep, expand_succ]
      refine ⟨h1, ?_, h3, fun _ => ?_, fun h => by omega, h6⟩
      · rw [h2]
        omega
      · by_cases hz : leftShifts f.coeffBits (w.expo - 1) (2 * w.total + w.total % 2) = 0
        · rw [h5 hz]
          refine ⟨hl', ?_⟩
          simp only [Work.left]
          omega
        · exact h4 hz
    · have hk0 : k = 0 := by
        rw [hk]
        refine leftShifts_zero hne fun h => hcond ⟨h.1, hiff.mpr h.2⟩
      subst hk0
      rw [if_neg hcond]
      refine ⟨(expand_zero _).symm, by simp, hr, fun h => absurd rfl h, fun _ => rfl, ?_⟩
      by_contra hno
      exact hcond ⟨by omega, by omega⟩

theorem normalizeRight_stop {w : Work f} (hl : w.lbits ≤ 1) (hexpo : 0 ≤ w.expo) (fuel : Nat) :
    w.normalizeRight fuel = w := by
  cases fuel with
  | zero => rfl
  | succ fuel =>
    unfold Work.normalizeRight
    rw [if_neg (by omega)]

theorem right_lbits (w : Work f) : w.right.lbits = w.lbits / 2 := by
  simp only [Work.right, shiftRight_eq_div_pow, pow_one]

theorem normalizeRight_step {w : Work f} (h : w.lbits > 1 ∨ w.expo < 0) (fuel : Nat) :
    w.normalizeRight (fuel + 1) = w.right.normalizeRight fuel := by
  rw [Work.normalizeRight, if_pos h]

theorem normalizeRight_neg : ∀ (d : Nat) (w : Work f) (fuel : Nat) {q : ℚ}, d ≤ fuel → w.expo = -d →
    w.lbits ≤ 1 → w.rbits < 8 → Sticky w.total q →
    (w.normalizeRight fuel).expo = 0 ∧ (w.normalizeRight fuel).lbits ≤ 1 ∧
      (w.normalizeRight fuel).rbits < 8 ∧ Sticky (w.normalizeRight fuel).total (q / 2 ^ d) := by
  intro d
  induction d with
  | zero =>
    intro w fuel q _ hexpo hl hr hq
    rw [normalizeRight_stop hl (by omega)]
    refine ⟨by simpa using hexpo, hl, hr, ?_⟩
    simpa using hq
  | succ d ih =>
    intro w fuel q hfuel hexpo hl hr hq
    obtain ⟨fuel, rfl⟩ : ∃ k, fuel = k + 1 := ⟨fuel - 1, by omega⟩
    obtain ⟨htotal, hr'⟩ := Work.right_total hr
    rw [normalizeRight_step (.inr (by omega))]
    have hq' : Sticky w.right.total (q / 2) := by
      rw [htotal]
      exact hq.jam
    obtain ⟨h1, h2, h3, h4⟩ := ih w.right fuel (q := q / 2) (by omega)
      (by simp only [Work.right]; omega) (by rw [right_lbits]; omega) hr' hq'
    refine ⟨h1, h2, h3, ?_⟩
    rw [pow_succ, mul_comm, ← div_div]
    exact h4

end loops

/-! ## Rounding and packing -/

section packing
variable {f : Format}

/-- The packed number without its sign: the number of its grid point. -/
def Number.mag (x : Number f) : Nat := x.expo.toNat * 2 ^ f.coeffBits + x.coeff.val

/-- The infinities. -/
def infMag (f : Format) : Nat := (f.maxExpo + 1) * 2 ^ f.coeffBits

/-- The binade of an exponent. -/
def binade (expo : Int) : Nat := (expo - 1).toNat

/-- The coefficient and the bits above it. -/
def Work.lead (w : Work f) : Nat := w.lbits * 2 ^ f.coeffBits + w.coeff.val

theorem roundUp_spec (w : Work f) : w.roundUp.lead = w.lead + 1 ∧ w.roundUp.expo = w.expo := by
  obtain ⟨hval, _⟩ := inc_spec w.coeff 1 (by omega)
  rw [f.sum_widths] at hval
  refine ⟨?_, rfl⟩
  unfold Work.lead Work.roundUp
  simp only [add_mul]
  have : (w.coeff.inc 1).2 * 2 ^ f.coeffBits = 2 ^ f.coeffBits * (w.coeff.inc 1).2 := mul_comm _ _
  omega

theorem rounded_lead {w : Work f} (sign : Bool) (hr : w.rbits < 8) :
    (if w.roundsUp .nearest sign then w.roundUp else w).lead = roundEighth w.total ∧
      (if w.roundsUp .nearest sign then w.roundUp else w).expo = w.expo := by
  have hround := roundsUp_nearest sign hr
  obtain ⟨hlead, hexpo⟩ := roundUp_spec w
  rw [hround]
  by_cases hup : w.roundsUp .nearest sign = true
  · rw [if_pos hup, if_pos hup]
    exact ⟨hlead, hexpo⟩
  · rw [if_neg hup, if_neg hup]
    exact ⟨rfl, rfl⟩

theorem pack_finite (st : StateRegister) (hst : st.underflowMode = .toDenorm) (sign : Bool)
    (res : Status) (w : Work f) (hexpo : 0 ≤ w.expo) (hmax : w.expo ≤ f.maxExpo)
    (hnz : (w.lbits != 0 || w.coeff.isNonzero) = false → w.expo = 0) :
    (w.pack st sign res).1.sign = sign ∧
      (w.pack st sign res).1.mag = w.expo.toNat * 2 ^ f.coeffBits + w.coeff.val := by
  have hmaxlt := f.maxExpo_add
  have hbits : (BitVec.ofInt f.expoBits w.expo).toNat = w.expo.toNat := by
    rw [BitVec.toNat_ofInt, Int.emod_eq_of_lt hexpo]
    have : (w.expo : ℤ) < ((2 ^ f.expoBits : ℕ) : ℤ) := by omega
    exact this
  unfold Work.pack
  cases hcase : (w.lbits != 0 || w.coeff.isNonzero) with
  | true =>
    simp only [if_true]
    rw [if_neg (by omega), if_neg (by rw [hst]; simp)]
    refine ⟨rfl, ?_⟩
    unfold Number.mag
    simp only [hbits]
  | false =>
    simp only [Bool.false_eq_true, if_false]
    rw [if_neg (by omega), if_neg (by rw [hst]; simp)]
    refine ⟨rfl, ?_⟩
    unfold Number.mag
    rw [hnz hcase] at hbits ⊢
    simp only [hbits]

theorem pack_infinite (st : StateRegister) (sign : Bool) (res : Status) (w : Work f)
    (hexpo : f.maxExpo < w.expo) (hl : w.lbits ≠ 0) :
    (w.pack st sign res).1.sign = sign ∧ (w.pack st sign res).1.mag = infMag f := by
  have hmaxlt : f.maxExpo + 1 < 2 ^ f.expoBits := by
    have := f.maxExpo_add
    omega
  unfold Work.pack
  have hcase : (w.lbits != 0 || w.coeff.isNonzero) = true := by simp [hl]
  simp only [hcase, if_true]
  rw [if_pos (by omega)]
  refine ⟨rfl, ?_⟩
  unfold Number.mag infMag
  simp only [BitVec.toNat_ofNat, val_zero, mod_eq_of_lt hmaxlt, add_zero]

/-- A rounding that carries over is shifted once more; what is packed is then the number asked for,
or an overflow. -/
theorem renormalize_pack_spec (st : StateRegister) (hst : st.underflowMode = .toDenorm) (sign : Bool)
    (res : Status) (w : Work f) (hexpo : 0 ≤ w.expo)
    (hlo : binade w.expo = 0 ∨ 2 ^ f.coeffBits ≤ w.lead) (hhi : w.lead ≤ 2 * 2 ^ f.coeffBits)
    (hdenorm : w.expo = 0 → w.lead < 2 * 2 ^ f.coeffBits) :
    (w.renormalize.pack st sign res).1.sign = sign ∧ (w.renormalize.pack st sign res).1.mag
        = min (binade w.expo * 2 ^ f.coeffBits + w.lead) (infMag f) := by
  have hP := Nat.two_pow_pos f.coeffBits
  have hlt := coeff_lt w.coeff
  have hpow : ∀ a b : Nat, a < b → a * 2 ^ f.coeffBits + 2 ^ f.coeffBits ≤ b * 2 ^ f.coeffBits :=
    fun a b h => by
      have := mul_le_mul_right (2 ^ f.coeffBits) h
      rw [succ_mul] at this
      exact this
  unfold binade at *
  -- packing of a normal number
  have hnormal : ∀ v : Work f, 0 < v.expo → v.lbits ≠ 0 → (v.pack st sign res).1.sign = sign ∧
        (v.pack st sign res).1.mag
          = min (v.expo.toNat * 2 ^ f.coeffBits + v.coeff.val) (infMag f) := by
    intro v hv hl
    have hvlt := coeff_lt v.coeff
    by_cases hmax : v.expo ≤ f.maxExpo
    · obtain ⟨h1, h2⟩ := pack_finite st hst sign res v (by omega) hmax (by simp [hl])
      refine ⟨h1, ?_⟩
      have := hpow v.expo.toNat (f.maxExpo + 1) (by omega)
      rw [h2, min_eq_left (by unfold infMag; omega)]
    · obtain ⟨h1, h2⟩ := pack_infinite st sign res v (by omega) hl
      refine ⟨h1, ?_⟩
      have hge := mul_le_mul_right (2 ^ f.coeffBits) (show f.maxExpo + 1 ≤ v.expo.toNat by omega)
      rw [h2, min_eq_right (by unfold infMag; omega)]
  have hl : w.lbits = 0 ∨ w.lbits = 1 ∨ w.lbits = 2 := by
    by_contra h
    have := mul_le_mul_right (2 ^ f.coeffBits) (show 3 ≤ w.lbits by omega)
    unfold Work.lead at hhi
    omega
  unfold Work.lead at *
  rcases hl with hl | hl | hl
  · -- a denormalized number
    rw [hl] at hlo hhi ⊢
    have he : (w.expo - 1).toNat = 0 := by omega
    have hfin := pack_finite st hst sign res { w with expo := 0 } (le_refl _)
      (Int.natCast_nonneg _) (fun _ => rfl)
    have hw : w.renormalize = { w with expo := 0 } := by
      unfold Work.renormalize
      rw [if_neg (by omega), if_neg (by omega)]
    have hinf := hpow 0 (f.maxExpo + 1) (by omega)
    rw [hw]
    refine ⟨hfin.1, ?_⟩
    rw [hfin.2, he, min_eq_left (by unfold infMag; omega)]
    simp
  · rw [hl, one_mul] at hlo hhi ⊢
    have hw : w.renormalize = { w with expo := if w.expo = 0 then 1 else w.expo } := by
      unfold Work.renormalize
      rw [if_neg (by omega), if_pos (by omega)]
      by_cases h0 : w.expo = 0
      · rw [if_pos h0, if_pos h0]
      · rw [if_neg h0, if_neg h0]
    rw [hw]
    obtain ⟨h1, h2⟩ := hnormal { w with expo := if w.expo = 0 then 1 else w.expo }
      (by simp only; split <;> omega) (by simp only; omega)
    refine ⟨h1, ?_⟩
    rw [h2]
    congr 1
    simp only
    have he : (if w.expo = 0 then 1 else w.expo).toNat = (w.expo - 1).toNat + 1 := by
      split <;> omega
    rw [he, succ_mul]
    omega
  · -- rounding has carried
    rw [hl] at hlo hhi hdenorm ⊢
    have hshift := shright_value w.coeff 2
    rw [show 2 >>> 1 = 1 from rfl] at hshift
    have hw : w.renormalize.expo = w.expo + 1 ∧ w.renormalize.lbits = 1 ∧
        w.renormalize.coeff = w.coeff.shright 2 := by
      unfold Work.renormalize
      rw [if_pos (by omega), hl]
      exact ⟨rfl, rfl, rfl⟩
    obtain ⟨h1, h2⟩ := hnormal w.renormalize (by omega) (by omega)
    refine ⟨h1, ?_⟩
    rw [h2, hw.1, hw.2.2]
    congr 1
    have he : (w.expo + 1).toNat = (w.expo - 1).toNat + 2 := by omega
    rw [he, add_mul]
    omega

end packing

/-! ## Normalization is rounding -/

section normalization
variable {f : Format}

/-- What one is worth in units of the smallest number; exponents below 0 count on from there. -/
def scale (expo : Int) : ℚ := 2 ^ (if 0 < expo then expo - 1 else expo)

theorem scale_pos (expo : Int) : 0 < scale expo := by
  unfold scale
  positivity

theorem scale_eq (h : 0 ≤ expo) : scale expo = 2 ^ binade expo := by
  unfold scale binade
  rw [← zpow_natCast]
  congr 1
  split <;> omega

theorem fixExpo_spec (w : Work f) : w.fixExpo.total = w.total ∧ w.fixExpo.lbits = w.lbits ∧
    w.fixExpo.rbits = w.rbits := by
  unfold Work.fixExpo
  split
  · exact ⟨rfl, rfl, rfl⟩
  · split <;> exact ⟨rfl, rfl, rfl⟩

/-- A normalized number whose bits decide as `q` does. -/
structure Ready (w : Work f) (q : ℚ) : Prop where
  rbits_lt : w.rbits < 8
  expo_nonneg : 0 ≤ w.expo
  nearest : NearestEven (roundEighth w.total) (q / 8)
  lo : binade w.expo = 0 ∨ 8 * ((2 ^ f.coeffBits : ℕ) : ℚ) ≤ q
  hi : q ≤ 16 * ((2 ^ f.coeffBits : ℕ) : ℚ)
  denorm : w.expo = 0 → q < 8 * (2 * ((2 ^ f.coeffBits : ℕ) : ℚ) - 1)

/-- Rounding and packing of a coefficient that is ready: the number nearest to the exact value. -/
theorem finish_spec (st : StateRegister) (hst : st.underflowMode = .toDenorm) (sign : Bool)
    (res : Status) (w : Work f) (hready : Ready w q) :
    let v := (if w.roundsUp .nearest sign then w.roundUp else w).renormalize.pack st sign res
    v.1.sign = sign ∧
      ∃ n, RoundsTo f.coeffBits (q / 8 * scale w.expo) n ∧ v.1.mag = min n (infMag f) := by
  obtain ⟨hr, hexpo, hnear, hlo, hhi, hdenorm⟩ := hready
  intro v
  have hc := f.coeffBits_ge
  have hge := hnear.ge
  have hle := hnear.le
  obtain ⟨hlead, hexpo'⟩ := rounded_lead sign hr
  have hlo' : binade w.expo = 0 ∨ 2 ^ f.coeffBits ≤ roundEighth w.total := by
    refine hlo.imp id fun h => ?_
    have : (2 * (2 ^ f.coeffBits : ℕ) : ℚ) ≤ 2 * roundEighth w.total + 1 := by linarith
    have : 2 * 2 ^ f.coeffBits ≤ 2 * roundEighth w.total + 1 := by exact_mod_cast this
    omega
  have hhi' : roundEighth w.total ≤ 2 * 2 ^ f.coeffBits := by
    have : (2 * roundEighth w.total : ℚ) ≤ 2 * (2 * (2 ^ f.coeffBits : ℕ)) + 1 := by linarith
    have : 2 * roundEighth w.total ≤ 2 * (2 * 2 ^ f.coeffBits) + 1 := by exact_mod_cast this
    omega
  have hdenorm' : w.expo = 0 → roundEighth w.total < 2 * 2 ^ f.coeffBits := by
    intro h
    have := hdenorm h
    have : (2 * roundEighth w.total + 1 : ℚ) < 2 * (2 * (2 ^ f.coeffBits : ℕ)) := by linarith
    have : 2 * roundEighth w.total + 1 < 2 * (2 * 2 ^ f.coeffBits) := by exact_mod_cast this
    omega
  obtain ⟨hsign, hmag⟩ := renormalize_pack_spec st hst sign res
    (if w.roundsUp .nearest sign then w.roundUp else w) (by rw [hexpo']; exact hexpo)
    (by rw [hexpo', hlead]; exact hlo') (by rw [hlead]; exact hhi') (by rw [hexpo', hlead]; exact hdenorm')
  rw [hexpo', hlead] at hmag
  refine ⟨hsign, _, ?_, hmag⟩
  rw [scale_eq hexpo]
  refine roundsTo_of_nearest (by omega) hnear (hlo.imp id fun h => ?_) ?_
  · linarith
  · push_cast
    push_cast at hhi
    linarith

/-- A coefficient that is shifted to the left still stands for the exact value when it is ready to
be rounded. -/
theorem norm_left (w : Work f) (hr : w.rbits < 8) (hne : w.total ≠ 0)
    (hk : leftShifts f.coeffBits w.expo w.total ≠ 0)
    (hq : Stands (leftShifts f.coeffBits w.expo w.total) w.total q) :
    ∃ q', Ready w.normalize q' ∧ q / 8 * scale w.expo = q' / 8 * scale w.normalize.expo := by
  obtain ⟨htotal, hexpo, hr1, hleft, _, hstop⟩ := normalizeLeft_spec w.expo.toNat w (le_refl _) hr hne _ rfl
  obtain ⟨hl1, hexpo1⟩ := hleft hk
  have hr1' := Work.lbits_eq_zero_iff hr1
  have hle1 := (Work.lbits_le_iff hr1 1).mp hl1
  generalize hkdef : leftShifts f.coeffBits w.expo w.total = k at *
  generalize hu : w.normalizeLeft w.expo.toNat = u at *
  obtain ⟨hft, hfl, hfr⟩ := fixExpo_spec u
  -- a denormal has exponent 0, any other number its lead bit
  have hfixed : (u.fixExpo.expo = 0 ∧ u.expo = 1 ∧ u.lbits = 0) ∨
      (u.fixExpo.expo = u.expo ∧ u.lbits ≠ 0) := by
    unfold Work.fixExpo
    by_cases h : u.expo = 1 ∧ u.lbits = 0
    · rw [if_pos h]
      exact .inl ⟨rfl, h⟩
    · rw [if_neg h, if_neg (by omega)]
      exact .inr ⟨rfl, by omega⟩
  have hP := Nat.two_pow_pos f.coeffBits
  have hcoeff : (4 : ℚ) ≤ (2 ^ f.coeffBits : ℕ) := by
    have hc := f.coeffBits_ge
    exact_mod_cast (show 4 ≤ 2 ^ f.coeffBits from
      le_trans (by decide : 4 ≤ 2 ^ 4) (Nat.pow_le_pow_right (by decide) hc))
  have hnorm : w.normalize = u.fixExpo := by
    unfold Work.normalize
    rw [hu]
    exact normalizeRight_stop (by omega) (by omega) _
  rw [hnorm]
  refine ⟨q * 2 ^ k, ⟨by omega, by omega, ?_, ?_, ?_, fun h => ?_⟩, ?_⟩
  · -- the kept bits and the exact value are shifted alike
    rw [hft, htotal]
    exact nearest_of_expand (by omega) hq
  · rcases hfixed with ⟨h, _, _⟩ | ⟨h, hl⟩
    · left
      rw [h]
      rfl
    · right
      have hge : 4 * (2 * 2 ^ f.coeffBits) ≤ expand k w.total := by
        have : ¬ u.total < 8 * 2 ^ f.coeffBits := fun hlt => hl (hr1'.mpr hlt)
        omega
      have := hq.ge (by omega) hge
      push_cast at this ⊢
      linarith
  · have hlt : expand k w.total < 4 * (4 * 2 ^ f.coeffBits) := by omega
    have := hq.le (by omega) hlt
    push_cast at this ⊢
    linarith
  · rcases hfixed with ⟨_, _, hl⟩ | ⟨h', _⟩
    · have hlt : expand k w.total < 4 * (2 * 2 ^ f.coeffBits) := by
        have := hr1'.mp hl
        omega
      have := hq.le (by omega) hlt
      push_cast at this hcoeff ⊢
      linarith
    · omega
  · have hbin : binade u.fixExpo.expo + k = binade w.expo := by
      unfold binade
      have : 0 < k := by omega
      rcases hfixed with ⟨h, h', _⟩ | ⟨h, _⟩ <;> omega
    rw [scale_eq (by omega : 0 ≤ w.expo), scale_eq (by omega : 0 ≤ u.fixExpo.expo), ← hbin, pow_add]
    ring

/-- One that is not: shifted to the right on a carry or into the denormals, its last bit stays
sticky. -/
theorem norm_right (w : Work f) (hr : w.rbits < 8) (hne : w.total ≠ 0) (hl : w.lbits ≤ 3)
    (hneg : w.expo < 0 → w.total < 8 * (4 * 2 ^ f.coeffBits - 2))
    (hk : leftShifts f.coeffBits w.expo w.total = 0) (hq : Sticky w.total q) :
    ∃ q', Ready w.normalize q' ∧ q / 8 * scale w.expo = q' / 8 * scale w.normalize.expo := by
  obtain ⟨_, _, _, _, hsame, hstop⟩ := normalizeLeft_spec w.expo.toNat w (le_refl _) hr hne _ rfl
  have hu := hsame hk
  rw [hu] at hstop
  have hP := Nat.two_pow_pos f.coeffBits
  have hcoeff : (4 : ℚ) ≤ (2 ^ f.coeffBits : ℕ) := by
    have hc := f.coeffBits_ge
    exact_mod_cast (show 4 ≤ 2 ^ f.coeffBits from
      le_trans (by decide : 4 ≤ 2 ^ 4) (Nat.pow_le_pow_right (by decide) hc))
  rcases lt_or_ge w.expo 0 with hexpo | hexpo
  · -- to the exponent 0, by at least one place
    have hfix : w.fixExpo = w := by
      unfold Work.fixExpo
      rw [if_neg (by omega), if_neg (by omega)]
    obtain ⟨d, hd⟩ : ∃ d : Nat, w.expo = -(d + 1 : Nat) := ⟨(-w.expo).toNat - 1, by omega⟩
    obtain ⟨htotal, hr'⟩ := Work.right_total hr
    have hnorm : w.normalize = w.right.normalizeRight (d + w.lbits) := by
      unfold Work.normalize
      simp only [hu, hfix]
      rw [show (-w.expo).toNat + w.lbits = d + w.lbits + 1 by omega]
      exact normalizeRight_step (.inr hexpo) _
    have hq' : Sticky w.right.total (q / 2) := by
      rw [htotal]
      exact hq.jam
    obtain ⟨h₁, h2, h3, h4⟩ := normalizeRight_neg d w.right (d + w.lbits) (by omega)
      (by simp only [Work.right]; omega) (by rw [right_lbits]; omega) hr' hq'
    rw [← hnorm] at h₁ h2 h3 h4
    have hle := (Work.lbits_le_iff h3 1).mp h2
    have hscale : q / 8 * scale w.expo = q / 2 / 2 ^ d / 8 * scale w.normalize.expo := by
      rw [h₁, scale_eq (le_refl 0)]
      unfold scale
      rw [if_neg (by omega), hd, zpow_neg, zpow_natCast, show binade 0 = 0 from rfl, pow_succ]
      ring
    refine ⟨_, ⟨h3, by omega, nearest_of_sticky h4, ?_, ?_, fun _ => ?_⟩, hscale⟩
    · left
      rw [h₁]
      rfl
    · have := h4.lt (k := 8 * 2 ^ f.coeffBits) (by omega)
      push_cast at this ⊢
      linarith
    · have hq0 := hq.nonneg
      have hlt := hq.lt (k := 4 * (4 * 2 ^ f.coeffBits - 2)) (by have := hneg hexpo; omega)
      rw [cast_mul, cast_sub (by omega)] at hlt
      push_cast at hlt ⊢
      have hpow : (1 : ℚ) ≤ 2 ^ d := one_le_pow₀ (by norm_num)
      have : q / 2 / 2 ^ d ≤ q / 2 := div_le_self (by linarith) hpow
      linarith
  · obtain ⟨hft, hfl, hfr⟩ := fixExpo_spec w
    have hlt := Work.lbits_eq_zero_iff hr
    have hle := Work.lbits_le_iff hr 1
    have hle3 := (Work.lbits_le_iff hr 3).mp hl
    have hnorm : w.normalize = w.fixExpo.normalizeRight ((-w.fixExpo.expo).toNat + w.fixExpo.lbits) := by
      unfold Work.normalize
      simp only [hu]
    by_cases hl0 : w.lbits = 0
    · -- a denormalized number
      have hfe : w.fixExpo.expo = 0 := by
        unfold Work.fixExpo
        by_cases h1 : w.expo = 1
        · rw [if_pos ⟨h1, hl0⟩]
        · rw [if_neg (by omega), if_neg (by omega)]
          omega
      rw [normalizeRight_stop (by omega) (by omega)] at hnorm
      have hlt' := hq.lt (k := 4 * 2 ^ f.coeffBits) (by have := hlt.mp hl0; omega)
      push_cast at hlt' hcoeff
      rw [hnorm]
      refine ⟨q, ⟨by omega, by omega, ?_, .inl (by rw [hfe]; rfl), ?_, fun _ => ?_⟩, ?_⟩
      · rw [hft]
        exact nearest_of_sticky hq
      · push_cast
        linarith
      · push_cast
        linarith
      · rw [hfe, scale_eq hexpo, scale_eq (le_refl 0), show binade w.expo = 0 by unfold binade; omega]
        rfl
    · have hfe : 1 ≤ w.fixExpo.expo ∧ binade w.fixExpo.expo = binade w.expo := by
        unfold Work.fixExpo binade
        rw [if_neg (by omega)]
        by_cases h0 : w.expo = 0
        · rw [if_pos ⟨h0, hl0⟩]
          dsimp only
          omega
        · rw [if_neg (by omega)]
          omega
      have hge : 8 * 2 ^ f.coeffBits ≤ w.total := by
        by_contra h
        exact hl0 (hlt.mpr (by omega))
      by_cases hl1 : w.lbits ≤ 1
      · rw [normalizeRight_stop (by omega) (by omega)] at hnorm
        have hge' := hq.ge (k := 4 * 2 ^ f.coeffBits) (by omega)
        have hlt' := hq.lt (k := 8 * 2 ^ f.coeffBits) (by have := hle.mp hl1; omega)
        rw [hnorm]
        refine ⟨q, ⟨by omega, by omega, ?_, .inr ?_, ?_, fun h => by omega⟩, ?_⟩
        · rw [hft]
          exact nearest_of_sticky hq
        · push_cast at hge' ⊢
          linarith
        · push_cast at hlt' ⊢
          linarith
        · rw [scale_eq hexpo, scale_eq (by omega), hfe.2]
      · -- one place to the right
        have hge2 : 16 * 2 ^ f.coeffBits ≤ w.total := by
          by_contra h
          exact hl1 (hle.mpr (by omega))
        obtain ⟨htotal, hr'⟩ := Work.right_total (w := w.fixExpo) (by omega)
        rw [show (-w.fixExpo.expo).toNat + w.fixExpo.lbits = w.fixExpo.lbits - 1 + 1 by omega,
          normalizeRight_step (.inl (by omega)),
          normalizeRight_stop (by rw [right_lbits]; omega) (by simp only [Work.right]; omega)] at hnorm
        have hge' := hq.ge (k := 8 * 2 ^ f.coeffBits) (by omega)
        have hlt' := hq.lt (k := 16 * 2 ^ f.coeffBits) (by omega)
        have hre : w.fixExpo.right.expo = w.fixExpo.expo + 1 := rfl
        rw [hnorm]
        refine ⟨q / 2, ⟨hr', by omega, ?_, .inr ?_, ?_, fun h => by omega⟩, ?_⟩
        · rw [htotal, hft]
          exact nearest_of_sticky hq.jam
        · push_cast at hge' ⊢
          linarith
        · push_cast at hlt' ⊢
          linarith
        · have hbin : binade w.fixExpo.right.expo = binade w.expo + 1 := by
            rw [hre, ← hfe.2]
            unfold binade
            omega
          rw [scale_eq hexpo, scale_eq (by omega), hbin, pow_succ]
          ring

/-- `norm` rounds the exact value its operand stands for; by the direction of the normalising
shift. -/
theorem norm_spec (st : StateRegister) (hst : st.underflowMode = .toDenorm) (sign : Bool) (w : Work f)
    (hr : w.rbits < 8) (hl : w.lbits ≤ 3)
    (hneg : w.expo < 0 → w.total < 8 * (4 * 2 ^ f.coeffBits - 2))
    (hq : Stands (leftShifts f.coeffBits w.expo w.total) w.total q) :
    (norm st .nearest sign w).1.sign = sign ∧ ∃ n, RoundsTo f.coeffBits (q / 8 * scale w.expo) n ∧
        (norm st .nearest sign w).1.mag = min n (infMag f) := by
  have hP := Nat.two_pow_pos f.coeffBits
  have hc := f.coeffBits_ge
  unfold norm
  by_cases hz : w.total = 0
  · rw [if_pos (Work.total_eq_zero_iff.mpr hz)]
    refine ⟨rfl, 0, ?_, ?_⟩
    · have hq0 : q = 0 := by
        unfold Stands at hq
        rw [hz, if_pos (.inr rfl)] at hq
        simpa using hq.1 rfl
      rw [hq0]
      simpa using roundsTo_zero (show 1 ≤ f.coeffBits by omega)
    · have hv : w.coeff.val = 0 := by
        unfold Work.total at hz
        omega
      simp [Number.mag, hv]
  · rw [if_neg fun h => hz (Work.total_eq_zero_iff.mp h)]
    have hnorm : ∃ q', Ready w.normalize q' ∧
        q / 8 * scale w.expo = q' / 8 * scale w.normalize.expo := by
      by_cases hk : leftShifts f.coeffBits w.expo w.total = 0
      · refine norm_right w hr hz hl hneg hk ?_
        unfold Stands at hq
        rwa [hk, if_pos (.inl (by omega))] at hq
      · exact norm_left w hr hz hk hq
    obtain ⟨q', hready, hscale⟩ := hnorm
    rw [hscale]
    exact finish_spec st hst sign _ _ hready

end normalization

/-! ## Values -/

section values
variable {f : Format}

/-- `IS_IEEE_NaN`. -/
def Number.isNaN (x : Number f) : Bool := x.expo.toNat > f.maxExpo && x.coeff.isNonzero

def Number.isInf (x : Number f) : Bool := x.expo.toNat > f.maxExpo && !x.coeff.isNonzero

def Number.isFinite (x : Number f) : Bool := x.expo.toNat ≤ f.maxExpo

/-- `QNaNIEEE`. -/
def quietNaN (f : Format) : Number f :=
  { sign := false
    expo := BitVec.ofNat _ (f.maxExpo + 1)
    coeff := (Coeff.zero f.widths).not }

/-- The implicit normalization bit, `!!expo`. -/
def Number.hidden (x : Number f) : Nat := if x.expo.toNat = 0 then 0 else 1

/-- The coefficient with the implicit bit. -/
def Number.significand (x : Number f) : Nat := x.hidden * 2 ^ f.coeffBits + x.coeff.val

/-- A denormalized number has the exponent of the smallest normal ones. -/
def Number.exponent (x : Number f) : Nat := max x.expo.toNat 1

/-- The value of a finite number. -/
def Number.value (x : Number f) : ℚ :=
  (if x.sign then -1 else 1) *
    (x.significand * 2 ^ ((x.exponent : ℤ) - f.expoBias - f.coeffBits))

/-- The smallest positive number. -/
def unit (f : Format) : ℚ := 2 ^ (1 - (f.expoBias : ℤ) - f.coeffBits)

/-- `x` is `q` rounded once to nearest, or the infinity if that is out of range. -/
structure Rounded (q : ℚ) (x : Number f) : Prop where
  neg : q < 0 → x.sign = true
  pos : 0 < q → x.sign = false
  mag : ∃ n, RoundsTo f.coeffBits (|q| / unit f) n ∧ x.mag = min n (infMag f)

theorem unit_pos (f : Format) : 0 < unit f := by
  unfold unit
  positivity

theorem value_eq (x : Number f) : x.value =
    (if x.sign then -1 else 1) * (x.significand * 2 ^ (x.exponent - 1)) * unit f := by
  have hexp : (2 : ℚ) ^ ((x.exponent : ℤ) - f.expoBias - f.coeffBits)
      = 2 ^ (x.exponent - 1) * unit f := by
    unfold unit
    rw [← zpow_natCast, ← zpow_add₀ (by norm_num)]
    congr 1
    have : 1 ≤ x.exponent := le_max_right _ _
    omega
  unfold Number.value
  rw [hexp]
  ring

theorem significand_lt (x : Number f) : x.significand < 2 * 2 ^ f.coeffBits := by
  have hlt := coeff_lt x.coeff
  unfold Number.significand Number.hidden
  split <;> omega

theorem significand_ge {x : Number f} (h : x.expo.toNat ≠ 0) : 2 ^ f.coeffBits ≤ x.significand := by
  unfold Number.significand Number.hidden
  rw [if_neg h]
  omega

theorem expo_le (x : Number f) : x.expo.toNat ≤ f.maxExpo + 1 := by
  have hbits := x.expo.isLt
  have := f.maxExpo_add
  omega

theorem isNaN_iff (x : Number f) : x.isNaN = true ↔ infMag f < x.mag := by
  have hlt := coeff_lt x.coeff
  have hle := expo_le x
  unfold Number.isNaN
  rw [Bool.and_eq_true, decide_eq_true_eq, isNonzero_iff]
  unfold Number.mag infMag
  constructor
  · rintro ⟨h1, h2⟩
    rw [show x.expo.toNat = f.maxExpo + 1 by omega]
    omega
  · intro h
    have h1 : f.maxExpo < x.expo.toNat := by
      by_contra hle'
      have := mul_le_mul_right (2 ^ f.coeffBits) (show x.expo.toNat + 1 ≤ f.maxExpo + 1 by omega)
      rw [succ_mul] at this
      omega
    refine ⟨h1, fun h0 => ?_⟩
    rw [show x.expo.toNat = f.maxExpo + 1 by omega, h0] at h
    omega

theorem Rounded.not_nan {x : Number f} (h : Rounded q x) : x.isNaN = false := by
  obtain ⟨n, _, hmag⟩ := h.mag
  rw [← Bool.not_eq_true, isNaN_iff, hmag]
  omega

end values

end Ieee
