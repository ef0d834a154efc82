import Mathlib.Tactic.FieldSimp
import Mathlib.Tactic.LinearCombination
import Path64.Arith.IeeeNorm

/-! # Addition and subtraction of IEEE numbers

`ar_ifadd32`, `ar_ifadd64` and `ar_ifadd128`, and the subtractions. The
coefficient of the smaller operand is shifted to the right, with three
rounding bits below it; if the signs differ, the sum is formed in ones'
complement. -/

namespace Ieee

open Bool Nat Coeff Rounding

/-! ## The code -/

section code
variable {f : Format}

/-- A packed number with its implicit normalization bit. -/
def Number.unpack (x : Number f) : Work f :=
  { expo := x.expo.toNat
    lbits := x.hidden
    rbits := 0
    coeff := x.coeff }

/-- Shift the second argument down, with sticky rounding bits. -/
def Work.align : Nat → Work f → Work f
  | 0, y => y
  | shift + 1, y =>
    align shift
      { expo := y.expo
        lbits := 0
        rbits := y.rbits &&& 1 ||| y.rbits >>> 1 ||| (y.coeff.low y.lbits &&& 1) <<< 2
        coeff := y.coeff.shright y.lbits }

/-- The sum of the coefficients; if signs differ, the first one is complemented. -/
def sumCoeffs (diffsign : Bool) (x y : Work f) : Work f :=
  let lbits := if diffsign then x.lbits ^^^ 3 else x.lbits
  let coeff := if diffsign then x.coeff.not else x.coeff
  let rbits := if diffsign then y.rbits + 7 else y.rbits
  let carry := if diffsign then rbits >>> 3 else 0
  let r := coeff.add y.coeff carry
  { expo := x.expo
    lbits := (r.2 + lbits + y.lbits) &&& 3
    rbits := if diffsign then rbits &&& 7 else rbits
    coeff := r.1 }

/-- Opposite signs: complement, or end-around carry. -/
def Work.uncomplement (sign : Bool) (w : Work f) : Bool × Work f :=
  if w.lbits &&& 2 ≠ 0 then
    (sign,
      { w with
        lbits := w.lbits ^^^ 3
        rbits := w.rbits ^^^ 7
        coeff := w.coeff.not })
  else
    let carry := 1 + w.rbits
    let r := w.coeff.inc (carry >>> 3)
    (!sign,
      { w with
        lbits := (r.2 + w.lbits) &&& 3
        rbits := carry &&& 7
        coeff := r.1 })

/-- Shift rightward if carry, or if undenormalized. -/
def Work.carryRight (w : Work f) : Work f :=
  if w.lbits &&& 2 ≠ 0 ∨ (w.lbits ≠ 0 ∧ w.expo = 0) then
    { w.right with expo := if w.expo ≠ 0 then w.expo + 1 else 2 }
  else w

/-- The sum of two finite numbers, the first one with the larger exponent. -/
def addFinite (st : StateRegister) (mode : RoundMode) (x y : Number f) : Number f × Status :=
  let shift := (x.expo.toNat - x.hidden) - (y.expo.toNat - y.hidden)
  let far := shift > f.coeffBits + 3
  let ySign := if far then false else y.sign
  let yWork :=
    if far then
      { expo := 0
        lbits := 0
        rbits := if y.coeff.isNonzero then 1 else 0
        coeff := Coeff.zero f.widths }
    else y.unpack.align shift
  let diffsign := x.sign ^^ ySign
  let sum := sumCoeffs diffsign x.unpack yWork
  let r := if diffsign then sum.uncomplement x.sign else (x.sign, sum)
  let w := r.2.carryRight
  -- a zero result is a special case
  if w.lbits = 0 ∧ w.coeff.isNonzero = false ∧ w.rbits = 0 then
    -- -0 + -0 == -0
    let sign := r.1 && !diffsign
    ({ sign := sign
       expo := BitVec.ofNat _ 0
       coeff := w.coeff }, { zero := true, negative := sign })
  else norm st mode r.1 w

/-- `ar_ifadd32`, `ar_ifadd64` and `ar_ifadd128`. -/
def ifadd (st : StateRegister) (mode : RoundMode) (a b : Number f) : Number f × Status :=
  -- the first argument has the largest exponent
  let x := if b.expo.toNat > a.expo.toNat then b else a
  let y := if b.expo.toNat > a.expo.toNat then a else b
  if x.isNaN then (x, { undefined := true })
  else if y.isNaN then (y, { undefined := true })
  else if x.expo.toNat > f.maxExpo then
    if y.expo.toNat > f.maxExpo then
      if x.sign = y.sign then (x, { overflow := true, negative := x.sign })
      else (quietNaN f, { undefined := true })
    else (x, { overflow := true, negative := x.sign })
  else if y.expo.toNat > f.maxExpo then (y, { overflow := true, negative := y.sign })
  else if st.denormsTrap && (x.expo.toNat == 0 && x.coeff.isNonzero ||
      y.expo.toNat == 0 && y.coeff.isNonzero) then
    -- an operand is a denorm and denorms cause a trap
    ({ x with expo := BitVec.ofNat _ (f.maxExpo + 1) }, { undefined := true })
  else addFinite st mode x y

/-- `ar_ifsub32`, `ar_ifsub64` and `ar_ifsub128`. -/
def ifsub (st : StateRegister) (mode : RoundMode) (a b : Number f) : Number f × Status :=
  if a.isNaN then (a, { undefined := true })
  else if b.isNaN then (b, { undefined := true })
  else ifadd st mode a { b with sign := b.sign ^^ true }

end code

def arIfadd32 : StateRegister → RoundMode → Number ieee32 → Number ieee32 → Number ieee32 × Status := ifadd

def arIfadd64 : StateRegister → RoundMode → Number ieee64 → Number ieee64 → Number ieee64 × Status := ifadd

def arIfadd128 : StateRegister → RoundMode → Number ieee128 → Number ieee128 → Number ieee128 × Status :=
  ifadd

def arIfsub32 : StateRegister → RoundMode → Number ieee32 → Number ieee32 → Number ieee32 × Status := ifsub

def arIfsub64 : StateRegister → RoundMode → Number ieee64 → Number ieee64 → Number ieee64 × Status := ifsub

def arIfsub128 : StateRegister → RoundMode → Number ieee128 → Number ieee128 → Number ieee128 × Status :=
  ifsub

/-! ## The steps -/

variable {c d : Nat} {q : ℚ} {st : StateRegister}

section steps
variable {f : Format}

theorem unpack_total (x : Number f) : x.unpack.total = 8 * x.significand := rfl

theorem hidden_le (x : Number f) : x.hidden ≤ 1 := by
  unfold Number.hidden
  split <;> omega

/-- The alignment keeps the sticky reading: the kept bits and the lost ones still stand for the
exact quotient. -/
theorem align_spec : ∀ (shift : Nat) (y : Work f) {q : ℚ}, y.lbits ≤ 1 → y.rbits < 8 →
    Sticky y.total q →
    (y.align shift).lbits ≤ 1 ∧ (y.align shift).rbits < 8 ∧ (y.align shift).total ≤ y.total ∧
      Sticky (y.align shift).total (q / 2 ^ shift) := by
  intro shift
  induction shift with
  | zero =>
    intro y q hl hr hq
    exact ⟨hl, hr, le_refl _, by simpa [Work.align] using hq⟩
  | succ shift ih =>
    intro y q hl hr hq
    obtain ⟨htotal, hr'⟩ := Work.right_total hr
    have hstep : y.align (shift + 1) = Work.align shift { y.right with expo := y.expo } := by
      have hl0 : y.lbits >>> 1 = 0 := by
        rw [shiftRight_eq_div_pow]
        omega
      rw [Work.align]
      unfold Work.right
      rw [hl0, Nat.or_comm (y.rbits &&& 1)]
    have hjam : jam y.total ≤ y.total := by
      unfold jam
      split <;> omega
    have hq' : Sticky y.right.total (q / 2) := by
      rw [htotal]
      exact hq.jam
    obtain ⟨h1, h2, h3, h4⟩ := ih { y.right with expo := y.expo } (q := q / 2)
      (by rw [right_lbits]; omega) hr' hq'
    rw [hstep]
    refine ⟨h1, h2, ?_, ?_⟩
    · calc _ ≤ y.right.total := h3
        _ ≤ y.total := by
          rw [htotal]
          exact hjam
    · rw [pow_succ, mul_comm, ← div_div]
      exact h4

theorem and_three (n : Nat) : n &&& 3 = n % 4 := and_two_pow_sub_one_eq_mod n 2

theorem complement_bits : ∀ l < 4, l ^^^ 3 = 3 - l := by decide

theorem complement_rbits : ∀ r < 8, r ^^^ 7 = 7 - r := by decide

theorem minus_one_rbits : ∀ r < 8, (r + 7) &&& 7 = (r + 7) % 8 ∧ (r + 7) >>> 3 ≤ 1 ∧
    8 * ((r + 7) >>> 3) + ((r + 7) &&& 7) = r + 7 := by decide

theorem plus_one_rbits : ∀ r < 8, (1 + r) &&& 7 < 8 ∧ (1 + r) >>> 3 ≤ 1 ∧
    8 * ((1 + r) >>> 3) + ((1 + r) &&& 7) = r + 1 := by decide

theorem bit_two : ∀ l < 4, (l &&& 2 ≠ 0 ↔ 2 ≤ l) := by decide

theorem sumCoeffs_same {x y : Work f} (hx : x.lbits ≤ 1) (hxr : x.rbits = 0) (hy : y.lbits ≤ 1)
    (hr : y.rbits < 8) :
    (sumCoeffs false x y).total = x.total + y.total ∧ (sumCoeffs false x y).rbits < 8 ∧
      (sumCoeffs false x y).lbits ≤ 3 := by
  obtain ⟨hval, hout⟩ := add_spec x.coeff y.coeff 0 (by omega)
  rw [f.sum_widths] at hval
  unfold sumCoeffs Work.total
  simp only [false_eq_true, if_false, and_three]
  rw [mod_eq_of_lt (by omega), add_mul, add_mul, hxr]
  have : (x.coeff.add y.coeff 0).2 * 2 ^ f.coeffBits
      = 2 ^ f.coeffBits * (x.coeff.add y.coeff 0).2 := mul_comm _ _
  omega

theorem mod_four_total {l p r : Nat} (hc : c < p) (hr : r < 8) :
    8 * (l % 4 * p + c) + r = (8 * (l * p + c) + r) % (32 * p) := by
  have hlt : l % 4 < 4 := mod_lt _ (by decide)
  have hle := mul_le_mul_right p (show l % 4 ≤ 3 by omega)
  have hsplit : 8 * (l * p + c) + r = 8 * (l % 4 * p + c) + r + 32 * p * (l / 4) := by
    have hdiv : l * p = (4 * (l / 4) + l % 4) * p := by rw [div_add_mod]
    rw [hdiv]
    ring
  rw [hsplit, add_mul_mod_self_left,
    mod_eq_of_lt (show 8 * (l % 4 * p + c) + r < 32 * p by omega)]

theorem sumCoeffs_complement {x y : Work f} (hx : x.lbits ≤ 1) (hxr : x.rbits = 0)
    (hr : y.rbits < 8) : (sumCoeffs true x y).total
      = (32 * 2 ^ f.coeffBits - 1 - x.total + y.total) % (32 * 2 ^ f.coeffBits) ∧
      (sumCoeffs true x y).rbits < 8 ∧ (sumCoeffs true x y).lbits ≤ 3 := by
  obtain ⟨hmod, hcarry, hsum⟩ := minus_one_rbits y.rbits hr
  obtain ⟨hval, hout⟩ := add_spec x.coeff.not y.coeff ((y.rbits + 7) >>> 3) hcarry
  have hnot := val_not x.coeff
  rw [f.sum_widths] at hval hnot
  have hlt := coeff_lt x.coeff
  have hlt' := coeff_lt (x.coeff.not.add y.coeff ((y.rbits + 7) >>> 3)).1
  have hx' := complement_bits x.lbits (by omega)
  unfold sumCoeffs
  simp only [if_true, and_three, hx']
  refine ⟨?_, by rw [hmod]; omega, by omega⟩
  unfold Work.total
  simp only
  rw [mod_four_total hlt' (by rw [hmod]; omega)]
  congr 1
  rw [add_mul, add_mul, hxr]
  have h1 : (x.coeff.not.add y.coeff ((y.rbits + 7) >>> 3)).2 * 2 ^ f.coeffBits
      = 2 ^ f.coeffBits * (x.coeff.not.add y.coeff ((y.rbits + 7) >>> 3)).2 := mul_comm _ _
  have h2 : (3 - x.lbits) * 2 ^ f.coeffBits + x.lbits * 2 ^ f.coeffBits = 3 * 2 ^ f.coeffBits := by
    rw [← add_mul, show 3 - x.lbits + x.lbits = 3 by omega]
  omega

/-- A difference taken in complement and turned back: its magnitude is the distance of the two, its
sign that of the larger. -/
theorem uncomplement_spec {w : Work f} (sign : Bool) (m n : Nat) (hr : w.rbits < 8) (hl : w.lbits ≤ 3)
    (hm : m < 16 * 2 ^ f.coeffBits) (hn : n < 16 * 2 ^ f.coeffBits)
    (htotal : w.total = (32 * 2 ^ f.coeffBits - 1 - m + n) % (32 * 2 ^ f.coeffBits)) :
    (w.uncomplement sign).2.rbits < 8 ∧ (w.uncomplement sign).2.lbits ≤ 3 ∧
      (w.uncomplement sign).2.expo = w.expo ∧
      ((n ≤ m ∧ (w.uncomplement sign).1 = sign ∧ (w.uncomplement sign).2.total = m - n) ∨
        (m < n ∧ (w.uncomplement sign).1 = !sign ∧ (w.uncomplement sign).2.total = n - m)) := by
  have hlt := coeff_lt w.coeff
  have hle := Work.lbits_le_iff hr 1
  have hbit := bit_two w.lbits (by omega)
  unfold Work.uncomplement
  by_cases hnm : n ≤ m
  · rw [mod_eq_of_lt (by omega)] at htotal
    have htwo : 2 ≤ w.lbits := by
      by_contra h
      have := hle.mp (by omega)
      omega
    rw [if_pos (hbit.mpr htwo)]
    have hr' := complement_rbits w.rbits hr
    have hl' := complement_bits w.lbits (by omega)
    refine ⟨by simp only; omega, by simp only; omega, rfl, .inl ⟨hnm, rfl, ?_⟩⟩
    have hnot := val_not w.coeff
    rw [f.sum_widths] at hnot
    unfold Work.total at htotal ⊢
    simp only [hr', hl']
    have : (3 - w.lbits) * 2 ^ f.coeffBits + w.lbits * 2 ^ f.coeffBits = 3 * 2 ^ f.coeffBits := by
      rw [← add_mul, show 3 - w.lbits + w.lbits = 3 by omega]
    omega
  · have htotal' : w.total = n - m - 1 := by
      rw [htotal, show 32 * 2 ^ f.coeffBits - 1 - m + n
        = n - m - 1 + 32 * 2 ^ f.coeffBits by omega, add_mod_right, mod_eq_of_lt (by omega)]
    have htwo : ¬ 2 ≤ w.lbits := by
      have := hle.mpr (by omega)
      omega
    rw [if_neg (fun h => htwo (hbit.mp h))]
    obtain ⟨hr', hcarry, hsum⟩ := plus_one_rbits w.rbits hr
    obtain ⟨hval, hout⟩ := inc_spec w.coeff ((1 + w.rbits) >>> 3) hcarry
    rw [f.sum_widths] at hval
    simp only [and_three]
    refine ⟨hr', by omega, trivial, .inr ⟨by omega, trivial, ?_⟩⟩
    unfold Work.total at htotal' ⊢
    simp only
    rw [mod_eq_of_lt (by omega), add_mul]
    have : (w.coeff.inc ((1 + w.rbits) >>> 3)).2 * 2 ^ f.coeffBits
        = 2 ^ f.coeffBits * (w.coeff.inc ((1 + w.rbits) >>> 3)).2 := mul_comm _ _
    omega

theorem leftShifts_le_one {n : Nat} {expo : Int} (h : 4 * 2 ^ c ≤ n) : leftShifts c expo n ≤ 1 := by
  have hpos := Nat.two_pow_pos c
  have hlog : c + 2 ≤ Nat.log2 n := by
    rw [le_log2 (by omega), pow_add]
    omega
  unfold leftShifts
  omega

/-- The shift on a carry out of the sum loses no bit that the rounding needs. -/
theorem carryRight_spec {w : Work f} (hr : w.rbits < 8) (hl : w.lbits ≤ 3)
    (hexpo : 0 ≤ w.expo) (hq : Sticky w.total q)
    (heven : w.total % 2 = 0 ∨ 4 * 2 ^ f.coeffBits ≤ w.total) :
    w.carryRight.rbits < 8 ∧ w.carryRight.lbits ≤ 3 ∧ 0 ≤ w.carryRight.expo ∧
      ∃ q', Stands (leftShifts f.coeffBits w.carryRight.expo w.carryRight.total) w.carryRight.total q' ∧
        q' / 8 * scale w.carryRight.expo = q / 8 * scale w.expo := by
  have hbit := bit_two w.lbits (by omega)
  have hlt := Work.lbits_eq_zero_iff hr
  have hle := Work.lbits_le_iff hr 1
  unfold Work.carryRight
  by_cases hcarry : w.lbits &&& 2 ≠ 0 ∨ (w.lbits ≠ 0 ∧ w.expo = 0)
  · rw [if_pos hcarry]
    obtain ⟨htotal, hr'⟩ := Work.right_total hr
    have htotal' : ∀ e, ({ w.right with expo := e } : Work f).total = jam w.total := fun e => htotal
    have hge : 8 * 2 ^ f.coeffBits ≤ w.total := by
      by_contra h
      have := hlt.mpr (by omega)
      rcases hcarry with h' | h'
      · have := hbit.mp h'
        omega
      · omega
    refine ⟨hr', by rw [right_lbits]; omega, by dsimp only; split <;> omega, q / 2, ?_, ?_⟩
    · rw [htotal']
      unfold Stands
      have hjam : 4 * 2 ^ f.coeffBits ≤ jam w.total := by
        unfold jam
        split <;> omega
      rw [if_pos (.inl (leftShifts_le_one hjam))]
      exact hq.jam
    · have hbinade : binade (if w.expo ≠ 0 then w.expo + 1 else 2) = binade w.expo + 1 := by
        unfold binade
        split <;> omega
      have hnonneg : 0 ≤ if w.expo ≠ 0 then w.expo + 1 else 2 := by
        split <;> omega
      rw [scale_eq hexpo, scale_eq hnonneg, hbinade, pow_succ]
      ring
  · rw [if_neg hcarry]
    refine ⟨hr, hl, hexpo, q, ?_, rfl⟩
    unfold Stands
    rcases heven with heven | hge
    · rw [if_pos (.inr heven)]
      exact hq
    · rw [if_pos (.inl (leftShifts_le_one hge))]
      exact hq

end steps

/-! ## The sum of finite numbers -/

section finite
variable {f : Format} {x y : Number f}

/-- A sign as a factor. -/
def sgn (s : Bool) : ℚ := if s then -1 else 1

theorem sgn_ne_zero (s : Bool) : sgn s ≠ 0 := by cases s <;> simp [sgn]

theorem sgn_not (s : Bool) : sgn (!s) = -sgn s := by cases s <;> simp [sgn]

theorem expo_sub_hidden (x : Number f) : x.expo.toNat - x.hidden = x.exponent - 1 := by
  unfold Number.hidden Number.exponent
  split <;> omega

theorem scale_expo (x : Number f) : scale (x.expo.toNat : ℤ) = 2 ^ (x.exponent - 1) := by
  rw [scale_eq (Int.natCast_nonneg _)]
  congr 1
  unfold binade Number.exponent
  omega

theorem value_aligned (hd : y.exponent - 1 + d = x.exponent - 1) :
    y.value = sgn y.sign * (8 * y.significand / 2 ^ d / 8 * 2 ^ (x.exponent - 1)) * unit f := by
  have hpow : (2 : ℚ) ^ d ≠ 0 := by positivity
  rw [value_eq, ← hd, pow_add]
  unfold sgn
  field_simp

theorem rounded_of_mag {v p : ℚ} {s : Bool} {r : Number f} (hp : 0 ≤ p)
    (hv : v = sgn s * p * unit f) (hsign : p ≠ 0 → r.sign = s)
    (hmag : ∃ n, RoundsTo f.coeffBits p n ∧ r.mag = min n (infMag f)) : Rounded v r := by
  have hunit := unit_pos f
  have hpu : 0 ≤ p * unit f := by positivity
  have habs : |v| / unit f = p := by
    have : |v| = p * unit f := by
      rw [hv, mul_assoc, abs_mul, abs_of_nonneg hpu]
      cases s <;> simp [sgn]
    rw [this, mul_div_assoc, div_self hunit.ne', mul_one]
  refine ⟨fun hneg => ?_, fun hpos => ?_, by rw [habs]; exact hmag⟩
  · have hp0 : p ≠ 0 := by
      rintro rfl
      simp [hv] at hneg
    rw [hsign hp0]
    cases s with
    | true => rfl
    | false => simp only [sgn, false_eq_true, if_false, one_mul] at hv; linarith
  · have hp0 : p ≠ 0 := by
      rintro rfl
      simp [hv] at hpos
    rw [hsign hp0]
    cases s with
    | true => simp only [sgn, if_true] at hv; linarith
    | false => rfl

/-- From the sum to the result: a zero is negative only if both operands are, any other sum is
normalised. -/
theorem sum_result (hst : st.underflowMode = .toDenorm) (s diffsign : Bool)
    {u : Work f} (hr : u.rbits < 8) (hl : u.lbits ≤ 3) (hexpo : 0 ≤ u.expo)
    (hq : Sticky u.total q) (heven : u.total % 2 = 0 ∨ 4 * 2 ^ f.coeffBits ≤ u.total)
    {r : Number f × Status}
    (hres : r = if u.carryRight.lbits = 0 ∧ u.carryRight.coeff.isNonzero = false ∧
        u.carryRight.rbits = 0 then
      ({ sign := s && !diffsign
         expo := BitVec.ofNat _ 0
         coeff := u.carryRight.coeff }, { zero := true, negative := s && !diffsign })
      else norm st .nearest s u.carryRight) :
    (q = 0 → r.1.sign = (s && !diffsign)) ∧ (q ≠ 0 → r.1.sign = s) ∧
      ∃ n, RoundsTo f.coeffBits (q / 8 * scale u.expo) n ∧ r.1.mag = min n (infMag f) := by
  obtain ⟨hr', _, hexpo', q', hstands, hscale⟩ := carryRight_spec hr hl hexpo hq heven
  have hl' : u.carryRight.lbits ≤ 3 := (carryRight_spec hr hl hexpo hq heven).2.1
  generalize u.carryRight = w at *
  have hqz : q = 0 ↔ w.total = 0 := by
    rw [← hstands.eq_zero_iff]
    have h1 := scale_pos u.expo
    have h2 := scale_pos w.expo
    constructor
    · rintro rfl
      rw [zero_div, zero_mul] at hscale
      rcases mul_eq_zero.mp hscale with h | h
      · linarith
      · exact absurd h h2.ne'
    · rintro rfl
      rw [zero_div, zero_mul] at hscale
      rcases mul_eq_zero.mp hscale.symm with h | h
      · linarith
      · exact absurd h h1.ne'
  by_cases hz : w.total = 0
  · rw [if_pos (Work.total_eq_zero_iff.mpr hz)] at hres
    have hv : w.coeff.val = 0 := by
      unfold Work.total at hz
      omega
    subst hres
    refine ⟨fun _ => rfl, fun h => absurd (hqz.mpr hz) h, 0, ?_, ?_⟩
    · have hc := f.coeffBits_ge
      rw [hqz.mpr hz]
      simpa using roundsTo_zero (show 1 ≤ f.coeffBits by omega)
    · simp [Number.mag, hv]
  · rw [if_neg fun h => hz (Work.total_eq_zero_iff.mp h)] at hres
    obtain ⟨hsign, n, hround, hmag⟩ := norm_spec st hst s w hr' hl' (fun h => by omega) hstands
    rw [hscale] at hround
    subst hres
    exact ⟨fun h => absurd (hqz.mp h) hz, fun _ => hsign, n, hround, hmag⟩

theorem aligned_spec (hd : y.exponent - 1 + d = x.exponent - 1) :
    (y.unpack.align d).lbits ≤ 1 ∧ (y.unpack.align d).rbits < 8 ∧
      (y.unpack.align d).total < 16 * 2 ^ f.coeffBits ∧
      Sticky (y.unpack.align d).total (8 * y.significand / 2 ^ d) ∧
      (d ≤ 2 → (y.unpack.align d).total % 2 = 0) ∧ (1 ≤ d → 2 ^ f.coeffBits ≤ x.significand) ∧
      (3 ≤ d → (y.unpack.align d).total ≤ 2 * 2 ^ f.coeffBits) := by
  have hlt := significand_lt y
  obtain ⟨h1, h2, h3, h4⟩ := align_spec d y.unpack (q := (8 * y.significand : ℕ))
    (hidden_le y) (by simp [Number.unpack]) (by rw [unpack_total]; exact sticky_self _)
  rw [unpack_total] at h3
  push_cast at h4
  refine ⟨h1, h2, by omega, h4, fun hd2 => ?_, fun hd1 => ?_, fun hd3 => ?_⟩
  · -- no bit is lost
    refine h4.even_of_even (k := y.significand * 2 ^ (2 - d)) ?_
    have hpow : (2 : ℚ) ^ d * 2 ^ (2 - d) = 4 := by
      rw [← pow_add, show d + (2 - d) = 2 by omega]
      norm_num
    have hne : (2 : ℚ) ^ d ≠ 0 := by positivity
    push_cast
    rw [div_eq_iff hne]
    linear_combination (-2 * (y.significand : ℚ)) * hpow
  · refine significand_ge fun h0 => ?_
    unfold Number.exponent at hd
    omega
  · refine h4.le_of_le (k := 2 ^ f.coeffBits) ?_
    have hpow : (8 : ℚ) ≤ 2 ^ d := by
      calc (8 : ℚ) = 2 ^ 3 := by norm_num
        _ ≤ 2 ^ d := pow_le_pow_right₀ (by norm_num) hd3
    have hle : (y.significand : ℚ) ≤ 2 * (2 ^ f.coeffBits : ℕ) := by exact_mod_cast hlt.le
    rw [div_le_iff₀ (by positivity)]
    have h0 : (0 : ℚ) ≤ (2 ^ f.coeffBits : ℕ) := cast_nonneg _
    nlinarith

/-- The sum or difference of two aligned operands stands for the exact one; the cases are the two
signs. -/
theorem near_sum (hd : y.exponent - 1 + d = x.exponent - 1) {r : Bool × Work f}
    (hres : r = if x.sign ^^ y.sign then
        (sumCoeffs (x.sign ^^ y.sign) x.unpack (y.unpack.align d)).uncomplement x.sign
      else (x.sign, sumCoeffs (x.sign ^^ y.sign) x.unpack (y.unpack.align d))) :
    r.2.rbits < 8 ∧ r.2.lbits ≤ 3 ∧ r.2.expo = x.expo.toNat ∧ ∃ q, Sticky r.2.total q ∧
      (r.2.total % 2 = 0 ∨ 4 * 2 ^ f.coeffBits ≤ r.2.total) ∧
      x.value + y.value = sgn r.1 * (q / 8 * 2 ^ (x.exponent - 1)) * unit f := by
  obtain ⟨h1, h2, h₃, h4, heven, hnormal, hsmall⟩ := aligned_spec hd
  have hxlt := significand_lt x
  have hX : x.value = sgn x.sign * (8 * x.significand / 8 * 2 ^ (x.exponent - 1)) * unit f := by
    rw [value_eq]
    unfold sgn
    ring
  have hY := value_aligned hd
  have htotal := unpack_total x
  generalize y.unpack.align d = z at *
  generalize (8 * y.significand / 2 ^ d : ℚ) = p at *
  have height : 8 * x.significand = 2 * (4 * x.significand) := by ring
  cases hdiff : x.sign ^^ y.sign with
  | false =>
    have hsigns : y.sign = x.sign := by
      revert hdiff
      cases x.sign <;> cases y.sign <;> simp
    rw [hdiff] at hres
    simp only [false_eq_true, if_false] at hres
    subst hres
    obtain ⟨hsum, hr, hl⟩ := sumCoeffs_same (x := x.unpack) (y := z) (hidden_le x) rfl h1 h2
    rw [htotal] at hsum
    refine ⟨hr, hl, rfl, 2 * (4 * x.significand : ℕ) + p, ?_, ?_, ?_⟩
    · rw [hsum, height]
      exact h4.add_even _
    · rw [hsum]
      rcases lt_or_ge d 1 with h0 | h0
      · have := heven (by omega)
        omega
      · have := hnormal h0
        omega
    · rw [hX, hY, hsigns]
      push_cast
      ring
  | true =>
    have hsigns : sgn y.sign = -sgn x.sign := by
      have : y.sign = !x.sign := by
        revert hdiff
        cases x.sign <;> cases y.sign <;> simp
      rw [this, sgn_not]
    rw [hdiff] at hres
    simp only [if_true] at hres
    obtain ⟨hsum, hr, hl⟩ := sumCoeffs_complement (x := x.unpack) (y := z) (hidden_le x) rfl h2
    rw [htotal] at hsum
    obtain ⟨hr', hl', hexpo, hcases⟩ := uncomplement_spec x.sign (8 * x.significand) z.total hr hl
      (by omega) h₃ hsum
    rw [← hres] at hr' hl' hexpo hcases
    -- a difference that is small has lost no bit
    have hbig : z.total % 2 = 0 ∨ 4 * 2 ^ f.coeffBits + z.total ≤ 8 * x.significand := by
      rcases lt_or_ge d 3 with h3 | h3
      · exact .inl (heven (by omega))
      · have := hsmall h3
        have := hnormal (by omega)
        omega
    refine ⟨hr', hl', hexpo, ?_⟩
    rcases hcases with ⟨hle, hs, htot⟩ | ⟨hlt, hs, htot⟩
    · refine ⟨2 * (4 * x.significand : ℕ) - p, ?_, by omega, ?_⟩
      · rw [htot, height]
        exact h4.even_sub (by omega)
      · rw [hs, hX, hY, hsigns]
        push_cast
        ring
    · refine ⟨p - 2 * (4 * x.significand : ℕ), ?_, by omega, ?_⟩
      · rw [htot, height]
        exact h4.sub_even (by omega)
      · rw [hs, sgn_not, hX, hY, hsigns]
        push_cast
        ring

theorem far_sum {z : Work f} (hz : z.total ≤ 1) (hzl : z.lbits = 0) (hzr : z.rbits < 8)
    (hnormal : 2 ^ f.coeffBits ≤ x.significand) {r : Bool × Work f}
    (hres : r = if x.sign ^^ false then (sumCoeffs (x.sign ^^ false) x.unpack z).uncomplement x.sign
      else (x.sign, sumCoeffs (x.sign ^^ false) x.unpack z)) :
    r.2.rbits < 8 ∧ r.2.lbits ≤ 3 ∧ r.2.expo = x.expo.toNat ∧ r.1 = x.sign ∧
      8 * x.significand ≤ r.2.total + 1 ∧ r.2.total ≤ 8 * x.significand + 1 := by
  have hP := Nat.two_pow_pos f.coeffBits
  have hxlt := significand_lt x
  have htotal := unpack_total x
  rw [Bool.xor_false] at hres
  cases hs : x.sign with
  | false =>
    rw [hs] at hres
    simp only [false_eq_true, if_false] at hres
    subst hres
    obtain ⟨hsum, hr, hl⟩ := sumCoeffs_same (x := x.unpack) (y := z) (hidden_le x) rfl (by omega) hzr
    exact ⟨hr, hl, rfl, rfl, by dsimp only; omega, by dsimp only; omega⟩
  | true =>
    rw [hs] at hres
    simp only [if_true] at hres
    obtain ⟨hsum, hr, hl⟩ := sumCoeffs_complement (x := x.unpack) (y := z) (hidden_le x) rfl hzr
    rw [htotal] at hsum
    obtain ⟨hr', hl', hexpo, hcases⟩ := uncomplement_spec true (8 * x.significand) z.total hr hl
      (by omega) (by omega) hsum
    rw [← hres] at hr' hl' hexpo hcases
    rcases hcases with ⟨hle, hsign, htot⟩ | ⟨hlt, _, _⟩
    · exact ⟨hr', hl', hexpo, hsign, by omega, by omega⟩
    · omega

theorem far_exact (hd : y.exponent - 1 + d = x.exponent - 1) (hfar : f.coeffBits + 3 < d) :
    ∃ p : ℚ, (x.significand : ℚ) - 1 / 4 < p ∧ p < x.significand + 1 / 4 ∧
      x.value + y.value = sgn x.sign * (p * 2 ^ (x.exponent - 1)) * unit f := by
  have hY := value_aligned hd
  have hlt : (y.significand : ℚ) < 2 * (2 ^ f.coeffBits : ℕ) := by exact_mod_cast significand_lt y
  have hpow : (16 * 2 ^ f.coeffBits : ℕ) ≤ (2 : ℚ) ^ d := by
    have : 16 * 2 ^ f.coeffBits ≤ 2 ^ d := by
      calc 16 * 2 ^ f.coeffBits = 2 ^ (f.coeffBits + 4) := by ring
        _ ≤ 2 ^ d := Nat.pow_le_pow_right (by decide) (by omega)
    exact_mod_cast this
  have hsmall : (y.significand : ℚ) / 2 ^ d < 1 / 8 := by
    rw [div_lt_iff₀ (by positivity)]
    push_cast at hlt hpow
    linarith
  have hnonneg : 0 ≤ (y.significand : ℚ) / 2 ^ d := by positivity
  rw [show (8 * y.significand / 2 ^ d / 8 : ℚ) = y.significand / 2 ^ d by ring] at hY
  generalize (y.significand : ℚ) / 2 ^ d = w at *
  refine ⟨x.significand + sgn x.sign * sgn y.sign * w, ?_, ?_, ?_⟩
  · cases x.sign <;> cases y.sign <;> simp [sgn] <;> linarith
  · cases x.sign <;> cases y.sign <;> simp [sgn] <;> linarith
  · rw [value_eq x, hY]
    cases x.sign <;> cases y.sign <;> simp [sgn] <;> ring

/-- Two finite operands, the larger exponent first: the addition rounds the exact sum to the
nearest. -/
theorem addFinite_spec (hst : st.underflowMode = .toDenorm)
    (hexpo : y.expo.toNat ≤ x.expo.toNat) :
    Rounded (x.value + y.value) (addFinite st .nearest x y).1 ∧
      (x.value + y.value = 0 → (addFinite st .nearest x y).1.sign = (x.sign && y.sign)) := by
  obtain ⟨d, hdef⟩ : ∃ d, d = x.exponent - 1 - (y.exponent - 1) := ⟨_, rfl⟩
  have hd : y.exponent - 1 + d = x.exponent - 1 := by
    unfold Number.exponent at *
    omega
  have hunit := (unit_pos f).ne'
  have hscale : (0 : ℚ) < 2 ^ (x.exponent - 1) := by positivity
  by_cases hfar : d > f.coeffBits + 3
  · -- too far: only the sticky bit is left of the second operand
    have hnormal : 2 ^ f.coeffBits ≤ x.significand := by
      refine significand_ge fun h0 => ?_
      unfold Number.exponent at hd
      omega
    have hxlt := significand_lt x
    obtain ⟨p, hlo, hhi, hexact⟩ := far_exact hd hfar
    have hXge : (1 : ℚ) ≤ x.significand := by
      exact_mod_cast le_trans (Nat.one_le_two_pow) hnormal
    have hround := roundsTo_of_close (e := x.exponent - 1) hnormal hxlt hlo hhi
    obtain ⟨z, hzdef⟩ : ∃ z : Work f, z =
        { expo := 0
          lbits := 0
          rbits := if y.coeff.isNonzero then 1 else 0
          coeff := Coeff.zero f.widths } := ⟨_, rfl⟩
    have hz : z.total ≤ 1 ∧ z.lbits = 0 ∧ z.rbits < 8 := by
      rw [hzdef]
      unfold Work.total
      simp only [val_zero, zero_mul]
      split <;> decide
    obtain ⟨r, hrdef⟩ : ∃ r, r = if x.sign ^^ false then
        (sumCoeffs (x.sign ^^ false) x.unpack z).uncomplement x.sign
      else (x.sign, sumCoeffs (x.sign ^^ false) x.unpack z) := ⟨_, rfl⟩
    obtain ⟨hr, hl, he, hs, hge, hle⟩ := far_sum hz.1 hz.2.1 hz.2.2 hnormal hrdef
    have hcode : addFinite st .nearest x y = if r.2.carryRight.lbits = 0 ∧
        r.2.carryRight.coeff.isNonzero = false ∧ r.2.carryRight.rbits = 0 then
        ({ sign := r.1 && !(x.sign ^^ false)
           expo := BitVec.ofNat _ 0
           coeff := r.2.carryRight.coeff }, { zero := true, negative := r.1 && !(x.sign ^^ false) })
        else norm st .nearest r.1 r.2.carryRight := by
      unfold addFinite
      simp only [expo_sub_hidden, ← hdef, if_pos hfar, ← hzdef, ← hrdef]
    obtain ⟨_, hsign, n, hn, hmag⟩ := sum_result hst r.1 _ hr hl (by omega) (sticky_self r.2.total)
      (.inr (by omega)) hcode
    have hge' : 8 * (x.significand : ℚ) ≤ r.2.total + 1 := by exact_mod_cast hge
    have hle' : (r.2.total : ℚ) ≤ 8 * x.significand + 1 := by exact_mod_cast hle
    rw [he, scale_expo] at hn
    have hround' := roundsTo_of_close (q := (r.2.total : ℚ) / 8) (e := x.exponent - 1) hnormal hxlt
      (by linarith) (by linarith)
    rw [hn.unique hround'] at hmag
    have hp : 0 < p * 2 ^ (x.exponent - 1) := mul_pos (by linarith) hscale
    have hne : x.value + y.value ≠ 0 := by
      rw [hexact]
      exact mul_ne_zero (mul_ne_zero (sgn_ne_zero _) hp.ne') hunit
    refine ⟨rounded_of_mag hp.le hexact (fun _ => ?_) ⟨_, hround, hmag⟩, fun h => absurd h hne⟩
    rw [hsign (by linarith), hs]
  · obtain ⟨r, hrdef⟩ : ∃ r, r = if x.sign ^^ y.sign then
        (sumCoeffs (x.sign ^^ y.sign) x.unpack (y.unpack.align d)).uncomplement x.sign
      else (x.sign, sumCoeffs (x.sign ^^ y.sign) x.unpack (y.unpack.align d)) := ⟨_, rfl⟩
    obtain ⟨hr, hl, he, q, hq, heven, hexact⟩ := near_sum hd hrdef
    have hcode : addFinite st .nearest x y = if r.2.carryRight.lbits = 0 ∧
        r.2.carryRight.coeff.isNonzero = false ∧ r.2.carryRight.rbits = 0 then
        ({ sign := r.1 && !(x.sign ^^ y.sign)
           expo := BitVec.ofNat _ 0
           coeff := r.2.carryRight.coeff }, { zero := true, negative := r.1 && !(x.sign ^^ y.sign) })
        else norm st .nearest r.1 r.2.carryRight := by
      unfold addFinite
      simp only [expo_sub_hidden, ← hdef, if_neg hfar, ← hrdef]
    obtain ⟨hzero, hsign, hmag⟩ := sum_result hst r.1 _ hr hl (by omega) hq heven hcode
    rw [he, scale_expo] at hmag
    have hq₀ := hq.nonneg
    have hp : 0 ≤ q / 8 * 2 ^ (x.exponent - 1) := by positivity
    refine ⟨rounded_of_mag hp hexact (fun hne => hsign ?_) hmag, fun hsum => ?_⟩
    · rintro rfl
      simp at hne
    · -- the sum is zero only if the difference of the significands is
      have hq0 : q = 0 := by
        rw [hexact] at hsum
        rcases mul_eq_zero.mp hsum with h | h
        · rcases mul_eq_zero.mp h with h' | h'
          · exact absurd h' (sgn_ne_zero _)
          · rcases mul_eq_zero.mp h' with h'' | h''
            · linarith
            · exact absurd h'' hscale.ne'
        · exact absurd h hunit
      rw [hzero hq0]
      cases hdiff : x.sign ^^ y.sign with
      | false =>
        rw [hdiff] at hrdef
        simp only [false_eq_true, if_false] at hrdef
        rw [hrdef]
        revert hdiff
        cases x.sign <;> cases y.sign <;> simp
      | true =>
        revert hdiff
        cases x.sign <;> cases y.sign <;> simp

end finite

/-! ## Addition and subtraction -/

section spec
variable {f : Format} {a b r : Number f}

/-- `r` is the sum of `a` and `b`: a NaN, an infinity, or rounded once. -/
structure IsSum (a b r : Number f) : Prop where
  nan : r.isNaN = true ↔ a.isNaN = true ∨ b.isNaN = true ∨
    (a.isInf = true ∧ b.isInf = true ∧ a.sign ≠ b.sign)
  infLeft : a.isInf = true → r.isNaN = false → r.isInf = true ∧ r.sign = a.sign
  infRight : b.isInf = true → r.isNaN = false → r.isInf = true ∧ r.sign = b.sign
  finite : a.isFinite = true → b.isFinite = true → Rounded (a.value + b.value) r
  zero : a.isFinite = true → b.isFinite = true → a.value + b.value = 0 →
    r.sign = (a.sign && b.sign)

/-- The same for the difference. -/
structure IsDifference (a b r : Number f) : Prop where
  nan : r.isNaN = true ↔ a.isNaN = true ∨ b.isNaN = true ∨
    (a.isInf = true ∧ b.isInf = true ∧ a.sign = b.sign)
  infLeft : a.isInf = true → r.isNaN = false → r.isInf = true ∧ r.sign = a.sign
  infRight : b.isInf = true → r.isNaN = false → r.isInf = true ∧ r.sign = !b.sign
  finite : a.isFinite = true → b.isFinite = true → Rounded (a.value - b.value) r
  zero : a.isFinite = true → b.isFinite = true → a.value - b.value = 0 →
    r.sign = (a.sign && !b.sign)

theorem isInf_iff : a.isInf = true ↔ f.maxExpo < a.expo.toNat ∧ a.isNaN = false := by
  unfold Number.isInf Number.isNaN
  simp only [and_eq_true, decide_eq_true_eq, not_eq_true', and_eq_false_iff,
    decide_eq_false_iff_not]
  tauto

theorem isFinite_iff : a.isFinite = true ↔ a.expo.toNat ≤ f.maxExpo := by
  unfold Number.isFinite
  exact decide_eq_true_iff

theorem expo_of_isNaN (h : a.isNaN = true) : f.maxExpo < a.expo.toNat := by
  unfold Number.isNaN at h
  rw [and_eq_true, decide_eq_true_eq] at h
  exact h.1

theorem quietNaN_isNaN (f : Format) : (quietNaN f).isNaN = true := by
  have hmax := f.maxExpo_add
  have hnot := val_not (Coeff.zero f.widths)
  have hP : 2 ^ 4 ≤ 2 ^ f.coeffBits := Nat.pow_le_pow_right (by decide) f.coeffBits_ge
  rw [f.sum_widths, val_zero] at hnot
  have hexpo : (quietNaN f).expo.toNat = f.maxExpo + 1 := by
    unfold quietNaN
    rw [BitVec.toNat_ofNat, mod_eq_of_lt (by omega)]
  unfold Number.isNaN
  rw [and_eq_true, decide_eq_true_eq, isNonzero_iff]
  refine ⟨by omega, ?_⟩
  unfold quietNaN
  dsimp only
  omega

theorem IsSum.symm (h : IsSum a b r) : IsSum b a r := by
  refine ⟨?_, h.infRight, h.infLeft, fun hb ha => ?_, fun hb ha hv => ?_⟩
  · rw [h.nan]
    constructor
    · rintro (h1 | h1 | ⟨h1, h2, h3⟩)
      · exact .inr (.inl h1)
      · exact .inl h1
      · exact .inr (.inr ⟨h2, h1, h3.symm⟩)
    · rintro (h1 | h1 | ⟨h1, h2, h3⟩)
      · exact .inr (.inl h1)
      · exact .inl h1
      · exact .inr (.inr ⟨h2, h1, h3.symm⟩)
  · rw [add_comm]
    exact h.finite ha hb
  · rw [Bool.and_comm]
    exact h.zero ha hb (by rw [add_comm]; exact hv)

theorem IsSum.of_nan (hr : r.isNaN = true) (h : a.isNaN = true ∨ b.isNaN = true ∨
    (a.isInf = true ∧ b.isInf = true ∧ a.sign ≠ b.sign)) : IsSum a b r := by
  have hfinite : ¬ (a.isFinite = true ∧ b.isFinite = true) := by
    rw [isFinite_iff, isFinite_iff]
    rintro ⟨ha, hb⟩
    rcases h with h | h | ⟨h, _, _⟩
    · have := expo_of_isNaN h
      omega
    · have := expo_of_isNaN h
      omega
    · have := (isInf_iff.mp h).1
      omega
  have hnot : ¬ r.isNaN = false := by rw [hr]; decide
  exact ⟨iff_of_true hr h, fun _ h => absurd h hnot, fun _ h => absurd h hnot,
    fun ha hb => absurd ⟨ha, hb⟩ hfinite, fun ha hb => absurd ⟨ha, hb⟩ hfinite⟩

theorem IsSum.of_inf (ha : a.isInf = true) (hb : b.isNaN = false)
    (hsign : b.isInf = true → a.sign = b.sign) : IsSum a b a := by
  obtain ⟨hexpo, hnan⟩ := isInf_iff.mp ha
  have hfinite : ¬ a.isFinite = true := by
    rw [isFinite_iff]
    omega
  refine ⟨iff_of_false (by rw [hnan]; decide) ?_, fun _ _ => ⟨ha, rfl⟩,
    fun h _ => ⟨ha, hsign h⟩, fun h => absurd h hfinite, fun h => absurd h hfinite⟩
  rintro (h | h | ⟨_, h, hne⟩)
  · rw [hnan] at h
    cases h
  · rw [hb] at h
    cases h
  · exact hne (hsign h)

theorem IsSum.of_finite (ha : a.expo.toNat ≤ f.maxExpo) (hb : b.expo.toNat ≤ f.maxExpo)
    (hround : Rounded (a.value + b.value) r)
    (hzero : a.value + b.value = 0 → r.sign = (a.sign && b.sign)) : IsSum a b r := by
  have hinf : ∀ {x : Number f}, x.expo.toNat ≤ f.maxExpo → ¬ x.isInf = true := fun hx h => by
    have := (isInf_iff.mp h).1
    omega
  have hnan : ∀ {x : Number f}, x.expo.toNat ≤ f.maxExpo → ¬ x.isNaN = true := fun hx h => by
    have := expo_of_isNaN h
    omega
  refine ⟨iff_of_false (by rw [hround.not_nan]; decide) ?_, fun h => absurd h (hinf ha),
    fun h => absurd h (hinf hb), fun _ _ => hround, fun _ _ => hzero⟩
  rintro (h | h | ⟨h, _, _⟩)
  · exact hnan ha h
  · exact hnan hb h
  · exact hinf ha h

theorem ifadd_swap (st : StateRegister) (mode : RoundMode) (h : a.expo.toNat < b.expo.toNat) :
    ifadd st mode a b = ifadd st mode b a := by
  unfold ifadd
  simp only [if_pos h, if_neg (lt_asymm h)]

theorem ifadd_ordered (htrap : st.denormsTrap = false)
    (hst : st.underflowMode = .toDenorm) (hexpo : b.expo.toNat ≤ a.expo.toNat) :
    IsSum a b (ifadd st .nearest a b).1 := by
  unfold ifadd
  simp only [if_neg (Nat.not_lt.mpr hexpo), htrap, Bool.false_and, Bool.false_eq_true, if_false]
  by_cases ha : a.isNaN = true
  · rw [if_pos ha]
    exact .of_nan ha (.inl ha)
  rw [if_neg ha]
  by_cases hb : b.isNaN = true
  · rw [if_pos hb]
    exact .of_nan hb (.inr (.inl hb))
  rw [if_neg hb]
  rw [not_eq_true] at ha hb
  by_cases hainf : a.expo.toNat > f.maxExpo
  · rw [if_pos hainf]
    have hai : a.isInf = true := isInf_iff.mpr ⟨hainf, ha⟩
    by_cases hbinf : b.expo.toNat > f.maxExpo
    · rw [if_pos hbinf]
      by_cases hs : a.sign = b.sign
      · rw [if_pos hs]
        exact .of_inf hai hb fun _ => hs
      · rw [if_neg hs]
        exact .of_nan (quietNaN_isNaN f) (.inr (.inr ⟨hai, isInf_iff.mpr ⟨hbinf, hb⟩, hs⟩))
    · rw [if_neg hbinf]
      exact .of_inf hai hb fun h => absurd (isInf_iff.mp h).1 hbinf
  · rw [if_neg hainf, if_neg (by omega)]
    obtain ⟨hround, hzero⟩ := addFinite_spec hst hexpo
    exact .of_finite (by omega) (by omega) hround hzero

theorem ifadd_isSum (htrap : st.denormsTrap = false)
    (hst : st.underflowMode = .toDenorm) (a b : Number f) : IsSum a b (ifadd st .nearest a b).1 := by
  rcases lt_or_ge a.expo.toNat b.expo.toNat with h | h
  · rw [ifadd_swap st .nearest h]
    exact (ifadd_ordered htrap hst h.le).symm
  · exact ifadd_ordered htrap hst h

theorem IsSum.difference (h : IsSum a { b with sign := b.sign ^^ true } r) : IsDifference a b r := by
  have hsign : (b.sign ^^ true) = !b.sign := xor_true _
  have hvalue : ({ b with sign := b.sign ^^ true } : Number f).value = -b.value := by
    rw [value_eq, value_eq]
    show (if (b.sign ^^ true) = true then (-1 : ℚ) else 1) * (b.significand * 2 ^ (b.exponent - 1)) * _ = _
    cases b.sign <;> simp
  obtain ⟨hnan, hleft, hright, hfinite, hzero⟩ := h
  refine ⟨hnan.trans ?_, hleft, fun hb hr => ?_, fun ha hb => ?_, fun ha hb hv => ?_⟩
  · have hne : a.sign ≠ (b.sign ^^ true) ↔ a.sign = b.sign := by
      cases a.sign <;> cases b.sign <;> simp
    exact or_congr Iff.rfl (or_congr Iff.rfl (and_congr Iff.rfl (and_congr Iff.rfl hne)))
  · rw [← hsign]
    exact hright hb hr
  · rw [sub_eq_add_neg, ← hvalue]
    exact hfinite ha hb
  · rw [← hsign]
    exact hzero ha hb (by rw [hvalue, ← sub_eq_add_neg]; exact hv)

theorem ifsub_isDifference (htrap : st.denormsTrap = false)
    (hst : st.underflowMode = .toDenorm) (a b : Number f) :
    IsDifference a b (ifsub st .nearest a b).1 := by
  unfold ifsub
  by_cases ha : a.isNaN = true
  · rw [if_pos ha]
    exact (IsSum.of_nan ha (.inl ha)).difference
  rw [if_neg ha]
  by_cases hb : b.isNaN = true
  · rw [if_pos hb]
    exact (IsSum.of_nan (b := { b with sign := b.sign ^^ true }) hb (.inr (.inl hb))).difference
  rw [if_neg hb]
  exact (ifadd_isSum htrap hst a _).difference

/-- Denormalized numbers are kept and do not trap. -/
def keepDenorms : StateRegister := { denormsTrap := false, underflowMode := .toDenorm }

/-- Addition and subtraction in the three formats are correctly rounded. -/
theorem ifadd_ifsub_rounded : (∀ a b, IsSum a b (arIfadd32 keepDenorms .nearest a b).1) ∧
    (∀ a b, IsSum a b (arIfadd64 keepDenorms .nearest a b).1) ∧
    (∀ a b, IsSum a b (arIfadd128 keepDenorms .nearest a b).1) ∧
    (∀ a b, IsDifference a b (arIfsub32 keepDenorms .nearest a b).1) ∧
    (∀ a b, IsDifference a b (arIfsub64 keepDenorms .nearest a b).1) ∧
    ∀ a b, IsDifference a b (arIfsub128 keepDenorms .nearest a b).1 :=
  ⟨ifadd_isSum rfl rfl, ifadd_isSum rfl rfl, ifadd_isSum rfl rfl, ifsub_isDifference rfl rfl,
    ifsub_isDifference rfl rfl, ifsub_isDifference rfl rfl⟩

end spec

end Ieee
