import Mathlib.Data.Nat.Bitwise
import Mathlib.Tactic.Ring
import Mathlib.Tactic.Linarith

/-! # Coefficients of IEEE numbers

The coefficient of a float is kept in bit fields, `coeff0` the most
significant one: the macros of `arith.internal.h` write the shifts and
sums out for each format. Here a coefficient is a sequence of bit
fields of given widths with the least significant one first, and each
macro is a recursion over it. -/

namespace Ieee

open Nat

/-! ## The macros -/

/-- The bit fields of a coefficient, the least significant first. -/
inductive Coeff : List Nat → Type
  | nil : Coeff []
  | cons {w : Nat} {ws : List Nat} (p : BitVec w) (rest : Coeff ws) : Coeff (w :: ws)

namespace Coeff

/-- The number the bit fields stand for. -/
def val : {ws : List Nat} → Coeff ws → Nat
  | _, nil => 0
  | _, cons (w := w) p rest => p.toNat + 2 ^ w * rest.val

section
-- derives the equations
attribute [local simp] val
end

/-- `ZEROIEEE`, of the coefficient. -/
def zero : (ws : List Nat) → Coeff ws
  | [] => nil
  | w :: ws => cons (BitVec.ofNat w 0) (zero ws)

/-- `IS_IEEE_NZ_COEFF`: a field is not zero. -/
def isNonzero : {ws : List Nat} → Coeff ws → Bool
  | _, nil => false
  | _, cons p rest => p.toNat != 0 || rest.isNonzero

/-- The last field, or what is above the coefficient if there is none. -/
def low : {ws : List Nat} → Coeff ws → Nat → Nat
  | _, nil, above => above
  | _, cons p _, _ => p.toNat

/-- `SHLEFTIEEE`, with a bit that comes in below and the one that leaves above. -/
def shleft : {ws : List Nat} → Coeff ws → Nat → Coeff ws × Nat
  | _, nil, below => (nil, below)
  | _, cons (w := w) p rest, below =>
    let r := shleft rest (p.toNat >>> (w - 1))
    (cons (BitVec.ofNat w (p.toNat <<< 1 ||| below)) r.1, r.2)

/-- `SHRIGHTIEEE`, with bits above that go to the top: `coeff0 |= above << (C0_BITS - 1)`. -/
def shright : {ws : List Nat} → Coeff ws → Nat → Coeff ws
  | _, nil, _ => nil
  | _, cons (w := w) p rest, above =>
    cons (BitVec.ofNat w (p.toNat >>> 1 ||| rest.low above <<< (w - 1))) (shright rest above)

/-- `ADDIEEE`: the sum and the last carry. -/
def add : {ws : List Nat} → Coeff ws → Coeff ws → Nat → Coeff ws × Nat
  | _, nil, nil, carry => (nil, carry)
  | _, cons (w := w) p x, cons q y, carry =>
    let carry := carry + (p.toNat + q.toNat)
    let r := add x y (carry >>> w)
    (cons (BitVec.ofNat w carry) r.1, r.2)

/-- `INCIEEE`. -/
def inc : {ws : List Nat} → Coeff ws → Nat → Coeff ws × Nat
  | _, nil, carry => (nil, carry)
  | _, cons (w := w) p rest, carry =>
    let carry := carry + p.toNat
    let r := inc rest (carry >>> w)
    (cons (BitVec.ofNat w carry) r.1, r.2)

/-- `NOTIEEE`. -/
def not : {ws : List Nat} → Coeff ws → Coeff ws
  | _, nil => nil
  | _, cons (w := w) p rest => cons (p ^^^ BitVec.allOnes w) rest.not

/-! ## What they do -/

section values
variable {ws : List Nat}

theorem val_lt (x : Coeff ws) : x.val < 2 ^ ws.sum := by
  induction x with
  | nil => exact one_pos
  | @cons w ws p rest ih =>
    have hp := p.isLt
    have hmul : 2 ^ w * (rest.val + 1) ≤ 2 ^ w * 2 ^ ws.sum := mul_le_mul_left _ ih
    simp only [val, List.sum_cons, pow_add]
    rw [mul_add] at hmul
    omega

theorem val_zero (ws : List Nat) : (zero ws).val = 0 := by
  induction ws with
  | nil => rfl
  | cons w ws ih => simp [zero, val, ih]

theorem isNonzero_iff (x : Coeff ws) : x.isNonzero = true ↔ x.val ≠ 0 := by
  induction x with
  | nil => simp [isNonzero, val]
  | @cons w ws p rest ih =>
    have hpow : 2 ^ w ≠ 0 := (Nat.two_pow_pos w).ne'
    simp only [isNonzero, val, Bool.or_eq_true, bne_iff_ne, ih, ne_eq, Nat.add_eq_zero_iff,
      Nat.mul_eq_zero, hpow, false_or]
    tauto

theorem topBit_eq {w p : Nat} (hw : 1 ≤ w) (hp : p < 2 ^ w) :
    p >>> (w - 1) ≤ 1 ∧ 2 * p = 2 ^ w * (p >>> (w - 1)) + 2 * p % 2 ^ w := by
  obtain ⟨v, rfl⟩ : ∃ v, w = v + 1 := ⟨w - 1, by omega⟩
  rw [shiftRight_eq_div_pow, show v + 1 - 1 = v by omega]
  have hpow : 2 ^ (v + 1) = 2 * 2 ^ v := by ring
  have hpos := Nat.two_pow_pos v
  rw [hpow] at hp ⊢
  constructor
  · exact Nat.lt_succ_iff.mp ((Nat.div_lt_iff_lt_mul hpos).mpr (by omega))
  · rw [Nat.mul_mod_mul_left, Nat.mul_assoc, ← Nat.mul_add, Nat.div_add_mod]

theorem two_mul_or {p b : Nat} (hb : b ≤ 1) : p <<< 1 ||| b = 2 * p + b := by
  rw [shiftLeft_eq, pow_one, mul_comm]
  exact (two_pow_add_eq_or_of_lt (i := 1) (b := b) (by omega) p).symm

/-- One shift to the left over all pieces: the bit that leaves at the top and the pieces together
are twice the value. -/
theorem shleft_spec (x : Coeff ws) : ∀ (below : Nat), (∀ w ∈ ws, 1 ≤ w) → below ≤ 1 →
    (x.shleft below).1.val + 2 ^ ws.sum * (x.shleft below).2 = 2 * x.val + below ∧
      (x.shleft below).2 ≤ 1 := by
  induction x with
  | nil =>
    intro below _ hb
    simp [shleft, val, hb]
  | @cons w ws p rest ih =>
    intro below hws hb
    obtain ⟨htop, hsplit⟩ := topBit_eq (hws w (List.mem_cons_self ..)) p.isLt
    obtain ⟨hval, hout⟩ := ih (p.toNat >>> (w - 1)) (fun v hv => hws v (List.mem_cons_of_mem _ hv)) htop
    refine ⟨?_, hout⟩
    have hfield : (2 * p.toNat + below) % 2 ^ w = 2 * p.toNat % 2 ^ w + below := by
      obtain ⟨v, hv⟩ : ∃ v, w = v + 1 := ⟨w - 1, by have := hws w (List.mem_cons_self ..); omega⟩
      have hpow : 2 ^ w = 2 * 2 ^ v := by
        rw [hv]
        ring
      rw [hpow, Nat.mul_mod_mul_left] at *
      have hlt := Nat.mod_lt p.toNat (Nat.two_pow_pos v)
      rw [Nat.add_mod, Nat.mul_mod_mul_left, Nat.mod_eq_of_lt (show below < 2 * 2 ^ v by
        have := Nat.two_pow_pos v
        omega), Nat.mod_eq_of_lt (by omega)]
    simp only [shleft, val, BitVec.toNat_ofNat, List.sum_cons, Nat.pow_add, two_mul_or hb, hfield]
    calc 2 * p.toNat % 2 ^ w + below + 2 ^ w * (rest.shleft (p.toNat >>> (w - 1))).1.val +
          2 ^ w * 2 ^ ws.sum * (rest.shleft (p.toNat >>> (w - 1))).2
        = 2 * p.toNat % 2 ^ w + below + 2 ^ w * ((rest.shleft (p.toNat >>> (w - 1))).1.val +
            2 ^ ws.sum * (rest.shleft (p.toNat >>> (w - 1))).2) := by ring
      _ = 2 * p.toNat % 2 ^ w + below + 2 ^ w * (2 * rest.val + p.toNat >>> (w - 1)) := by rw [hval]
      _ = (2 ^ w * (p.toNat >>> (w - 1)) + 2 * p.toNat % 2 ^ w) + 2 * (2 ^ w * rest.val) + below := by
          ring
      _ = 2 * (p.toNat + 2 ^ w * rest.val) + below := by
          rw [← hsplit]
          ring

theorem shright_field {w p t : Nat} (hw : 1 ≤ w) (hp : p < 2 ^ w) :
    2 * ((p >>> 1 ||| t <<< (w - 1)) % 2 ^ w) + p % 2 = p + 2 ^ w * (t % 2) := by
  obtain ⟨v, rfl⟩ : ∃ v, w = v + 1 := ⟨w - 1, by omega⟩
  have hpow : 2 ^ (v + 1) = 2 * 2 ^ v := by ring
  have hhalf : p >>> 1 < 2 ^ v := by
    rw [shiftRight_eq_div_pow]
    omega
  rw [show v + 1 - 1 = v by omega, Nat.or_comm, Nat.shiftLeft_eq, Nat.mul_comm t,
    ← Nat.two_pow_add_eq_or_of_lt hhalf, hpow, Nat.mul_comm 2 (2 ^ v)]
  have hmod : (2 ^ v * t + p >>> 1) % (2 ^ v * 2) = 2 ^ v * (t % 2) + p >>> 1 := by
    rw [Nat.mod_mul, Nat.mul_add_mod, Nat.mod_eq_of_lt hhalf, Nat.mul_add_div (Nat.two_pow_pos v),
      Nat.div_eq_of_lt hhalf, Nat.add_zero, Nat.add_comm]
  rw [hmod, Nat.shiftRight_eq_div_pow]
  have : p = 2 * (p / 2 ^ 1) + p % 2 := by omega
  have : 2 ^ v * 2 * (t % 2) = 2 * (2 ^ v * (t % 2)) := by ring
  omega

theorem shright_spec (x : Coeff ws) (above : Nat) (hws : ∀ w ∈ ws, 1 ≤ w) :
    2 * (x.shright above).val + x.low above % 2 = x.val + 2 ^ ws.sum * (above % 2) := by
  induction x with
  | nil => simp [shright, val, low]
  | @cons w ws p rest ih =>
    have hrest := ih fun v hv => hws v (List.mem_cons_of_mem _ hv)
    have hfield := shright_field (t := rest.low above) (hws w (List.mem_cons_self ..)) p.isLt
    simp only [shright, val, low, BitVec.toNat_ofNat, List.sum_cons, pow_add]
    calc 2 * ((p.toNat >>> 1 ||| rest.low above <<< (w - 1)) % 2 ^ w +
          2 ^ w * (rest.shright above).val) + p.toNat % 2
        = (2 * ((p.toNat >>> 1 ||| rest.low above <<< (w - 1)) % 2 ^ w) + p.toNat % 2) +
            2 ^ w * (2 * (rest.shright above).val) := by ring
      _ = p.toNat + 2 ^ w * (2 * (rest.shright above).val + rest.low above % 2) := by
          rw [hfield]
          ring
      _ = p.toNat + 2 ^ w * rest.val + 2 ^ w * 2 ^ ws.sum * (above % 2) := by
          rw [hrest]
          ring

theorem low_parity (x : Coeff ws) (above : Nat) (hws : ∀ w ∈ ws, 1 ≤ w) (hne : ws ≠ []) :
    x.low above % 2 = x.val % 2 := by
  cases x with
  | nil => exact absurd rfl hne
  | @cons w ws p rest =>
    obtain ⟨v, rfl⟩ : ∃ v, w = v + 1 := ⟨w - 1, by have := hws w (List.mem_cons_self ..); omega⟩
    have : 2 ^ (v + 1) * rest.val = 2 * (2 ^ v * rest.val) := by ring
    simp only [low, val]
    omega

theorem carry_split (w v : Nat) : v % 2 ^ w + 2 ^ w * (v >>> w) = v := by
  rw [shiftRight_eq_div_pow, mod_add_div]

/-- The piecewise sum with its carry is the sum of the values, and the carry out is 0 or 1. -/
theorem add_spec (x : Coeff ws) : ∀ (y : Coeff ws) (carry : Nat), carry ≤ 1 →
    (x.add y carry).1.val + 2 ^ ws.sum * (x.add y carry).2 = x.val + y.val + carry ∧
      (x.add y carry).2 ≤ 1 := by
  induction x with
  | nil =>
    intro y carry hcarry
    cases y
    simp [add, val, hcarry]
  | @cons w ws p x ih =>
    intro y carry hcarry
    cases y with
    | cons q y =>
      have hp := p.isLt
      have hq := q.isLt
      have hle : (carry + (p.toNat + q.toNat)) >>> w ≤ 1 := by
        rw [Nat.shiftRight_eq_div_pow]
        exact Nat.lt_succ_iff.mp ((Nat.div_lt_iff_lt_mul (Nat.two_pow_pos w)).mpr (by omega))
      obtain ⟨hval, hout⟩ := ih y _ hle
      have hsplit := carry_split w (carry + (p.toNat + q.toNat))
      refine ⟨?_, hout⟩
      simp only [add, val, BitVec.toNat_ofNat, List.sum_cons, pow_add]
      calc _ = (carry + (p.toNat + q.toNat)) % 2 ^ w +
            2 ^ w * ((x.add y ((carry + (p.toNat + q.toNat)) >>> w)).1.val +
              2 ^ ws.sum * (x.add y ((carry + (p.toNat + q.toNat)) >>> w)).2) := by ring
        _ = ((carry + (p.toNat + q.toNat)) % 2 ^ w +
              2 ^ w * ((carry + (p.toNat + q.toNat)) >>> w)) + 2 ^ w * (x.val + y.val) := by
            rw [hval]
            ring
        _ = _ := by
            rw [hsplit]
            ring

theorem inc_spec (x : Coeff ws) : ∀ (carry : Nat), carry ≤ 1 →
    (x.inc carry).1.val + 2 ^ ws.sum * (x.inc carry).2 = x.val + carry ∧ (x.inc carry).2 ≤ 1 := by
  induction x with
  | nil =>
    intro carry hcarry
    simp [inc, val, hcarry]
  | @cons w ws p x ih =>
    intro carry hcarry
    have hp := p.isLt
    have hle : (carry + p.toNat) >>> w ≤ 1 := by
      rw [Nat.shiftRight_eq_div_pow]
      exact Nat.lt_succ_iff.mp ((Nat.div_lt_iff_lt_mul (Nat.two_pow_pos w)).mpr (by omega))
    obtain ⟨hval, hout⟩ := ih _ hle
    have hsplit := carry_split w (carry + p.toNat)
    refine ⟨?_, hout⟩
    simp only [inc, val, BitVec.toNat_ofNat, List.sum_cons, pow_add]
    calc _ = (carry + p.toNat) % 2 ^ w + 2 ^ w * ((x.inc ((carry + p.toNat) >>> w)).1.val +
            2 ^ ws.sum * (x.inc ((carry + p.toNat) >>> w)).2) := by ring
      _ = ((carry + p.toNat) % 2 ^ w + 2 ^ w * ((carry + p.toNat) >>> w)) + 2 ^ w * x.val := by
          rw [hval]
          ring
      _ = _ := by
          rw [hsplit]
          ring

theorem val_not (x : Coeff ws) : x.not.val + x.val + 1 = 2 ^ ws.sum := by
  induction x with
  | nil => rfl
  | @cons w ws p rest ih =>
    have hp := p.isLt
    have hfield : (p ^^^ BitVec.allOnes w).toNat = 2 ^ w - 1 - p.toNat := by
      rw [BitVec.xor_allOnes, BitVec.toNat_not]
    simp only [not, val, hfield, List.sum_cons, pow_add]
    calc 2 ^ w - 1 - p.toNat + 2 ^ w * rest.not.val + (p.toNat + 2 ^ w * rest.val) + 1
        = 2 ^ w * (rest.not.val + rest.val + 1) := by
          have : 2 ^ w * (rest.not.val + rest.val + 1)
              = 2 ^ w * rest.not.val + 2 ^ w * rest.val + 2 ^ w := by ring
          omega
      _ = 2 ^ w * 2 ^ ws.sum := by rw [ih]

end values

end Coeff

end Ieee
