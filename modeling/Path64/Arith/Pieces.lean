import Mathlib.Data.Nat.Bitwise
import Mathlib.Tactic.Ring

/-! # Integers in pieces of sixteen bits

The integers of `arith` are kept in 16-bit pieces: `part4` is the least
significant one, and a type of 16, 32 or 64 bits uses one, two or four of
them. Here a number of `n` pieces is a sequence with the least
significant piece first, and the code that the source writes out for each
size is a recursion over it. -/

namespace Arith

open Nat BitVec

/-! ## Pieces -/

/-- The pieces of a number, the least significant first. -/
inductive Parts : Nat → Type
  | nil : Parts 0
  | cons {n : Nat} (p : BitVec 16) (rest : Parts n) : Parts (n + 1)

namespace Parts

/-- The number the pieces stand for. -/
def val : {n : Nat} → Parts n → Nat
  | _, nil => 0
  | _, cons p rest => p.toNat + 65536 * rest.val

section
-- derives the equations
attribute [local simp] val
end

/-- The pieces of zero. -/
def zero : (n : Nat) → Parts n
  | 0 => nil
  | n + 1 => cons 0#16 (zero n)

/-- `ZERO_INT16_UPPER(i); i->part4 = v`. -/
def single (v : Nat) : (n : Nat) → Parts n
  | 0 => nil
  | n + 1 => cons (BitVec.ofNat 16 v) (zero n)

/-- `IS_INT16_ZERO` and the like: every piece is zero. -/
def isZero : {n : Nat} → Parts n → Bool
  | _, nil => true
  | _, cons p rest => p == 0#16 && rest.isZero

/-- `INT16_SIGN` and the like: the top bit of the top piece. -/
def sign : {n : Nat} → Parts n → Bool
  | _, nil => false
  | _, cons p nil => p.msb
  | _, cons _ (cons q rest) => (cons q rest).sign

/-- The piece at an index, zero beyond the last. -/
def get : {n : Nat} → Parts n → Nat → BitVec 16
  | _, nil, _ => 0#16
  | _, cons p _, 0 => p
  | _, cons _ rest, i + 1 => rest.get i

/-- The number with given pieces. -/
def ofFn : (n : Nat) → (Nat → BitVec 16) → Parts n
  | 0, _ => nil
  | n + 1, f => cons (f 0) (ofFn n fun i => f (i + 1))

/-- `part4 |= 1`. -/
def setLow : {n : Nat} → Parts n → Parts n
  | _, nil => nil
  | _, cons p rest => cons (p ||| 1#16) rest

/-- The one's complement: every piece with `0xFFFF`. -/
def complement : {n : Nat} → Parts n → Parts n
  | _, nil => nil
  | _, cons p rest => cons (0xFFFF#16 ^^^ p) rest.complement

/-! ## Addition, subtraction, shifts -/

/-- The addition of `ar_add_integer`, piece by piece: the sum and the last carry. -/
def add : {n : Nat} → Parts n → Parts n → Nat → Parts n × Nat
  | _, nil, nil, carry => (nil, carry)
  | _, cons p x, cons q y, carry =>
    let partialsum := p.toNat + q.toNat + carry
    let r := add x y (partialsum >>> 16)
    (cons (BitVec.ofNat 16 partialsum) r.1, r.2)

/-- The subtraction of `ar_subtract_integer`: the difference and the last borrow. -/
def sub : {n : Nat} → Parts n → Parts n → Nat → Parts n × Nat
  | _, nil, nil, carry => (nil, carry)
  | _, cons p x, cons q y, carry =>
    let partialdiff : Int := p.toNat - q.toNat - carry
    let r := sub x y (if partialdiff < 0 then 1 else 0)
    (cons (BitVec.ofInt 16 partialdiff) r.1, r.2)

/-- A piece of the concatenation of `hi` and `lo`. -/
def joined {n : Nat} (hi lo : Parts n) (i : Nat) : BitVec 16 :=
  if i < n then lo.get i else hi.get (i - n)

/-- A chunk of `ar_dblshift`, numbered from the least one. -/
def chunk {n : Nat} (hi lo : Parts n) (sc i : Nat) : BitVec 16 :=
  joined hi lo i >>> sc ||| joined hi lo ((i + 1) % (2 * n)) <<< (16 - sc)

/-- `ar_dblshift`: the low half of the double number after a circular shift to the right. -/
def dblshift {n : Nat} (hi lo : Parts n) (shiftcount : Nat) : Parts n :=
  ofFn n fun i => chunk hi lo (shiftcount % 16) ((shiftcount / 16 + i) % (2 * n))

/-- `AR_shiftl`, by the value of the count; a count that is too large gives zero. -/
def shiftl {n : Nat} (x : Parts n) (count : Nat) : Parts n :=
  if count > 16 * n - 1 then zero n else dblshift (zero n) x (32 * n - count)

/-- `AR_shiftr` of an unsigned number. -/
def shiftr {n : Nat} (x : Parts n) (count : Nat) : Parts n :=
  if count > 16 * n - 1 then zero n else dblshift (zero n) x count

/-- The loop of `AR_leadz` over the bits of a piece. -/
def leadzPiece (p : BitVec 16) : Nat → BitVec 16 → Nat
  | 0, _ => 0
  | fuel + 1, mask => if mask &&& p = 0#16 then leadzPiece p fuel (mask >>> 1) + 1 else 0

/-- `AR_leadz`: the zero bits above the top bit that is set. -/
def leadz : {n : Nat} → Parts n → Nat
  | _, nil => 0
  | n + 1, cons p rest =>
    if rest.isZero = false then rest.leadz
    else 16 * n + if p ≠ 0#16 then leadzPiece p 16 0x8000#16 else 16

/-! ## What the pieces stand for -/

variable {n : Nat}

/-- The number of values of `n` pieces. -/
def card (n : Nat) : Nat := 2 ^ (16 * n)

theorem card_zero : card 0 = 1 := rfl

theorem card_succ (n : Nat) : card (n + 1) = 65536 * card n := by
  unfold card
  rw [show 16 * (n + 1) = 16 + 16 * n by omega, Nat.pow_add]

theorem card_pos (n : Nat) : 0 < card n := Nat.two_pow_pos _

theorem val_lt (x : Parts n) : x.val < card n := by
  induction x with
  | nil => exact one_pos
  | cons p rest ih =>
    have hp := p.isLt
    rw [card_succ]
    simp only [val]
    omega

theorem val_zero (n : Nat) : (zero n).val = 0 := by
  induction n with
  | zero => rfl
  | succ n ih => simp [zero, val, ih]

theorem val_single {v : Nat} (hn : 0 < n) (hv : v < 65536) : (single v n).val = v := by
  obtain ⟨n, rfl⟩ := exists_eq_succ_of_ne_zero (show n ≠ 0 by omega)
  simp [single, val, val_zero, mod_eq_of_lt hv]

theorem isZero_iff (x : Parts n) : x.isZero = true ↔ x.val = 0 := by
  induction x with
  | nil => simp [isZero, val]
  | cons p rest ih =>
    have hp : p = 0#16 ↔ p.toNat = 0 := by
      rw [← toNat_inj]
      rfl
    simp only [isZero, val, Bool.and_eq_true, beq_iff_eq, ih, hp]
    omega

theorem sign_iff (x : Parts n) (hn : 0 < n) : x.sign = true ↔ card n ≤ 2 * x.val := by
  induction x with
  | nil => omega
  | cons p rest ih =>
    cases rest with
    | nil =>
      simp only [sign, val, msb_eq_decide, decide_eq_true_eq, card_succ, card_zero]
      omega
    | cons q rest =>
      have hp := p.isLt
      rw [sign, ih (succ_pos _), card_succ (_ + 1)]
      simp only [val, card_succ]
      omega

theorem card_even (hn : 0 < n) : 2 * (card n / 2) = card n := by
  obtain ⟨n, rfl⟩ := exists_eq_succ_of_ne_zero (show n ≠ 0 by omega)
  rw [card_succ]
  omega

theorem val_setLow (x : Parts n) (hn : 0 < n) (heven : x.val % 2 = 0) :
    x.setLow.val = x.val + 1 := by
  cases x with
  | nil => omega
  | cons p rest =>
    simp only [val] at heven
    simp only [setLow, val, toNat_or]
    have hor : p.toNat ||| (1#16).toNat = p.toNat + 1 := by
      have hsplit := two_pow_add_eq_or_of_lt (i := 1) (b := 1) (by decide) (p.toNat / 2)
      rw [show 2 ^ 1 * (p.toNat / 2) = p.toNat by omega] at hsplit
      exact hsplit.symm
    omega

theorem val_complement (x : Parts n) : x.complement.val + x.val + 1 = card n := by
  induction x with
  | nil => rfl
  | cons p rest ih =>
    have hp := p.isLt
    have hxor : (0xFFFF#16 ^^^ p).toNat = 65535 - p.toNat := by
      have hnot : 0xFFFF#16 ^^^ p = ~~~p := allOnes_xor
      rw [hnot, toNat_not]
    rw [card_succ]
    simp only [complement, val, hxor]
    omega

/-! ## Sums and differences -/

theorem add_spec : ∀ {n : Nat} (x y : Parts n) (carry : Nat), carry ≤ 1 →
    (add x y carry).1.val + card n * (add x y carry).2 = x.val + y.val + carry ∧
      (add x y carry).2 ≤ 1 := by
  intro n x
  induction x with
  | nil =>
    intro y carry hcarry
    cases y
    simp [add, val, card_zero, hcarry]
  | cons p x ih =>
    intro y carry hcarry
    cases y with
    | cons q y =>
      have hp := p.isLt
      have hq := q.isLt
      have hdiv : (p.toNat + q.toNat + carry) >>> 16 = (p.toNat + q.toNat + carry) / 65536 :=
        shiftRight_eq_div_pow _ 16
      obtain ⟨hsum, hle⟩ := ih y ((p.toNat + q.toNat + carry) >>> 16) (by omega)
      refine ⟨?_, hle⟩
      simp only [add, val, toNat_ofNat, card_succ, mul_assoc]
      omega

theorem sub_spec : ∀ {n : Nat} (x y : Parts n) (carry : Nat), carry ≤ 1 →
    (sub x y carry).1.val + y.val + carry = x.val + card n * (sub x y carry).2 ∧
      (sub x y carry).2 ≤ 1 := by
  intro n x
  induction x with
  | nil =>
    intro y carry hcarry
    cases y
    simp [sub, val, card_zero, hcarry]
  | cons p x ih =>
    intro y carry hcarry
    cases y with
    | cons q y =>
      have hp := p.isLt
      have hq := q.isLt
      have hborrow : (if (p.toNat : Int) - q.toNat - carry < 0 then 1 else 0) ≤ 1 := by
        split <;> omega
      obtain ⟨hdiff, hle⟩ := ih y (if (p.toNat : Int) - q.toNat - carry < 0 then 1 else 0) hborrow
      refine ⟨?_, hle⟩
      have hpiece : ((BitVec.ofInt 16 ((p.toNat : Int) - q.toNat - carry)).toNat : Int)
          = ((p.toNat : Int) - q.toNat - carry) % 65536 := by
        rw [toNat_ofInt]
        exact Int.toNat_of_nonneg (Int.emod_nonneg _ (by decide))
      simp only [sub, val, card_succ, mul_assoc]
      split at hdiff <;> rename_i hneg <;> simp only [hneg, if_true, if_false] <;> omega

/-! ## Shifts -/

theorem get_eq_zero : ∀ {n : Nat} (x : Parts n) {i : Nat}, n ≤ i → x.get i = 0#16 := by
  intro n x
  induction x with
  | nil =>
    intro i _
    rfl
  | cons p rest ih =>
    intro i hi
    obtain ⟨i, rfl⟩ := exists_eq_succ_of_ne_zero (show i ≠ 0 by omega)
    exact ih (by omega)

theorem get_ofFn : ∀ {n : Nat} (f : Nat → BitVec 16) {i : Nat}, i < n → (ofFn n f).get i = f i := by
  intro n
  induction n with
  | zero =>
    intro f i hi
    omega
  | succ n ih =>
    intro f i hi
    cases i with
    | zero => rfl
    | succ i => exact ih _ (by omega)

theorem testBit_val : ∀ {n : Nat} (x : Parts n) (b : Nat),
    x.val.testBit b = (x.get (b / 16)).getLsbD (b % 16) := by
  intro n x
  induction x with
  | nil =>
    intro b
    simp [val, get]
  | cons p rest ih =>
    intro b
    have hsum : (cons p rest).val = 2 ^ 16 * rest.val + p.toNat := by
      simp only [val]
      omega
    rw [hsum, testBit_two_pow_mul_add _ p.isLt]
    by_cases hb : b < 16
    · rw [if_pos hb, show b / 16 = 0 by omega, show b % 16 = b by omega]
      rfl
    · rw [if_neg hb, ih, show b / 16 = (b - 16) / 16 + 1 by omega,
        show b % 16 = (b - 16) % 16 by omega]
      rfl

theorem get_zero (n i : Nat) : (zero n).get i = 0#16 := by
  apply eq_of_getLsbD_eq
  intro j hj
  have hbit := testBit_val (zero n) (16 * i + j)
  rw [val_zero, show (16 * i + j) / 16 = i by omega, show (16 * i + j) % 16 = j by omega] at hbit
  simpa using hbit.symm

theorem chunk_bit (hi lo : Parts n) {sc j b : Nat} (hsc : sc < 16) (hb : b < 16) (hj : j < 2 * n) :
    (chunk hi lo sc j).getLsbD b
      = (joined hi lo ((16 * j + b + sc) / 16 % (2 * n))).getLsbD ((b + sc) % 16) := by
  unfold chunk
  rw [getLsbD_or, getLsbD_ushiftRight, getLsbD_shiftLeft]
  by_cases hlow : b + sc < 16
  · rw [show (16 * j + b + sc) / 16 = j by omega, mod_eq_of_lt hj,
      show (b + sc) % 16 = sc + b by omega]
    simp [hb, show b < 16 - sc by omega]
  · rw [show (16 * j + b + sc) / 16 = j + 1 by omega, getLsbD_of_ge _ _ (by omega)]
    simp [hb, show ¬ b < 16 - sc by omega, show b - (16 - sc) = (b + sc) % 16 by omega]

theorem testBit_dblshift (hi lo : Parts n) {s b : Nat} (hb : b < 16 * n) :
    (dblshift hi lo s).val.testBit b
      = (joined hi lo ((b + s) / 16 % (2 * n))).getLsbD ((b + s) % 16) := by
  have hpos : 0 < 2 * n := by omega
  unfold dblshift
  rw [testBit_val, get_ofFn _ (show b / 16 < n by omega),
    chunk_bit hi lo (mod_lt _ (by decide)) (mod_lt _ (by decide)) (mod_lt _ hpos)]
  have hbit : (b % 16 + s % 16) % 16 = (b + s) % 16 := by omega
  have hpiece : (16 * ((s / 16 + b / 16) % (2 * n)) + b % 16 + s % 16) / 16 % (2 * n)
      = (b + s) / 16 % (2 * n) := by
    rw [show (16 * ((s / 16 + b / 16) % (2 * n)) + b % 16 + s % 16) / 16
      = (s / 16 + b / 16) % (2 * n) + (b % 16 + s % 16) / 16 by omega, mod_add_mod]
    congr 1
    omega
  rw [hbit, hpiece]

theorem val_shiftl (x : Parts n) (count : Nat) (hcount : count < 16 * n) :
    (shiftl x count).val = x.val * 2 ^ count % card n := by
  unfold shiftl
  rw [if_neg (by omega)]
  apply eq_of_testBit_eq
  intro b
  unfold card
  rw [testBit_mod_two_pow, mul_comm x.val, testBit_two_pow_mul]
  by_cases hb : b < 16 * n
  · rw [testBit_dblshift _ _ hb]
    by_cases hlow : count ≤ b
    · -- the shift goes all the way round
      have hround : (b + (32 * n - count)) / 16 = (b - count) / 16 + 2 * n := by omega
      rw [hround, add_mod_right, mod_eq_of_lt (show (b - count) / 16 < 2 * n by omega),
        joined, if_pos (by omega), show (b + (32 * n - count)) % 16 = (b - count) % 16 by omega,
        ← testBit_val]
      simp [hb, hlow]
    · rw [mod_eq_of_lt (show (b + (32 * n - count)) / 16 < 2 * n by omega), joined,
        if_neg (by omega), get_zero]
      simp [hlow]
  · have hbig : (dblshift (zero n) x (32 * n - count)).val < 2 ^ b :=
      Nat.lt_of_lt_of_le (val_lt _) (Nat.pow_le_pow_right (by decide) (by omega))
    rw [Nat.testBit_lt_two_pow hbig]
    simp [hb]

theorem val_shiftr (x : Parts n) (count : Nat) (hcount : count < 16 * n) :
    (shiftr x count).val = x.val / 2 ^ count := by
  unfold shiftr
  rw [if_neg (by omega)]
  apply eq_of_testBit_eq
  intro b
  rw [testBit_div_two_pow]
  by_cases hb : b < 16 * n
  · rw [testBit_dblshift _ _ hb, testBit_val, mod_eq_of_lt (by omega)]
    unfold joined
    by_cases hin : (b + count) / 16 < n
    · rw [if_pos hin]
    · rw [if_neg hin, get_zero, get_eq_zero x (by omega)]
  · have hbig : (dblshift (zero n) x count).val < 2 ^ b :=
      Nat.lt_of_lt_of_le (val_lt _) (Nat.pow_le_pow_right (by decide) (by omega))
    rw [Nat.testBit_lt_two_pow hbig, testBit_val, get_eq_zero x (by omega)]
    simp

/-! ## Leading zeros -/

/-- The scan for the leading one of a piece, by induction on the bit it looks at. -/
theorem leadzPiece_spec (p : BitVec 16) (hp : p ≠ 0#16) : ∀ (d : Nat) (fuel : Nat), d < 16 →
    d < fuel → p.toNat < 2 ^ (d + 1) → leadzPiece p fuel (BitVec.ofNat 16 (2 ^ d)) ≤ d ∧
      2 ^ (d - leadzPiece p fuel (BitVec.ofNat 16 (2 ^ d))) ≤ p.toNat ∧
      p.toNat < 2 ^ (d - leadzPiece p fuel (BitVec.ofNat 16 (2 ^ d)) + 1) := by
  intro d
  induction d with
  | zero =>
    intro fuel _ hfuel hlt
    obtain ⟨fuel, rfl⟩ := exists_eq_succ_of_ne_zero (show fuel ≠ 0 by omega)
    have hpos : p.toNat ≠ 0 := by
      intro h
      exact hp (eq_of_toNat_eq h)
    obtain rfl : p = 1#16 := eq_of_toNat_eq (by simp only [toNat_ofNat]; omega)
    simp [leadzPiece]
  | succ d ih =>
    intro fuel hd hfuel hlt
    obtain ⟨fuel, rfl⟩ := exists_eq_succ_of_ne_zero (show fuel ≠ 0 by omega)
    have hmask : (BitVec.ofNat 16 (2 ^ (d + 1))).toNat = 2 ^ (d + 1) := by
      rw [toNat_ofNat]
      exact Nat.mod_eq_of_lt (Nat.pow_lt_pow_right (by decide) hd)
    have hand : BitVec.ofNat 16 (2 ^ (d + 1)) &&& p = 0#16 ↔ p.toNat < 2 ^ (d + 1) := by
      rw [← toNat_inj, toNat_and, hmask, Nat.and_comm, Nat.and_two_pow]
      change _ = 0 ↔ _
      by_cases hbit : p.toNat < 2 ^ (d + 1)
      · simp [testBit_lt_two_pow hbit, hbit]
      · have htop : p.toNat.testBit (d + 1) = true := by
          rw [Nat.testBit_eq_decide_div_mod_eq, decide_eq_true_eq]
          have hone : p.toNat / 2 ^ (d + 1) = 1 := by
            rw [Nat.div_eq_iff (Nat.two_pow_pos _)]
            rw [Nat.pow_succ] at hlt
            omega
          rw [hone]
        simp [htop, hbit]
    have hnext : BitVec.ofNat 16 (2 ^ (d + 1)) >>> 1 = BitVec.ofNat 16 (2 ^ d) := by
      apply eq_of_toNat_eq
      rw [toNat_ushiftRight, hmask, Nat.shiftRight_eq_div_pow, Nat.pow_succ,
        Nat.pow_one, Nat.mul_div_cancel _ (by decide), toNat_ofNat]
      exact (Nat.mod_eq_of_lt (Nat.pow_lt_pow_right (by decide) (by omega))).symm
    unfold leadzPiece
    by_cases hzero : p.toNat < 2 ^ (d + 1)
    · rw [if_pos (hand.mpr hzero), hnext]
      obtain ⟨h1, h2, h3⟩ := ih fuel (by omega) (by omega) hzero
      rw [show d + 1 - (leadzPiece p fuel (BitVec.ofNat 16 (2 ^ d)) + 1)
        = d - leadzPiece p fuel (BitVec.ofNat 16 (2 ^ d)) by omega]
      exact ⟨by omega, h2, h3⟩
    · rw [if_neg (fun h => hzero (hand.mp h))]
      exact ⟨zero_le _, by simpa using hzero, hlt⟩

/-- `leadz` brackets the value between two powers of 2. -/
theorem leadz_spec : ∀ {n : Nat} (x : Parts n), x.val ≠ 0 →
    x.leadz < 16 * n ∧ 2 ^ (16 * n - 1 - x.leadz) ≤ x.val ∧ x.val < 2 ^ (16 * n - x.leadz) := by
  intro n x
  induction x with
  | nil =>
    intro h
    exact absurd rfl h
  | @cons n p rest ih =>
    intro hne
    have hp := p.isLt
    unfold leadz
    by_cases hzero : rest.isZero = false
    · -- the top bit is in a higher piece
      rw [if_pos hzero]
      have hrest : rest.val ≠ 0 := by
        intro h
        rw [(isZero_iff rest).mpr h] at hzero
        cases hzero
      obtain ⟨h1, h2, h3⟩ := ih hrest
      have hlo : 2 ^ (16 * (n + 1) - 1 - rest.leadz) = 65536 * 2 ^ (16 * n - 1 - rest.leadz) := by
        rw [show 16 * (n + 1) - 1 - rest.leadz = 16 + (16 * n - 1 - rest.leadz) by omega,
          Nat.pow_add]
      have hhi : 2 ^ (16 * (n + 1) - rest.leadz) = 65536 * 2 ^ (16 * n - rest.leadz) := by
        rw [show 16 * (n + 1) - rest.leadz = 16 + (16 * n - rest.leadz) by omega, Nat.pow_add]
      rw [hlo, hhi]
      simp only [val]
      omega
    · rw [if_neg hzero]
      have hrest : rest.val = 0 := (isZero_iff rest).mp (by simpa using hzero)
      simp only [val, hrest] at hne ⊢
      have hpne : p ≠ 0#16 := by
        rintro rfl
        exact hne rfl
      rw [if_pos hpne]
      obtain ⟨h1, h2, h3⟩ := leadzPiece_spec p hpne 15 16 (by decide) (by decide) hp
      change leadzPiece p 16 0x8000#16 ≤ 15 at h1
      change 2 ^ (15 - leadzPiece p 16 0x8000#16) ≤ p.toNat at h2
      change p.toNat < 2 ^ (15 - leadzPiece p 16 0x8000#16 + 1) at h3
      rw [show 16 * (n + 1) - 1 - (16 * n + leadzPiece p 16 0x8000#16)
          = 15 - leadzPiece p 16 0x8000#16 by omega,
        show 16 * (n + 1) - (16 * n + leadzPiece p 16 0x8000#16)
          = 15 - leadzPiece p 16 0x8000#16 + 1 by omega]
      exact ⟨by omega, by omega, by omega⟩

end Parts

end Arith
