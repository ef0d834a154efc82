import Path64.X8664.DivideUnsigned

/-! # Division by a 64-bit constant

The pseudo-inverse of a divisor is a quotient of a power of two, rounded
up, which the compiler takes bit by bit. The running remainder stays
in a word for divisors up to 2 ^ 63; for a larger one the shift may
lose its top bit, and then the inverse is too small. -/

namespace X8664

open Nat BitVec

/-! ## The width of a divisor -/

theorem widthLoop_spec {b : Nat} (hb : b ≤ 2 ^ 64) : ∀ fuel n, n + fuel = 65 →
    1 ≤ n → 2 ^ (n - 1) < b →
    ∃ n', widthLoop (b - 1) fuel n (2 ^ n - 1) = (n', 2 ^ n' - 1) ∧ n ≤ n' ∧
      2 ^ (n' - 1) < b ∧ b ≤ 2 ^ n' := by
  intro fuel
  induction fuel with
  | zero =>
    intro n hn _ hlt
    obtain rfl : n = 65 := by omega
    exact absurd hlt (by simpa using hb)
  | succ fuel ih =>
    intro n hn h1 hlt
    unfold widthLoop
    have hone : 1 ≤ 2 ^ n := Nat.two_pow_pos n
    by_cases hm : 2 ^ n - 1 < b - 1
    · have hpow : 2 ^ n < 2 ^ 64 := by omega
      have hn64 : n < 64 := (Nat.pow_lt_pow_iff_right (by decide)).mp hpow
      have hnext : word (2 * (2 ^ n - 1) + 1) = 2 ^ (n + 1) - 1 := by
        have hle : 2 ^ (n + 1) ≤ 2 ^ 64 := Nat.pow_le_pow_right (by decide) (by omega)
        have hdouble : 2 ^ (n + 1) = 2 * 2 ^ n := by rw [Nat.pow_succ, Nat.mul_comm]
        rw [word, mod_eq_of_lt (by omega)]
        omega
      have hstep : 2 ^ (n + 1 - 1) < b := by
        rw [Nat.add_sub_cancel]
        omega
      obtain ⟨n', hloop, hle, hlt', hge⟩ := ih (n + 1) (by omega) (by omega) hstep
      exact ⟨n', by rw [if_pos hm, hnext, hloop], by omega, hlt', hge⟩
    · exact ⟨n, if_neg hm, le_rfl, hlt, by omega⟩

theorem width_spec {b : Nat} (hb : 1 < b) (hb64 : b < 2 ^ 64) (hpow : ¬ b.isPowerOfTwo) :
    ∃ n, widthLoop (word (b + 2 ^ 64 - 1)) 64 1 1 = (n, 2 ^ n - 1) ∧ 1 ≤ n ∧ n ≤ 64 ∧
      2 ^ (n - 1) < b ∧ b < 2 ^ n := by
  have hword : word (b + 2 ^ 64 - 1) = b - 1 := by
    unfold word
    omega
  obtain ⟨n, hloop, hn, hlo, hhi⟩ := widthLoop_spec (b := b) (by omega) 64 1 rfl le_rfl hb
  have hlt : b < 2 ^ n := by
    rcases lt_or_eq_of_le hhi with h | h
    · exact h
    · exact absurd ⟨n, h⟩ hpow
  have hn64 : n - 1 < 64 :=
    (Nat.pow_lt_pow_iff_right (show 1 < 2 by decide)).mp (by omega)
  exact ⟨n, by rw [hword]; exact hloop, hn, by omega, hlo, hlt⟩

/-! ## The bit-serial division -/

/-- The loop with all bits of the quotient. -/
def inverseBits (b : Nat) : Nat → Nat → Nat → Nat
  | 0, q, _ => q
  | steps + 1, q, m =>
    if m ≥ b then inverseBits b steps (2 * q + 1) (word (2 * (m - b) + 1))
    else inverseBits b steps (2 * q) (word (2 * m + 1))

theorem inverseLoop_eq (b steps q m : Nat) :
    inverseLoop b steps (word q) m = word (inverseBits b steps q m) := by
  induction steps generalizing q m with
  | zero => rfl
  | succ steps ih =>
    have hdouble : word (2 * word q) = word (2 * q) := by
      unfold word
      omega
    have hodd : word (2 * q) + 1 = word (2 * q + 1) := by
      unfold word
      omega
    unfold inverseLoop inverseBits
    by_cases hm : m ≥ b
    · rw [if_pos hm, if_pos hm, hdouble, hodd, ih]
    · rw [if_neg hm, if_neg hm, hdouble, ih]

theorem inverseBits_bounds (b steps q m : Nat) :
    q * 2 ^ steps ≤ inverseBits b steps q m ∧ inverseBits b steps q m < (q + 1) * 2 ^ steps := by
  induction steps generalizing q m with
  | zero => simp [inverseBits]
  | succ steps ih =>
    have hpow : 2 ^ (steps + 1) = 2 * 2 ^ steps := by rw [Nat.pow_succ, Nat.mul_comm]
    have hpos : 0 < 2 ^ steps := Nat.two_pow_pos steps
    unfold inverseBits
    rw [hpow]
    split
    · obtain ⟨hlo, hhi⟩ := ih (2 * q + 1) (word (2 * (m - b) + 1))
      constructor <;> linarith
    · obtain ⟨hlo, hhi⟩ := ih (2 * q) (word (2 * m + 1))
      constructor <;> linarith

variable {N maxbits n w D d : Nat} {t : Mtype} {e : Expanded}

theorem division_step {b : Nat} (hb : 0 < b) :
    (2 * N + 1) / (2 * b) = N / b ∧ (2 * N + 1) % (2 * b) = 2 * (N % b) + 1 ∧
      N / b = 2 * (N / (2 * b)) + (if N % (2 * b) ≥ b then 1 else 0) ∧
      N % b = if N % (2 * b) ≥ b then N % (2 * b) - b else N % (2 * b) := by
  obtain ⟨hq, hr⟩ := Magic.quot_mul (x := N) hb
  obtain ⟨hq2, hr2⟩ := Magic.quot_mul (x := N) (show 0 < 2 * b by omega)
  have hnext : 2 * N + 1 = 2 * (N % b) + 1 + 2 * b * (N / b) := by
    have : 2 * b * (N / b) = 2 * (N / b * b) := by ring
    omega
  refine ⟨?_, ?_, ?_⟩
  · rw [hnext, add_mul_div_left _ _ (by omega), div_eq_of_lt (by omega), zero_add]
  · rw [hnext, add_mul_mod_self_left, mod_eq_of_lt (by omega)]
  · have hN : N = N % (2 * b) + b * (2 * (N / (2 * b))) := by
      have : N / (2 * b) * (2 * b) = b * (2 * (N / (2 * b))) := by ring
      omega
    have hdiv : N / b = 2 * (N / (2 * b)) + N % (2 * b) / b := by
      conv_lhs => rw [hN, add_mul_div_left _ _ hb, add_comm]
    have hmod : N % b = N % (2 * b) % b := by
      conv_lhs => rw [hN, add_mul_mod_self_left]
    by_cases hge : N % (2 * b) ≥ b
    · rw [hdiv, hmod, if_pos hge, if_pos hge, mod_eq_sub_mod hge,
        mod_eq_of_lt (show N % (2 * b) - b < b by omega)]
      refine ⟨?_, rfl⟩
      congr 1
      apply Nat.div_eq_of_lt_le <;> omega
    · rw [hdiv, hmod, if_neg hge, if_neg hge,
        mod_eq_of_lt (show N % (2 * b) < b by omega),
        div_eq_of_lt (show N % (2 * b) < b by omega)]
      exact ⟨rfl, rfl⟩

theorem inverseBits_succ {b : Nat} (hb : 0 < b) (steps N : Nat) :
    inverseBits b (steps + 1) (N / (2 * b)) (N % (2 * b))
      = inverseBits b steps ((2 * N + 1) / (2 * b)) (word ((2 * N + 1) % (2 * b))) := by
  obtain ⟨hq, hr, hbit, hrem⟩ := division_step (N := N) hb
  rw [hq, hr, hbit, hrem]
  conv_lhs => unfold inverseBits
  by_cases hge : N % (2 * b) ≥ b
  · rw [if_pos hge, if_pos hge, if_pos hge]
  · rw [if_neg hge, if_neg hge, if_neg hge]
    rfl

theorem two_pow_pred_succ (k : Nat) : 2 * (2 ^ k - 1) + 1 = 2 ^ (k + 1) - 1 := by
  have hdouble : 2 ^ (k + 1) = 2 * 2 ^ k := by rw [Nat.pow_succ, Nat.mul_comm]
  have hone : 1 ≤ 2 ^ k := Nat.two_pow_pos k
  omega

theorem inverseBits_exact {b : Nat} (hb : 0 < b) : ∀ steps k,
    (∀ i, i + 1 < steps → (2 ^ (k + i) - 1) % b < 2 ^ 63) →
    inverseBits b steps ((2 ^ k - 1) / (2 * b)) ((2 ^ k - 1) % (2 * b))
      = (2 ^ (k + steps) - 1) / (2 * b) := by
  intro steps
  induction steps with
  | zero => exact fun k _ => rfl
  | succ steps ih =>
    intro k hsmall
    have hk : k + (steps + 1) = k + 1 + steps := by omega
    rw [inverseBits_succ hb, two_pow_pred_succ, hk]
    cases steps with
    | zero => rfl
    | succ steps =>
      have hfirst := hsmall 0 (by omega)
      rw [add_zero] at hfirst
      have hword : word ((2 ^ (k + 1) - 1) % (2 * b)) = (2 ^ (k + 1) - 1) % (2 * b) := by
        rw [← two_pow_pred_succ, (division_step hb).2.1]
        exact mod_eq_of_lt (by omega)
      rw [hword]
      refine ih (k + 1) fun i hi => ?_
      have := hsmall (i + 1) (by omega)
      rwa [show k + 1 + i = k + (i + 1) by omega]

theorem inverseBits_lt {b : Nat} (hb : 0 < b) (hb64 : b < 2 ^ 64) : ∀ steps k,
    (∃ i, i + 1 < steps ∧ 2 ^ 63 ≤ (2 ^ (k + i) - 1) % b) →
    inverseBits b steps ((2 ^ k - 1) / (2 * b)) ((2 ^ k - 1) % (2 * b))
      < (2 ^ (k + steps) - 1) / (2 * b) := by
  intro steps
  induction steps with
  | zero =>
    rintro k ⟨i, hi, -⟩
    omega
  | succ steps ih =>
    rintro k ⟨i, hi, hlarge⟩
    have hk : k + (steps + 1) = k + 1 + steps := by omega
    obtain ⟨-, hr, -, -⟩ := division_step (N := 2 ^ k - 1) hb
    rw [two_pow_pred_succ] at hr
    rw [inverseBits_succ hb, two_pow_pred_succ, hk]
    by_cases hloss : 2 ^ 63 ≤ (2 ^ k - 1) % b
    · -- the bit is lost here
      obtain ⟨rest, rfl⟩ : ∃ rest, steps = rest + 1 := ⟨steps - 1, by omega⟩
      have hrem := mod_lt (2 ^ k - 1) hb
      have hword : word ((2 ^ (k + 1) - 1) % (2 * b)) < b := by
        rw [hr, word]
        omega
      have hcode : inverseBits b (rest + 1) ((2 ^ (k + 1) - 1) / (2 * b))
          (word ((2 ^ (k + 1) - 1) % (2 * b)))
          < (2 * ((2 ^ (k + 1) - 1) / (2 * b)) + 1) * 2 ^ rest := by
        unfold inverseBits
        rw [if_neg (by omega)]
        exact (inverseBits_bounds b rest _ _).2
      obtain ⟨hq', -, hbit', -⟩ := division_step (N := 2 ^ (k + 1) - 1) hb
      rw [if_pos (by omega)] at hbit'
      rw [two_pow_pred_succ] at hq'
      refine lt_of_lt_of_le hcode ?_
      calc (2 * ((2 ^ (k + 1) - 1) / (2 * b)) + 1) * 2 ^ rest
          = 2 ^ rest * ((2 ^ (k + 1 + 1) - 1) / (2 * b)) := by
            rw [hq', hbit', Nat.mul_comm]
        _ ≤ 2 ^ rest * (2 ^ (k + 1 + 1) - 1) / (2 * b) := Nat.mul_div_le_mul_div_assoc _ _ _
        _ ≤ (2 ^ (k + 1 + (rest + 1)) - 1) / (2 * b) := by
            apply Nat.div_le_div_right
            have hpow : 2 ^ (k + 1 + (rest + 1)) = 2 ^ rest * 2 ^ (k + 1 + 1) := by
              rw [← Nat.pow_add]
              congr 1
              omega
            have := Nat.two_pow_pos rest
            rw [hpow, Nat.mul_sub]
            omega
    · have hword : word ((2 ^ (k + 1) - 1) % (2 * b)) = (2 ^ (k + 1) - 1) % (2 * b) := by
        rw [hr]
        exact mod_eq_of_lt (by omega)
      rw [hword]
      refine ih (k + 1) ?_
      cases i with
      | zero => exact absurd hlarge hloss
      | succ j => exact ⟨j, by omega, by rwa [show k + 1 + j = k + (j + 1) by omega]⟩

/-! ## The pseudo-inverse -/

/-- The remainders of the powers of two, of which the loop shifts one less, stay in a word. -/
def RemaindersFit (b : Nat) : Prop := ∀ i < 64, 2 ^ (64 + i) % b ≤ 2 ^ 63

instance (b : Nat) : Decidable (RemaindersFit b) :=
  inferInstanceAs (Decidable (∀ i < 64, 2 ^ (64 + i) % b ≤ 2 ^ 63))

theorem remaindersFit_of_le {b : Nat} (hb : 0 < b) (h : b ≤ 2 ^ 63) : RemaindersFit b := by
  intro i _
  have := mod_lt (2 ^ (64 + i)) hb
  omega

theorem pred_mod {b : Nat} (hb : 0 < b) (hr : N % b ≠ 0) : (N - 1) % b = N % b - 1 := by
  have hdiv := div_add_mod N b
  have hlt := mod_lt N hb
  have hsum : N - 1 = N % b - 1 + b * (N / b) := by omega
  rw [hsum, add_mul_mod_self_left]
  exact mod_eq_of_lt (by omega)

theorem remaindersFit_iff {b : Nat} (h1 : 1 < b) (hodd : b % 2 = 1) :
    RemaindersFit b ↔ ∀ i < 64, (2 ^ (64 + i) - 1) % b < 2 ^ 63 := by
  refine forall_congr' fun i => forall_congr' fun _ => ?_
  have hr : 2 ^ (64 + i) % b ≠ 0 := fun h =>
    odd_not_dvd_two_pow h1 hodd (dvd_of_mod_eq_zero h)
  rw [pred_mod (by omega) hr]
  omega

/-- The loop ends; the quotient is that of `2 ^ (n + maxbits) - 1` as long as no remainder reaches
`2 ^ 63`. -/
theorem determinePseudoInverse_spec {b : Nat} (hb : 1 < b) (hb64 : b < 2 ^ 64)
    (hpow : ¬ b.isPowerOfTwo) (maxbits : Nat) :
    ∃ n q, determinePseudoInverse b maxbits = (word (q + 1), n) ∧ 1 ≤ n ∧ n ≤ 64 ∧
      2 ^ (n - 1) < b ∧ b < 2 ^ n ∧ 2 ^ maxbits ≤ q ∧
      ((∀ i < maxbits, (2 ^ (n + i) - 1) % b < 2 ^ 63) → q = (2 ^ (n + maxbits) - 1) / b) ∧
      ((∃ i < maxbits, 2 ^ 63 ≤ (2 ^ (n + i) - 1) % b) → q < (2 ^ (n + maxbits) - 1) / b) := by
  have hbpos : 0 < b := by omega
  obtain ⟨n, hwidth, hn, hn64, hlo, hhi⟩ := width_spec hb hb64 hpow
  have hdouble : 2 ^ n = 2 * 2 ^ (n - 1) := by
    rw [Nat.mul_comm, ← Nat.pow_succ, Nat.succ_eq_add_one, Nat.sub_add_cancel hn]
  have hq0 : (2 ^ n - 1) / (2 * b) = 0 := Nat.div_eq_of_lt (by omega)
  have hm0 : (2 ^ n - 1) % (2 * b) = 2 ^ n - 1 := mod_eq_of_lt (by omega)
  have hend : (2 ^ (n + (maxbits + 1)) - 1) / (2 * b) = (2 ^ (n + maxbits) - 1) / b := by
    rw [← add_assoc, ← two_pow_pred_succ, (division_step hbpos).1]
  have hexact := inverseBits_exact hbpos (maxbits + 1) n
  have hlt := inverseBits_lt hbpos hb64 (maxbits + 1) n
  rw [hq0, hm0, hend] at hexact hlt
  refine ⟨n, inverseBits b (maxbits + 1) 0 (2 ^ n - 1), ?_, hn, hn64, hlo, hhi, ?_, ?_, ?_⟩
  · have hloop := inverseLoop_eq b (maxbits + 1) 0 (2 ^ n - 1)
    unfold determinePseudoInverse
    rw [hwidth]
    show (word (1 + inverseLoop b (maxbits + 1) (word 0) (2 ^ n - 1)), n) = _
    rw [hloop]
    unfold word
    rw [add_mod_mod, add_comm]
  · -- the first bit is 1
    unfold inverseBits
    rw [if_pos (by omega)]
    have := (inverseBits_bounds b maxbits (2 * 0 + 1) (word (2 * (2 ^ n - 1 - b) + 1))).1
    omega
  · exact fun h => hexact fun i hi => h i (by omega)
  · rintro ⟨i, hi, h⟩
    exact hlt ⟨i, by omega, h⟩

/-- What the quotients rest on: a multiplier `D` of `b` with a small error. -/
structure Inverse (b maxbits n D : Nat) : Prop where
  pos : 1 ≤ n
  lt : b < 2 ^ n
  low : 2 ^ maxbits < D
  high : D < 2 ^ (maxbits + 1)
  error : ∃ e, D * b = 2 ^ (n + maxbits) + e ∧ e < b

theorem inverse_of_ceil {b : Nat} (hn : 1 ≤ n) (hmax : n ≤ maxbits + 1)
    (hlo : 2 ^ (n - 1) < b) (hhi : b < 2 ^ n) (hq : 2 ^ maxbits ≤ (2 ^ (n + maxbits) - 1) / b) :
    Inverse b maxbits n ((2 ^ (n + maxbits) - 1) / b + 1) := by
  have hP : 0 < 2 ^ (n + maxbits) := Nat.two_pow_pos _
  have hhalf : 0 < 2 ^ (n - 1) := Nat.two_pow_pos _
  refine ⟨hn, hhi, by omega, ?_, Magic.ceil_error (by omega) hP⟩
  -- the divisor is above half of the power
  have hpow : 2 ^ (n + maxbits) = 2 ^ (maxbits + 1) * 2 ^ (n - 1) := by
    rw [← pow_add]
    congr 1
    omega
  have hsmall : 2 ^ (n - 1) ≤ 2 ^ maxbits := Nat.pow_le_pow_right (by decide) (by omega)
  have hdouble : 2 ^ (maxbits + 1) = 2 * 2 ^ maxbits := by rw [Nat.pow_succ, Nat.mul_comm]
  have hmul : (2 ^ (maxbits + 1) - 1) * (2 ^ (n - 1) + 1) ≤ (2 ^ (maxbits + 1) - 1) * b :=
    mul_le_mul_left _ hlo
  have hexp : (2 ^ (maxbits + 1) - 1) * (2 ^ (n - 1) + 1)
      = 2 ^ (n + maxbits) - 2 ^ (n - 1) + (2 ^ (maxbits + 1) - 1) := by
    rw [Nat.mul_succ, Nat.sub_mul, Nat.one_mul, ← hpow]
  have hlt : (2 ^ (n + maxbits) - 1) / b < 2 ^ (maxbits + 1) - 1 := by
    rw [Nat.div_lt_iff_lt_mul (by omega)]
    have : 2 ^ (n - 1) ≤ 2 ^ (n + maxbits) := Nat.pow_le_pow_right (by decide) (by omega)
    omega
  omega

theorem Inverse.div_eq {b maxbits n D : Nat} (h : Inverse b maxbits n D) {a : Nat}
    (ha : a ≤ 2 ^ maxbits) : a * D / 2 ^ (n + maxbits) = a / b := by
  obtain ⟨e, hD, he⟩ := h.error
  refine Magic.div_eq (by omega) hD (Magic.fits_of_lt (by omega) ?_)
  have hlt := h.lt
  calc a * e ≤ 2 ^ maxbits * e := Nat.mul_le_mul_right e ha
    _ < 2 ^ maxbits * 2 ^ n := Nat.mul_lt_mul_of_pos_left (by omega) (Nat.two_pow_pos _)
    _ = 2 ^ (n + maxbits) := by rw [← Nat.pow_add, Nat.add_comm]

theorem determinePseudoInverse_eq {b : Nat} (hb : 1 < b) (hb64 : b < 2 ^ 64)
    (hpow : ¬ b.isPowerOfTwo) (hmax : maxbits ≤ 63 ∧ b ≤ 2 ^ maxbits ∨
      maxbits = 64 ∧ b % 2 = 1 ∧ RemaindersFit b) :
    ∃ n, determinePseudoInverse b maxbits = (word ((2 ^ (n + maxbits) - 1) / b + 1), n) ∧
      n ≤ maxbits ∧ Inverse b maxbits n ((2 ^ (n + maxbits) - 1) / b + 1) := by
  obtain ⟨n, q, heq, hn, hn64, hlo, hhi, hq, hexact, -⟩ :=
    determinePseudoInverse_spec hb hb64 hpow maxbits
  have hnmax : n ≤ maxbits := by
    rcases hmax with ⟨_, hb⟩ | ⟨rfl, -⟩
    · have : n - 1 < maxbits := (Nat.pow_lt_pow_iff_right (show 1 < 2 by decide)).mp (by omega)
      omega
    · exact hn64
  have hrem : ∀ i < maxbits, (2 ^ (n + i) - 1) % b < 2 ^ 63 := by
    intro i hi
    by_cases h63 : b ≤ 2 ^ 63
    · have := mod_lt (2 ^ (n + i) - 1) (show 0 < b by omega)
      omega
    · rcases hmax with ⟨hmax, h⟩ | ⟨rfl, hodd, hfit⟩
      · exact absurd (h.trans (Nat.pow_le_pow_right (by decide) hmax)) h63
      · have h64 : 63 < n := (Nat.pow_lt_pow_iff_right (show 1 < 2 by decide)).mp (by omega)
        rw [show n = 64 by omega]
        exact (remaindersFit_iff hb hodd).mp hfit i hi
  have hqe := hexact hrem
  refine ⟨n, by rw [heq, hqe], hnmax, ?_⟩
  exact inverse_of_ceil hn (by omega) hlo hhi (hqe ▸ hq)

/-! ## The values of the emitted code -/

theorem toNat_highProduct (a b : BitVec w) :
    ((product false a b >>> w).setWidth w).toNat = a.toNat * b.toNat / 2 ^ w := by
  have ha := a.isLt
  have hb := b.isLt
  have hlt : a.toNat * b.toNat < 2 ^ w * 2 ^ w := Nat.mul_lt_mul'' ha hb
  have hq : a.toNat * b.toNat / 2 ^ w < 2 ^ w := Nat.div_lt_of_lt_mul hlt
  have hpow : 2 ^ (2 * w) = 2 ^ w * 2 ^ w := by rw [Nat.two_mul, Nat.pow_add]
  unfold product
  rw [if_neg (by decide), toNat_setWidth, toNat_ushiftRight, toNat_ofNat,
    mod_eq_of_lt (show a.toNat * b.toNat < 2 ^ (2 * w) by omega), shiftRight_eq_div_pow]
  exact mod_eq_of_lt hq

theorem toNat_abs (hw : 0 < w) (x : BitVec w) :
    (if (-x).msb then x else -x).toNat = x.toInt.natAbs := by
  have hx := x.isLt
  have hneg : (-x).toNat = (2 ^ w - x.toNat) % 2 ^ w := toNat_neg x
  have hmsb : (-x).msb = decide (2 ^ (w - 1) ≤ (-x).toNat) := msb_eq_decide (-x)
  have hpow : 2 ^ w = 2 * 2 ^ (w - 1) := by
    have := two_pow_pred_mul_two hw
    omega
  have hsub : (2 ^ w - x.toNat) % 2 ^ w = if x.toNat = 0 then 0 else 2 ^ w - x.toNat := by
    split
    · next h0 => rw [h0, Nat.sub_zero, Nat.mod_self]
    · exact Nat.mod_eq_of_lt (by omega)
  rw [hmsb, toInt_eq_toNat_cond]
  rw [hsub] at hneg
  have hcast : ((2 ^ w : Nat) : Int) = 2 * ((2 ^ (w - 1) : Nat) : Int) := by
    rw [hpow]
    push_cast
    rfl
  by_cases h : 2 ^ (w - 1) ≤ (-x).toNat
  · rw [if_pos (decide_eq_true h)]
    split at hneg <;> split <;> omega
  · rw [if_neg (by simpa using h)]
    split at hneg <;> split <;> omega

theorem tdiv_eq_natAbs (X D : Int) :
    X.tdiv D = if (X < 0 ↔ D < 0) then ((X.natAbs / D.natAbs : Nat) : Int)
      else -((X.natAbs / D.natAbs : Nat) : Int) := by
  rcases lt_or_ge X 0 with hX | hX <;> rcases lt_or_ge D 0 with hD | hD
  · rw [if_pos (by omega)]
    obtain ⟨x, rfl⟩ : ∃ x : Nat, X = -x := ⟨X.natAbs, by omega⟩
    obtain ⟨d, rfl⟩ : ∃ d : Nat, D = -d := ⟨D.natAbs, by omega⟩
    simp [Int.neg_tdiv, Int.tdiv_neg]
  · rw [if_neg (by omega)]
    obtain ⟨x, rfl⟩ : ∃ x : Nat, X = -x := ⟨X.natAbs, by omega⟩
    obtain ⟨d, rfl⟩ : ∃ d : Nat, D = d := ⟨D.natAbs, by omega⟩
    simp [Int.neg_tdiv]
  · rw [if_neg (by omega)]
    obtain ⟨x, rfl⟩ : ∃ x : Nat, X = x := ⟨X.natAbs, by omega⟩
    obtain ⟨d, rfl⟩ : ∃ d : Nat, D = -d := ⟨D.natAbs, by omega⟩
    simp [Int.tdiv_neg]
  · rw [if_pos (by omega)]
    obtain ⟨x, rfl⟩ : ∃ x : Nat, X = x := ⟨X.natAbs, by omega⟩
    obtain ⟨d, rfl⟩ : ∃ d : Nat, D = d := ⟨D.natAbs, by omega⟩
    simp

/-! ## The emitted code -/

theorem run_cmov (hasCmov : Bool) (hw : w ≤ 64) (l : Nat) {c inverse : Cond} (d a : TN)
    {s : State} {taken : Bool} (hc : c.eval s.flags = some taken)
    (hinv : inverse.eval s.flags = some (!taken)) :
    ∃ s', run (expandCmov hasCmov w l c inverse d a) none s = some (s', none) ∧
      s'.read w d = (if taken then s.read w a else s.read w d) ∧
      ∀ u, u ≠ d → s'.reg u = s.reg u := by
  have hread : (s.reg a).setWidth w = s.read w a := rfl
  cases hasCmov with
  | true =>
    refine ⟨if taken then s.write d (s.reg a) else s, by simp [expandCmov, hc], ?_, ?_⟩
    · cases taken
      · rfl
      · simp [hw, hread]
    · intro u hu
      cases taken
      · rfl
      · simp [hu]
  | false =>
    refine ⟨if taken then s.write d (s.read w a) else s, ?_, ?_, ?_⟩
    · cases taken <;> simp [expandCmov, hinv]
    · cases taken
      · rfl
      · simp [hw]
    · intro u hu
      cases taken
      · rfl
      · simp [hu]

theorem run_abs (hasCmov : Bool) (hw0 : 0 < w) (hw : w ≤ 64) (t : TN) (numer : TN)
    (ht : t ≠ numer) (s : State) :
    ∃ s', run ([.neg w t numer] ++ expandCmov hasCmov w 0 .s .ns t numer) none s = some (s', none) ∧
      (s'.read w t).toNat = (s.read w numer).toInt.natAbs ∧ ∀ u, u ≠ t → s'.reg u = s.reg u := by
  obtain ⟨s1, hs1⟩ : ∃ s1, s1 = (s.write t (-s.read w numer)).setFlags
    (subFlags 0 (s.read w numer)) := ⟨_, rfl⟩
  have hrun : run [.neg w t numer] none s = some (s1, none) := by simp [hs1]
  have hval : s1.read w t = -s.read w numer := by simp [hs1, hw]
  have hnumer : s1.read w numer = s.read w numer := by simp [hs1, hw, ht.symm]
  have hsf : Cond.s.eval s1.flags = some (-s.read w numer).msb := by
    simp [hs1, Cond.eval, subFlags]
  have hns : Cond.ns.eval s1.flags = some (!(-s.read w numer).msb) := by
    simp [hs1, Cond.eval, subFlags]
  obtain ⟨s2, hrun2, hval2, hkept2⟩ := run_cmov hasCmov hw 0 t numer hsf hns
  refine ⟨s2, by rw [run_append, hrun, Option.bind_some]; exact hrun2, ?_, fun u hu => ?_⟩
  · rw [hval2, hval, hnumer]
    exact toNat_abs hw0 _
  · rw [hkept2 u hu]
    simp [hs1, hu]

theorem run_sign (hasCmov pos : Bool) (hw : w ≤ 64) (result shift numer : TN)
    (hr : result ≠ shift) (hn : result ≠ numer) (s : State) :
    ∃ s', run ([.neg w result shift, .test w numer (.tn numer)] ++
        if pos then expandCmov hasCmov w 1 .ge .l result shift
        else expandCmov hasCmov w 1 .l .ge result shift) none s = some (s', none) ∧
      s'.read w result
        = if (s.read w numer).msb = !pos then s.read w shift else -s.read w shift := by
  obtain ⟨s1, hs1⟩ : ∃ s1, s1 = ((s.write result (-s.read w shift)).setFlags
    (subFlags 0 (s.read w shift))).setFlags (testFlags (s.read w numer)) := ⟨_, rfl⟩
  have hrun : run [.neg w result shift, .test w numer (.tn numer)] none s = some (s1, none) := by
    simp [hs1, hw, hn.symm]
  have hshift : s1.read w shift = s.read w shift := by simp [hs1, hw, hr.symm]
  have hval : s1.read w result = -s.read w shift := by simp [hs1, hw]
  have hge : Cond.ge.eval s1.flags = some (!(s.read w numer).msb) := by
    simp [hs1, Cond.eval, testFlags]
  have hl : Cond.l.eval s1.flags = some (s.read w numer).msb := by
    simp [hs1, Cond.eval, testFlags]
  cases pos with
  | true =>
    have hl' : Cond.l.eval s1.flags = some (!!(s.read w numer).msb) := by simp [hl]
    obtain ⟨s2, hrun2, hval2, -⟩ := run_cmov hasCmov hw 1 result shift hge hl'
    refine ⟨s2, by rw [run_append, hrun, Option.bind_some]; exact hrun2, ?_⟩
    rw [hval2]
    cases hm : (s.read w numer).msb <;> simp [hshift, hval]
  | false =>
    obtain ⟨s2, hrun2, hval2, -⟩ := run_cmov hasCmov hw 1 result shift hl hge
    refine ⟨s2, by rw [run_append, hrun, Option.bind_some]; exact hrun2, ?_⟩
    rw [hval2]
    cases hm : (s.read w numer).msb <;> simp [hshift, hval]

theorem run_copyNumer (hw : w ≤ 64) (r x : Nat) (t : TN) (s : State) :
    ∃ s', run (if TN.var r = TN.var x then [.mov w t (.var x)] else []) none s = some (s', none) ∧
      s'.read w (if TN.var r = TN.var x then t else .var x) = s.read w (.var x) ∧
      ∀ u, u ≠ t → s'.reg u = s.reg u := by
  by_cases h : TN.var r = TN.var x
  · rw [if_pos h, if_pos h]
    exact ⟨_, rfl, by simp [hw], fun u hu => by simp [hu]⟩
  · rw [if_neg h, if_neg h]
    exact ⟨s, rfl, rfl, fun u _ => rfl⟩

theorem signed_value {x q : BitVec w} {denom : Int} (h0 : denom ≠ 0)
    (hq : q.toNat = x.toInt.natAbs / denom.natAbs) :
    (if x.msb = !decide (denom > 0) then q else -q) = BitVec.ofInt w (x.toInt.tdiv denom) := by
  have hval : q = BitVec.ofInt w ((x.toInt.natAbs / denom.natAbs : Nat) : Int) := by
    rw [← hq, ofInt_natCast, ofNat_toNat, setWidth_eq]
  rw [tdiv_eq_natAbs, msb_eq_toInt]
  by_cases hsame : x.toInt < 0 ↔ denom < 0
  · have hcond : decide (x.toInt < 0) = !decide (denom > 0) := by
      rw [← decide_not]
      exact decide_eq_decide.mpr (by omega)
    rw [if_pos hcond, if_pos hsame, hval]
  · have hcond : ¬ decide (x.toInt < 0) = !decide (denom > 0) := by
      rw [← decide_not, decide_eq_decide]
      omega
    rw [if_neg hcond, if_neg hsame, ofInt_neg, hval]

theorem expandSignedInverse_eq (o : Options) (site : Nat) (result numer : TN) {denom : Int}
    (hinv : determinePseudoInverse denom.natAbs (t.bits - 1) = (D, n))
    (hn : n ≤ t.bits - 1) (hpos : n > 0) : expandSignedInverse o site result numer denom t =
      emit ([.ldc t.bits (.tmp site 1) D, .neg t.bits (.tmp site 2) numer] ++
        expandCmov o.hasCmov t.bits 0 .s .ns (.tmp site 2) numer ++
        [.mul false t.bits (.tmp site 4) (.tmp site 3) (.tmp site 2) (.tmp site 1)] ++
        [.bin .sar t.bits (.tmp site 6) (.tmp site 3) (.lit (n - 1))] ++
        (if result = numer then [.mov t.bits (.tmp site 5) numer] else []) ++
        [.neg t.bits result (.tmp site 6),
          .test t.bits (if result = numer then .tmp site 5 else numer)
          (.tn (if result = numer then .tmp site 5 else numer))] ++
        if denom > 0 then expandCmov o.hasCmov t.bits 1 .ge .l result (.tmp site 6)
        else expandCmov o.hasCmov t.bits 1 .l .ge result (.tmp site 6)) := by
  unfold expandSignedInverse
  -- the inverse is not computed here
  extract_lets w b
  rw [hinv]
  show (if n > t.bits - 1 then _ else _) = _
  rw [if_neg (show ¬ n > t.bits - 1 by omega)]
  simp only [if_pos hpos]
  rfl

theorem cmov_countOk (hasCmov : Bool) (w l : Nat) (c inverse : Cond) (d a : TN) :
    (expandCmov hasCmov w l c inverse d a).all Instr.countOk = true := by
  cases hasCmov <;> rfl

/-- The signed sequence with that inverse is right for every dividend. -/
theorem signedInverse_right (o : Options) (site r x : Nat) {denom : Int} (h0 : denom ≠ 0)
    (hinv : determinePseudoInverse denom.natAbs (t.bits - 1) = (D, n)) (hn : n ≤ t.bits - 1)
    (h : Inverse denom.natAbs (t.bits - 1) n D) (s : State) :
    ∃ code s', expandSignedInverse o site (.var r) (.var x) denom t = .yes code ∧
      exec code s = some s' ∧ s'.read t.bits (.var r)
        = BitVec.ofInt t.bits ((s.read t.bits (.var x)).toInt.tdiv denom) := by
  have hpos : n > 0 := h.pos
  have hcast : (n : Int) - 1 = ((n - 1 : Nat) : Int) := by omega
  have hw0 : 0 < t.bits := by cases t <;> decide
  have hw : t.bits ≤ 64 := by cases t <;> decide
  have heq := expandSignedInverse_eq o site (.var r) (.var x) hinv hn hpos
  have hsucc : t.bits - 1 + 1 = t.bits := Nat.sub_add_cancel hw0
  have hhigh := h.high
  rw [hsucc] at hhigh
  have hdiv : ∀ a ≤ 2 ^ (t.bits - 1), a * D / 2 ^ (n + (t.bits - 1)) = a / denom.natAbs :=
    fun a ha => h.div_eq ha
  generalize t.bits = w at *
  -- the steps
  obtain ⟨s1, hs1⟩ : ∃ s1, s1 = s.write (.tmp site 1) (BitVec.ofInt w (D : Int)) := ⟨_, rfl⟩
  have hrun1 : run [.ldc w (.tmp site 1) D] none s = some (s1, none) := by simp [hs1]
  obtain ⟨s2, hrun2, habs, hf2⟩ := run_abs o.hasCmov hw0 hw (.tmp site 2) (.var x) (by simp) s1
  obtain ⟨p, hp⟩ : ∃ p : BitVec w, p
      = ((product false (s2.read w (.tmp site 2)) (s2.read w (.tmp site 1))) >>> w).setWidth w :=
    ⟨_, rfl⟩
  obtain ⟨s3, hrun3, hval3, hf3⟩ : ∃ s3,
      run [.mul false w (.tmp site 4) (.tmp site 3) (.tmp site 2) (.tmp site 1),
        .bin .sar w (.tmp site 6) (.tmp site 3) (.lit ((n - 1 : Nat) : Int))] none s2
        = some (s3, none) ∧
      s3.read w (.tmp site 6) = p.sshiftRight (n - 1) ∧
      s3.reg (.var x) = s2.reg (.var x) := by
    have hc : count (BitVec.ofNat w (n - 1)) = n - 1 := by
      have hlt : n - 1 < w := by omega
      have := Nat.lt_two_pow_self (n := w)
      unfold count
      rw [toNat_ofNat, mod_eq_of_lt (show n - 1 < 2 ^ w by omega), mod_eq_of_lt hlt]
    exact ⟨_, rfl, by simp [hp, hc, hw], by simp⟩
  obtain ⟨s4, hrun4, hval4, hf4⟩ := run_copyNumer hw r x (.tmp site 5) s3
  obtain ⟨s5, hrun5, hval5⟩ := run_sign o.hasCmov (decide (denom > 0)) hw (.var r) (.tmp site 6)
    (if TN.var r = TN.var x then .tmp site 5 else .var x) (by simp) (by split <;> simp_all) s4
  -- the values
  have hread : ∀ {u : TN} {s s' : State}, s'.reg u = s.reg u → s'.read w u = s.read w u :=
    fun h => congrArg (BitVec.setWidth w) h
  have hx1 : s1.read w (.var x) = s.read w (.var x) := by simp [hs1, hw]
  have hd1 : (s1.read w (.tmp site 1)).toNat = D := by
    rw [hs1, read_write _ _ _ _ hw, if_pos rfl, setWidth_eq, ofInt_natCast,
      toNat_ofNat]
    exact mod_eq_of_lt hhigh
  have hx2 : s2.read w (.var x) = s.read w (.var x) := by rw [hread (hf2 _ (by simp)), hx1]
  have hpval : p.toNat = (s.read w (.var x)).toInt.natAbs * D / 2 ^ w := by
    rw [hp, toNat_highProduct, habs, hx1, hread (hf2 _ (by simp)), hd1]
  have habsle : (s.read w (.var x)).toInt.natAbs ≤ 2 ^ (w - 1) := by
    have h1 : (s.read w (.var x)).toInt < 2 ^ (w - 1) := toInt_lt
    have h2 : -2 ^ (w - 1) ≤ (s.read w (.var x)).toInt := le_toInt _
    have hcast : ((2 ^ (w - 1) : Nat) : Int) = 2 ^ (w - 1) := by push_cast; rfl
    omega
  have hphalf : p.toNat < 2 ^ (w - 1) := by
    rw [hpval, Nat.div_lt_iff_lt_mul (Nat.two_pow_pos w)]
    calc (s.read w (.var x)).toInt.natAbs * D ≤ 2 ^ (w - 1) * D := Nat.mul_le_mul_right D habsle
      _ < 2 ^ (w - 1) * 2 ^ w := Nat.mul_lt_mul_of_pos_left hhigh (Nat.two_pow_pos _)
  have hquot : (p.sshiftRight (n - 1)).toNat = (s.read w (.var x)).toInt.natAbs / denom.natAbs := by
    have hpow := Nat.two_pow_pred_mul_two hw0
    have hexp : w + (n - 1) = n + (w - 1) := by omega
    have hmsb : p.msb = false := msb_eq_false_iff_two_mul_lt.mpr (by omega)
    rw [sshiftRight_eq_of_msb_false hmsb, toNat_ushiftRight,
      Nat.shiftRight_eq_div_pow, hpval, ← hdiv _ habsle, Nat.div_div_eq_div_mul, ← Nat.pow_add,
      hexp]
  rw [hcast, emit, if_pos] at heq
  · refine ⟨_, s5, heq, ?_, ?_⟩
    · have hpos' : (if decide (denom > 0) = true
            then expandCmov o.hasCmov w 1 .ge .l (.var r) (.tmp site 6)
            else expandCmov o.hasCmov w 1 .l .ge (.var r) (.tmp site 6))
          = if denom > 0 then expandCmov o.hasCmov w 1 .ge .l (.var r) (.tmp site 6)
            else expandCmov o.hasCmov w 1 .l .ge (.var r) (.tmp site 6) := by
        simp only [decide_eq_true_eq]
      rw [hpos'] at hrun5
      simp only [List.append_assoc, List.cons_append, List.nil_append]
      refine (exec_append hrun1).trans ((exec_append hrun2).trans ((exec_append hrun3).trans
        ((exec_append hrun4).trans ?_)))
      unfold exec
      exact (congrArg (Option.bind · _) hrun5).trans rfl
    · rw [hval5, hval4, hread (hf4 _ (by simp)), hval3, hread hf3, hx2]
      exact signed_value h0 hquot
  · have hcopy : (if TN.var r = TN.var x then [Instr.mov w (.tmp site 5) (.var x)] else []).all
        Instr.countOk = true := by split <;> rfl
    have hsign : (if denom > 0 then expandCmov o.hasCmov w 1 .ge .l (.var r) (.tmp site 6)
        else expandCmov o.hasCmov w 1 .l .ge (.var r) (.tmp site 6)).all Instr.countOk = true := by
      split <;> exact cmov_countOk ..
    simp only [List.all_append, cmov_countOk, hcopy, hsign, Bool.and_true]
    simp [Instr.countOk]
    omega

theorem expandUnsignedInverse_odd (site : Nat) (result numer : TN) {b : Nat}
    (hodd : b % 2 = 1) (hinv : determinePseudoInverse b Mtype.U8.bits = (d, n)) (hn : n ≤ 64) :
    expandUnsignedInverse site result numer b .U8 =
      emit [.ldc 64 (.tmp site 2) d, .mul false 64 (.tmp site 4) (.tmp site 3) numer (.tmp site 2),
        .bin .sub 64 (.tmp site 5) numer (.tn (.tmp site 3)),
        .bin .shr 64 (.tmp site 6) (.tmp site 5) (.lit 1),
        .bin .add 64 (.tmp site 7) (.tmp site 3) (.tn (.tmp site 6)),
        .bin .shr 64 result (.tmp site 7) (.lit (n - 1))] := by
  unfold expandUnsignedInverse
  -- the inverse is not computed here
  extract_lets w odd precision pre numer' dTn mult low tmp1 tmp2 tmp3
  rw [if_pos hodd, show precision = Mtype.U8.bits from if_pos hodd, hinv]
  show (if n > 64 then _ else _) = _
  rw [if_neg (show ¬ n > 64 by omega), if_pos hodd, if_pos hodd]
  rw [show numer' = numer from if_pos hodd]
  rfl

theorem expandUnsignedInverse_even (site : Nat) (result numer : TN) {b : Nat}
    (heven : ¬ b % 2 = 1) (hinv : determinePseudoInverse (b >>> 1) (Mtype.U8.bits - 1) = (d, n))
    (hn : n ≤ 63) : expandUnsignedInverse site result numer b .U8 =
      emit [.bin .shr 64 (.tmp site 1) numer (.lit 1), .ldc 64 (.tmp site 2) d,
        .mul false 64 (.tmp site 4) (.tmp site 3) (.tmp site 1) (.tmp site 2),
        .bin .shr 64 result (.tmp site 3) (.lit (n - 1))] := by
  unfold expandUnsignedInverse
  extract_lets w odd precision pre numer' dTn mult low tmp1 tmp2 tmp3
  rw [if_neg heven, show precision = Mtype.U8.bits - 1 from if_neg heven, hinv]
  show (if n > 63 then _ else _) = _
  rw [if_neg (show ¬ n > 63 by omega), if_neg heven, if_neg heven]
  rw [show numer' = .tmp site 1 from if_neg heven]
  rfl

theorem count_lit64 {c : Nat} (hc : c < 64) : count (BitVec.ofNat 64 c) = c := by
  unfold count
  rw [toNat_ofNat]
  omega

theorem average_word64 {a h : BitVec 64} (hle : h.toNat ≤ a.toNat) :
    (h + (a - h) >>> 1).toNat = (a.toNat + h.toNat) / 2 := by
  have ha := a.isLt
  rw [toNat_add, toNat_ushiftRight, shiftRight_eq_div_pow,
    toNat_sub_of_le hle]
  omega

theorem unsignedOdd_result (site r x : Nat) {b : Nat} (hodd : b % 2 = 1)
    (hinv : determinePseudoInverse b Mtype.U8.bits = (d, n)) (hn : n ≤ 64) (hpos : 1 ≤ n)
    (hd : d < 2 ^ 64) : ∃ code, expandUnsignedInverse site (.var r) (.var x) b .U8 = .yes code ∧
      ∀ s : State, ∃ s', exec code s = some s' ∧ (s'.reg (.var r)).toNat
        = (s.reg (.var x)).toNat * (2 ^ 64 + d) / 2 ^ (64 + n) := by
  have hcast : (n : Int) - 1 = ((n - 1 : Nat) : Int) := by omega
  refine ⟨_, by
    rw [expandUnsignedInverse_odd site _ _ hodd hinv hn, hcast, emit, if_pos]
    simp [Instr.countOk]
    omega, fun s => ⟨_, rfl, ?_⟩⟩
  obtain ⟨a, ha⟩ : ∃ a, a = s.reg (.var x) := ⟨_, rfl⟩
  obtain ⟨h, hh⟩ : ∃ h : BitVec 64,
      h = ((product false a (BitVec.ofNat 64 d)) >>> 64).setWidth 64 := ⟨_, rfl⟩
  have hval : h.toNat = a.toNat * d / 2 ^ 64 := by
    rw [hh, toNat_highProduct, toNat_ofNat, mod_eq_of_lt hd]
  have hle : h.toNat ≤ a.toNat := by
    rw [hval, div_le_iff_le_mul (by decide)]
    have := mul_le_mul_left a.toNat hd.le
    omega
  have hq : ((h + (a - h) >>> 1) >>> (n - 1)).toNat = a.toNat * (2 ^ 64 + d) / 2 ^ (64 + n) := by
    rw [toNat_ushiftRight, Nat.shiftRight_eq_div_pow, average_word64 hle, hval,
      Magic.add_high (by decide), Nat.div_div_eq_div_mul, Nat.div_div_eq_div_mul, ← Nat.pow_succ',
      ← Nat.pow_add]
    congr 2
    omega
  rw [← ha, ← hq]
  have h1 : count 1#64 = 1 := rfl
  simp [ha, hh, h1, count_lit64 (show n - 1 < 64 by omega)]

theorem unsignedEven_right (site r x : Nat) {b : Nat} (heven : ¬ b % 2 = 1)
    (hinv : determinePseudoInverse (b >>> 1) (Mtype.U8.bits - 1) = (D, n)) (hn : n ≤ 63)
    (h : Inverse (b >>> 1) 63 n D) :
    ∃ code, expandUnsignedInverse site (.var r) (.var x) b .U8 = .yes code ∧
      ∀ s : State, ∃ s', exec code s = some s' ∧
        (s'.reg (.var r)).toNat = (s.reg (.var x)).toNat / b := by
  have hpos := h.pos
  have hcast : (n : Int) - 1 = ((n - 1 : Nat) : Int) := by omega
  refine ⟨_, by
    rw [expandUnsignedInverse_even site _ _ heven hinv hn, hcast, emit, if_pos]
    simp [Instr.countOk]
    omega, fun s => ⟨_, rfl, ?_⟩⟩
  obtain ⟨a, ha⟩ : ∃ a, a = s.reg (.var x) := ⟨_, rfl⟩
  obtain ⟨p, hp⟩ : ∃ p : BitVec 64,
      p = ((product false (a >>> 1) (BitVec.ofNat 64 D)) >>> 64).setWidth 64 := ⟨_, rfl⟩
  have hhalf : (a >>> 1).toNat = a.toNat / 2 := by
    rw [toNat_ushiftRight, shiftRight_one]
  have hq : (p >>> (n - 1)).toNat = a.toNat / b := by
    have hle : a.toNat / 2 ≤ 2 ^ 63 := by
      have := a.isLt
      omega
    rw [toNat_ushiftRight, Nat.shiftRight_eq_div_pow, hp, toNat_highProduct,
      toNat_ofNat, Nat.mod_eq_of_lt h.high, hhalf, Nat.div_div_eq_div_mul, ← Nat.pow_add,
      show 64 + (n - 1) = n + 63 by omega, h.div_eq hle, Nat.div_div_eq_div_mul,
      shiftRight_one]
    congr 1
    omega
  rw [← ha, ← hq]
  have h1 : count 1#64 = 1 := rfl
  simp [ha, hp, h1, count_lit64 (show n - 1 < 64 by omega)]

/-- Where the remainders do not fit, some dividend gets the wrong quotient. -/
theorem unsignedOdd_fails (site r x : Nat) {b : Nat} (hb : 1 < b) (hb64 : b < 2 ^ 64)
    (hpow : ¬ b.isPowerOfTwo) (hodd : b % 2 = 1) (hfit : ¬ RemaindersFit b) :
    (∃ code, expandUnsignedInverse site (.var r) (.var x) b .U8 = .yes code ∧
      ∀ s : State, (s.reg (.var x)).toNat = b →
        ∃ s', exec code s = some s' ∧ (s'.reg (.var r)).toNat = 0) ∧
    ∃ n, determinePseudoInverse b 64 ≠ (word ((2 ^ (n + 64) - 1) / b + 1), n) ∧
      (determinePseudoInverse b 64).2 = n := by
  obtain ⟨n, q, heq, hn, hn64, hlo, hhi, hq, -, hlt⟩ :=
    determinePseudoInverse_spec hb hb64 hpow 64
  have hlarge : ¬ b ≤ 2 ^ 63 := fun h => hfit (remaindersFit_of_le (by omega) h)
  have h64 : 63 < n := (Nat.pow_lt_pow_iff_right (show 1 < 2 by decide)).mp (by omega)
  obtain rfl : n = 64 := by omega
  have hqlt : q < (2 ^ (64 + 64) - 1) / b := by
    apply hlt
    by_contra hno
    refine hfit ((remaindersFit_iff hb hodd).mpr fun i hi => ?_)
    by_contra hge
    exact hno ⟨i, hi, by omega⟩
  have hceil := inverse_of_ceil hn (by omega) hlo hhi (by omega : 2 ^ 64 ≤ (2 ^ (64 + 64) - 1) / b)
  have hhigh := hceil.high
  have hword : word (q + 1) = q + 1 - 2 ^ 64 := by
    unfold word
    omega
  constructor
  · obtain ⟨code, hcode, hrun⟩ := unsignedOdd_result site r x hodd heq hn64 hn
      (mod_lt _ (by decide))
    refine ⟨code, hcode, fun s hs => ?_⟩
    obtain ⟨s', hexec, hval⟩ := hrun s
    refine ⟨s', hexec, ?_⟩
    rw [hval, hs, hword, show 2 ^ 64 + (q + 1 - 2 ^ 64) = q + 1 by omega]
    exact Magic.below_ceil (by decide) (by omega)
  · refine ⟨64, ?_, by rw [heq]⟩
    rw [heq]
    intro h
    have h1 := congrArg Prod.fst h
    simp only [word] at h1
    omega

/-! ## The expansion -/

/-- The absolute value of a 64-bit divisor. -/
def absDivisor (denom : Int) (t : Mtype) : Nat :=
  if t.isSigned then denom.natAbs else (denom % 2 ^ 64).toNat

/-- What `determine_pseudo_inverse` is called with. -/
def inverseCall (denom : Int) (t : Mtype) : Nat × Nat :=
  let b := absDivisor denom t
  if t.isSigned then (b, t.bits - 1)
  else if b % 2 = 1 then (b, t.bits) else (b >>> 1, t.bits - 1)

/-- The quotient of the source language. -/
def quotient64 (t : Mtype) (x : BitVec 64) (denom : Int) : BitVec 64 :=
  if t.isSigned then BitVec.ofInt 64 (x.toInt.tdiv denom)
  else BitVec.ofNat 64 (x.toNat / (denom % 2 ^ 64).toNat)

/-- The inverse is the rounded-up quotient of a power of two, in a word. -/
def InverseRight (call : Nat × Nat) (inverse : Nat × Nat) : Prop :=
  inverse.1 = (2 ^ (inverse.2 + call.2) + call.1 - 1) / call.1 % 2 ^ 64

theorem inverseRight_iff {b q : Nat} (hb : 0 < b) :
    InverseRight (b, maxbits) (word q, n) ↔ word q = word ((2 ^ (n + maxbits) - 1) / b + 1) := by
  unfold InverseRight word
  rw [Magic.ceil_eq hb (Nat.two_pow_pos _)]

theorem isPowerOf2_64 {denom : Int} (ht : t.isDouble = true) (hlow : -2 ^ 63 ≤ denom)
    (hhigh : denom < 2 ^ 63) : isPowerOf2 denom t = true ↔ (absDivisor denom t).isPowerOfTwo:= by
  have hval : (BitVec.ofInt 64 (powerVal denom t)).toNat = absDivisor denom t := by
    rw [toNat_ofInt]
    cases t with
    | I4 => exact absurd ht (by decide)
    | U4 => exact absurd ht (by decide)
    | I8 =>
      simp only [powerVal, absDivisor, Mtype.isSigned, true_and, if_true, reduceCtorEq, if_false]
      split <;> omega
    | U8 =>
      simp only [powerVal, absDivisor, Mtype.isSigned, Bool.false_eq_true, false_and, if_false,
        reduceCtorEq]
      rfl
  unfold isPowerOf2
  rw [bitPowerOf2_iff, hval]

theorem expand_inverse (o : Options) (ho : o.cvrtIntDivToMult = true) (site : Nat)
    (result numer : TN) {denom : Int} (ht : t.isDouble = true)
    (hlow : -2 ^ 63 ≤ denom) (hhigh : denom < 2 ^ 63) (h1 : 1 < absDivisor denom t)
    (hpow : ¬ (absDivisor denom t).isPowerOfTwo) :
    expandIntegerDivideByConstant o site result numer denom t
      = if t.isSigned then expandSignedInverse o site result numer denom t
        else expandUnsignedInverse site result numer (denom % 2 ^ 64).toNat t := by
  have hone : denom ≠ 1 := by
    rintro rfl
    cases t <;> simp [absDivisor, Mtype.isSigned] at h1
  have hneg : ¬ (t.isSigned = true ∧ denom = -1) := by
    rintro ⟨hs, rfl⟩
    simp [absDivisor, hs] at h1
  unfold expandIntegerDivideByConstant
  rw [if_neg hone, if_neg hneg, if_neg (fun h => hpow ((isPowerOf2_64 ht hlow hhigh).mp h)),
    if_neg (by simp [ho]), if_neg (by simp [ht])]

/-- Every dividend has its quotient. -/
structure AllRight (e : Expanded) (t : Mtype) (r x : Nat) (denom : Int) : Prop where
  right : ∀ s : State, e.Right s (.var r) (quotient64 t (s.reg (.var x)) denom)

theorem allRight_of_code {r x : Nat} {denom : Int}
    (h : ∀ s : State, ∃ code s', e = .yes code ∧ exec code s = some s' ∧
      s'.reg (.var r) = quotient64 t (s.reg (.var x)) denom) : AllRight e t r x denom := by
  refine ⟨fun s => ?_⟩
  obtain ⟨code, s', he, hexec, hval⟩ := h s
  rw [he]
  exact ⟨s', hexec, by rw [read_64, hval]⟩

theorem signed_allRight (o : Options) (site r x : Nat) {denom : Int} (hlow : -2 ^ 63 ≤ denom)
    (hhigh : denom < 2 ^ 63) (h1 : 1 < denom.natAbs) (hpow : ¬ denom.natAbs.isPowerOfTwo) :
    AllRight (expandSignedInverse o site (.var r) (.var x) denom .I8) .I8 r x denom ∧
      InverseRight (denom.natAbs, 63) (determinePseudoInverse denom.natAbs 63) := by
  obtain ⟨n, heq, hn, hinv⟩ := determinePseudoInverse_eq h1 (show _ < 2 ^ 64 by omega) hpow
    (.inl ⟨le_rfl, show _ ≤ 2 ^ 63 by omega⟩)
  have hword : word ((2 ^ (n + 63) - 1) / denom.natAbs + 1) = (2 ^ (n + 63) - 1) / denom.natAbs + 1 :=
    mod_eq_of_lt hinv.high
  constructor
  · refine allRight_of_code fun s => ?_
    obtain ⟨code, s', hcode, hexec, hval⟩ := signedInverse_right o site r x (t := .I8) (by omega)
      (heq.trans (by rw [hword])) hn hinv s
    have hval' : s'.read 64 (.var r) = BitVec.ofInt 64 ((s.read 64 (.var x)).toInt.tdiv denom) := hval
    rw [read_64, read_64] at hval'
    exact ⟨code, s', hcode, hexec, hval'⟩
  · rw [heq]
    exact (inverseRight_iff (by omega)).mpr rfl

theorem unsigned_code {r x : Nat} {denom : Int} {b : Nat} (hb : (denom % 2 ^ 64).toNat = b)
    (h : ∃ code, e = .yes code ∧ ∀ s : State, ∃ s', exec code s = some s' ∧
      (s'.reg (.var r)).toNat = (s.reg (.var x)).toNat / b) : AllRight e .U8 r x denom := by
  obtain ⟨code, he, hrun⟩ := h
  refine allRight_of_code fun s => ?_
  obtain ⟨s', hexec, hval⟩ := hrun s
  refine ⟨code, s', he, hexec, ?_⟩
  show _ = BitVec.ofNat 64 ((s.reg (.var x)).toNat / (denom % 2 ^ 64).toNat)
  rw [hb, ← hval, ofNat_toNat, setWidth_eq]

section

variable (site r x : Nat) {denom : Int} {b : Nat} (hb : (denom % 2 ^ 64).toNat = b) (h1 : 1 < b)
  (hpow : ¬ b.isPowerOfTwo)
include site r x hb h1 hpow

theorem unsignedEven_allRight (heven : ¬ b % 2 = 1) :
    AllRight (expandUnsignedInverse site (.var r) (.var x) b .U8) .U8 r x denom ∧
      InverseRight (b >>> 1, 63) (determinePseudoInverse (b >>> 1) 63) := by
  have hhalf : b >>> 1 = b / 2 := shiftRight_one b
  have hne : b ≠ 2 := fun h => hpow ⟨1, h⟩
  have hpow' : ¬ (b >>> 1).isPowerOfTwo := by
    rintro ⟨k, hk⟩
    refine hpow ⟨k + 1, ?_⟩
    rw [pow_succ]
    omega
  obtain ⟨n, heq, hn, hinv⟩ := determinePseudoInverse_eq (show 1 < b >>> 1 by omega)
    (show _ < 2 ^ 64 by omega) hpow' (.inl ⟨le_rfl, show _ ≤ 2 ^ 63 by omega⟩)
  have hword : word ((2 ^ (n + 63) - 1) / (b >>> 1) + 1) = (2 ^ (n + 63) - 1) / (b >>> 1) + 1 :=
    mod_eq_of_lt hinv.high
  constructor
  · exact unsigned_code hb (unsignedEven_right site r x heven (heq.trans (by rw [hword])) hn hinv)
  · rw [heq]
    exact (inverseRight_iff (by omega)).mpr rfl

theorem unsignedOdd_iff (hodd : b % 2 = 1) :
    (AllRight (expandUnsignedInverse site (.var r) (.var x) b .U8) .U8 r x denom ↔
        RemaindersFit b) ∧
      (InverseRight (b, 64) (determinePseudoInverse b 64) ↔ RemaindersFit b) := by
  have hb64 : b < 2 ^ 64 := by omega
  by_cases hfit : RemaindersFit b
  · obtain ⟨n, heq, hn, hinv⟩ := determinePseudoInverse_eq h1 hb64 hpow (.inr ⟨rfl, hodd, hfit⟩)
    constructor
    · refine iff_of_true (unsigned_code hb ?_) hfit
      obtain ⟨code, hcode, hrun⟩ := unsignedOdd_result site r x hodd heq hn hinv.pos
        (mod_lt _ (by decide))
      refine ⟨code, hcode, fun s => ?_⟩
      obtain ⟨s', hexec, hval⟩ := hrun s
      have hlow := hinv.low
      have hhigh := hinv.high
      have hword : 2 ^ 64 + word ((2 ^ (n + 64) - 1) / b + 1) = (2 ^ (n + 64) - 1) / b + 1 := by
        unfold word
        omega
      refine ⟨s', hexec, ?_⟩
      rw [hval, hword, add_comm 64 n]
      exact hinv.div_eq (s.reg (.var x)).isLt.le
    · rw [heq]
      exact iff_of_true ((inverseRight_iff (by omega)).mpr rfl) hfit
  · obtain ⟨⟨code, hcode, hrun⟩, n, hne, hn⟩ :=
      unsignedOdd_fails site r x h1 hb64 hpow hodd hfit
    constructor
    · refine iff_of_false (fun hall => ?_) hfit
      -- the divisor by itself
      obtain ⟨s, hs⟩ : ∃ s : State, s = ⟨fun _ => BitVec.ofNat 64 b, .unknown, 0⟩ := ⟨_, rfl⟩
      have hx : (s.reg (.var x)).toNat = b := by
        rw [hs]
        exact mod_eq_of_lt hb64
      obtain ⟨s', hexec, hzero⟩ := hrun s hx
      rw [hcode] at hall
      obtain ⟨s'', hexec', hval⟩ := hall.right s
      obtain rfl : s' = s'' := Option.some.inj (hexec.symm.trans hexec')
      have hone : quotient64 .U8 (s.reg (.var x)) denom = 1 := by
        show BitVec.ofNat 64 ((s.reg (.var x)).toNat / (denom % 2 ^ 64).toNat) = 1
        rw [hx, hb, Nat.div_self (by omega)]
        rfl
      rw [read_64, hone] at hval
      rw [hval] at hzero
      exact absurd hzero (by decide)
    · refine iff_of_false (fun hright => hne ?_) hfit
      obtain ⟨q, m, heq, -⟩ := determinePseudoInverse_spec h1 hb64 hpow 64
      rw [heq] at hright hn ⊢
      have hn' : q = n := hn
      rw [(inverseRight_iff (by omega)).mp hright, hn']

end

/-- Divisors whose inverse is computed without a loss. -/
def InverseExact (denom : Int) (t : Mtype) : Prop :=
  t.isSigned = true ∨ absDivisor denom t % 2 = 0 ∨ RemaindersFit (absDivisor denom t)

theorem odd_not_isPowerOfTwo {b : Nat} (h1 : 1 < b) (hodd : b % 2 = 1) : ¬ b.isPowerOfTwo := by
  rintro ⟨k, rfl⟩
  exact absurd (two_pow_lt_odd h1 hodd le_rfl) (lt_irrefl _)

/-- Division by a 64-bit constant is exact for all dividends, and the inverse is the rounded-up
quotient, but for odd unsigned divisors with a remainder that does not fit into a word when it is
shifted. -/
theorem divide64_right_iff (o : Options) (ho : o.cvrtIntDivToMult = true) (site r x : Nat)
    {t : Mtype} (ht : t.isDouble = true) {denom : Int} (hlow : -2 ^ 63 ≤ denom)
    (hhigh : denom < 2 ^ 63) (h1 : 1 < absDivisor denom t)
    (hpow : ¬ (absDivisor denom t).isPowerOfTwo) :
    (AllRight (expandIntegerDivideByConstant o site (.var r) (.var x) denom t) t r x denom ↔
        InverseExact denom t) ∧ (InverseRight (inverseCall denom t)
          (determinePseudoInverse (inverseCall denom t).1 (inverseCall denom t).2) ↔
        InverseExact denom t) := by
  have hexp := expand_inverse o ho site (.var r) (.var x) ht hlow hhigh h1 hpow
  rw [hexp]
  cases t with
  | I4 => exact absurd ht (by decide)
  | U4 => exact absurd ht (by decide)
  | I8 =>
    obtain ⟨hcode, hinv⟩ := signed_allRight o site r x hlow hhigh h1 hpow
    have hcond : InverseExact denom .I8 := .inl rfl
    have hcall : inverseCall denom .I8 = (denom.natAbs, 63) := rfl
    rw [if_pos (show Mtype.I8.isSigned = true from rfl), hcall]
    exact ⟨iff_of_true hcode hcond, iff_of_true hinv hcond⟩
  | U8 =>
    obtain ⟨b, hb⟩ : ∃ b, (denom % 2 ^ 64).toNat = b := ⟨_, rfl⟩
    have habs : absDivisor denom .U8 = b := hb
    rw [habs] at h1 hpow
    have hcond : InverseExact denom .U8 ↔ b % 2 = 0 ∨ RemaindersFit b := by
      unfold InverseExact
      rw [habs]
      exact ⟨fun h => h.resolve_left (by decide), .inr⟩
    rw [if_neg (by decide), hb, hcond]
    by_cases hodd : b % 2 = 1
    · have hcall : inverseCall denom .U8 = (b, 64) := by
        unfold inverseCall
        rw [habs, if_neg (by decide), if_pos hodd]
        rfl
      obtain ⟨hcode, hinv⟩ := unsignedOdd_iff site r x hb h1 hpow hodd
      have hfit : (b % 2 = 0 ∨ RemaindersFit b) ↔ RemaindersFit b :=
        ⟨fun h => h.resolve_left (by omega), .inr⟩
      rw [hcall, hfit]
      exact ⟨hcode, hinv⟩
    · have hcall : inverseCall denom .U8 = (b >>> 1, 63) := by
        unfold inverseCall
        rw [habs, if_neg (by decide), if_neg hodd]
        rfl
      obtain ⟨hcode, hinv⟩ := unsignedEven_allRight site r x hb h1 hpow hodd
      have heven : b % 2 = 0 ∨ RemaindersFit b := .inl (by omega)
      rw [hcall]
      exact ⟨iff_of_true hcode heven, iff_of_true hinv heven⟩

theorem divide64_right_iff_seven :
    (AllRight (expandIntegerDivideByConstant ⟨true, true, false, true⟩ 0 (.var 0) (.var 1) 7 .U8)
        .U8 0 1 7 ↔ InverseExact 7 .U8) ∧ (InverseRight (inverseCall 7 .U8)
          (determinePseudoInverse (inverseCall 7 .U8).1 (inverseCall 7 .U8).2) ↔
        InverseExact 7 .U8) :=
  divide64_right_iff ⟨true, true, false, true⟩ rfl 0 0 1 rfl (by decide) (by decide) (by decide)
    (odd_not_isPowerOfTwo (by decide) (by decide))

/-- The divisor 2 ^ 64 - 3 is not divided by itself. -/
theorem divide64_top_minus_3_wrong : ¬ ∀ (o : Options), o.cvrtIntDivToMult = true →
    ∀ (site r x : Nat) (t : Mtype), t.isDouble = true →
    ∀ denom : Int, -2 ^ 63 ≤ denom → denom < 2 ^ 63 → 1 < absDivisor denom t →
      ¬ (absDivisor denom t).isPowerOfTwo →
      AllRight (expandIntegerDivideByConstant o site (.var r) (.var x) denom t) t r x denom := by
  intro h
  have hpow : ¬ (absDivisor (-3) .U8).isPowerOfTwo :=
    odd_not_isPowerOfTwo (by decide) (by decide)
  have hall := h ⟨true, true, false, true⟩ rfl 0 0 1 .U8 rfl (-3) (by decide) (by decide)
    (by decide) hpow
  rw [expand_inverse _ rfl 0 _ _ rfl (by decide) (by decide) (by decide) hpow,
    if_neg (by decide)] at hall
  have hdenom : ((-3 : Int) % 2 ^ 64).toNat = absDivisor (-3) .U8 := rfl
  have hfit := (unsignedOdd_iff 0 0 1 hdenom (by decide) hpow (by decide)).1.mp hall
  exact absurd (hfit 62 (by decide)) (by decide)

end X8664
