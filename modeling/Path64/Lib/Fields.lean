import Mathlib.Data.Nat.Bitwise
import Mathlib.Data.List.Count
import Mathlib.Tactic.NormNum
import Mathlib.Tactic.Ring

/-! # Numbers packed in bit fields

Field `j` of a packed number is `w j` bits wide and starts where the fields
before it end. Sums of packed numbers are taken field by field as long as
no field overflows, and a mask of the top bits finds the fields that have
grown too big. -/

namespace Fields

open Nat

variable {w u v : Nat → Nat} {n : Nat}

/-- Where field `j` starts. -/
def start (w : Nat → Nat) : Nat → Nat
  | 0 => 0
  | j + 1 => start w j + w j

/-- The first fields with the values `v`. -/
def pack (w v : Nat → Nat) : Nat → Nat
  | 0 => 0
  | n + 1 => pack w v n + v n * 2 ^ start w n

theorem start_succ (w : Nat → Nat) (j : Nat) : start w (j + 1) = start w j + w j := rfl

theorem pack_succ (w v : Nat → Nat) (n : Nat) :
    pack w v (n + 1) = pack w v n + v n * 2 ^ start w n := rfl

theorem start_lt {j m t : Nat} (hj : j < m) (ht : t < w j) : start w j + t < start w m := by
  induction m, hj using le_induction with
  | base =>
    rw [start_succ]
    omega
  | succ m _ ih =>
    rw [start_succ]
    omega

theorem start_inj {i j s t : Nat} (hs : s < w i) (ht : t < w j)
    (heq : start w i + s = start w j + t) : i = j := by
  rcases lt_trichotomy i j with hij | hij | hij
  · have := start_lt hij hs
    omega
  · exact hij
  · have := start_lt hij ht
    omega

theorem pack_congr (h : ∀ j < n, u j = v j) : pack w u n = pack w v n := by
  induction n with
  | zero => rfl
  | succ n ih => rw [pack_succ, pack_succ, ih fun j hj => h j (by omega), h n (by omega)]

theorem pack_add : pack w (fun j => u j + v j) n = pack w u n + pack w v n := by
  induction n with
  | zero => rfl
  | succ n ih =>
    rw [pack_succ, pack_succ, pack_succ, ih]
    ring

theorem pack_lt (h : ∀ j < n, v j < 2 ^ w j) : pack w v n < 2 ^ start w n := by
  induction n with
  | zero => exact one_pos
  | succ n ih =>
    have hlow := ih fun j hj => h j (by omega)
    have htop : (v n + 1) * 2 ^ start w n ≤ 2 ^ w n * 2 ^ start w n :=
      mul_le_mul_right _ (h n (by omega))
    rw [pack_succ, start_succ, pow_add]
    calc pack w v n + v n * 2 ^ start w n < 2 ^ start w n + v n * 2 ^ start w n :=
          Nat.add_lt_add_right hlow _
      _ = (v n + 1) * 2 ^ start w n := by ring
      _ ≤ 2 ^ w n * 2 ^ start w n := htop
      _ = 2 ^ start w n * 2 ^ w n := mul_comm _ _

theorem pack_succ_or (h : ∀ j < n, v j < 2 ^ w j) :
    pack w v (n + 1) = pack w v n ||| v n <<< start w n := by
  rw [Nat.or_comm, Nat.shiftLeft_eq, Nat.mul_comm, ← Nat.two_pow_add_eq_or_of_lt (pack_lt h),
    pack_succ]
  ring

/-- The bits of a packed word are the bits of its fields. -/
theorem testBit_pack (h : ∀ j < n, v j < 2 ^ w j) {b : Nat} : (pack w v n).testBit b = true ↔
      ∃ j < n, ∃ t < w j, b = start w j + t ∧ (v j).testBit t = true := by
  induction n with
  | zero => simp [pack]
  | succ n ih =>
    have hlow := pack_lt fun j (hj : j < n) => h j (by omega)
    have htop : ∀ {t : Nat}, (v n).testBit t = true → t < w n := by
      intro t ht
      by_contra hle
      have hlt := (h n (by omega)).trans_le (Nat.pow_le_pow_right Nat.two_pos (not_lt.mp hle))
      rw [Nat.testBit_lt_two_pow hlt] at ht
      cases ht
    rw [pack_succ, add_comm, mul_comm, testBit_two_pow_mul_add _ hlow]
    split
    · rename_i hb
      rw [ih fun j hj => h j (by omega)]
      constructor
      · rintro ⟨j, hj, rest⟩
        exact ⟨j, by omega, rest⟩
      · rintro ⟨j, hj, t, ht, rfl, hbit⟩
        rcases Nat.lt_succ_iff_lt_or_eq.mp hj with hj | rfl
        · exact ⟨j, hj, t, ht, rfl, hbit⟩
        · omega
    · rename_i hb
      constructor
      · intro hbit
        exact ⟨n, by omega, b - start w n, htop hbit, by omega, hbit⟩
      · rintro ⟨j, hj, t, ht, rfl, hbit⟩
        rcases Nat.lt_succ_iff_lt_or_eq.mp hj with hj | rfl
        · exact absurd (start_lt hj ht) hb
        · rwa [Nat.add_sub_cancel_left]

/-- Some field has its top bit set just when the word meets the mask of the top bits. -/
theorem and_tops_ne_zero (hw : ∀ j < n, 0 < w j) (h : ∀ j < n, v j < 2 ^ w j) :
    pack w v n &&& pack w (fun j => 2 ^ (w j - 1)) n ≠ 0 ↔ ∃ j < n, 2 ^ (w j - 1) ≤ v j := by
  have htops : ∀ j < n, 2 ^ (w j - 1) < 2 ^ w j :=
    fun j hj => Nat.pow_lt_pow_right (by norm_num) (by have := hw j hj; omega)
  have htop : ∀ j < n, ((v j).testBit (w j - 1) = true ↔ 2 ^ (w j - 1) ≤ v j) := by
    intro j hj
    refine ⟨ge_two_pow_of_testBit, fun hle => ?_⟩
    have hlt := h j hj
    have hsub : w j - 1 + 1 = w j := by have := hw j hj; omega
    rw [← hsub, pow_succ] at hlt
    have hdiv : v j / 2 ^ (w j - 1) = 1 := by
      rw [Nat.div_eq_iff (Nat.two_pow_pos _)]
      omega
    rw [testBit_eq_decide_div_mod_eq, hdiv]
    rfl
  constructor
  · intro hne
    obtain ⟨b, hb⟩ := exists_testBit_of_ne_zero hne
    rw [testBit_and, Bool.and_eq_true, testBit_pack h, testBit_pack htops] at hb
    obtain ⟨⟨i, hi, s, hs, hbi, hbit⟩, j, hj, t, ht, hbj, htbit⟩ := hb
    obtain rfl := start_inj hs ht (hbi.symm.trans hbj)
    obtain rfl : s = t := by omega
    rw [testBit_two_pow, decide_eq_true_eq] at htbit
    rw [← htbit] at hbit
    exact ⟨i, hi, (htop i hi).mp hbit⟩
  · rintro ⟨j, hj, hle⟩ hzero
    have hbit : (pack w v n &&& pack w (fun j => 2 ^ (w j - 1)) n).testBit
        (start w j + (w j - 1)) = true := by
      have hlt : w j - 1 < w j := by have := hw j hj; omega
      rw [testBit_and, Bool.and_eq_true, testBit_pack h, testBit_pack htops]
      exact ⟨⟨j, hj, _, hlt, rfl, (htop j hj).mpr hle⟩, j, hj, _, hlt, rfl, by simp⟩
    rw [hzero, zero_testBit] at hbit
    cases hbit

theorem sum_eq_pack {l : List Nat} (hl : ∀ j ∈ l, j < n) :
    (l.map fun j => 2 ^ start w j).sum = pack w (fun j => l.count j) n := by
  have hone : ∀ {j m : Nat}, j < m → pack w (fun k => if j = k then 1 else 0) m = 2 ^ start w j := by
    intro j m hj
    have hzero : ∀ m ≤ j, pack w (fun k => if j = k then 1 else 0) m = 0 := by
      intro m
      induction m with
      | zero => exact fun _ => rfl
      | succ m ih =>
        intro hm
        rw [pack_succ, ih (by omega), if_neg (by omega)]
        simp
    induction m, hj using le_induction with
    | base => rw [pack_succ, hzero j le_rfl, if_pos rfl, zero_add, one_mul]
    | succ m hm ih => rw [pack_succ, ih, if_neg (by omega), zero_mul, add_zero]
  induction l with
  | nil =>
    symm
    clear hl hone
    induction n with
    | zero => rfl
    | succ n ih =>
      rw [pack_succ, ih]
      simp
  | cons j l ih =>
    rw [List.map_cons, List.sum_cons, ih fun k hk => hl k (List.mem_cons_of_mem _ hk),
      ← hone (hl j List.mem_cons_self), ← pack_add]
    refine pack_congr fun k _ => ?_
    rw [List.count_cons, add_comm]
    simp

end Fields
