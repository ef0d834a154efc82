import Path64.Soe.SubInEqual
import Mathlib.Tactic.FieldSimp

/-! # Fractions

`FRAC` keeps a numerator and a denominator of 32 bits and sets
`Exception` where a component is too big or a denominator is zero. The
branches of `_reduce` for the components 0, 1 and -1 come before the test
for a zero denominator. -/

namespace Lno

open Soe Function

/-! ## Model -/

structure Frac where
  n : Int
  d : Int

/-- `FRAC_MAX`, which is smaller where `Is_True_On` is defined. -/
def fracMax (isTrueOn : Bool) : Int := if isTrueOn then 1000000 else int32Max

def neg32 (z : Int) : Int := Arith.machine.i32 (-z)

section Model

variable (testing : Bool)

def szOk (x : Int) : Bool := decide (x ≤ fracMax testing) && decide (-fracMax testing ≤ x)

/-- `_checksz(x)`; the flag is `Exception`. -/
def checksz (x : Int) (e : Bool) : Int × Bool :=
  if szOk testing x then (x, e) else (max (min x (fracMax testing)) (-fracMax testing), true)

/-- `_checksz(n, d)` -/
def checkszPair (n d : Int) (e : Bool) : Frac × Bool :=
  if szOk testing n && szOk testing d then (⟨n, d⟩, e) else (⟨if d = 0 then 1 else n.tdiv d, 1⟩, true)

/-- `_reduce2()`, once the denominator is not zero -/
def reduceGcd (n d : Int) (e : Bool) : Frac × Bool :=
  let neg := if n < 0 then decide (0 < d) else decide (d < 0)
  let i1 := abs32 .machine n
  let i2 := abs32 .machine d
  let g := gcd32 .machine i1 i2
  checkszPair testing ((if neg then neg32 i1 else i1).tdiv g) (i2.tdiv g) e

/-- `_reduce2()` -/
def reduce2 (n d : Int) (e : Bool) : Frac × Bool :=
  if d = 0 then reduceGcd testing n 1 true else reduceGcd testing n d e

/-- `_reduce()`, on the members set to `n` and `d` -/
def reduce (n d : Int) (e : Bool) : Frac × Bool :=
  if d = 1 then
    let r := checksz testing n e
    (⟨r.1, d⟩, r.2)
  else if n = 0 then (⟨n, 1⟩, e)
  else if n = 1 ∨ n = -1 then
    let r := checksz testing (if d < 0 then neg32 d else d) e
    (⟨if d < 0 then neg32 n else n, r.1⟩, r.2)
  else if d = -1 then
    let r := checksz testing (neg32 n) e
    (⟨r.1, neg32 d⟩, r.2)
  else reduce2 testing n d e

/-- `FRAC(_checksz(n), _checksz(d))` -/
def ofChecked (n d : Int) (e : Bool) : Frac × Bool :=
  let r := checksz testing n e
  let t := checksz testing d r.2
  reduce testing r.1 t.1 t.2

inductive BinOp
  | add | sub | mul | div

/-- `operator +`, `-`, `*` and `/` -/
def BinOp.eval (op : BinOp) (a f : Frac) : Bool → Frac × Bool :=
  let i64 := Arith.machine.i64
  match op with
  | .add => ofChecked testing (i64 (i64 (a.n * f.d) + i64 (f.n * a.d))) (i64 (a.d * f.d))
  | .sub => ofChecked testing (i64 (i64 (a.n * f.d) - i64 (f.n * a.d))) (i64 (a.d * f.d))
  | .mul => ofChecked testing (i64 (a.n * f.n)) (i64 (a.d * f.d))
  | .div => ofChecked testing (i64 (a.n * f.d)) (i64 (a.d * f.n))

/-- `operator -()` -/
def Frac.neg (a : Frac) : Frac := ⟨neg32 a.n, a.d⟩

inductive CmpOp
  | eq | ne | lt | le | gt | ge

/-- `operator ==`, `!=`, `<`, `<=`, `>` and `>=` -/
def CmpOp.test (op : CmpOp) (a f : Frac) : Bool :=
  let x := Arith.machine.i64 (a.n * f.d)
  let y := Arith.machine.i64 (f.n * a.d)
  match op with
  | .eq => a.n = f.n ∧ a.d = f.d
  | .ne => a.n ≠ f.n ∨ a.d ≠ f.d
  | .lt => x < y
  | .le => x ≤ y
  | .gt => x > y
  | .ge => x ≥ y

/-- A statement that sets variable `k`, or a comparison. -/
inductive Stmt
  | int (k : Nat) (n : BitVec 32)
  | pair (k : Nat) (n d : BitVec 32)
  | bin (op : BinOp) (k i j : Nat)
  | neg (k i : Nat)
  | cmp (op : CmpOp) (i j : Nat)

structure State where
  vars : Nat → Frac
  exception : Bool
  answers : List Bool

def State.set (s : State) (k : Nat) (r : Frac × Bool) : State :=
  ⟨update s.vars k r.1, r.2, s.answers⟩

def step (s : State) : Stmt → State
  | .int k n =>
    let r := checksz testing n.toInt s.exception
    s.set k (⟨r.1, 1⟩, r.2)
  | .pair k n d => s.set k (reduce testing n.toInt d.toInt s.exception)
  | .bin op k i j => s.set k (op.eval testing (s.vars i) (s.vars j) s.exception)
  | .neg k i => s.set k ((s.vars i).neg, s.exception)
  | .cmp op i j => { s with answers := s.answers ++ [op.test (s.vars i) (s.vars j)] }

def run (s : State) (ss : List Stmt) : State := ss.foldl (step testing) s

/-- All variables are `FRAC()`. -/
def State.init : State := ⟨fun _ => ⟨0, 1⟩, false, []⟩

end Model

/-! ## Rational numbers -/

/-- The variables as rational numbers, with the answers. -/
structure Exact where
  vals : Nat → ℚ
  answers : List Bool

def Exact.init : Exact := ⟨fun _ => 0, []⟩

def Exact.set (x : Exact) (k : Nat) (q : ℚ) : Exact := ⟨update x.vals k q, x.answers⟩

def CmpOp.exact : CmpOp → ℚ → ℚ → Bool
  | .eq, p, q => p = q
  | .ne, p, q => p ≠ q
  | .lt, p, q => p < q
  | .le, p, q => p ≤ q
  | .gt, p, q => p > q
  | .ge, p, q => p ≥ q

/-- There is no quotient by zero. -/
def BinOp.exact : BinOp → ℚ → ℚ → Option ℚ
  | .add, p, q => some (p + q)
  | .sub, p, q => some (p - q)
  | .mul, p, q => some (p * q)
  | .div, p, q => if q = 0 then none else some (p / q)

def exactStep (x : Exact) : Stmt → Option Exact
  | .int k n => some (x.set k n.toInt)
  | .pair k n d => (BinOp.exact .div n.toInt d.toInt).map (x.set k)
  | .bin op k i j => (op.exact (x.vals i) (x.vals j)).map (x.set k)
  | .neg k i => some (x.set k (-x.vals i))
  | .cmp op i j => some { x with answers := x.answers ++ [op.exact (x.vals i) (x.vals j)] }

/-- The fraction in lowest terms with a positive denominator. -/
def Frac.ofRat (q : ℚ) : Frac := ⟨q.num, q.den⟩

variable {a b : Int}

theorem ofRat_eq {q : ℚ} (hb : 0 < b) (hc : Int.gcd a b = 1) (hq : q = a / b) :
    Frac.ofRat q = ⟨a, b⟩ := by
  rw [Frac.ofRat, hq, Rat.num_div_eq_of_coprime hb hc, Rat.den_div_eq_of_coprime hb hc]

/-- A quotient whose zero denominator is not seen: the numerator is 0, 1 or -1. -/
def Unseen (n d : Int) : Prop := d = 0 ∧ (n = 0 ∨ n = 1 ∨ n = -1)

/-- The general reduction takes the absolute value of `INT32_MIN`. -/
def NoAbs (n d : Int) : Prop :=
  n = int32Min ∧ d ≠ 1 ∧ d ≠ -1 ∨ d = int32Min ∧ n ≠ 0 ∧ n ≠ 1 ∧ n ≠ -1

/-- The statement does not reach a branch that goes wrong. -/
def Fine (s : State) : Stmt → Prop
  | .pair _ n d => ¬ Unseen n.toInt d.toInt ∧ ¬ NoAbs n.toInt d.toInt
  | .bin .div _ i j => ¬ Unseen (s.vars i).n (s.vars j).n
  | _ => True

def RunFine (testing : Bool) : State → List Stmt → Prop
  | _, [] => True
  | s, t :: ts => Fine s t ∧ RunFine testing (step testing s t) ts

/-! ## Reduction -/

section Reduce

variable {testing : Bool} {n d : Int} {e : Bool}

theorem szOk_iff : szOk testing n = true ↔ |n| ≤ fracMax testing := by
  rw [szOk, Bool.and_eq_true, decide_eq_true_iff, decide_eq_true_iff, abs_le, and_comm]

theorem fracMax_le (testing : Bool) : fracMax testing ≤ int32Max := by cases testing <;> decide

theorem fracMax_pos (testing : Bool) : 0 < fracMax testing := by cases testing <;> decide

theorem fits32_of_abs_le (h : |n| ≤ int32Max) : Fits32 n ∧ n ≠ int32Min := by
  rw [abs_le] at h
  unfold Fits32 int32Min int32Max at *
  omega

theorem neg32_eq (h : Fits32 n) (hmin : n ≠ int32Min) : neg32 n = -n := by
  refine machine_i32 ?_
  unfold Fits32 int32Min int32Max at *
  omega

theorem checksz_false (h : (checksz testing n e).2 = false) :
    e = false ∧ checksz testing n e = (n, false) ∧ |n| ≤ fracMax testing := by
  unfold checksz at h ⊢
  split at h
  · next hok =>
    dsimp only at h
    subst h
    exact ⟨rfl, if_pos hok, szOk_iff.mp hok⟩
  · cases h

theorem checkszPair_false (h : (checkszPair testing n d e).2 = false) :
    e = false ∧ checkszPair testing n d e = (⟨n, d⟩, false) ∧ |n| ≤ fracMax testing ∧ |d| ≤ fracMax testing := by
  unfold checkszPair at h ⊢
  split at h
  · next hok =>
    dsimp only at h
    subst h
    rw [Bool.and_eq_true, szOk_iff, szOk_iff] at hok
    exact ⟨rfl, if_pos (by rw [szOk_iff.mpr hok.1, szOk_iff.mpr hok.2]; rfl), hok⟩
  · cases h

/-- What a reduction must give: the quotient, with components in bounds. -/
def Reduced (testing : Bool) (n d : Int) (f : Frac) : Prop :=
  d ≠ 0 ∧ f = Frac.ofRat (n / d) ∧ |f.n| ≤ fracMax testing ∧ |f.d| ≤ fracMax testing

theorem ofRat_reduced (hb : 0 < b) :
    Frac.ofRat (a / b) = ⟨a.tdiv (Int.gcd a b), b.tdiv (Int.gcd a b)⟩ := by
  have hg : (0 : Int) < Int.gcd a b := by exact_mod_cast Int.gcd_pos_of_ne_zero_right a hb.ne'
  obtain ⟨a', b', hc, ha', hb'⟩ := Int.exists_gcd_one (by exact_mod_cast hg : 0 < Int.gcd a b)
  generalize hgen : ((Int.gcd a b : Nat) : Int) = g at ha' hb' hg ⊢
  have hbpos : 0 < b' := by
    rw [hb'] at hb
    exact pos_of_mul_pos_left hb hg.le
  rw [ha', hb', Int.mul_tdiv_cancel _ hg.ne', Int.mul_tdiv_cancel _ hg.ne']
  refine ofRat_eq hbpos hc ?_
  have : (g : ℚ) ≠ 0 := by exact_mod_cast hg.ne'
  push_cast
  exact mul_div_mul_right _ _ this

theorem reduceGcd_exact (hn : |n| ≤ int32Max) (hd : |d| ≤ int32Max) (hd0 : d ≠ 0)
    (h : (reduceGcd testing n d e).2 = false) : Reduced testing n d (reduceGcd testing n d e).1:= by
  have hn' := fits32_of_abs_le hn
  have hd' := fits32_of_abs_le hd
  have hg : gcd32 .machine |n| |d| = Int.gcd n d := by
    rw [gcd32_machine (abs_nonneg n) (abs_nonneg d), gcd32_exact, Int.gcd, Int.natAbs_abs,
      Int.natAbs_abs, ← Int.gcd]
  have hneg : neg32 |n| = -|n| := by
    have h' := fits32_of_abs_le (n := |n|) (by rwa [abs_abs])
    exact neg32_eq h'.1 h'.2
  unfold reduceGcd at h ⊢
  simp only [abs32_machine hn'.1 hn'.2, abs32_machine hd'.1 hd'.2, hg, hneg] at h ⊢
  obtain ⟨-, heq, hbn, hbd⟩ := checkszPair_false h
  rw [heq]
  refine ⟨hd0, ?_, hbn, hbd⟩
  -- the sign goes to the numerator
  rcases lt_or_gt_of_ne hd0 with hlt | hgt
  · have hnum : (if (if n < 0 then decide (0 < d) else decide (d < 0)) then -|n| else |n|) = -n := by
      by_cases h0 : n < 0
      · simp [h0, hlt.le, abs_of_neg h0]
      · simp [h0, hlt, abs_of_nonneg (not_lt.mp h0)]
    rw [hnum, abs_of_neg hlt, show (n : ℚ) / d = (-n : Int) / (-d : Int) by push_cast; ring,
      ofRat_reduced (by omega), Int.neg_gcd, Int.gcd_neg]
  · have hnum : (if (if n < 0 then decide (0 < d) else decide (d < 0)) then -|n| else |n|) = n := by
      by_cases h0 : n < 0
      · simp [h0, hgt, abs_of_neg h0]
      · simp [h0, hgt.le, abs_of_nonneg (not_lt.mp h0)]
    rw [hnum, abs_of_pos hgt, ofRat_reduced hgt]

theorem neg32_checked (h : Fits32 n) (hc : |neg32 n| ≤ fracMax testing) : neg32 n = -n := by
  refine neg32_eq h ?_
  rintro rfl
  cases testing <;> revert hc <;> decide

/-- A reduction that raises no exception gives the fraction in lowest terms. -/
theorem reduce_exact (hn : Fits32 n) (hd : Fits32 d) (hu : ¬ Unseen n d) (ha : ¬ NoAbs n d)
    (h : (reduce testing n d e).2 = false) : Reduced testing n d (reduce testing n d e).1:= by
  have hone : |(1 : Int)| ≤ fracMax testing := fracMax_pos testing
  unfold reduce at h ⊢
  by_cases hd1 : d = 1
  · -- the denominator is 1
    subst hd1
    simp only [if_true] at h ⊢
    obtain ⟨-, heq, hb⟩ := checksz_false h
    rw [heq]
    exact ⟨one_ne_zero, (ofRat_eq one_pos (Int.gcd_one_right n) rfl).symm, hb, hone⟩
  rw [if_neg hd1] at h ⊢
  by_cases hn0 : n = 0
  · subst hn0
    have hd0 : d ≠ 0 := fun h0 => hu ⟨h0, .inl rfl⟩
    rw [if_pos rfl] at h ⊢
    refine ⟨hd0, (ofRat_eq one_pos (Int.gcd_one_right 0) ?_).symm, (fracMax_pos testing).le, hone⟩
    simp
  rw [if_neg hn0] at h ⊢
  by_cases hn1 : n = 1 ∨ n = -1
  · -- a numerator of 1 or -1 has no common factor
    have hd0 : d ≠ 0 := fun h0 => hu ⟨h0, .inr hn1⟩
    rw [if_pos hn1] at h ⊢
    obtain ⟨-, heq, hb⟩ := checksz_false h
    rw [heq]
    by_cases hlt : d < 0
    · rw [if_pos hlt] at hb ⊢
      have hdn := neg32_checked hd hb
      have hnn : neg32 n = -n := by rcases hn1 with rfl | rfl <;> rfl
      rw [if_pos hlt, hnn]
      rw [hdn] at hb ⊢
      refine ⟨hd0, (ofRat_eq (by omega) ?_ ?_).symm, ?_, hb⟩
      · rcases hn1 with rfl | rfl <;> simp
      · push_cast
        rw [neg_div_neg_eq]
      · rcases hn1 with rfl | rfl <;> exact hone
    · rw [if_neg hlt] at hb ⊢
      rw [if_neg hlt]
      refine ⟨hd0, (ofRat_eq (by omega) ?_ rfl).symm, ?_, hb⟩
      · rcases hn1 with rfl | rfl <;> simp
      · rcases hn1 with rfl | rfl <;> exact hone
  rw [if_neg hn1] at h ⊢
  by_cases hdm : d = -1
  · subst hdm
    rw [if_pos rfl] at h ⊢
    obtain ⟨-, heq, hb⟩ := checksz_false h
    rw [heq]
    have hnn := neg32_checked hn hb
    rw [hnn] at hb ⊢
    refine ⟨by decide, (ofRat_eq one_pos (Int.gcd_one_right _) ?_).symm, hb, hone⟩
    push_cast
    rw [div_neg, div_one, neg_div, div_one]
  rw [if_neg hdm] at h ⊢
  unfold reduce2 at h ⊢
  by_cases hd0 : d = 0
  · -- the exception stays set
    rw [if_pos hd0] at h
    unfold reduceGcd at h
    exact absurd (checkszPair_false h).1 (by decide)
  · rw [if_neg hd0] at h ⊢
    -- both are divided by their gcd
    have hnm : n ≠ int32Min := fun hm => ha (.inl ⟨hm, hd1, hdm⟩)
    have hdm : d ≠ int32Min := fun hm => ha (.inr ⟨hm, hn0, fun h => hn1 (.inl h), fun h => hn1 (.inr h)⟩)
    refine reduceGcd_exact (abs_le.mpr ?_) (abs_le.mpr ?_) hd0 h
    all_goals
      unfold Fits32 int32Min int32Max at *
      omega

theorem checksz_true : (checksz testing n true).2 = true := by
  unfold checksz
  split <;> rfl

theorem reduce_true : (reduce testing n d true).2 = true := by
  have hpair : ∀ {n d : Int}, (checkszPair testing n d true).2 = true := by
    intro n d
    unfold checkszPair
    split <;> rfl
  unfold reduce reduce2 reduceGcd
  repeat' split
  all_goals first | rfl | exact checksz_true | exact hpair

theorem ofChecked_exact (hu : ¬ Unseen n d) (h : (ofChecked testing n d e).2 = false) :
    Reduced testing n d (ofChecked testing n d e).1 := by
  have hfit : ∀ {z : Int}, |z| ≤ fracMax testing → Fits32 z ∧ z ≠ int32Min :=
    fun hz => fits32_of_abs_le (hz.trans (fracMax_le testing))
  unfold ofChecked at h ⊢
  dsimp only at h ⊢
  -- an exception of one of the checks would stay set
  have hkeep : ∀ {m k : Int} {f : Bool}, (reduce testing m k f).2 = false → f = false := by
    intro m k f hf
    cases f with
    | false => rfl
    | true => exact absurd hf (by rw [reduce_true]; decide)
  obtain ⟨he1, hd, hdb⟩ := checksz_false (hkeep h)
  obtain ⟨-, hn, hnb⟩ := checksz_false he1
  rw [hd, hn] at h ⊢
  refine reduce_exact (hfit hnb).1 (hfit hdb).1 hu ?_ h
  rintro (⟨hm, -⟩ | ⟨hm, -⟩)
  · exact (hfit hnb).2 hm
  · exact (hfit hdb).2 hm

end Reduce

/-! ## Steps and runs -/

section Steps

variable {testing : Bool} {s : State} {x : Exact} {p q : ℚ}

/-- The numerator and the denominator of a number are in bounds. -/
def InBounds (testing : Bool) (q : ℚ) : Prop :=
  |q.num| ≤ fracMax testing ∧ (q.den : Int) ≤ fracMax testing

/-- The variables are the exact values in lowest terms, with a positive denominator. -/
structure Agrees (testing : Bool) (s : State) (x : Exact) : Prop where
  vars : ∀ k, s.vars k = Frac.ofRat (x.vals k)
  bounds : ∀ k, InBounds testing (x.vals k)
  answers : s.answers = x.answers

theorem Agrees.set (h : Agrees testing s x) (k : Nat) {r : Frac × Bool}
    (hr : r.1 = Frac.ofRat q) (hq : InBounds testing q) :
    Agrees testing (s.set k r) (x.set k q) := by
  refine ⟨fun j => ?_, fun j => ?_, h.answers⟩
  · by_cases hj : j = k
    · subst hj
      simp [State.set, Exact.set, hr]
    · simp [State.set, Exact.set, hj, h.vars j]
  · by_cases hj : j = k
    · subst hj
      simpa [Exact.set] using hq
    · simpa [Exact.set, hj] using h.bounds j

theorem Reduced.inBounds {n d : Int} {f : Frac} (h : Reduced testing n d f) :
    InBounds testing (n / d) := by
  obtain ⟨-, rfl, hn, hd⟩ := h
  exact ⟨hn, (le_abs_self _).trans hd⟩

theorem InBounds.abs_le (h : InBounds testing q) (ha : a = q.num ∨ a = q.den) :
    |a| ≤ int32Max := by
  refine le_trans ?_ (fracMax_le testing)
  rcases ha with rfl | rfl
  · exact h.1
  · exact (abs_of_nonneg (Int.natCast_nonneg _)).trans_le h.2

section Operands

variable (hp : InBounds testing p) (hq : InBounds testing q)
include hp hq

theorem products_fit (ha : a = p.num ∨ a = p.den) (hb : b = q.num ∨ b = q.den) :
    |a * b| ≤ int32Max * int32Max := by
  rw [abs_mul]
  exact mul_le_mul (hp.abs_le ha) (hq.abs_le hb) (abs_nonneg b) (by decide)

theorem machine_mul (ha : a = p.num ∨ a = p.den) (hb : b = q.num ∨ b = q.den) :
    Arith.machine.i64 (a * b) = a * b := by
  have := abs_le.mp (products_fit hp hq ha hb)
  exact machine_i64 (by unfold Fits64 int32Max at *; omega)

theorem test_exact (op : CmpOp) : op.test (Frac.ofRat p) (Frac.ofRat q) = op.exact p q:= by
  have hext : (Frac.ofRat p).n = (Frac.ofRat q).n ∧ (Frac.ofRat p).d = (Frac.ofRat q).d ↔ p = q :=
    ⟨fun h => Rat.ext h.1 (Int.natCast_inj.mp h.2), fun h => h ▸ ⟨rfl, rfl⟩⟩
  have h1 := machine_mul hp hq (.inl rfl) (.inr rfl)
  have h2 := machine_mul hq hp (.inl rfl) (.inr rfl)
  cases op with
  | eq => exact decide_eq_decide.mpr hext
  | ne => exact decide_eq_decide.mpr (not_and_or.symm.trans (not_congr hext))
  | lt =>
    simp only [CmpOp.test, CmpOp.exact, Frac.ofRat, h1, h2, decide_eq_decide]
    exact (Rat.lt_iff p q).symm
  | le =>
    simp only [CmpOp.test, CmpOp.exact, Frac.ofRat, h1, h2, decide_eq_decide]
    exact (Rat.le_iff p q).symm
  | gt =>
    simp only [CmpOp.test, CmpOp.exact, Frac.ofRat, h1, h2, decide_eq_decide]
    exact (Rat.lt_iff q p).symm
  | ge =>
    simp only [CmpOp.test, CmpOp.exact, Frac.ofRat, h1, h2, decide_eq_decide]
    exact (Rat.le_iff q p).symm

/-- An operation that raises no exception computes the exact result. -/
theorem binOp_exact (op : BinOp) {e : Bool} (hu : op = .div → ¬ Unseen p.num q.num)
    (h : (op.eval testing (Frac.ofRat p) (Frac.ofRat q) e).2 = false) :
    ∃ r, op.exact p q = some r ∧ InBounds testing r ∧
      (op.eval testing (Frac.ofRat p) (Frac.ofRat q) e).1 = Frac.ofRat r := by
  have hpd : (p.den : Int) ≠ 0 := by exact_mod_cast p.den_nz
  have hqd : (q.den : Int) ≠ 0 := by exact_mod_cast q.den_nz
  have hpd' : (p.den : ℚ) ≠ 0 := by exact_mod_cast p.den_nz
  have hqd' : (q.den : ℚ) ≠ 0 := by exact_mod_cast q.den_nz
  have hnd := machine_mul hp hq (.inl rfl) (.inr rfl)
  have hdn := machine_mul hq hp (.inl rfl) (.inr rfl)
  have hdd := machine_mul hp hq (.inr rfl) (.inr rfl)
  have hb1 := abs_le.mp (products_fit hp hq (.inl rfl) (.inr rfl))
  have hb2 := abs_le.mp (products_fit hq hp (.inl rfl) (.inr rfl))
  have hp1 := (Rat.num_div_den p).symm
  have hq1 := (Rat.num_div_den q).symm
  have hseen : ∀ n : Int, ¬ Unseen n (p.den * q.den) := fun n hun => mul_ne_zero hpd hqd hun.1
  -- the unreduced quotient of each operator is its exact value
  have hdone : ∀ {n d : Int} {r : ℚ} {f : Frac}, (n : ℚ) / d = r → Reduced testing n d f →
      InBounds testing r ∧ f = Frac.ofRat r := fun hr h => hr ▸ ⟨h.inBounds, h.2.1⟩
  cases op with
  | add =>
    have hsum : Arith.machine.i64 (p.num * q.den + q.num * p.den) = _ :=
      machine_i64 (by unfold Fits64 int32Max at *; omega)
    simp only [BinOp.eval, Frac.ofRat, hnd, hdn, hdd, hsum] at h ⊢
    have hr := ofChecked_exact (hseen _) h
    refine ⟨p + q, rfl, hdone ?_ hr⟩
    conv_rhs => rw [hp1, hq1, div_add_div _ _ hpd' hqd']
    push_cast
    ring
  | sub =>
    have hsum : Arith.machine.i64 (p.num * q.den - q.num * p.den) = _ :=
      machine_i64 (by unfold Fits64 int32Max at *; omega)
    simp only [BinOp.eval, Frac.ofRat, hnd, hdn, hdd, hsum] at h ⊢
    have hr := ofChecked_exact (hseen _) h
    refine ⟨p - q, rfl, hdone ?_ hr⟩
    conv_rhs => rw [hp1, hq1, div_sub_div _ _ hpd' hqd']
    push_cast
    ring
  | mul =>
    have hnn := machine_mul hp hq (.inl rfl) (.inl rfl)
    simp only [BinOp.eval, Frac.ofRat, hnn, hdd] at h ⊢
    have hr := ofChecked_exact (hseen _) h
    refine ⟨p * q, rfl, hdone ?_ hr⟩
    conv_rhs => rw [hp1, hq1, div_mul_div_comm]
    push_cast
    rfl
  | div =>
    have hdn' := machine_mul hp hq (.inr rfl) (.inl rfl)
    have hunseen : ¬ Unseen (p.num * q.den) (p.den * q.num) := by
      rintro ⟨h0, hun⟩
      have hq0 := (mul_eq_zero.mp h0).resolve_left hpd
      refine hu rfl ⟨hq0, ?_⟩
      rw [Rat.num_eq_zero.mp hq0] at hun
      simpa using hun
    simp only [BinOp.eval, Frac.ofRat, hnd, hdn'] at h ⊢
    have hr := ofChecked_exact hunseen h
    have hq0 : q ≠ 0 := by
      rintro rfl
      exact hr.1 (mul_zero _)
    refine ⟨p / q, if_neg hq0, hdone ?_ hr⟩
    conv_rhs => rw [hp1, hq1, div_div_div_eq]
    push_cast
    rfl

end Operands

theorem step_true (t : Stmt) (h : s.exception = true) : (step testing s t).exception = true := by
  cases t with
  | int k n => simp only [step, State.set, h, checksz_true]
  | pair k n d => simp only [step, State.set, h, reduce_true]
  | bin op k i j =>
    have hof : ∀ n d : Int, (ofChecked testing n d true).2 = true := fun n d => by
      simp only [ofChecked, checksz_true, reduce_true]
    cases op <;> simp only [step, State.set, BinOp.eval, h, hof]
  | neg k i => exact h
  | cmp op i j => exact h

/-- One statement on fractions follows the same statement on the rationals, while no exception is
raised. -/
theorem step_exact (h : Agrees testing s x) (t : Stmt) (hfine : Fine s t)
    (he : (step testing s t).exception = false) :
    ∃ x', exactStep x t = some x' ∧ Agrees testing (step testing s t) x' := by
  cases t with
  | int k n =>
    obtain ⟨-, heq, hb⟩ := checksz_false he
    refine ⟨_, rfl, h.set k ?_ ⟨?_, ?_⟩⟩
    · simp [heq, Frac.ofRat]
    · simpa using hb
    · exact fracMax_pos testing
  | pair k n d =>
    have hfit : ∀ b : BitVec 32, Fits32 b.toInt := fun b => by
      have := b.le_two_mul_toInt
      have := b.two_mul_toInt_lt
      unfold Fits32 int32Min int32Max
      omega
    have hr := reduce_exact (hfit n) (hfit d) hfine.1 hfine.2 he
    refine ⟨x.set k (n.toInt / d.toInt), ?_, h.set k hr.2.1 hr.inBounds⟩
    have hd : (d.toInt : ℚ) ≠ 0 := by exact_mod_cast hr.1
    simp [exactStep, BinOp.exact, hd]
  | bin op k i j =>
    have hi := h.vars i
    have hj := h.vars j
    have hu : op = .div → ¬ Unseen (x.vals i).num (x.vals j).num := by
      rintro rfl
      simpa only [Fine, hi, hj, Frac.ofRat] using hfine
    have he' : (op.eval testing (s.vars i) (s.vars j) s.exception).2 = false := he
    rw [hi, hj] at he'
    obtain ⟨r, hr, hb, hf⟩ := binOp_exact (h.bounds i) (h.bounds j) op hu he'
    refine ⟨x.set k r, ?_, h.set k (by rw [hi, hj]; exact hf) hb⟩
    simp [exactStep, hr]
  | neg k i =>
    obtain ⟨hn, hd⟩ := h.bounds i
    have hfit := fits32_of_abs_le (hn.trans (fracMax_le testing))
    refine ⟨_, rfl, h.set k ?_ ⟨?_, hd⟩⟩
    · rw [h.vars i, Frac.neg, Frac.ofRat, neg32_eq hfit.1 hfit.2]
      rfl
    · rw [Rat.num_neg_eq_neg_num, abs_neg]
      exact hn
  | cmp op i j =>
    refine ⟨_, rfl, ⟨h.vars, h.bounds, ?_⟩⟩
    rw [step, h.answers, h.vars i, h.vars j, test_exact (h.bounds i) (h.bounds j)]

theorem run_true (ss : List Stmt) : ∀ s : State, s.exception = true →
    (run testing s ss).exception = true := by
  induction ss with
  | nil => exact fun s h => h
  | cons t ts ih => exact fun s h => ih _ (step_true t h)

theorem run_agrees (ss : List Stmt) : ∀ {s : State} {x : Exact}, Agrees testing s x →
    RunFine testing s ss → (run testing s ss).exception = false →
    ∃ x', ss.foldlM exactStep x = some x' ∧ Agrees testing (run testing s ss) x' := by
  induction ss with
  | nil => exact fun h _ _ => ⟨_, rfl, h⟩
  | cons t ts ih =>
    intro s x h hf he
    have hstep : (step testing s t).exception = false := by
      by_contra hne
      rw [run, List.foldl_cons, ← run, run_true ts _ (Bool.eq_true_of_not_eq_false hne)] at he
      cases he
    obtain ⟨x1, hx1, h1⟩ := step_exact h t hf.1 hstep
    obtain ⟨x', hx', h'⟩ := ih h1 hf.2 he
    exact ⟨x', by rw [List.foldlM_cons, hx1]; exact hx', h'⟩

/-- If `Exception` is not set, every variable and every answer is exact. -/
def Sound (testing : Bool) (ss : List Stmt) : Prop :=
  (run testing State.init ss).exception = false → ∃ x, ss.foldlM exactStep Exact.init = some x ∧
    (∀ k, (run testing State.init ss).vars k = Frac.ofRat (x.vals k)) ∧
    (run testing State.init ss).answers = x.answers

/-- A run is sound when no statement reaches a branch that goes wrong. -/
theorem run_sound (testing : Bool) (ss : List Stmt) (hfine : RunFine testing State.init ss) :
    Sound testing ss := by
  intro he
  have hinit : Agrees testing State.init Exact.init :=
    ⟨fun _ => rfl, fun _ => ⟨(fracMax_pos testing).le, fracMax_pos testing⟩, rfl⟩
  obtain ⟨x, hx, h⟩ := run_agrees ss hinit hfine he
  exact ⟨x, hx, h.vars, h.answers⟩

theorem run_sound_quotient :
    Sound false [.pair 0 2 4, .pair 1 1 (-3), .bin .div 2 0 1, .cmp .lt 2 1] := by
  refine run_sound _ _ ⟨?_, ?_, ?_, trivial, trivial⟩
  · exact ⟨by unfold Unseen; decide, by unfold NoAbs; decide⟩
  · exact ⟨by unfold Unseen; decide, by unfold NoAbs; decide⟩
  · unfold Fine Unseen
    decide

/-- 1/0 is no number, and `Exception` is not set. -/
theorem run_sound_zero : ¬ Sound false [.pair 0 1 0] := by
  intro h
  obtain ⟨x, hx, -⟩ := h rfl
  cases hx

end Steps

end Lno
