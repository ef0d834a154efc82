import Path64.Lib.Loop
import Path64.Lib.LinearRow

/-! # The work arrays of `SYSTEM_OF_EQUATIONS`

`_work`/`_work_const` hold the rows `work[r] . x <= workConst[r]` and
`_work_eq`/`_work_const_eq` the rows `workEq[r] . x = workConstEq[r]`.
Beyond the first `workRows` (`workRowsEq`) rows and `workCols` columns
all is stale. A C conversion or a machine operation that may change the
value goes through `Arith`: `Arith.exact` or `Arith.machine`. -/

namespace Soe

/-! ## Arithmetic -/

def int32Max : Int := 2147483647
def int32Min : Int := -2147483648

/-- What a value becomes when it is stored in an `INT32` or an `INT64`. -/
structure Arith where
  i32 : Int → Int
  i64 : Int → Int

/-- Unbounded integers. -/
def Arith.exact : Arith where
  i32 := fun z => z
  i64 := fun z => z

/-- Two's complement machine integers. -/
def Arith.machine : Arith where
  i32 := fun z => Int.bmod z (2 ^ 32)
  i64 := fun z => Int.bmod z (2 ^ 64)

@[simp] theorem exact_i32 (z : Int) : Arith.exact.i32 z = z := rfl
@[simp] theorem exact_i64 (z : Int) : Arith.exact.i64 z = z := rfl

/-- `abs` at type `INT32`. -/
def abs32 (ar : Arith) (z : Int) : Int := if z < 0 then ar.i32 (-z) else z

/-- `abs` of an `INT64`: it is the function of C, and its argument an `int`. -/
def abs64 (ar : Arith) (z : Int) : Int := abs32 ar (ar.i32 z)

@[simp] theorem abs32_exact (z : Int) : abs32 .exact z = |z| := by
  unfold abs32
  split
  · next h => rw [exact_i32, abs_of_neg h]
  · next h => rw [abs_of_nonneg (by omega)]

@[simp] theorem abs64_exact (z : Int) : abs64 .exact z = |z| := abs32_exact z

/-- The `do ... while (i)` of `Gcd`, in at most `|i|` turns. -/
def gcdLoop : Nat → Int → Int → Int
  | 0, _, j => j
  | fuel + 1, i, j =>
    if j.tmod i = 0 then i else gcdLoop fuel (j.tmod i) i

/-- `Gcd(mINT32, mINT32)`. -/
def gcd32 (ar : Arith) (a b : Int) : Int :=
  let i := abs32 ar a
  let j := abs32 ar b
  if i = 0 then j
  else if j = 0 then i
  else if i > j then gcdLoop j.natAbs j i
  else gcdLoop i.natAbs i j

theorem gcdLoop_eq (fuel : Nat) : ∀ i j : Int, 0 < i → 0 ≤ j → i.natAbs ≤ fuel →
    gcdLoop fuel i j = Int.gcd i j := by
  induction fuel with
  | zero => intro i j hi _ hf; omega
  | succ fuel ih =>
    intro i j hi hj hf
    have hmod : j.tmod i = j % i := Int.tmod_eq_emod_of_nonneg hj
    have hlt : j % i < i := Int.emod_lt_of_pos j hi
    have hge : 0 ≤ j % i := Int.emod_nonneg j (by omega)
    unfold gcdLoop
    rw [hmod]
    split
    · next h0 =>
      exact (Int.gcd_eq_left hi.le (Int.dvd_of_emod_eq_zero h0)).symm
    · next h0 =>
      rw [ih (j % i) i (by omega) hi.le (by omega), Int.gcd_emod, Int.gcd_comm]

theorem gcd32_exact (a b : Int) : gcd32 .exact a b = Int.gcd a b := by
  have ha := abs_nonneg a
  have hb := abs_nonneg b
  unfold gcd32
  simp only [abs32_exact]
  have habs : Int.gcd a b = Int.gcd |a| |b| := by simp [Int.gcd, Int.natAbs_abs]
  rw [habs]
  split
  · next h => simp [h]
  · split
    · next h => simp [h]
    · split
      · rw [gcdLoop_eq _ _ _ (by omega) ha (Nat.le_refl _), Int.gcd_comm]
      · rw [gcdLoop_eq _ _ _ (by omega) hb (Nat.le_refl _)]

/-! ## State -/

/-- `INT32_INFIN`: a 32-bit value with two values set aside. -/
structure Int32Infin where
  val : Int

def Int32Infin.infinite : Int32Infin := ⟨int32Max⟩
def Int32Infin.negInfinite : Int32Infin := ⟨int32Min⟩

def Int32Infin.isInfinite (b : Int32Infin) : Bool := decide (b.val = int32Max)
def Int32Infin.isNegInfinite (b : Int32Infin) : Bool := decide (b.val = int32Min)

def maxWorkRows : Nat := 1000
def maxWorkCols : Nat := 30
def maxWorkRowsEq : Nat := 100

/-- The static members of `SYSTEM_OF_EQUATIONS`. -/
structure WorkState where
  work : Nat → Nat → Int
  workConst : Nat → Int
  workRows : Nat
  workCols : Nat
  isSvpc : Nat → Bool
  lowerBound : Nat → Int32Infin
  upperBound : Nat → Int32Infin
  workEq : Nat → Nat → Int
  workConstEq : Nat → Int
  workRowsEq : Nat

/-- A work state with the given inequality rows and nothing else in it. -/
def WorkState.ofRows (cols : Nat) (rows : List (List Int × Int)) : WorkState where
  work := fun r c => ((rows.getD r ([], 0)).1).getD c 0
  workConst := fun r => (rows.getD r ([], 0)).2
  workRows := rows.length
  workCols := cols
  isSvpc := fun _ => false
  lowerBound := fun _ => ⟨0⟩
  upperBound := fun _ => ⟨0⟩
  workEq := fun _ _ => 0
  workConstEq := fun _ => 0
  workRowsEq := 0

/-! ## Meaning -/

open LinearRow

/-- The point `x` satisfies the inequality in row `r`. -/
def RowHolds (st : WorkState) (x : Nat → Int) (r : Nat) : Prop :=
  dot st.workCols (st.work r) x ≤ st.workConst r

/-- The point `x` satisfies every inequality in use. -/
def Solves (st : WorkState) (x : Nat → Int) : Prop :=
  ∀ r < st.workRows, RowHolds st x r

/-- `b` is a lower bound of `v`, and not plus infinity if it is finite. -/
def LowerOk (b : Int32Infin) (v : Int) : Prop :=
  b.val ≤ int32Max ∧ (b.val = int32Min ∨ b.val ≤ v)

def UpperOk (b : Int32Infin) (v : Int) : Prop :=
  int32Min ≤ b.val ∧ (b.val = int32Max ∨ v ≤ b.val)

theorem lowerOk_le_upperOk {lb ub : Int32Infin} {v : Int}
    (hl : LowerOk lb v) (hu : UpperOk ub v) : lb.val ≤ ub.val := by
  obtain ⟨hl1, hl2⟩ := hl
  obtain ⟨hu1, hu2⟩ := hu
  rcases hl2 with hl2 | hl2 <;> rcases hu2 with hu2 | hu2 <;> omega

/-- `x` solves the rows and lies within the bounds found so far. -/
structure Inside (st : WorkState) (x : Nat → Int) : Prop where
  rows : Solves st x
  lower : ∀ v < st.workCols, LowerOk (st.lowerBound v) (x v)
  upper : ∀ v < st.workCols, UpperOk (st.upperBound v) (x v)

end Soe
