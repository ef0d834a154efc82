import Path64.Dep.Decompose
import Path64.Lib.Loop

/-! # Whether a dependence array lets loops be blocked

`DEPV_ARRAY::Is_Blockable` goes through the vectors of an array. A
vector is out of question once a loop outside of the blocked ones
carries it; otherwise none of its dimensions in the blocked loops may be
negative.

The code leaves the function, not the vector, when it finds a vector
that is carried outside. -/

namespace Dep

open Loop

/-! ## The code -/

/-- `DEPV_ARRAY`: the vectors one behind the other, `numDim` dependences each. -/
structure DepvArray where
  numVec : Nat
  numDim : Nat
  numUnusedDim : Nat
  data : Nat → DEP

/-- `DEPV_Dep(Depv(i), k)`. -/
def DepvArray.dep (a : DepvArray) (i k : Nat) : DEP := a.data (i * a.numDim + k)

/-- The directions that the code takes for possibly negative. -/
def PossiblyNegative (dep : DEP) : Prop :=
  direction dep = some .neg ∨ direction dep = some .posneg ∨
    direction dep = some .negeq ∨ direction dep = some .star

instance (dep : DEP) : Decidable (PossiblyNegative dep) := inferInstanceAs (Decidable (_ ∨ _))

/-- One dimension of a vector; an early exit is the answer. -/
def blockableDim (a : DepvArray) (startDepth i j : Nat) : Except Bool Unit :=
  let dep := a.dep i (j - a.numUnusedDim)
  if j < startDepth ∧ direction dep = some .pos then .error true
  else if j ≥ startDepth ∧ PossiblyNegative dep then .error false
  else .ok ()

/-- The dimensions of a vector. -/
def blockableVec (a : DepvArray) (startDepth stopDepth i : Nat) : Except Bool Unit :=
  forFrom (fun j _ => blockableDim a startDepth i j) (stopDepth + 1 - a.numUnusedDim)
    a.numUnusedDim ()

def isBlockable (a : DepvArray) (startDepth stopDepth : Nat) : Bool :=
  match forFrom (fun i _ => blockableVec a startDepth stopDepth i) a.numVec 0 () with
  | .error answer => answer
  | .ok () => true

/-! ## What is asked of a vector -/

/-- Vector `i` is carried by a loop outside of `startDepth`. -/
def CarriedOutside (a : DepvArray) (startDepth i : Nat) : Prop :=
  ∃ j < startDepth, a.numUnusedDim ≤ j ∧ direction (a.dep i (j - a.numUnusedDim)) = some .pos

/-- Vector `i` may be negative in one of the blocked loops. -/
def NegativeInside (a : DepvArray) (startDepth stopDepth i : Nat) : Prop :=
  ∃ j < stopDepth + 1, startDepth ≤ j ∧ a.numUnusedDim ≤ j ∧
    PossiblyNegative (a.dep i (j - a.numUnusedDim))

instance (a : DepvArray) (startDepth i : Nat) : Decidable (CarriedOutside a startDepth i) :=
  inferInstanceAs (Decidable (∃ j < startDepth, _))

instance (a : DepvArray) (startDepth stopDepth i : Nat) :
    Decidable (NegativeInside a startDepth stopDepth i) :=
  inferInstanceAs (Decidable (∃ j < stopDepth + 1, _))

/-- Vector `i` stands in the way of blocking the loops. -/
def Prevents (a : DepvArray) (startDepth stopDepth i : Nat) : Prop :=
  ¬ CarriedOutside a startDepth i ∧ NegativeInside a startDepth stopDepth i

/-- No vector stands in the way. -/
def Blockable (a : DepvArray) (startDepth stopDepth : Nat) : Prop :=
  ∀ i < a.numVec, CarriedOutside a startDepth i ∨ ¬ NegativeInside a startDepth stopDepth i

/-- A vector that is carried outside comes before all those that stand in the way. -/
def CarriedBefore (a : DepvArray) (startDepth stopDepth : Nat) : Prop :=
  ∃ i < a.numVec, Prevents a startDepth stopDepth i ∧
    ∃ i₁ < i, CarriedOutside a startDepth i₁ ∧ ∀ i₂ < i₁, ¬ Prevents a startDepth stopDepth i₂

instance (a : DepvArray) (startDepth stopDepth i : Nat) :
    Decidable (Prevents a startDepth stopDepth i) := inferInstanceAs (Decidable (_ ∧ _))

instance (a : DepvArray) (startDepth stopDepth : Nat) : Decidable (Blockable a startDepth stopDepth) :=
  inferInstanceAs (Decidable (∀ i < a.numVec, _))

/-! ## What the loops find -/

section loops
variable {a : DepvArray} {startDepth stopDepth : Nat}

/-- The scan over one vector stops at the first entry that decides it. -/
theorem blockableVec_outcome (hle : startDepth ≤ stopDepth) (i : Nat) : Outcome
      (fun answer => (answer = true ∧ CarriedOutside a startDepth i) ∨
        (answer = false ∧ Prevents a startDepth stopDepth i))
      (fun _ => ¬ CarriedOutside a startDepth i ∧ ¬ NegativeInside a startDepth stopDepth i)
      (blockableVec a startDepth stopDepth i) := by
  -- the dimensions below `j` neither carry the vector outside nor are
  -- negative inside
  have hloop := forFrom_outcome
    (f := fun j (_ : Unit) => blockableDim a startDepth i j)
    (Q := fun answer => (answer = true ∧ CarriedOutside a startDepth i) ∨
      (answer = false ∧ Prevents a startDepth stopDepth i))
    (fun j _ => ∀ j' < j, a.numUnusedDim ≤ j' →
      (j' < startDepth → direction (a.dep i (j' - a.numUnusedDim)) ≠ some .pos) ∧
        (startDepth ≤ j' → ¬ PossiblyNegative (a.dep i (j' - a.numUnusedDim))))
    (stopDepth + 1 - a.numUnusedDim) a.numUnusedDim ()
    (by
      intro j _ hlo hhi hinv
      unfold blockableDim
      dsimp only
      split_ifs with hcarried hneg
      · exact .inl ⟨rfl, j, hcarried.1, hlo, hcarried.2⟩
      · refine .inr ⟨rfl, ?_, j, by omega, hneg.1, hlo, hneg.2⟩
        rintro ⟨j', hj', hlo', hpos⟩
        exact (hinv j' (by omega) hlo').1 hj' hpos
      · intro j' hj' hlo'
        rcases Nat.lt_succ_iff_lt_or_eq.mp hj' with hlt | rfl
        · exact hinv j' hlt hlo'
        · exact ⟨fun hout hpos => hcarried ⟨hout, hpos⟩, fun hin hposs => hneg ⟨hin, hposs⟩⟩)
    (fun j' hj' hlo' => absurd hj' (by omega))
  refine hloop.imp fun _ hinv => ⟨?_, ?_⟩
  · rintro ⟨j, hj, hlo, hpos⟩
    exact (hinv j (by omega) hlo).1 hj hpos
  · rintro ⟨j, hj, hin, hlo, hneg⟩
    exact (hinv j (by omega) hlo).2 hin hneg

/-- Vector `i` decides: the ones before it do not. -/
structure Decides (a : DepvArray) (startDepth stopDepth i : Nat) (answer : Bool) : Prop where
  lt : i < a.numVec
  before : ∀ i' < i, ¬ CarriedOutside a startDepth i' ∧ ¬ Prevents a startDepth stopDepth i'
  answer : (answer = true ∧ CarriedOutside a startDepth i) ∨
    (answer = false ∧ Prevents a startDepth stopDepth i)

/-- The answer is decided by some vector, or is TRUE with none that prevents the blocking. -/
theorem isBlockable_decides (hle : startDepth ≤ stopDepth) :
    (∃ i, Decides a startDepth stopDepth i (isBlockable a startDepth stopDepth)) ∨
      (isBlockable a startDepth stopDepth = true ∧
        ∀ i < a.numVec, ¬ Prevents a startDepth stopDepth i) := by
  have hloop := forFrom_outcome
    (f := fun i (_ : Unit) => blockableVec a startDepth stopDepth i)
    (Q := fun answer => ∃ i, Decides a startDepth stopDepth i answer)
    (fun i _ => ∀ i' < i, ¬ CarriedOutside a startDepth i' ∧ ¬ Prevents a startDepth stopDepth i')
    a.numVec 0 ()
    (by
      intro i _ _ hhi hinv
      have hvec := blockableVec_outcome (a := a) hle i
      cases hres : blockableVec a startDepth stopDepth i with
      | error answer =>
        rw [hres] at hvec
        exact ⟨i, by omega, hinv, hvec⟩
      | ok u =>
        rw [hres] at hvec
        intro i' hi'
        rcases Nat.lt_succ_iff_lt_or_eq.mp hi' with hlt | rfl
        · exact hinv i' hlt
        · exact ⟨hvec.1, fun hprev => hvec.2 hprev.2⟩)
    (fun i' hi' => absurd hi' (Nat.not_lt_zero i'))
  unfold isBlockable
  cases hres : forFrom (fun i (_ : Unit) => blockableVec a startDepth stopDepth i) a.numVec 0 () with
  | error answer =>
    rw [hres] at hloop
    exact .inl hloop
  | ok u =>
    rw [hres, Nat.zero_add] at hloop
    exact .inr ⟨rfl, fun i hi => (hloop i hi).2⟩

/-- A positive answer is right for every vector, unless a vector that is carried outside comes
before those that stand in the way. -/
theorem isBlockable_sound_iff (a : DepvArray) {startDepth stopDepth : Nat}
    (hle : startDepth ≤ stopDepth) :
    (isBlockable a startDepth stopDepth = true → Blockable a startDepth stopDepth) ↔
      ¬ CarriedBefore a startDepth stopDepth := by
  have hdecides := isBlockable_decides (a := a) hle
  constructor
  · rintro hsound ⟨i, hi, hprev, i1, hi1, hcarried, hbefore⟩
    have hanswer : isBlockable a startDepth stopDepth = true := by
      obtain ⟨d, hd⟩ | ⟨htrue, -⟩ := hdecides
      · rcases hd.answer with ⟨htrue, -⟩ | ⟨-, hprevd⟩
        · exact htrue
        · -- a vector in the way that decides would come before `i1`
          rcases Nat.lt_trichotomy d i1 with hlt | rfl | hgt
          · exact absurd hprevd (hbefore d hlt)
          · exact absurd hcarried hprevd.1
          · exact absurd hcarried (hd.before i1 hgt).1
      · exact htrue
    rcases hsound hanswer i hi with hc | hn
    · exact hprev.1 hc
    · exact hn hprev.2
  · intro hnot hanswer i hi
    by_contra hbad
    rw [not_or, not_not] at hbad
    have hprev : Prevents a startDepth stopDepth i := hbad
    obtain ⟨d, hd⟩ | ⟨-, hnone⟩ := hdecides
    · rcases hd.answer with ⟨-, hcarried⟩ | ⟨hfalse, -⟩
      · rcases Nat.lt_trichotomy d i with hlt | rfl | hgt
        · exact hnot ⟨i, hi, hprev, d, hlt, hcarried, fun i2 hi2 => (hd.before i2 hi2).2⟩
        · exact hprev.1 hcarried
        · exact (hd.before i hgt).2 hprev
      · rw [hanswer] at hfalse
        cases hfalse
    · exact hnone i hi hprev

end loops

/-- The vectors `(+,=,=)` and `(=,+,-)`. -/
def hiddenArray : DepvArray where
  numVec := 2
  numDim := 3
  numUnusedDim := 0
  data := fun n =>
    [setDirection .pos, setDirection .eq, setDirection .eq,
      setDirection .eq, setDirection .pos, setDirection .neg].getD n 0

/-- With the loops 1 and 2 to be blocked, the second vector stands in the way; the code does not
come to it. -/
theorem isBlockable_hidden :
    ¬ ∀ (a : DepvArray) (startDepth stopDepth : Nat), startDepth ≤ stopDepth →
      isBlockable a startDepth stopDepth = true → Blockable a startDepth stopDepth := by
  intro h
  exact absurd (h hiddenArray 1 2 (by decide) (by decide)) (by decide)

/-- The same vectors the other way round. -/
def seenArray : DepvArray where
  numVec := 2
  numDim := 3
  numUnusedDim := 0
  data := fun n =>
    [setDirection .eq, setDirection .pos, setDirection .neg,
      setDirection .pos, setDirection .eq, setDirection .eq].getD n 0

theorem isBlockable_sound_seen : ((isBlockable seenArray 1 2 = true → Blockable seenArray 1 2) ↔
      ¬ CarriedBefore seenArray 1 2) ∧ ¬ CarriedBefore seenArray 1 2 := by
  refine ⟨isBlockable_sound_iff seenArray (by decide), ?_⟩
  rintro ⟨i, hi, hprev, i1, hi1, hcarried, hbefore⟩
  have hfirst : Prevents seenArray 1 2 0 := by decide
  have hi1' : i1 = 0 := by
    have : i < 2 := hi
    omega
  rw [hi1'] at hcarried
  exact hfirst.1 hcarried

end Dep
