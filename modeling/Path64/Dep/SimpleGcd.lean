import Mathlib.Algebra.EuclideanDomain.Int
import Mathlib.RingTheory.PrincipalIdealDomain
import Path64.Soe.TakeGcds

/-! # The simple gcd test

`Simple_Gcd_Indep` compares the difference of two constant offsets with
the gcd of all coefficients. The coefficients are 32-bit integers. The
offsets are 64-bit ones; their difference goes through `abs`, which in C
takes an `int`. -/

namespace Dep

open List Soe

/-! ## Model -/

/-- The `abs` for an `INT64`: that of the C library takes an `int`, a C++ library may have another.
-/
inductive AbsArg where
  | int
  | int64

/-- The absolute value in 64 bits. -/
def absInt64 (z : Int) : Int := if z < 0 then Arith.machine.i64 (-z) else z

/-- The conversion of the argument. -/
def AbsArg.convert : AbsArg → Int → Int
  | .int, z => Arith.machine.i32 z
  | .int64, z => z

def AbsArg.abs : AbsArg → Int → Int
  | .int, z => abs64 .machine z
  | .int64, z => absInt64 z

/-- `ACCESS_VECTOR`, over the symbols `σ`; a null pointer is `none`. -/
structure AccessVector (σ : Type) where
  tooMessy : Bool
  nestDepth : Nat
  lcoeff : Option (Nat → Int)
  linSymb : Option (List (σ × Int))
  nonLinSymb : Option (List (List σ × Int))
  constOffset : Int
  lcoeff_fits : ∀ f ∈ lcoeff, ∀ i, Fits32 (f i)
  linSymb_fits : ∀ l ∈ linSymb, ∀ p ∈ l, Fits32 p.2
  offset_fits : Fits64 constOffset

namespace AccessVector
variable {σ : Type}

def containsNonLinSymb (av : AccessVector σ) : Bool :=
  match av.nonLinSymb with
  | none => false
  | some l => !l.isEmpty

def loopCoeff (av : AccessVector σ) (i : Nat) : Int :=
  match av.lcoeff with
  | none => 0
  | some f => if i < av.nestDepth then f i else 0

def hasLoopCoeff (av : AccessVector σ) : Bool := av.lcoeff.isSome

/-- The coefficients of the loops, as the test goes through them. -/
def loopCoeffs (av : AccessVector σ) : List Int :=
  if av.hasLoopCoeff then (range av.nestDepth).map av.loopCoeff else []

/-- The linear symbolic terms. -/
def symbs (av : AccessVector σ) : List (σ × Int) := av.linSymb.getD []

end AccessVector

/-- One coefficient; `none` is the exit for a gcd of 1. -/
def takeCoeff (seen : Option Int) (x : Int) : Option (Option Int) :=
  let coeff := abs32 .machine x
  if coeff = 0 then some seen
  else if coeff = 1 then none
  else
    match seen with
    | none => some (some coeff)
    | some gcd => some (some (gcd32 .machine gcd coeff))

/-- The four loops of the test. -/
def gcdOfCoeffs {σ : Type} (av1 av2 : AccessVector σ) : Option (Option Int) := do
  let seen ← av1.loopCoeffs.foldlM takeCoeff none
  let seen ← av2.loopCoeffs.foldlM takeCoeff seen
  let seen ← (av1.symbs.map Prod.snd).foldlM takeCoeff seen
  (av2.symbs.map Prod.snd).foldlM takeCoeff seen

/-- `Simple_Gcd_Indep` on two access vectors. -/
def simpleGcdIndep {σ : Type} (lib : AbsArg) (av1 av2 : AccessVector σ) : Bool :=
  if av1.tooMessy || av2.tooMessy || av1.containsNonLinSymb || av2.containsNonLinSymb then false
  else
    let c := lib.abs (Arith.machine.i64 (av2.constOffset - av1.constOffset))
    if c = 0 then false
    else
      match gcdOfCoeffs av1 av2 with
      | none => false
      | some none => true
      | some (some gcd) => decide (c.tmod gcd ≠ 0)

/-! ## What a subscript means -/

/-- The value of a subscript under an assignment of the loop indices and the symbols. -/
def AccessVector.value {σ : Type} (av : AccessVector σ) (x : Nat → Int) (s : σ → Int) : Int :=
  ∑ i ∈ Finset.range av.nestDepth, av.loopCoeff i * x i + (av.symbs.map fun p => p.2 * s p.1).sum
    + av.constOffset

/-- The loop indices of the two references vary independently, the symbols are shared. -/
def CanMeet {σ : Type} (av1 av2 : AccessVector σ) : Prop :=
  ∃ (x y : Nat → Int) (s : σ → Int), av1.value x s = av2.value y s

/-- The coefficient of a symbol. -/
def AccessVector.symbCoeff {σ : Type} [DecidableEq σ] (av : AccessVector σ) (v : σ) : Int :=
  (av.symbs.map fun p => if p.1 = v then p.2 else 0).sum

section unknowns
variable {σ : Type} [DecidableEq σ]

/-- The unknowns of the equation: indices of both references, and symbols. -/
def unknowns (av1 av2 : AccessVector σ) : Finset (Nat ⊕ Nat ⊕ σ) :=
  (Finset.range av1.nestDepth).disjSum ((Finset.range av2.nestDepth).disjSum
    ((av1.symbs ++ av2.symbs).map Prod.fst).toFinset)

/-- Their coefficients, all on one side. -/
def unknownCoeff (av1 av2 : AccessVector σ) : Nat ⊕ Nat ⊕ σ → Int :=
  Sum.elim av1.loopCoeff
    (Sum.elim (fun i => -av2.loopCoeff i) (fun v => av1.symbCoeff v - av2.symbCoeff v))

end unknowns

/-! ## Solving the equation -/

theorem exists_sum_eq_iff {ι : Type} (s : Finset ι) (a : ι → Int) (d : Int) :
    (∃ x : ι → Int, ∑ i ∈ s, a i * x i = d) ↔ s.gcd a ∣ d := by
  constructor
  · rintro ⟨x, rfl⟩
    exact Finset.dvd_sum fun i hi => (Finset.gcd_dvd hi).mul_right (x i)
  · rintro ⟨q, rfl⟩
    obtain ⟨g, hg⟩ := Finset.gcd_eq_sum_mul s a
    refine ⟨fun i => g i * q, ?_⟩
    rw [hg, Finset.sum_mul]
    exact Finset.sum_congr rfl fun i _ => (mul_assoc _ _ _).symm

section meet
variable {σ : Type} [DecidableEq σ]

theorem sum_symbs_eq (l : List (σ × Int)) (S : Finset σ) (s : σ → Int) (hS : ∀ p ∈ l, p.1 ∈ S) :
    (l.map fun p => p.2 * s p.1).sum
      = ∑ v ∈ S, (l.map fun p => if p.1 = v then p.2 else 0).sum * s v := by
  induction l with
  | nil =>
    simp only [map_nil, sum_nil, zero_mul, Finset.sum_const_zero]
  | cons p l ih =>
    have hp : p.1 ∈ S := hS p mem_cons_self
    have hone : ∑ v ∈ S, (if p.1 = v then p.2 else 0) * s v = p.2 * s p.1 := by
      simp only [ite_mul, zero_mul, Finset.sum_ite_eq, if_pos hp]
    simp only [map_cons, sum_cons, add_mul, Finset.sum_add_distrib]
    rw [hone, ih fun q hq => hS q (mem_cons_of_mem p hq)]

theorem value_eq (av : AccessVector σ) (S : Finset σ) (hS : ∀ p ∈ av.symbs, p.1 ∈ S)
    (x : Nat → Int) (s : σ → Int) :
    av.value x s = ∑ i ∈ Finset.range av.nestDepth, av.loopCoeff i * x i
      + ∑ v ∈ S, av.symbCoeff v * s v + av.constOffset := by
  unfold AccessVector.value
  rw [sum_symbs_eq av.symbs S s hS]
  rfl

theorem canMeet_iff (av1 av2 : AccessVector σ) : CanMeet av1 av2 ↔
      (unknowns av1 av2).gcd (unknownCoeff av1 av2) ∣ av2.constOffset - av1.constOffset := by
  rw [← exists_sum_eq_iff]
  have hsymb : ∀ p ∈ av1.symbs ++ av2.symbs,
      p.1 ∈ ((av1.symbs ++ av2.symbs).map Prod.fst).toFinset := fun p hp =>
    mem_toFinset.mpr (mem_map_of_mem hp)
  have hone : ∀ z : Nat ⊕ Nat ⊕ σ → Int, ∑ k ∈ unknowns av1 av2, unknownCoeff av1 av2 k * z k
        = av1.value (fun i => z (.inl i)) (fun v => z (.inr (.inr v)))
          - av2.value (fun i => z (.inr (.inl i))) (fun v => z (.inr (.inr v)))
          + (av2.constOffset - av1.constOffset) := by
    intro z
    rw [value_eq av1 _ (fun p hp => hsymb p (mem_append_left _ hp)),
      value_eq av2 _ (fun p hp => hsymb p (mem_append_right _ hp))]
    unfold unknowns unknownCoeff
    simp only [Finset.sum_disjSum, Sum.elim_inl, Sum.elim_inr, neg_mul, sub_mul,
      Finset.sum_neg_distrib, Finset.sum_sub_distrib]
    ring
  constructor
  · rintro ⟨x, y, s, heq⟩
    refine ⟨Sum.elim x (Sum.elim y s), ?_⟩
    have heq' : av1.value (fun i => x i) (fun v => s v) = av2.value (fun i => y i) (fun v => s v) :=
      heq
    rw [hone]
    simp only [Sum.elim_inl, Sum.elim_inr]
    omega
  · rintro ⟨z, hz⟩
    rw [hone] at hz
    exact ⟨fun i => z (.inl i), fun i => z (.inr (.inl i)), fun v => z (.inr (.inr v)), by omega⟩

end meet

/-! ## What the test computes -/

/-- The greatest common divisor of a list. -/
def gcdList (l : List Int) : Nat := l.foldr (fun x d => Nat.gcd x.natAbs d) 0

theorem gcdList_dvd {l : List Int} {x : Int} (hx : x ∈ l) : (gcdList l : Int) ∣ x := by
  induction l with
  | nil => cases hx
  | cons y l ih =>
    have hfold : gcdList (y :: l) = Nat.gcd y.natAbs (gcdList l) := rfl
    rw [hfold]
    rcases mem_cons.mp hx with rfl | hx
    · exact Int.natCast_dvd.mpr (Nat.gcd_dvd_left _ _)
    · exact (Int.natCast_dvd_natCast.mpr (Nat.gcd_dvd_right _ _)).trans (ih hx)

/-- All coefficients that the test looks at. -/
def allCoeffs {σ : Type} (av1 av2 : AccessVector σ) : List Int :=
  av1.loopCoeffs ++ av2.loopCoeffs ++ av1.symbs.map Prod.snd ++ av2.symbs.map Prod.snd

theorem natAbs_abs32 {z : Int} (h : -2147483648 ≤ z) : (abs32 .machine z).natAbs = z.natAbs := by
  unfold abs32
  split
  · have hfits : -2147483648 ≤ Int.bmod (-z) (2 ^ 32) ∧ Int.bmod (-z) (2 ^ 32) ≤ 2147483647 :=
      machine_i32_fits (-z)
    have hq : Int.bmod (-z) (2 ^ 32) = -z - 4294967296 * Int.bdiv (-z) (2 ^ 32) :=
      Int.bmod_eq_self_sub_mul_bdiv (-z) (2 ^ 32)
    show (Int.bmod (-z) (2 ^ 32)).natAbs = z.natAbs
    omega
  · rfl

theorem natAbs_absInt64 {z : Int} (h : -9223372036854775808 ≤ z) :
    (absInt64 z).natAbs = z.natAbs := by
  unfold absInt64
  split
  · have hfits : -9223372036854775808 ≤ Int.bmod (-z) (2 ^ 64) ∧
        Int.bmod (-z) (2 ^ 64) ≤ 9223372036854775807 := machine_i64_fits (-z)
    have hq : Int.bmod (-z) (2 ^ 64) = -z - 18446744073709551616 * Int.bdiv (-z) (2 ^ 64) :=
      Int.bmod_eq_self_sub_mul_bdiv (-z) (2 ^ 64)
    show (Int.bmod (-z) (2 ^ 64)).natAbs = z.natAbs
    omega
  · rfl

theorem natAbs_gcdLoop (fuel : Nat) : ∀ i j : Int, i ≠ 0 → i.natAbs ≤ fuel →
    (gcdLoop fuel i j).natAbs = Nat.gcd i.natAbs j.natAbs := by
  induction fuel with
  | zero => intro i j hi hf; omega
  | succ fuel ih =>
    intro i j hi hf
    have hmod : (j.tmod i).natAbs = j.natAbs % i.natAbs := Int.natAbs_tmod j i
    have hlt : j.natAbs % i.natAbs < i.natAbs := Nat.mod_lt _ (by omega)
    unfold gcdLoop
    split
    · next h0 =>
      rw [h0] at hmod
      exact (Nat.gcd_eq_left (Nat.dvd_of_mod_eq_zero hmod.symm)).symm
    · next h0 =>
      rw [ih _ i h0 (by omega), hmod, ← Nat.gcd_rec]

theorem natAbs_gcd32 {a b : Int} (ha : -2147483648 ≤ a) (hb : -2147483648 ≤ b) :
    (gcd32 .machine a b).natAbs = Nat.gcd a.natAbs b.natAbs := by
  rw [← natAbs_abs32 ha, ← natAbs_abs32 hb]
  unfold gcd32
  generalize abs32 .machine a = i
  generalize abs32 .machine b = j
  dsimp only
  split
  · next h => rw [h, Int.natAbs_zero, Nat.gcd_zero_left]
  · next hi =>
    split
    · next h => rw [h, Int.natAbs_zero, Nat.gcd_zero_right]
    · next hj =>
      split
      · rw [natAbs_gcdLoop _ _ _ hj (le_refl _), Nat.gcd_comm]
      · rw [natAbs_gcdLoop _ _ _ hi (le_refl _)]

/-- The state of the loops after coefficients with gcd `d`. -/
def SeenGcd (d : Nat) : Option Int → Prop
  | none => d = 0
  | some gcd => gcd ≠ 0 ∧ gcd.natAbs = d ∧ d ≤ 2147483648

/-- One more coefficient: the scan ends at a unit, or goes on with the gcd of those seen. -/
theorem takeCoeff_spec {d : Nat} {seen : Option Int} {x : Int} (hseen : SeenGcd d seen)
    (hx : Fits32 x) :
    match takeCoeff seen x with
    | none => x.natAbs = 1
    | some seen' => SeenGcd (Nat.gcd x.natAbs d) seen' := by
  have habs := natAbs_abs32 hx.1
  have hle : x.natAbs ≤ 2147483648 := by
    unfold Fits32 int32Min int32Max at hx
    omega
  unfold takeCoeff
  dsimp only
  generalize abs32 .machine x = coeff at habs ⊢
  by_cases h0 : coeff = 0
  · have hx0 : x.natAbs = 0 := by omega
    rw [if_pos h0, hx0, Nat.gcd_zero_left]
    exact hseen
  · rw [if_neg h0]
    by_cases h1 : coeff = 1
    · rw [if_pos h1]
      show x.natAbs = 1
      omega
    · rw [if_neg h1]
      cases seen with
      | none =>
        have hd : d = 0 := hseen
        rw [hd, Nat.gcd_zero_right]
        exact ⟨h0, habs, hle⟩
      | some gcd =>
        obtain ⟨hne, hgcd, hgle⟩ := hseen
        have hnat : (gcd32 .machine gcd coeff).natAbs = Nat.gcd x.natAbs d := by
          rw [natAbs_gcd32 (by omega) (by omega), habs, hgcd, Nat.gcd_comm]
        have hpos : 0 < Nat.gcd x.natAbs d := Nat.gcd_pos_of_pos_left _ (by omega)
        have hsmall := Nat.gcd_le_left d (show 0 < x.natAbs by omega)
        exact ⟨by omega, hnat, by omega⟩

/-- The scan over all coefficients, by induction on the list. -/
theorem foldlM_takeCoeff_spec (l : List Int) (hl : ∀ x ∈ l, Fits32 x) :
    ∀ {d : Nat} {seen : Option Int}, SeenGcd d seen →
      match l.foldlM takeCoeff seen with
      | none => ∃ x ∈ l, x.natAbs = 1
      | some seen' => SeenGcd (Nat.gcd (gcdList l) d) seen' := by
  induction l with
  | nil =>
    intro d seen hseen
    show SeenGcd (Nat.gcd 0 d) seen
    rwa [Nat.gcd_zero_left]
  | cons x l ih =>
    intro d seen hseen
    have hx := takeCoeff_spec hseen (hl x mem_cons_self)
    rw [foldlM_cons]
    cases htake : takeCoeff seen x with
    | none =>
      rw [htake] at hx
      exact ⟨x, mem_cons_self, hx⟩
    | some seen' =>
      rw [htake] at hx
      have hrest := ih (fun y hy => hl y (mem_cons_of_mem x hy)) hx
      have hgcd : Nat.gcd (gcdList (x :: l)) d = Nat.gcd (gcdList l) (Nat.gcd x.natAbs d) := by
        show Nat.gcd (Nat.gcd x.natAbs (gcdList l)) d = _
        rw [Nat.gcd_comm x.natAbs, Nat.gcd_assoc]
      rw [hgcd]
      show match l.foldlM takeCoeff seen' with
        | none => ∃ y ∈ x :: l, y.natAbs = 1
        | some seen' => SeenGcd (Nat.gcd (gcdList l) (Nat.gcd x.natAbs d)) seen'
      cases hfold : l.foldlM takeCoeff seen' with
      | none =>
        rw [hfold] at hrest
        obtain ⟨y, hy, hone⟩ := hrest
        exact ⟨y, mem_cons_of_mem x hy, hone⟩
      | some seen'' =>
        rw [hfold] at hrest
        exact hrest

section test
variable {σ : Type}

theorem gcdOfCoeffs_eq (av1 av2 : AccessVector σ) :
    gcdOfCoeffs av1 av2 = (allCoeffs av1 av2).foldlM takeCoeff none := by
  unfold gcdOfCoeffs allCoeffs
  simp only [foldlM_append, bind_assoc]

theorem loopCoeff_fits (av : AccessVector σ) (i : Nat) : Fits32 (av.loopCoeff i) := by
  unfold AccessVector.loopCoeff
  cases hl : av.lcoeff with
  | none => exact fits32_zero 0 0
  | some f =>
    dsimp only
    split
    · exact av.lcoeff_fits f hl i
    · exact fits32_zero 0 0

theorem allCoeffs_fits (av1 av2 : AccessVector σ) : ∀ x ∈ allCoeffs av1 av2, Fits32 x := by
  have hloop : ∀ av : AccessVector σ, ∀ x ∈ av.loopCoeffs, Fits32 x := by
    intro av x hx
    unfold AccessVector.loopCoeffs at hx
    split at hx
    · obtain ⟨i, -, rfl⟩ := mem_map.mp hx
      exact loopCoeff_fits av i
    · cases hx
  have hsymb : ∀ av : AccessVector σ, ∀ x ∈ av.symbs.map Prod.snd, Fits32 x := by
    intro av x hx
    obtain ⟨p, hp, rfl⟩ := mem_map.mp hx
    unfold AccessVector.symbs at hp
    cases hl : av.linSymb with
    | none => rw [hl] at hp; cases hp
    | some l => rw [hl] at hp; exact av.linSymb_fits l hl p hp
  intro x hx
  unfold allCoeffs at hx
  simp only [mem_append] at hx
  rcases hx with ((hx | hx) | hx) | hx
  · exact hloop av1 x hx
  · exact hloop av2 x hx
  · exact hsymb av1 x hx
  · exact hsymb av2 x hx

/-- A vector that the test does not give up on. -/
def AccessVector.Analysable (av : AccessVector σ) : Prop :=
  av.tooMessy = false ∧ av.containsNonLinSymb = false

/-- The difference of the offsets as `abs` gets to see it. -/
def offsetSeen (lib : AbsArg) (av1 av2 : AccessVector σ) : Int :=
  lib.convert (Arith.machine.i64 (av2.constOffset - av1.constOffset))

theorem natAbs_abs (lib : AbsArg) (z : Int) :
    (lib.abs (Arith.machine.i64 z)).natAbs = (lib.convert (Arith.machine.i64 z)).natAbs := by
  cases lib with
  | int =>
    exact natAbs_abs32 (machine_i32_fits _).1
  | int64 =>
    exact natAbs_absInt64 (machine_i64_fits _).1

/-- When the test answers TRUE: both vectors can be analysed and the gcd does not divide the offset
that it sees. -/
theorem simpleGcdIndep_iff (lib : AbsArg) (av1 av2 : AccessVector σ) :
    simpleGcdIndep lib av1 av2 = true ↔ av1.Analysable ∧ av2.Analysable ∧
        ¬ (gcdList (allCoeffs av1 av2) : Int) ∣ offsetSeen lib av1 av2 := by
  have hspec := foldlM_takeCoeff_spec _ (allCoeffs_fits av1 av2) (show SeenGcd 0 none from rfl)
  rw [← gcdOfCoeffs_eq, Nat.gcd_zero_right] at hspec
  have habs := natAbs_abs lib (av2.constOffset - av1.constOffset)
  unfold simpleGcdIndep AccessVector.Analysable offsetSeen
  rw [Int.natCast_dvd, ← habs]
  generalize lib.abs (Arith.machine.i64 (av2.constOffset - av1.constOffset)) = c
  by_cases hmess : (av1.tooMessy || av2.tooMessy || av1.containsNonLinSymb ||
      av2.containsNonLinSymb) = true
  · rw [if_pos hmess]
    simp only [Bool.or_eq_true] at hmess
    grind
  · rw [if_neg hmess]
    simp only [Bool.not_eq_true, Bool.or_eq_false_iff] at hmess
    obtain ⟨⟨⟨hm1, hm2⟩, hn1⟩, hn2⟩ := hmess
    dsimp only
    by_cases hc : c = 0
    · rw [if_pos hc, hc, Int.natAbs_zero]
      simp only [dvd_zero, not_true, and_false, Bool.false_eq_true]
    · rw [if_neg hc]
      cases hgcd : gcdOfCoeffs av1 av2 with
      | none =>
        -- the exit for a coefficient 1: the gcd is 1 and divides everything
        rw [hgcd] at hspec
        obtain ⟨x, hx, hone⟩ := hspec
        have hdvd := Int.natCast_dvd.mp (gcdList_dvd hx)
        rw [hone, Nat.dvd_one] at hdvd
        simp only [hdvd, one_dvd, not_true, and_false, Bool.false_eq_true]
      | some seen =>
        rw [hgcd] at hspec
        cases seen with
        | none =>
          -- no coefficient at all: the gcd is 0, and the difference is not
          have hzero : gcdList (allCoeffs av1 av2) = 0 := hspec
          simp only [hzero, hm1, hm2, hn1, hn2, zero_dvd_iff, Int.natAbs_eq_zero, hc,
            not_false_iff, and_self]
        | some gcd =>
          obtain ⟨-, hnat, -⟩ := hspec
          rw [← hnat, Int.natAbs_dvd_natAbs, Int.dvd_iff_tmod_eq_zero]
          simp only [hm1, hm2, hn1, hn2, and_self, true_and, decide_eq_true_eq, ne_eq]

end test

/-! ## Soundness -/

section soundness
variable {σ : Type} [DecidableEq σ]

theorem gcdList_dvd_unknownCoeff (av1 av2 : AccessVector σ) :
    (gcdList (allCoeffs av1 av2) : Int) ∣ (unknowns av1 av2).gcd (unknownCoeff av1 av2) := by
  have hmem : ∀ av : AccessVector σ, ∀ i < av.nestDepth, av.loopCoeff i = 0 ∨
      av.loopCoeff i ∈ av.loopCoeffs := by
    intro av i hi
    unfold AccessVector.loopCoeffs AccessVector.hasLoopCoeff
    cases hl : av.lcoeff with
    | none => exact .inl (by unfold AccessVector.loopCoeff; rw [hl])
    | some f => exact .inr (mem_map_of_mem (mem_range.mpr hi))
  have hsymb : ∀ (av : AccessVector σ) (v : σ),
      (∀ x ∈ av.symbs.map Prod.snd, x ∈ allCoeffs av1 av2) →
      (gcdList (allCoeffs av1 av2) : Int) ∣ av.symbCoeff v := by
    intro av v hall
    refine dvd_sum fun x hx => ?_
    obtain ⟨p, hp, rfl⟩ := mem_map.mp hx
    split
    · exact gcdList_dvd (hall p.2 (mem_map_of_mem hp))
    · exact dvd_zero _
  refine Finset.dvd_gcd fun k hk => ?_
  unfold unknowns at hk
  rcases k with i | i | v
  · have hi := Finset.mem_range.mp (Finset.inl_mem_disjSum.mp hk)
    show _ ∣ av1.loopCoeff i
    rcases hmem av1 i hi with h0 | hin
    · rw [h0]
      exact dvd_zero _
    · exact gcdList_dvd (by unfold allCoeffs; simp only [mem_append, hin, true_or])
  · have hi := Finset.mem_range.mp (Finset.inl_mem_disjSum.mp (Finset.inr_mem_disjSum.mp hk))
    show _ ∣ -av2.loopCoeff i
    rcases hmem av2 i hi with h0 | hin
    · rw [h0]
      exact dvd_zero _
    · exact (dvd_neg).mpr
        (gcdList_dvd (by unfold allCoeffs; simp only [mem_append, hin, or_true, true_or]))
  · show _ ∣ av1.symbCoeff v - av2.symbCoeff v
    refine dvd_sub (hsymb av1 v fun x hx => ?_) (hsymb av2 v fun x hx => ?_)
    · unfold allCoeffs
      simp only [mem_append, hx, or_true, true_or]
    · unfold allCoeffs
      simp only [mem_append, hx, or_true]

/-- Where the subscripts can meet, what the conversions cut off is a multiple of the gcd. -/
def CutKept (lib : AbsArg) (av1 av2 : AccessVector σ) : Prop :=
  av1.Analysable → av2.Analysable →
    (unknowns av1 av2).gcd (unknownCoeff av1 av2) ∣ av2.constOffset - av1.constOffset →
    (gcdList (allCoeffs av1 av2) : Int) ∣
      av2.constOffset - av1.constOffset - offsetSeen lib av1 av2

/-- **Soundness of the simple gcd test**: the answer TRUE is right just where nothing is cut off the
difference that matters. -/
theorem simpleGcdIndep_sound_iff (lib : AbsArg) (av1 av2 : AccessVector σ) :
    (simpleGcdIndep lib av1 av2 = true → ¬ CanMeet av1 av2) ↔ CutKept lib av1 av2 := by
  rw [simpleGcdIndep_iff, canMeet_iff]
  unfold CutKept
  have hcoeff := gcdList_dvd_unknownCoeff av1 av2
  constructor
  · intro hsound h1 h2 hmeet
    have hseen : (gcdList (allCoeffs av1 av2) : Int) ∣ offsetSeen lib av1 av2 := by
      by_contra hnot
      exact hsound ⟨h1, h2, hnot⟩ hmeet
    exact dvd_sub (hcoeff.trans hmeet) hseen
  · rintro hcut ⟨h1, h2, hnot⟩ hmeet
    apply hnot
    have hsub := dvd_sub (hcoeff.trans hmeet) (hcut h1 h2 hmeet)
    rwa [sub_sub_cancel] at hsub

end soundness

/-- The subscript `3 * i + offset` in one loop. -/
def threeTimes (offset : Int) (h : Fits64 offset) : AccessVector Nat where
  tooMessy := false
  nestDepth := 1
  lcoeff := some fun _ => 3
  linSymb := none
  nonLinSymb := none
  constOffset := offset
  lcoeff_fits := by
    intro f hf i
    cases hf
    show Fits32 3
    decide
  linSymb_fits := fun _ hl => nomatch hl
  offset_fits := h

/-- `a(3*i)` and `a(3*i + 4294967298)` meet, but the C library's `abs` sees a difference of 2; with
an `abs` for 64 bits the same happens where the difference overflows. -/
theorem simpleGcdIndep_misses :
    (¬ ∀ av1 av2 : AccessVector Nat, simpleGcdIndep .int av1 av2 = true → ¬ CanMeet av1 av2) ∧
    ¬ ∀ av1 av2 : AccessVector Nat, simpleGcdIndep .int64 av1 av2 = true → ¬ CanMeet av1 av2 := by
  constructor
  · intro hall
    refine hall (threeTimes 0 (by decide)) (threeTimes 4294967298 (by decide)) (by decide) ?_
    exact ⟨fun _ => 1431655766, fun _ => 0, fun _ => 0, by rfl⟩
  · intro hall
    refine hall (threeTimes 9223372036854775807 (by decide))
      (threeTimes (-9223372036854775808) (by decide)) (by decide) ?_
    exact ⟨fun _ => 0, fun _ => 6148914691236517205, fun _ => 0, by rfl⟩

end Dep
