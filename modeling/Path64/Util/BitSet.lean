import Path64.Lib.UpdateLoop
import Path64.Lib.BitMask

/-! # Bit sets

`common/util/bitset.c`: sets of nonnegative integers as vectors of
32-bit words. Operands and results may have any word counts; a number
beyond the words of a set is not a member of it.

A set is its list of words, and `BS_word_count` is the length of the
list. Newly allocated words hold arbitrary values, newly grown ones
zero. -/

namespace BitSet

open Nat List UpdateLoop

abbrev BsWord := BitVec 32

/-- The words that hold the members. -/
abbrev BS := List BsWord

/-! ## Words, members, storage -/

/-- `BS_word(set,i)`. -/
def bsWord (set : BS) (i : Nat) : Option BsWord := set[i]?

def bsMemberP (set : BS) (x : Nat) : Bool :=
  if h : x / 32 < set.length then set[x / 32].getLsbD (x % 32) else false

/-- `bs_Malloc`: the words are uninitialized. -/
def bsMalloc (garbage : Nat → BsWord) (length : Nat) : BS :=
  (range length).map garbage

/-- `for (new_length = n; new_length < length; new_length <<= 1);` -/
def doubleTo (length : Nat) : Nat → Nat → Nat
  | 0, n => n
  | fuel + 1, n => if n < length then doubleTo length fuel (n * 2) else n

/-- `bs_Realloc`: sets only grow, to a power of two. -/
def bsRealloc (set : BS) (length : Nat) : BS :=
  if length ≤ set.length then set
  else set ++ replicate (doubleTo length length 2 - set.length) 0

/-- What word `i` of the set contributes: nothing beyond the words it has. -/
def contents (set : BS) (i : Nat) : BsWord := set[i]?.getD 0

variable {i n : Nat} {a : BS} {p : Nat → Bool} {c : BsWord → BsWord → Bool}

theorem bsWord_eq {set : BS} (h : i < set.length) : bsWord set i = some (contents set i) := by
  simp [bsWord, contents, getElem?_eq_getElem h]

theorem bsWord_eq_none {set : BS} (h : set.length ≤ i) : bsWord set i = none :=
  getElem?_eq_none h

theorem contents_beyond {s : BS} (h : s.length ≤ i) : contents s i = 0 := by
  simp [contents, getElem?_eq_none h]

theorem bsMemberP_eq (set : BS) (x : Nat) :
    bsMemberP set x = (contents set (x / 32)).getLsbD (x % 32) := by
  by_cases h : x / 32 < set.length
  · simp [bsMemberP, contents, h]
  · simp [bsMemberP, contents, h]

theorem le_doubleTo (length fuel : Nat) : ∀ {n : Nat}, 0 < n → length ≤ n + fuel →
    length ≤ doubleTo length fuel n := by
  induction fuel with
  | zero => intro n _ h; exact h
  | succ fuel ih =>
    intro n hn h
    unfold doubleTo
    by_cases hlt : n < length
    · rw [if_pos hlt]
      exact ih (by omega) (by omega)
    · rw [if_neg hlt]
      omega

theorem le_bsRealloc_length (set : BS) (length : Nat) : length ≤ (bsRealloc set length).length:= by
  unfold bsRealloc
  by_cases h : length ≤ set.length
  · rw [if_pos h]
    exact h
  · rw [if_neg h, length_append, length_replicate]
    have := le_doubleTo length length (n := 2) (by omega) (by omega)
    omega

theorem contents_bsRealloc (set : BS) (length i : Nat) :
    contents (bsRealloc set length) i = contents set i := by
  unfold bsRealloc
  by_cases h : length ≤ set.length
  · rw [if_pos h]
  · rw [if_neg h]
    by_cases hi : i < set.length
    · simp [contents, getElem?_append_left hi]
    · rw [contents_beyond (s := set) (by omega)]
      unfold contents
      rw [getElem?_append_right (by omega), getElem?_replicate]
      split <;> rfl

/-! ## The three ways an operation computes its result -/

/-- The D and R forms: the set grows to `size` words, and these are updated. -/
def growUpdate (size : Nat) (f : Nat → BsWord → Option BsWord) (set : BS) : Option BS :=
  updRange 0 size f (if set.length < size then bsRealloc set size else set)

section rules
variable {f : Nat → BsWord → Option BsWord} {g : Nat → BsWord → BsWord}

theorem contents_of_getElem? {t : BS} {p : Prop} [Decidable p]
    (hlt : p → i < a.length) (h : t[i]? = if p then a[i]?.map (g i) else a[i]?) :
    contents t i = if p then g i (contents a i) else contents a i := by
  unfold contents
  rw [h]
  by_cases hp : p
  · rw [if_pos hp, if_pos hp, getElem?_eq_getElem (hlt hp)]
    rfl
  · rw [if_neg hp, if_neg hp]

theorem updRange_contents {m : Nat} (hlen : n ≤ a.length) (hlo : m ≤ n)
    (hf : ∀ i, m ≤ i → i < n → ∀ w, f i w = some (g i w)) :
    ∃ t, updRange m n f a = some t ∧ t.length = a.length ∧
      ∀ i, contents t i = if m ≤ i ∧ i < n then g i (contents a i) else contents a i := by
  obtain ⟨t, ht, hlen', hval⟩ := updRange_spec hlen hlo hf
  exact ⟨t, ht, hlen', fun i => contents_of_getElem? (fun h => by omega) (hval i)⟩

theorem growUpdate_contents {size : Nat} (set : BS)
    (hf : ∀ i, i < size → ∀ w, f i w = some (g i w)) : ∃ t, growUpdate size f set = some t ∧
      ∀ i, contents t i = if i < size then g i (contents set i) else contents set i := by
  have hgrown : size ≤ (if set.length < size then bsRealloc set size else set).length := by
    by_cases h : set.length < size
    · rw [if_pos h]
      exact le_bsRealloc_length set size
    · rw [if_neg h]
      omega
  have hsame : ∀ i, contents (if set.length < size then bsRealloc set size else set) i
      = contents set i := by
    intro i
    by_cases h : set.length < size
    · rw [if_pos h]
      exact contents_bsRealloc set size i
    · rw [if_neg h]
  obtain ⟨t, ht, _, hval⟩ := updRange_contents hgrown (zero_le _) (fun i _ hi => hf i hi)
  refine ⟨t, ht, fun i => ?_⟩
  simpa only [hsame, zero_le, true_and] using hval i

end rules

/-! ## The operations -/

def bsCopyD (set1 set2 : BS) : Option BS := do
  let size1 := set1.length
  let size2 := set2.length
  let set1 ←
    if size1 < size2 then some (bsRealloc set1 size2)
    -- the excess of a longer set1 is cleared
    else updRange size2 size1 (fun _ _ => some 0) set1
  updRange 0 size2 (fun i _ => bsWord set2 i) set1

def bsDifference (garbage : Nat → BsWord) (set1 set2 : BS) : Option BS := do
  let minsize := min set1.length set2.length
  let set ← updRange 0 minsize (fun i _ => do
    let w1 ← bsWord set1 i
    let w2 ← bsWord set2 i
    return w1 &&& ~~~w2) (bsMalloc garbage set1.length)
  updRange minsize set1.length (fun i _ => bsWord set1 i) set

def bsDifferenceD (set1 set2 : BS) : Option BS :=
  updRange 0 (min set1.length set2.length) (fun i w1 => do
    let w2 ← bsWord set2 i
    return w1 &&& ~~~w2) set1

def bsIntersection (garbage : Nat → BsWord) (set1 set2 : BS) : Option BS :=
  let size := if set1.length < set2.length then set1.length else set2.length
  updRange 0 size (fun i _ => do
    let w1 ← bsWord set1 i
    let w2 ← bsWord set2 i
    return w1 &&& w2) (bsMalloc garbage size)

def bsIntersectionD (set1 set2 : BS) : Option BS := do
  let minsize := min set1.length set2.length
  let set1 ← updRange 0 minsize (fun i w1 => do
    let w2 ← bsWord set2 i
    return w1 &&& w2) set1
  updRange minsize set1.length (fun _ _ => some 0) set1

/-- `BS_IntersectionR`: it has no pool, and never grows the result. -/
def bsIntersectionR (result set1 set2 : BS) : Option BS := do
  let minsize := min set1.length set2.length
  let result ← updRange 0 minsize (fun i _ => do
    let w1 ← bsWord set1 i
    let w2 ← bsWord set2 i
    return w1 &&& w2) result
  updRange minsize result.length (fun _ _ => some 0) result

/-- The body of `BS_Union` once `set1` is at least as large. -/
def bsUnionOrdered (garbage : Nat → BsWord) (set1 set2 : BS) : Option BS := do
  let set ← updRange 0 set2.length (fun i _ => do
    let w1 ← bsWord set1 i
    let w2 ← bsWord set2 i
    return w1 ||| w2) (bsMalloc garbage set1.length)
  updRange set2.length set1.length (fun i _ => bsWord set1 i) set

def bsUnion (garbage : Nat → BsWord) (set1 set2 : BS) : Option BS :=
  if set1.length < set2.length then bsUnionOrdered garbage set2 set1
  else bsUnionOrdered garbage set1 set2

def bsUnionD (set1 set2 : BS) : Option BS :=
  growUpdate set2.length (fun i w1 => do
    let w2 ← bsWord set2 i
    return w1 ||| w2) set1

/-- `BS_UnionR`: both operands are read up to the larger size. -/
def bsUnionR (result set1 set2 : BS) : Option BS :=
  growUpdate (max set1.length set2.length) (fun i _ => do
    let w1 ← bsWord set1 i
    let w2 ← bsWord set2 i
    return w1 ||| w2) result

/-- `BS_UnionD_Intersection`. -/
def bsUnionD_Intersection (set1 set2 set3 : BS) : Option BS :=
  growUpdate (min set2.length set3.length) (fun i w1 => do
    let w2 ← bsWord set2 i
    let w3 ← bsWord set3 i
    return w1 ||| (w2 &&& w3)) set1

/-- `BS_2_1_Minus_3_Or_R`. -/
def bs_2_1_Minus_3_Or_R (result set1 set2 set3 : BS) : Option BS :=
  growUpdate set3.length (fun i _ => do
    let w1 ← bsWord set1 i
    let w2 ← bsWord set2 i
    let w3 ← bsWord set3 i
    return (~~~w1 &&& w2) ||| w3) result

/-- `BS_3_2_Minus_1_Or_D`. -/
def bs_3_2_Minus_1_Or_D (set1 set2 set3 : BS) : Option BS :=
  growUpdate set3.length (fun i w1 => do
    let w2 ← bsWord set2 i
    let w3 ← bsWord set3 i
    return w1 ||| (~~~w2 &&& w3)) set1

/-- `BS_3_2_Minus_4_Or_1_Or_D`. -/
def bs_3_2_Minus_4_Or_1_Or_D (set1 set2 set3 set4 : BS) : Option BS :=
  growUpdate set2.length (fun i w1 => do
    let w2 ← bsWord set2 i
    let w3 ← bsWord set3 i
    let w4 ← bsWord set4 i
    return w1 ||| ((~~~w2 &&& w3) ||| w4)) set1

/-- `BS_3_2_Minus_4_Or_5_Or_1_Or_D`. -/
def bs_3_2_Minus_4_Or_5_Or_1_Or_D (set1 set2 set3 set4 set5 : BS) : Option BS :=
  growUpdate set5.length (fun i w1 => do
    let w2 ← bsWord set2 i
    let w3 ← bsWord set3 i
    let w4 ← bsWord set4 i
    let w5 ← bsWord set5 i
    return w1 ||| ((~~~w2 &&& w3) ||| w4 ||| w5)) set1

/-- `BS_2_1_Minus_3_Or_4_And_5_And_6_And_R`. -/
def bs_2_1_Minus_3_Or_4_And_5_And_6_And_R (result set1 set2 set3 set4 set5 set6 : BS) : Option BS:=
  growUpdate set3.length (fun i _ => do
    let w1 ← bsWord set1 i
    let w2 ← bsWord set2 i
    let w3 ← bsWord set3 i
    let w4 ← bsWord set4 i
    let w5 ← bsWord set5 i
    let w6 ← bsWord set6 i
    return ((~~~w1 &&& w2) ||| w3) &&& w4 &&& w5 &&& w6) result

/-- `BS_2_1_Minus_3_Or_4_And_R`. -/
def bs_2_1_Minus_3_Or_4_And_R (result set1 set2 set3 set4 : BS) : Option BS :=
  growUpdate set3.length (fun i _ => do
    let w1 ← bsWord set1 i
    let w2 ← bsWord set2 i
    let w3 ← bsWord set3 i
    let w4 ← bsWord set4 i
    return ((~~~w1 &&& w2) ||| w3) &&& w4) result

/-- `BS_1_Not_2_Or_3_Minus_4_And_R`. -/
def bs_1_Not_2_Or_3_Minus_4_And_R (result set1 set2 set3 set4 : BS) : Option BS :=
  growUpdate set2.length (fun i _ => do
    let w1 ← bsWord set1 i
    let w2 ← bsWord set2 i
    let w3 ← bsWord set3 i
    let w4 ← bsWord set4 i
    return (~~~w1 ||| w2) &&& (~~~w3) &&& w4) result

/-- `BS_2_3_Or_1_Or_D`. -/
def bs_2_3_Or_1_Or_D (set1 set2 set3 : BS) : Option BS :=
  growUpdate set2.length (fun i w1 => do
    let w2 ← bsWord set2 i
    let w3 ← bsWord set3 i
    return w1 ||| (w2 ||| w3)) set1

/-- `BS_1_2_Or_3_And_R`. -/
def bs_1_2_Or_3_And_R (result set1 set2 set3 : BS) : Option BS :=
  growUpdate set1.length (fun i _ => do
    let w1 ← bsWord set1 i
    let w2 ← bsWord set2 i
    let w3 ← bsWord set3 i
    return (w1 ||| w2) &&& w3) result

/-- `BS_2_3_And_1_Or_D`. -/
def bs_2_3_And_1_Or_D (set1 set2 set3 : BS) : Option BS :=
  growUpdate (min set2.length set3.length) (fun i w1 => do
    let w2 ← bsWord set2 i
    let w3 ← bsWord set3 i
    return w1 ||| (w2 &&& w3)) set1

/-- `BS_3_Not_4_Or_2_And_1_Or_D`. -/
def bs_3_Not_4_Or_2_And_1_Or_D (set1 set2 set3 set4 : BS) : Option BS :=
  growUpdate set2.length (fun i w1 => do
    let w2 ← bsWord set2 i
    let w3 ← bsWord set3 i
    let w4 ← bsWord set4 i
    return w1 ||| (w2 &&& (~~~w3 ||| w4))) set1

/-- `BS_4_3_Minus_2_Not_Or_1_And_D`. -/
def bs_4_3_Minus_2_Not_Or_1_And_D (set1 set2 set3 set4 : BS) : Option BS :=
  growUpdate set2.length (fun i w1 => do
    let w2 ← bsWord set2 i
    let w3 ← bsWord set3 i
    let w4 ← bsWord set4 i
    return w1 &&& (~~~w2 ||| (w4 &&& ~~~w3))) set1

/-- `BS_2_3_Minus_1_Or_D`. -/
def bs_2_3_Minus_1_Or_D (set1 set2 set3 : BS) : Option BS :=
  growUpdate set2.length (fun i w1 => do
    let w2 ← bsWord set2 i
    let w3 ← bsWord set3 i
    return w1 ||| (w2 &&& ~~~w3)) set1

/-- `BS_2_3_Minus_4_Minus_1_Or_D`. -/
def bs_2_3_Minus_4_Minus_1_Or_D (set1 set2 set3 set4 : BS) : Option BS :=
  growUpdate set2.length (fun i w1 => do
    let w2 ← bsWord set2 i
    let w3 ← bsWord set3 i
    let w4 ← bsWord set4 i
    return w1 ||| (w2 &&& ~~~w3 &&& ~~~w4)) set1

def bsContainsP (set1 set2 : BS) : Option Bool := do
  let minsize := if set1.length < set2.length then set1.length else set2.length
  let early ← (range' 0 minsize).anyM fun i => do
    let w1 ← bsWord set1 i
    let w2 ← bsWord set2 i
    return w1 != (w1 ||| w2)
  if early then return false
  let early ← (range' minsize (set2.length - minsize)).anyM fun i => do
    let w2 ← bsWord set2 i
    return w2 != 0
  return !early

/-- The body of `BS_EqualP` once `set1` is the smaller. -/
def bsEqualOrdered (set1 set2 : BS) : Option Bool := do
  let early ← (range' 0 set1.length).anyM fun i => do
    let w1 ← bsWord set1 i
    let w2 ← bsWord set2 i
    return w1 != w2
  if early then return false
  let early ← (range' set1.length (set2.length - set1.length)).anyM fun i => do
    let w2 ← bsWord set2 i
    return w2 != 0
  return !early

def bsEqualP (set1 set2 : BS) : Option Bool :=
  if set1.length > set2.length then bsEqualOrdered set2 set1 else bsEqualOrdered set1 set2

def bsIntersectsP (set1 set2 : BS) : Option Bool :=
  let minsize := if set1.length < set2.length then set1.length else set2.length
  (range' 0 minsize).anyM fun i => do
    let w1 ← bsWord set1 i
    let w2 ← bsWord set2 i
    return (w1 &&& w2) != 0

/-! ## What an operation should compute -/

/-- The operation returns a set with exactly the members `p`. -/
def Computes (r : Option BS) (p : Nat → Bool) : Prop :=
  ∃ t, r = some t ∧ ∀ x, bsMemberP t x = p x

/-- The test answers whether `q` holds. -/
def Decides (r : Option Bool) (q : Prop) : Prop :=
  ∃ b, r = some b ∧ (b = true ↔ q)

/-- A call of one of the operations, with its operands. -/
inductive SetOp where
  | copyD (set1 set2 : BS)
  | difference (garbage : Nat → BsWord) (set1 set2 : BS)
  | differenceD (set1 set2 : BS)
  | intersection (garbage : Nat → BsWord) (set1 set2 : BS)
  | intersectionD (set1 set2 : BS)
  | intersectionR (result set1 set2 : BS)
  | union (garbage : Nat → BsWord) (set1 set2 : BS)
  | unionD (set1 set2 : BS)
  | unionR (result set1 set2 : BS)
  | unionD_Intersection (set1 set2 set3 : BS)
  | op_2_1_Minus_3_Or_R (result set1 set2 set3 : BS)
  | op_3_2_Minus_1_Or_D (set1 set2 set3 : BS)
  | op_3_2_Minus_4_Or_1_Or_D (set1 set2 set3 set4 : BS)
  | op_3_2_Minus_4_Or_5_Or_1_Or_D (set1 set2 set3 set4 set5 : BS)
  | op_2_1_Minus_3_Or_4_And_5_And_6_And_R (result set1 set2 set3 set4 set5 set6 : BS)
  | op_2_1_Minus_3_Or_4_And_R (result set1 set2 set3 set4 : BS)
  | op_1_Not_2_Or_3_Minus_4_And_R (result set1 set2 set3 set4 : BS)
  | op_2_3_Or_1_Or_D (set1 set2 set3 : BS)
  | op_1_2_Or_3_And_R (result set1 set2 set3 : BS)
  | op_2_3_And_1_Or_D (set1 set2 set3 : BS)
  | op_3_Not_4_Or_2_And_1_Or_D (set1 set2 set3 set4 : BS)
  | op_4_3_Minus_2_Not_Or_1_And_D (set1 set2 set3 set4 : BS)
  | op_2_3_Minus_1_Or_D (set1 set2 set3 : BS)
  | op_2_3_Minus_4_Minus_1_Or_D (set1 set2 set3 set4 : BS)

namespace SetOp

/-- The call. -/
def run : SetOp → Option BS
  | copyD s1 s2 => bsCopyD s1 s2
  | difference m s1 s2 => bsDifference m s1 s2
  | differenceD s1 s2 => bsDifferenceD s1 s2
  | intersection m s1 s2 => bsIntersection m s1 s2
  | intersectionD s1 s2 => bsIntersectionD s1 s2
  | intersectionR r s1 s2 => bsIntersectionR r s1 s2
  | union m s1 s2 => bsUnion m s1 s2
  | unionD s1 s2 => bsUnionD s1 s2
  | unionR r s1 s2 => bsUnionR r s1 s2
  | unionD_Intersection s1 s2 s3 => bsUnionD_Intersection s1 s2 s3
  | op_2_1_Minus_3_Or_R r s1 s2 s3 => bs_2_1_Minus_3_Or_R r s1 s2 s3
  | op_3_2_Minus_1_Or_D s1 s2 s3 => bs_3_2_Minus_1_Or_D s1 s2 s3
  | op_3_2_Minus_4_Or_1_Or_D s1 s2 s3 s4 => bs_3_2_Minus_4_Or_1_Or_D s1 s2 s3 s4
  | op_3_2_Minus_4_Or_5_Or_1_Or_D s1 s2 s3 s4 s5 => bs_3_2_Minus_4_Or_5_Or_1_Or_D s1 s2 s3 s4 s5
  | op_2_1_Minus_3_Or_4_And_5_And_6_And_R r s1 s2 s3 s4 s5 s6 =>
    bs_2_1_Minus_3_Or_4_And_5_And_6_And_R r s1 s2 s3 s4 s5 s6
  | op_2_1_Minus_3_Or_4_And_R r s1 s2 s3 s4 => bs_2_1_Minus_3_Or_4_And_R r s1 s2 s3 s4
  | op_1_Not_2_Or_3_Minus_4_And_R r s1 s2 s3 s4 => bs_1_Not_2_Or_3_Minus_4_And_R r s1 s2 s3 s4
  | op_2_3_Or_1_Or_D s1 s2 s3 => bs_2_3_Or_1_Or_D s1 s2 s3
  | op_1_2_Or_3_And_R r s1 s2 s3 => bs_1_2_Or_3_And_R r s1 s2 s3
  | op_2_3_And_1_Or_D s1 s2 s3 => bs_2_3_And_1_Or_D s1 s2 s3
  | op_3_Not_4_Or_2_And_1_Or_D s1 s2 s3 s4 => bs_3_Not_4_Or_2_And_1_Or_D s1 s2 s3 s4
  | op_4_3_Minus_2_Not_Or_1_And_D s1 s2 s3 s4 => bs_4_3_Minus_2_Not_Or_1_And_D s1 s2 s3 s4
  | op_2_3_Minus_1_Or_D s1 s2 s3 => bs_2_3_Minus_1_Or_D s1 s2 s3
  | op_2_3_Minus_4_Minus_1_Or_D s1 s2 s3 s4 => bs_2_3_Minus_4_Minus_1_Or_D s1 s2 s3 s4

/-- Whether `x` belongs to the result, by the formulas of `bitset.h`. -/
def formula (op : SetOp) (x : Nat) : Bool :=
  let isIn (set : BS) : Bool := bsMemberP set x
  match op with
  | copyD _ s2 => isIn s2
  | difference _ s1 s2 | differenceD s1 s2 => isIn s1 && !isIn s2
  | intersection _ s1 s2 | intersectionD s1 s2 | intersectionR _ s1 s2 => isIn s1 && isIn s2
  | union _ s1 s2 | unionD s1 s2 | unionR _ s1 s2 => isIn s1 || isIn s2
  | unionD_Intersection s1 s2 s3 => isIn s1 || (isIn s2 && isIn s3)
  | op_2_1_Minus_3_Or_R _ s1 s2 s3 => (!isIn s1 && isIn s2) || isIn s3
  | op_3_2_Minus_1_Or_D s1 s2 s3 => (!isIn s2 && isIn s3) || isIn s1
  | op_3_2_Minus_4_Or_1_Or_D s1 s2 s3 s4 => isIn s1 || ((!isIn s2 && isIn s3) || isIn s4)
  | op_3_2_Minus_4_Or_5_Or_1_Or_D s1 s2 s3 s4 s5 =>
    isIn s1 || ((!isIn s2 && isIn s3) || isIn s4 || isIn s5)
  | op_2_1_Minus_3_Or_4_And_5_And_6_And_R _ s1 s2 s3 s4 s5 s6 =>
    ((!isIn s1 && isIn s2) || isIn s3) && isIn s4 && isIn s5 && isIn s6
  | op_2_1_Minus_3_Or_4_And_R _ s1 s2 s3 s4 => ((!isIn s1 && isIn s2) || isIn s3) && isIn s4
  | op_1_Not_2_Or_3_Minus_4_And_R _ s1 s2 s3 s4 => (!isIn s1 || isIn s2) && !isIn s3 && isIn s4
  | op_2_3_Or_1_Or_D s1 s2 s3 => isIn s1 || (isIn s2 || isIn s3)
  | op_1_2_Or_3_And_R _ s1 s2 s3 => (isIn s1 || isIn s2) && isIn s3
  | op_2_3_And_1_Or_D s1 s2 s3 => isIn s1 || (isIn s2 && isIn s3)
  | op_3_Not_4_Or_2_And_1_Or_D s1 s2 s3 s4 => isIn s1 || (isIn s2 && (!isIn s3 || isIn s4))
  | op_4_3_Minus_2_Not_Or_1_And_D s1 s2 s3 s4 => isIn s1 && (!isIn s2 || (isIn s4 && !isIn s3))
  | op_2_3_Minus_1_Or_D s1 s2 s3 => isIn s1 || (isIn s2 && !isIn s3)
  | op_2_3_Minus_4_Minus_1_Or_D s1 s2 s3 s4 => isIn s1 || (isIn s2 && !isIn s3 && !isIn s4)

/-- The equal sizes the operation asserts. -/
def sizesAsserted : SetOp → Prop
  | op_2_1_Minus_3_Or_R _ s1 s2 s3 => s1.length = s3.length ∧ s2.length = s3.length
  | op_3_2_Minus_1_Or_D _ s2 s3 => s2.length = s3.length
  | op_3_2_Minus_4_Or_1_Or_D _ s2 s3 s4 => s2.length = s3.length ∧ s3.length = s4.length
  | op_3_2_Minus_4_Or_5_Or_1_Or_D _ s2 s3 s4 s5 =>
    s2.length = s5.length ∧ s3.length = s5.length ∧ s4.length = s5.length
  | op_2_1_Minus_3_Or_4_And_5_And_6_And_R _ s1 s2 s3 s4 s5 s6 =>
    s1.length = s3.length ∧ s2.length = s3.length ∧ s4.length = s3.length ∧
      s5.length = s3.length ∧ s6.length = s3.length
  | op_2_1_Minus_3_Or_4_And_R _ s1 s2 s3 s4 =>
    s1.length = s3.length ∧ s2.length = s3.length ∧ s4.length = s3.length
  | op_1_Not_2_Or_3_Minus_4_And_R _ s1 s2 s3 s4 =>
    s1.length = s2.length ∧ s3.length = s2.length ∧ s4.length = s2.length
  | op_2_3_Or_1_Or_D _ s2 s3 => s2.length = s3.length
  | op_1_2_Or_3_And_R _ s1 s2 s3 => s2.length = s1.length ∧ s3.length = s1.length
  | op_3_Not_4_Or_2_And_1_Or_D _ s2 s3 s4 => s3.length = s2.length ∧ s4.length = s2.length
  | op_4_3_Minus_2_Not_Or_1_And_D _ s2 s3 s4 => s3.length = s2.length ∧ s4.length = s2.length
  | op_2_3_Minus_1_Or_D _ s2 s3 => s2.length = s3.length
  | op_2_3_Minus_4_Minus_1_Or_D _ s2 s3 s4 => s2.length = s3.length ∧ s3.length = s4.length
  | _ => True

/-- No member of `result` lies beyond its first `size` words. -/
def NothingBeyond (size : Nat) (result : BS) : Prop :=
  ∀ x, 32 * size ≤ x → bsMemberP result x = false

/-- When the result is right: most R forms keep what a longer `result` held. -/
def resultFits : SetOp → Prop
  | intersectionR r s1 s2 => min s1.length s2.length ≤ r.length
  | unionR r s1 s2 => s1.length = s2.length ∧ NothingBeyond s1.length r
  | op_2_1_Minus_3_Or_R r _ _ s3 => NothingBeyond s3.length r
  | op_2_1_Minus_3_Or_4_And_5_And_6_And_R r _ _ s3 _ _ _ => NothingBeyond s3.length r
  | op_2_1_Minus_3_Or_4_And_R r _ _ s3 _ => NothingBeyond s3.length r
  | op_1_Not_2_Or_3_Minus_4_And_R r _ s2 _ _ => NothingBeyond s2.length r
  | op_1_2_Or_3_And_R r s1 _ _ => NothingBeyond s1.length r
  | _ => True

end SetOp

/-! ## Each operation computes its formula -/

theorem bsMemberP_beyond {set : BS} {x : Nat} (h : set.length ≤ x / 32) :
    bsMemberP set x = false := by
  rw [bsMemberP_eq, contents_beyond h]
  exact BitVec.getLsbD_zero

theorem computes_iff {r : Option BS} {W : Nat → BsWord}
    (h : ∃ t, r = some t ∧ ∀ i, contents t i = W i) :
    Computes r p ↔ ∀ x, (W (x / 32)).getLsbD (x % 32) = p x := by
  obtain ⟨t, rfl, ht⟩ := h
  constructor
  · rintro ⟨t', ht', hp⟩ x
    cases ht'
    rw [← ht, ← bsMemberP_eq, hp]
  · intro hp
    refine ⟨t, rfl, fun x => ?_⟩
    rw [bsMemberP_eq, ht, hp]

section

variable {size : Nat} {f : Nat → BsWord → Option BsWord} {g : Nat → BsWord → BsWord}

open SetOp

theorem growUpdate_computes_iff {set : BS} (hf : ∀ i, i < size → ∀ w, f i w = some (g i w))
    (hin : ∀ x, x / 32 < size → (g (x / 32) (contents set (x / 32))).getLsbD (x % 32) = p x) :
    Computes (growUpdate size f set) p ↔ ∀ x, size ≤ x / 32 → bsMemberP set x = p x := by
  rw [computes_iff (growUpdate_contents set hf)]
  constructor
  · intro h x hx
    have := h x
    rwa [if_neg (by omega), ← bsMemberP_eq] at this
  · intro h x
    by_cases hx : x / 32 < size
    · rw [if_pos hx]
      exact hin x hx
    · rw [if_neg hx, ← bsMemberP_eq]
      exact h x (by omega)

theorem growUpdate_computes_D {set : BS} (g : Nat → BsWord → BsWord)
    (hf : ∀ i, i < size → ∀ w, f i w = some (g i w) := by
      intro i hi w; simp (disch := omega) [bsWord_eq])
    (hin : ∀ x, x / 32 < size →
      (g (x / 32) (contents set (x / 32))).getLsbD (x % 32) = p x := by
        intro x hx; simp [formula, bsMemberP_eq, mod_lt])
    (hout : ∀ x, size ≤ x / 32 → bsMemberP set x = p x := by
      intro x hx; simp (disch := omega) [formula, bsMemberP_beyond]) :
    Computes (growUpdate size f set) p :=
  (growUpdate_computes_iff hf hin).mpr hout

theorem growUpdate_computes_R {result : BS} (g : Nat → BsWord → BsWord)
    (hf : ∀ i, i < size → ∀ w, f i w = some (g i w) := by
      intro i hi w; simp (disch := omega) [bsWord_eq])
    (hin : ∀ x, x / 32 < size →
      (g (x / 32) (contents result (x / 32))).getLsbD (x % 32) = p x := by
        intro x hx; simp [formula, bsMemberP_eq, mod_lt])
    (hout : ∀ x, size ≤ x / 32 → p x = false := by
      intro x hx; simp (disch := omega) [formula, bsMemberP_beyond]) :
    Computes (growUpdate size f result) p ↔ SetOp.NothingBeyond size result := by
  rw [growUpdate_computes_iff hf hin]
  constructor
  · intro h x hx
    have hw : size ≤ x / 32 := by omega
    rw [h x hw, hout x hw]
  · intro h x hx
    rw [h x (by omega), hout x hx]

end

section plain
open SetOp
variable {m : Nat → BsWord} {r s1 s2 s3 : BS}

theorem bsMalloc_length (length : Nat) : (bsMalloc m length).length = length := by
  simp [bsMalloc]

theorem twoLoops_contents {f e : Nat → BsWord → Option BsWord} {g d : Nat → BsWord → BsWord}
    {lo hi : Nat} (last : BS → Nat) (hlo : lo ≤ hi) (hhi : hi ≤ a.length)
    (hlast : ∀ t : BS, t.length = a.length → last t = hi)
    (hf : ∀ i, i < lo → ∀ w, f i w = some (g i w))
    (he : ∀ i, lo ≤ i → i < hi → ∀ w, e i w = some (d i w)) :
    ∃ t, (updRange 0 lo f a >>= fun t => updRange lo (last t) e t) = some t ∧
      ∀ i, contents t i = if i < lo then g i (contents a i)
        else if i < hi then d i (contents a i) else contents a i := by
  obtain ⟨t, ht, hlen, hval⟩ :=
    updRange_contents (hlo.trans hhi) (zero_le lo) (fun i _ hi => hf i hi)
  obtain ⟨t', ht', _, hval'⟩ :=
    updRange_contents (a := t) (m := lo) (n := hi) (by omega) hlo he
  refine ⟨t', ?_, fun i => ?_⟩
  · rw [ht]
    change updRange lo (last t) e t = some t'
    rw [hlast t hlen, ht']
  · rw [hval' i, hval i]
    split_ifs <;> first | rfl | omega

theorem copy_computes (hlen : s2.length ≤ a.length)
    (hrest : ∀ i, s2.length ≤ i → contents a i = 0) :
    Computes (updRange 0 s2.length (fun i _ => bsWord s2 i) a) (bsMemberP s2) := by
  obtain ⟨t, ht, _, hval⟩ := updRange_contents (g := fun i _ => contents s2 i) hlen
    (zero_le _) (fun i _ hi _ => bsWord_eq hi)
  refine ⟨t, ht, fun x => ?_⟩
  rw [bsMemberP_eq, bsMemberP_eq, hval]
  by_cases hx : x / 32 < s2.length
  · simp [hx]
  · simp [hx, hrest _ (Nat.le_of_not_lt hx), contents_beyond (Nat.le_of_not_lt hx)]

theorem computes_copyD : Computes (bsCopyD s1 s2) (formula (copyD s1 s2)) := by
  change Computes (bsCopyD s1 s2) (bsMemberP s2)
  unfold bsCopyD
  by_cases h : s1.length < s2.length
  · simp only [if_pos h]
    refine copy_computes (le_bsRealloc_length s1 s2.length) fun i hi => ?_
    rw [contents_bsRealloc, contents_beyond (by omega)]
  · obtain ⟨t, ht, hlen, hval⟩ := updRange_contents (f := fun _ _ => some 0) (g := fun _ _ => 0)
      (Nat.le_refl s1.length) (Nat.le_of_not_lt h) (fun _ _ _ _ => rfl)
    simp only [if_neg h, ht]
    refine copy_computes (by omega) fun i hi => ?_
    rw [hval i]
    by_cases hi1 : i < s1.length
    · rw [if_pos ⟨hi, hi1⟩]
    · rw [if_neg (fun hc => hi1 hc.2), contents_beyond (Nat.le_of_not_lt hi1)]

theorem computes_difference : Computes (bsDifference m s1 s2) (formula (difference m s1 s2)):= by
  refine (computes_iff (twoLoops_contents _
    (g := fun i _ => contents s1 i &&& ~~~contents s2 i) (d := fun i _ => contents s1 i)
    (min_le_left _ _) (by rw [bsMalloc_length]) (fun _ _ => rfl) ?_ ?_)).mpr ?_
  · intro i hi w
    simp [bsWord_eq, show i < s1.length by omega, show i < s2.length by omega]
  · intro i _ hi w
    exact bsWord_eq hi
  · intro x
    by_cases h1 : x / 32 < s1.length
    · by_cases h2 : x / 32 < s2.length
      · simp [h1, h2, formula, bsMemberP_eq, Nat.mod_lt]
      · simp [h1, h2, formula, bsMemberP_eq, contents_beyond (Nat.le_of_not_lt h2)]
    · have hnew : contents (bsMalloc m s1.length) (x / 32) = 0 :=
        contents_beyond (by rw [bsMalloc_length]; omega)
      simp [h1, hnew, formula, bsMemberP_eq, contents_beyond (Nat.le_of_not_lt h1)]

theorem computes_differenceD : Computes (bsDifferenceD s1 s2) (formula (differenceD s1 s2)) := by
  obtain ⟨t, ht, _, hval⟩ := updRange_contents (a := s1) (m := 0)
    (n := min s1.length s2.length) (f := fun i w1 => do
      let w2 ← bsWord s2 i
      return w1 &&& ~~~w2)
    (g := fun i w => w &&& ~~~contents s2 i) (min_le_left _ _) (zero_le _)
    (fun i _ hi w => by simp [bsWord_eq, show i < s2.length by omega])
  refine (computes_iff ⟨t, ht, hval⟩).mpr fun x => ?_
  by_cases h1 : x / 32 < s1.length
  · by_cases h2 : x / 32 < s2.length
    · simp [h1, h2, formula, bsMemberP_eq, Nat.mod_lt]
    · simp [h1, h2, formula, bsMemberP_eq, contents_beyond (Nat.le_of_not_lt h2)]
  · simp [h1, formula, bsMemberP_eq, contents_beyond (Nat.le_of_not_lt h1)]

theorem and_beyond (h : min s1.length s2.length ≤ i) : contents s1 i &&& contents s2 i = 0 := by
  rcases lt_or_ge i s1.length with h1 | h1
  · rw [contents_beyond (show s2.length ≤ i by omega)]
    exact BitVec.and_zero
  · rw [contents_beyond h1]
    exact BitVec.zero_and

theorem and_computes {o : Option BS} (h : ∃ t, o = some t ∧ ∀ i, contents t i =
      if i < min s1.length s2.length then contents s1 i &&& contents s2 i else 0) :
    Computes o (fun x => bsMemberP s1 x && bsMemberP s2 x) := by
  obtain ⟨t, rfl, hval⟩ := h
  refine ⟨t, rfl, fun x => ?_⟩
  simp only [bsMemberP_eq, hval, ← BitVec.getLsbD_and]
  by_cases hx : x / 32 < min s1.length s2.length
  · rw [if_pos hx]
  · rw [if_neg hx, and_beyond (Nat.le_of_not_lt hx)]

theorem bsWord_and (h : i < min s1.length s2.length) :
    (do let w1 ← bsWord s1 i
        let w2 ← bsWord s2 i
        return w1 &&& w2) = some (contents s1 i &&& contents s2 i) := by
  simp [bsWord_eq, show i < s1.length by omega, show i < s2.length by omega]

theorem computes_intersection :
    Computes (bsIntersection m s1 s2) (formula (intersection m s1 s2)) := by
  have hsize : (if s1.length < s2.length then s1.length else s2.length)
      = min s1.length s2.length := by
    split <;> omega
  unfold bsIntersection
  rw [hsize]
  obtain ⟨t, ht, hlen, hval⟩ := updRange_contents (a := bsMalloc m (min s1.length s2.length))
    (g := fun i _ => contents s1 i &&& contents s2 i) (by rw [bsMalloc_length]) (zero_le _)
    (fun i _ hi _ => bsWord_and hi)
  rw [bsMalloc_length] at hlen
  refine and_computes ⟨t, ht, fun i => ?_⟩
  by_cases hi : i < min s1.length s2.length
  · rw [hval, if_pos ⟨zero_le _, hi⟩, if_pos hi]
  · rw [if_neg hi, contents_beyond (by omega)]

theorem computes_intersectionD :
    Computes (bsIntersectionD s1 s2) (formula (intersectionD s1 s2)) := by
  obtain ⟨t, ht, hval⟩ := twoLoops_contents (fun t => t.length) (a := s1)
    (f := fun i w1 => do
      let w2 ← bsWord s2 i
      return w1 &&& w2) (g := fun i w => w &&& contents s2 i)
    (e := fun _ _ => some 0) (d := fun _ _ => 0)
    (min_le_left s1.length s2.length) (le_refl _) (fun _ h => h)
    (fun i hi w => by simp [bsWord_eq, show i < s2.length by omega]) (fun _ _ _ _ => rfl)
  refine and_computes ⟨t, ht, fun i => ?_⟩
  rw [hval i]
  by_cases hi : i < min s1.length s2.length
  · rw [if_pos hi, if_pos hi]
  · rw [if_neg hi, if_neg hi]
    split
    · rfl
    · exact contents_beyond (by omega)

theorem computes_intersectionR :
    Computes (bsIntersectionR r s1 s2) (formula (intersectionR r s1 s2)) ↔
      min s1.length s2.length ≤ r.length := by
  constructor
  · rintro ⟨t, ht, _⟩
    by_contra hshort
    -- the first word the result does not have is written nevertheless
    have hfail := updRange_none (f := fun i _ => do
      let w1 ← bsWord s1 i
      let w2 ← bsWord s2 i
      return w1 &&& w2) (Nat.zero_le r.length) (Nat.lt_of_not_le hshort)
      (.inl (Nat.le_refl r.length))
    simp only [bsIntersectionR, hfail] at ht
    cases ht
  · intro hfits
    obtain ⟨t, ht, hval⟩ := twoLoops_contents (fun t => t.length) (a := r)
      (g := fun i _ => contents s1 i &&& contents s2 i)
      (e := fun _ _ => some 0) (d := fun _ _ => 0) hfits (le_refl _) (fun _ h => h)
      (fun i hi _ => bsWord_and hi) (fun _ _ _ _ => rfl)
    refine and_computes ⟨t, ht, fun i => ?_⟩
    rw [hval i]
    by_cases hi : i < min s1.length s2.length
    · rw [if_pos hi, if_pos hi]
    · rw [if_neg hi, if_neg hi]
      split
      · rfl
      · exact contents_beyond (by omega)

theorem bsWord_or (h1 : i < s1.length) (h2 : i < s2.length) :
    (do let w1 ← bsWord s1 i
        let w2 ← bsWord s2 i
        return w1 ||| w2) = some (contents s1 i ||| contents s2 i) := by
  simp [bsWord_eq, h1, h2]

theorem unionOrdered_computes (h : s2.length ≤ s1.length) :
    Computes (bsUnionOrdered m s1 s2) (fun x => bsMemberP s1 x || bsMemberP s2 x) := by
  refine (computes_iff (twoLoops_contents _
    (g := fun i _ => contents s1 i ||| contents s2 i) (d := fun i _ => contents s1 i)
    h (by rw [bsMalloc_length]) (fun _ _ => rfl)
    (fun i hi _ => bsWord_or (by omega) hi) (fun i _ hi _ => bsWord_eq hi))).mpr ?_
  intro x
  rw [bsMemberP_eq, bsMemberP_eq, ← BitVec.getLsbD_or]
  by_cases h2 : x / 32 < s2.length
  · rw [if_pos h2]
  · have hzero : contents s2 (x / 32) = 0#32 := contents_beyond (Nat.le_of_not_lt h2)
    rw [if_neg h2, hzero, BitVec.or_zero]
    by_cases h1 : x / 32 < s1.length
    · rw [if_pos h1]
    · rw [if_neg h1, contents_beyond (s := s1) (Nat.le_of_not_lt h1),
        contents_beyond (by rw [bsMalloc_length]; omega)]

theorem computes_union : Computes (bsUnion m s1 s2) (formula (SetOp.union m s1 s2)) := by
  unfold bsUnion
  by_cases h : s1.length < s2.length
  · rw [if_pos h]
    obtain ⟨t, ht, hval⟩ := unionOrdered_computes (m := m) (le_of_lt h)
    exact ⟨t, ht, fun x => (hval x).trans (Bool.or_comm _ _)⟩
  · rw [if_neg h]
    exact unionOrdered_computes (Nat.le_of_not_lt h)

theorem computes_unionD : Computes (bsUnionD s1 s2) (formula (unionD s1 s2)) :=
  growUpdate_computes_D fun i w => w ||| contents s2 i

theorem computes_unionR : Computes (bsUnionR r s1 s2) (formula (unionR r s1 s2)) ↔
      s1.length = s2.length ∧ NothingBeyond s1.length r := by
  by_cases hsame : s1.length = s2.length
  · have hmax : max s1.length s2.length = s1.length := by omega
    unfold bsUnionR
    rw [hmax, growUpdate_computes_R fun i _ => contents s1 i ||| contents s2 i]
    simp [hsame]
  · constructor
    · rintro ⟨t, ht, _⟩
      -- the shorter operand is read at its end
      have hfail : bsUnionR r s1 s2 = none := by
        apply updRange_none (i := min s1.length s2.length) (zero_le _) (by omega)
        right
        intro w
        rcases lt_or_gt_of_ne hsame with h | h
        · simp [bsWord_eq_none (show s1.length ≤ min s1.length s2.length by omega)]
        · simp [bsWord_eq_none (show s2.length ≤ min s1.length s2.length by omega)]
      rw [hfail] at ht
      cases ht
    · rintro ⟨h, _⟩
      exact absurd h hsame

theorem orAnd_computes : Computes (bs_2_3_And_1_Or_D s1 s2 s3)
      (fun x => bsMemberP s1 x || (bsMemberP s2 x && bsMemberP s3 x)) := by
  refine (growUpdate_computes_iff
    (g := fun i w => w ||| (contents s2 i &&& contents s3 i)) ?_ ?_).mpr ?_
  · intro i hi w
    simp [bsWord_eq, show i < s2.length by omega, show i < s3.length by omega]
  · intro x hx
    simp [bsMemberP_eq]
  · intro x hx
    rcases lt_or_ge (x / 32) s2.length with h2 | h2
    · simp [bsMemberP_beyond (show s3.length ≤ x / 32 by omega)]
    · simp [bsMemberP_beyond h2]

end plain

theorem anyM_eq {c : Nat → Option Bool} {d : Nat → Bool} {l : List Nat}
    (h : ∀ i ∈ l, c i = some (d i)) : l.anyM c = some (l.any d) := by
  induction l with
  | nil => rfl
  | cons i l ih =>
    rw [anyM_cons, h i (mem_cons_self ..), ih fun j hj => h j (mem_cons_of_mem _ hj)]
    cases hd : d i with
    | true => simp [hd]
    | false => simp [hd]

section tests
variable {s1 s2 : BS}

theorem forall_member_iff (s1 s2 : BS) {q : Bool → Bool → Prop} {R : BsWord → BsWord → Prop}
    (hR : ∀ u v, R u v ↔ ∀ j, j < 32 → q (u.getLsbD j) (v.getLsbD j)) :
    (∀ x, q (bsMemberP s1 x) (bsMemberP s2 x)) ↔ ∀ i, R (contents s1 i) (contents s2 i) := by
  constructor
  · intro h i
    rw [hR]
    intro j hj
    have hx := h (32 * i + j)
    rw [bsMemberP_eq, bsMemberP_eq, show (32 * i + j) / 32 = i by omega,
      show (32 * i + j) % 32 = j by omega] at hx
    exact hx
  · intro h x
    rw [bsMemberP_eq, bsMemberP_eq]
    exact (hR _ _).mp (h (x / 32)) _ (mod_lt _ (by omega))

theorem anyM_words (h1 : n ≤ s1.length)
    (h2 : n ≤ s2.length) : ((range' 0 n).anyM fun i => do
      let w1 ← bsWord s1 i
      let w2 ← bsWord s2 i
      return c w1 w2) = some ((range' 0 n).any fun i => c (contents s1 i) (contents s2 i)) := by
  apply anyM_eq
  intro i hi
  have hlt := (mem_range'_1.mp hi).2
  simp [bsWord_eq, show i < s1.length by omega, show i < s2.length by omega]

theorem anyM_excess : ((range' n (s2.length - n)).anyM fun i => do
      let w2 ← bsWord s2 i
      return w2 != 0) = some ((range' n (s2.length - n)).any fun i => contents s2 i != 0) := by
  apply anyM_eq
  intro i hi
  have hlt := mem_range'_1.mp hi
  simp [bsWord_eq, show i < s2.length by omega]

theorem scans_iff (hn : n ≤ s2.length)
    (hexcess : ∀ i, n ≤ i → (c (contents s1 i) (contents s2 i) = false ↔ contents s2 i = 0)) :
    (((range' 0 n).any fun i => c (contents s1 i) (contents s2 i)) = false ∧
      ((range' n (s2.length - n)).any fun i => contents s2 i != 0) = false) ↔
    ∀ i, c (contents s1 i) (contents s2 i) = false := by
  simp only [any_eq_false, mem_range'_1, bne_iff_ne, ne_eq, not_not,
    Bool.not_eq_true]
  constructor
  · rintro ⟨hcommon, hrest⟩ i
    by_cases hi : i < n
    · exact hcommon i (by omega)
    · rw [hexcess i (by omega)]
      by_cases h2 : i < s2.length
      · exact hrest i (by omega)
      · exact contents_beyond (Nat.le_of_not_lt h2)
  · intro h
    exact ⟨fun i _ => h i, fun i hi => (hexcess i hi.1).mp (h i)⟩

theorem or_eq_self_iff (u v : BsWord) :
    (u != (u ||| v)) = false ↔ ∀ j, j < 32 → (v.getLsbD j = true → u.getLsbD j = true) := by
  rw [bne_eq_false_iff_eq]
  constructor
  · intro h j _ hv
    rw [h, BitVec.getLsbD_or, hv, Bool.or_true]
  · intro h
    apply BitVec.eq_of_getLsbD_eq
    intro j hj
    rw [BitVec.getLsbD_or]
    cases hv : v.getLsbD j with
    | true => rw [h j hj hv]; rfl
    | false => rw [Bool.or_false]

theorem ne_words_iff (u v : BsWord) :
    (u != v) = false ↔ ∀ j, j < 32 → u.getLsbD j = v.getLsbD j := by
  rw [bne_eq_false_iff_eq]
  constructor
  · intro h j _
    rw [h]
  · intro h
    exact BitVec.eq_of_getLsbD_eq h

theorem and_zero_iff (u v : BsWord) :
    (u &&& v != 0) = false ↔ ∀ j, j < 32 → ¬ (u.getLsbD j = true ∧ v.getLsbD j = true) := by
  rw [bne_eq_false_iff_eq, BitMask.eq_zero_iff]
  constructor
  · rintro h j _ ⟨hu, hv⟩
    have := h j
    rw [BitVec.getLsbD_and, hu, hv] at this
    cases this
  · intro h j
    rw [BitVec.getLsbD_and, Bool.and_eq_false_iff]
    by_cases hj : j < 32
    · have := h j hj
      by_cases hu : u.getLsbD j = true
      · exact .inr (by simpa [hu] using this)
      · exact .inl (by simpa using hu)
    · exact .inl (BitVec.getLsbD_of_ge u j (by omega))

theorem decides_of_scans {a b : Bool} {q : Prop} (h : (a = false ∧ b = false) ↔ q) :
    Decides (if a = true then some false else some (!b)) q := by
  rw [← h]
  cases a with
  | true => exact ⟨false, rfl, by simp⟩
  | false => exact ⟨!b, rfl, by simp⟩

theorem bsContainsP_decides :
    Decides (bsContainsP s1 s2) (∀ x, bsMemberP s2 x = true → bsMemberP s1 x = true) := by
  have hmin : (if s1.length < s2.length then s1.length else s2.length)
      = min s1.length s2.length := by
    split <;> omega
  have hwords := forall_member_iff s1 s2 (q := fun u v => v = true → u = true)
    (R := fun u v => (u != (u ||| v)) = false) or_eq_self_iff
  rw [hwords, ← scans_iff (n := min s1.length s2.length) (c := fun u v => u != (u ||| v))
    (min_le_right _ _)]
  · have hcommon := anyM_words (c := fun u v => u != (u ||| v))
      (min_le_left s1.length s2.length) (min_le_right _ _)
    simp only [bsContainsP, hmin, hcommon, anyM_excess]
    exact decides_of_scans Iff.rfl
  · -- beyond the common words either set1 has no word, or set2 has none
    intro i hi
    rw [bne_eq_false_iff_eq]
    rcases lt_or_ge i s1.length with h1 | h1
    · rw [contents_beyond (show s2.length ≤ i by omega)]
      exact iff_of_true BitVec.or_zero.symm rfl
    · rw [contents_beyond h1]
      exact ⟨fun h => h.trans BitVec.zero_or |>.symm, fun h => by rw [h]; rfl⟩

theorem bsEqualOrdered_decides (h : s1.length ≤ s2.length) :
    Decides (bsEqualOrdered s1 s2) (∀ x, bsMemberP s1 x = bsMemberP s2 x) := by
  have hwords := forall_member_iff s1 s2 (q := fun u v => u = v)
    (R := fun u v => (u != v) = false) ne_words_iff
  rw [hwords, ← scans_iff (n := s1.length) (c := fun u v => u != v) h]
  · unfold bsEqualOrdered
    have hcommon := anyM_words (c := fun u v => u != v) (le_refl s1.length) h
    rw [hcommon, anyM_excess]
    exact decides_of_scans Iff.rfl
  · intro i hi
    rw [contents_beyond hi, bne_eq_false_iff_eq]
    exact eq_comm

theorem bsEqualP_decides : Decides (bsEqualP s1 s2) (∀ x, bsMemberP s1 x = bsMemberP s2 x):= by
  unfold bsEqualP
  by_cases h : s1.length > s2.length
  · rw [if_pos h]
    simpa only [eq_comm] using bsEqualOrdered_decides (le_of_lt h)
  · rw [if_neg h]
    exact bsEqualOrdered_decides (Nat.le_of_not_lt h)

theorem bsIntersectsP_decides :
    Decides (bsIntersectsP s1 s2) (∃ x, bsMemberP s1 x = true ∧ bsMemberP s2 x = true) := by
  have hmin : (if s1.length < s2.length then s1.length else s2.length)
      = min s1.length s2.length := by
    split <;> omega
  have hwords := forall_member_iff s1 s2 (q := fun u v => ¬ (u = true ∧ v = true))
    (R := fun u v => (u &&& v != 0) = false) and_zero_iff
  unfold bsIntersectsP
  rw [hmin]
  refine ⟨_, anyM_words (c := fun u v => u &&& v != 0) (min_le_left _ _)
    (min_le_right _ _), ?_⟩
  rw [← not_iff_not, not_exists, hwords, Bool.not_eq_true, any_eq_false]
  constructor
  · intro h i
    by_cases hi : i < min s1.length s2.length
    · simpa using h i (mem_range'_1.mpr (by omega))
    · rw [and_beyond (Nat.le_of_not_lt hi)]
      rfl
  · intro h i _
    simpa using h i

end tests

/-! ## All operations -/

open SetOp in
/-- Each operation computes the formula of its interface exactly when its result set fits, and the
three tests decide their relations. -/
theorem setOps_correct (op : SetOp) (s1 s2 : BS) :
    (op.sizesAsserted → (Computes op.run op.formula ↔ op.resultFits)) ∧
    Decides (bsContainsP s1 s2) (∀ x, bsMemberP s2 x = true → bsMemberP s1 x = true) ∧
    Decides (bsEqualP s1 s2) (∀ x, bsMemberP s1 x = bsMemberP s2 x) ∧
    Decides (bsIntersectsP s1 s2) (∃ x, bsMemberP s1 x = true ∧ bsMemberP s2 x = true) := by
  refine ⟨?_, bsContainsP_decides, bsEqualP_decides, bsIntersectsP_decides⟩
  intro hsizes
  -- one case for each operation; those that write a result in place ask for its size
  cases op with
  | copyD s1 s2 => exact iff_of_true computes_copyD trivial
  | difference m s1 s2 => exact iff_of_true computes_difference trivial
  | differenceD s1 s2 => exact iff_of_true computes_differenceD trivial
  | intersection m s1 s2 => exact iff_of_true computes_intersection trivial
  | intersectionD s1 s2 => exact iff_of_true computes_intersectionD trivial
  | intersectionR r s1 s2 => exact computes_intersectionR
  | union m s1 s2 => exact iff_of_true computes_union trivial
  | unionD s1 s2 => exact iff_of_true computes_unionD trivial
  | unionR r s1 s2 => exact computes_unionR
  | unionD_Intersection s1 s2 s3 => exact iff_of_true orAnd_computes trivial
  | op_2_1_Minus_3_Or_R r s1 s2 s3 =>
    obtain ⟨h1, h2⟩ := hsizes
    exact growUpdate_computes_R fun i _ => (~~~contents s1 i &&& contents s2 i) ||| contents s3 i
  | op_3_2_Minus_1_Or_D s1 s2 s3 =>
    have h2 : s2.length = s3.length := hsizes
    refine iff_of_true (growUpdate_computes_D
      (fun i w => w ||| (~~~contents s2 i &&& contents s3 i)) ?_ ?_) trivial
    · intro i hi w
      simp (disch := omega) [bsWord_eq]
    · intro x hx
      simp [formula, bsMemberP_eq, mod_lt, Bool.or_comm]
  | op_3_2_Minus_4_Or_1_Or_D s1 s2 s3 s4 =>
    obtain ⟨h2, h3⟩ := hsizes
    exact iff_of_true (growUpdate_computes_D fun i w =>
      w ||| ((~~~contents s2 i &&& contents s3 i) ||| contents s4 i)) trivial
  | op_3_2_Minus_4_Or_5_Or_1_Or_D s1 s2 s3 s4 s5 =>
    obtain ⟨h2, h3, h4⟩ := hsizes
    exact iff_of_true (growUpdate_computes_D fun i w =>
      w ||| ((~~~contents s2 i &&& contents s3 i) ||| contents s4 i ||| contents s5 i)) trivial
  | op_2_1_Minus_3_Or_4_And_5_And_6_And_R r s1 s2 s3 s4 s5 s6 =>
    obtain ⟨h1, h2, h4, h5, h6⟩ := hsizes
    exact growUpdate_computes_R fun i _ => ((~~~contents s1 i &&& contents s2 i) |||
      contents s3 i) &&& contents s4 i &&& contents s5 i &&& contents s6 i
  | op_2_1_Minus_3_Or_4_And_R r s1 s2 s3 s4 =>
    obtain ⟨h1, h2, h4⟩ := hsizes
    exact growUpdate_computes_R fun i _ =>
      ((~~~contents s1 i &&& contents s2 i) ||| contents s3 i) &&& contents s4 i
  | op_1_Not_2_Or_3_Minus_4_And_R r s1 s2 s3 s4 =>
    obtain ⟨h1, h3, h4⟩ := hsizes
    exact growUpdate_computes_R fun i _ =>
      (~~~contents s1 i ||| contents s2 i) &&& ~~~contents s3 i &&& contents s4 i
  | op_2_3_Or_1_Or_D s1 s2 s3 =>
    have h2 : s2.length = s3.length := hsizes
    exact iff_of_true (growUpdate_computes_D fun i w =>
      w ||| (contents s2 i ||| contents s3 i)) trivial
  | op_1_2_Or_3_And_R r s1 s2 s3 =>
    obtain ⟨h2, h3⟩ := hsizes
    exact growUpdate_computes_R fun i _ => (contents s1 i ||| contents s2 i) &&& contents s3 i
  | op_2_3_And_1_Or_D s1 s2 s3 => exact iff_of_true orAnd_computes trivial
  | op_3_Not_4_Or_2_And_1_Or_D s1 s2 s3 s4 =>
    obtain ⟨h3, h4⟩ := hsizes
    exact iff_of_true (growUpdate_computes_D fun i w =>
      w ||| (contents s2 i &&& (~~~contents s3 i ||| contents s4 i))) trivial
  | op_4_3_Minus_2_Not_Or_1_And_D s1 s2 s3 s4 =>
    obtain ⟨h3, h4⟩ := hsizes
    exact iff_of_true (growUpdate_computes_D fun i w =>
      w &&& (~~~contents s2 i ||| (contents s4 i &&& ~~~contents s3 i))) trivial
  | op_2_3_Minus_1_Or_D s1 s2 s3 =>
    have h2 : s2.length = s3.length := hsizes
    exact iff_of_true (growUpdate_computes_D fun i w =>
      w ||| (contents s2 i &&& ~~~contents s3 i)) trivial
  | op_2_3_Minus_4_Minus_1_Or_D s1 s2 s3 s4 =>
    obtain ⟨h2, h3⟩ := hsizes
    exact iff_of_true (growUpdate_computes_D fun i w =>
      w ||| (contents s2 i &&& ~~~contents s3 i &&& ~~~contents s4 i)) trivial

theorem setOps_correct_one : (SetOp.op_2_1_Minus_3_Or_R [5] [1] [3] [4]).sizesAsserted ∧
      Computes (SetOp.op_2_1_Minus_3_Or_R [5] [1] [3] [4]).run
        (SetOp.op_2_1_Minus_3_Or_R [5] [1] [3] [4]).formula := by
  refine ⟨⟨rfl, rfl⟩, ((setOps_correct (.op_2_1_Minus_3_Or_R [5] [1] [3] [4]) [] []).1
    ⟨rfl, rfl⟩).mpr ?_⟩
  intro x hx
  have hbeyond : 32 * 1 ≤ x := hx
  exact bsMemberP_beyond (show 1 ≤ x / 32 by omega)

/-- A result longer than the operands keeps what it held: 32 stays a member. -/
theorem setOps_stale_result : ¬ ∀ op : SetOp, op.sizesAsserted → Computes op.run op.formula := by
  intro h
  obtain ⟨t, ht, hmem⟩ := h (.op_2_1_Minus_3_Or_R [0, 1] [0] [0] [0]) ⟨rfl, rfl⟩
  cases ht
  have := hmem 32
  revert this
  decide

end BitSet
