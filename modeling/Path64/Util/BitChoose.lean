import Path64.Lib.Loop
import Path64.Util.BitSet

/-! # Searching a bit set

`BS_Choose`, `BS_Choose_Range`, `BS_Choose_Next` and
`BS_Intersection_Choose_Next` look for the least member of a set beyond a
bound. They go over the rest of a byte, the rest of its word, whole words
and what is left in the last one; a table tells the first bit of a byte.

The words of a set are read through bytes as well, in the order of a
little-endian machine. -/

namespace BitSet

open Loop

abbrev BsByte := BitVec 8

/-! ## Model -/

/-- `BS_CHOOSE_FAILURE`. -/
def chooseFailure : Int := -1

def bsONES : BsWord := ~~~0

/-- The value as a `BS_ELT`, an `INT32`. -/
def bsElt (z : Int) : Int := (BitVec.ofInt 32 z).toInt

def bsEltMax : Int := 2147483647

/-- `bs_PBPW` of a word count; the cast to `BS_ELT` is to 32 bits. -/
def bsPBPW (words : Nat) : Int := bsElt (words * 32)

/-- `first_one`. -/
def firstOneTable : List Nat :=
  [0,0,1,0,2,0,1,0,3,0,1,0,2,0,1,0,4,0,1,0,2,0,1,0,3,0,1,0,2,0,1,0,
   5,0,1,0,2,0,1,0,3,0,1,0,2,0,1,0,4,0,1,0,2,0,1,0,3,0,1,0,2,0,1,0,
   6,0,1,0,2,0,1,0,3,0,1,0,2,0,1,0,4,0,1,0,2,0,1,0,3,0,1,0,2,0,1,0,
   5,0,1,0,2,0,1,0,3,0,1,0,2,0,1,0,4,0,1,0,2,0,1,0,3,0,1,0,2,0,1,0,
   7,0,1,0,2,0,1,0,3,0,1,0,2,0,1,0,4,0,1,0,2,0,1,0,3,0,1,0,2,0,1,0,
   5,0,1,0,2,0,1,0,3,0,1,0,2,0,1,0,4,0,1,0,2,0,1,0,3,0,1,0,2,0,1,0,
   6,0,1,0,2,0,1,0,3,0,1,0,2,0,1,0,4,0,1,0,2,0,1,0,3,0,1,0,2,0,1,0,
   5,0,1,0,2,0,1,0,3,0,1,0,2,0,1,0,4,0,1,0,2,0,1,0,3,0,1,0,2,0,1,0]

def firstOne (byte : BsByte) : Nat := firstOneTable.getD byte.toNat 0

/-- Byte `k` of a word. -/
def byteOfWord (word : BsWord) (k : Nat) : BsByte := (word >>> (8 * k)).setWidth 8

/-- `BS_byte(set,i)`. -/
def bsByte (set : BS) (i : Nat) : Option BsByte :=
  (bsWord set (i / 4)).map fun word => byteOfWord word (i % 4)

/-- How a search leaves its function early. -/
inductive Exit
  | found (x : Nat) | failure | outside

/-- What a search reads: a set, or the common part of two. -/
structure Source where
  word : Nat → Option BsWord
  byte : Nat → Option BsByte

def Source.ofSet (set : BS) : Source := ⟨bsWord set, bsByte set⟩

def Source.inter (set1 set2 : BS) : Source where
  word i := do return (← bsWord set1 i) &&& (← bsWord set2 i)
  byte i := do return (← bsByte set1 i) &&& (← bsByte set2 i)

/-- A read, which has to be inside the set. -/
def fetch {α : Type} : Option α → Except Exit α
  | some a => .ok a
  | none => .error .outside

namespace Source

variable (S : Source)

/-- `byte = BS_byte(set,i) & mask; if (byte != bs_ZEROS) return first_one[byte] + bs_PBPB(i);` -/
def checkByte (i : Nat) (mask : BsWord) : Except Exit Unit := do
  let byte := ((← fetch (S.byte i)).setWidth 32 &&& mask).setWidth 8
  if byte ≠ 0 then .error (.found (firstOne byte + 8 * i)) else .ok ()

def checkBytes (first count : Nat) : Except Exit Unit :=
  forFrom (fun i _ => S.checkByte i bsONES) count first ()

/-- A loop over words, which looks into those that are not zero. -/
def checkWords (first count : Nat) : Except Exit Unit :=
  forFrom (fun i _ => do
    if (← fetch (S.word i)) ≠ 0 then S.checkBytes (i * 4) 4 else .ok ()) count first ()

/-- `BS_Choose_Next` behind its test of the inclusive bound. -/
def nextFrom (wordCount bound : Nat) : Except Exit Unit := do
  S.checkByte (bound / 8) (bsONES <<< (bound % 8))
  S.checkBytes (bound / 8 + 1) ((bound / 32 + 1) * 4 - (bound / 8 + 1))
  S.checkWords (bound / 32 + 1) (wordCount - (bound / 32 + 1))

/-- `BS_Choose_Range` behind its test of the adjusted range. -/
def rangeFrom (low high : Nat) : Except Exit Unit := do
  let firstByte := low / 8
  let lastByte := high / 8
  let mask := bsONES <<< (low % 8)
  let lastMask := bsONES >>> (31 - high % 8)
  S.checkByte firstByte (if firstByte = lastByte then mask &&& lastMask else mask)
  if firstByte = lastByte then .error .failure
  let firstWord := low / 32
  let lastWord := high / 32
  let fullByte := (firstWord + 1) * 4 - 1
  let fullByte := if fullByte ≥ lastByte then lastByte - 1 else fullByte
  S.checkBytes (firstByte + 1) (fullByte - firstByte)
  S.checkWords (firstWord + 1) (lastWord - (firstWord + 1))
  let i := max (firstWord + 1) lastWord * 4
  S.checkBytes i (lastByte - i)
  S.checkByte lastByte lastMask

end Source

/-- The value a search returns; none where it read outside the set. -/
def returned : Except Exit Unit → Option Int
  | .ok () | .error .failure => some chooseFailure
  | .error (.found x) => some x
  | .error .outside => none

def bsChoose (set : BS) : Option Int :=
  returned ((Source.ofSet set).checkWords 0 set.length)

def bsChooseRange (set : BS) (low high : Int) : Option Int :=
  let last := bsElt (bsPBPW set.length - 1)
  let high := if high > last then last else high
  if low > high then some chooseFailure
  else returned ((Source.ofSet set).rangeFrom low.toNat high.toNat)

/-- The searches for the next member; a negative bound is a place before the set. -/
def chooseNext (S : Source) (wordCount : Nat) (bound : Int) : Option Int :=
  let bound := bsElt (bound + 1)
  if bound ≥ bsPBPW wordCount then some chooseFailure
  else if bound < 0 then none
  else returned (S.nextFrom wordCount bound.toNat)

def bsChooseNext (set : BS) (bound : Int) : Option Int :=
  chooseNext (.ofSet set) set.length bound

def bsIntersectionChooseNext (set1 set2 : BS) (bound : Int) : Option Int :=
  chooseNext (.inter set1 set2)
    (if set1.length < set2.length then set1.length else set2.length) bound

/-- The members that `for (elt = …; elt != BS_CHOOSE_FAILURE; elt = BS_Choose_Next(set, elt))` visits. -/
def elementsFrom (set : BS) : Nat → Int → Option (List Int)
  | 0, _ => none
  | fuel + 1, elt =>
    if elt = chooseFailure then some []
    else do
      let next ← bsChooseNext set elt
      return elt :: (← elementsFrom set fuel next)

/-- The loop, from `BS_Choose` on. -/
def elements (set : BS) (fuel : Nat) : Option (List Int) := do
  elementsFrom set fuel (← bsChoose set)

/-! ## What a search should return -/

/-- The least number with `p`, or the failure value. -/
def LeastOrFailure (r : Option Int) (p : Nat → Prop) : Prop :=
  (∃ x : Nat, r = some (x : Int) ∧ p x ∧ ∀ y, p y → x ≤ y) ∨
    (r = some chooseFailure ∧ ∀ x, ¬ p x)

def RangeRight (set : BS) (low high : Int) : Prop :=
  LeastOrFailure (bsChooseRange set low high) fun x =>
    bsMemberP set x = true ∧ low ≤ x ∧ x ≤ high

def NextRight (set : BS) (bound : Int) : Prop :=
  LeastOrFailure (bsChooseNext set bound) fun x => bsMemberP set x = true ∧ bound < x

def InterRight (set1 set2 : BS) (bound : Int) : Prop :=
  LeastOrFailure (bsIntersectionChooseNext set1 set2 bound) fun x =>
    (bsMemberP set1 x = true ∧ bsMemberP set2 x = true) ∧ bound < x

/-- The loop visits every member once and in order. -/
def Enumerated (set : BS) : Prop :=
  ∃ (fuel : Nat) (l : List Nat), elements set fuel = some (l.map (↑)) ∧
    l.Pairwise (· < ·) ∧ ∀ x, x ∈ l ↔ bsMemberP set x = true

/-! ## Bytes and words -/

/-- Bit `x` of the words `C`. -/
def Bit (C : Nat → BsWord) (x : Nat) : Prop := (C (x / 32)).getLsbD (x % 32) = true

variable {j k x : Nat} {r : Except Exit Unit} {bound high : Int} {p : Nat → Prop}

theorem getLsbD_byteOfWord (w : BsWord) (k : Nat) (hj : j < 8) :
    (byteOfWord w k).getLsbD j = w.getLsbD (8 * k + j) := by
  simp [byteOfWord, hj]

/-- Entry `n` is where the lowest one of `n` is. -/
theorem firstOne_table : (firstOneTable.zipIdx.all fun p =>
    p.2 == 0 || decide (p.1 < 8) && p.2 % 2 ^ (p.1 + 1) == 2 ^ p.1) = true := by
  decide +kernel

theorem firstOne_spec {b : BsByte} (hb : b ≠ 0) : firstOne b < 8 ∧
    b.getLsbD (firstOne b) = true ∧ ∀ j, b.getLsbD j = true → firstOne b ≤ j := by
  have hne : b.toNat ≠ 0 := fun h => hb (BitVec.eq_of_toNat_eq h)
  have hmem : (firstOne b, b.toNat) ∈ firstOneTable.zipIdx := by
    have hlen : firstOneTable.length = 256 := by decide +kernel
    have hlt : b.toNat < firstOneTable.length := hlen ▸ b.isLt
    rw [List.mk_mem_zipIdx_iff_getElem?, firstOne, List.getD_eq_getElem?_getD,
      List.getElem?_eq_getElem hlt, Option.getD_some]
  have hentry := List.all_eq_true.mp firstOne_table _ hmem
  simp only [Bool.or_eq_true, Bool.and_eq_true, beq_iff_eq, decide_eq_true_eq, hne,
    false_or] at hentry
  obtain ⟨hlt, hmod⟩ := hentry
  have hbits : ∀ j ≤ firstOne b, b.getLsbD j = decide (firstOne b = j) := by
    intro j hj
    rw [BitVec.getLsbD, ← Nat.testBit_two_pow, ← hmod, Nat.testBit_mod_two_pow,
      decide_eq_true (by omega), Bool.true_and]
  refine ⟨hlt, by rw [hbits _ (Nat.le_refl _), decide_eq_true rfl], fun j hj => ?_⟩
  by_contra hgt
  rw [hbits j (by omega), decide_eq_true_eq] at hj
  omega

/-- The source has the words `C`, as far as the first `n`. -/
structure Source.Holds (S : Source) (C : Nat → BsWord) (n : Nat) : Prop where
  word : ∀ i < n, S.word i = some (C i)
  byte : ∀ i < 4 * n, S.byte i = some (byteOfWord (C (i / 4)) (i % 4))

theorem holds_ofSet (set : BS) : (Source.ofSet set).Holds (contents set) set.length where
  word i hi := bsWord_eq hi
  byte i hi := by
    simp only [Source.ofSet, bsByte, bsWord_eq (show i / 4 < set.length by omega), Option.map_some]

theorem holds_inter (set1 set2 : BS) : (Source.inter set1 set2).Holds
    (fun i => contents set1 i &&& contents set2 i) (min set1.length set2.length) where
  word i hi := by
    simp only [Source.inter, bsWord_eq (show i < set1.length by omega),
      bsWord_eq (show i < set2.length by omega)]
    rfl
  byte i hi := by
    simp only [Source.inter, bsByte, bsWord_eq (show i / 4 < set1.length by omega),
      bsWord_eq (show i / 4 < set2.length by omega)]
    simp [byteOfWord, BitVec.ushiftRight_and_distrib]

/-! ## The passes -/

section Passes

variable {S : Source} {C : Nat → BsWord} {n lo top : Nat}

/-- What is looked for: the bits from `lo` on and below `top`. -/
def Sought (C : Nat → BsWord) (lo top x : Nat) : Prop := Bit C x ∧ lo ≤ x ∧ x < top

/-- Leaving early, a search knows the least number, or that there is none. -/
def Good (C : Nat → BsWord) (lo top : Nat) : Exit → Prop
  | .found x => Sought C lo top x ∧ ∀ y, Sought C lo top y → x ≤ y
  | .failure => ∀ y, ¬ Sought C lo top y
  | .outside => False

def Clear (C : Nat → BsWord) (lo top k : Nat) : Prop := ∀ y, Sought C lo top y → k ≤ y

theorem checkByte_outcome (hS : S.Holds C n) {i : Nat} {mask : BsWord} (hi : i < 4 * n)
    (hmask : ∀ j < 8, mask.getLsbD j = true ↔ lo ≤ 8 * i + j ∧ 8 * i + j < top)
    (hclear : Clear C lo top (8 * i)) :
    Outcome (Good C lo top) (fun _ => Clear C lo top (8 * (i + 1))) (S.checkByte i mask) := by
  have hbits : ∀ j < 8, (((byteOfWord (C (i / 4)) (i % 4)).setWidth 32 &&& mask).setWidth
      8).getLsbD j = true ↔ Sought C lo top (8 * i + j) := by
    intro j hj
    have hword : (8 * i + j) / 32 = i / 4 := by omega
    have hbit : (8 * i + j) % 32 = 8 * (i % 4) + j := by omega
    rw [Sought, Bit, hword, hbit, ← hmask j hj, ← getLsbD_byteOfWord _ _ hj]
    simp only [BitVec.getLsbD_setWidth, BitVec.getLsbD_and, hj, show j < 32 by omega,
      decide_true, Bool.true_and, Bool.and_eq_true]
  simp only [Source.checkByte, hS.byte i hi, fetch, bind, Except.bind]
  split
  · next hne =>
    obtain ⟨hlt, hbit, hleast⟩ := firstOne_spec hne
    rw [Nat.add_comm (firstOne _)]
    refine ⟨(hbits _ hlt).mp hbit, fun y hy => ?_⟩
    by_cases hlast : y < 8 * (i + 1)
    · have hge := hclear y hy
      have hle := hleast (y - 8 * i)
        ((hbits _ (by omega)).mpr (by rwa [show 8 * i + (y - 8 * i) = y by omega]))
      omega
    · omega
  · next hzero =>
    intro y hy
    by_contra hlt
    have hge := hclear y hy
    have hbit := (hbits (y - 8 * i) (by omega)).mpr (by rwa [show 8 * i + (y - 8 * i) = y by omega])
    rw [not_not.mp hzero] at hbit
    simp at hbit

theorem getLsbD_bsONES (hj : j < 32) : bsONES.getLsbD j = true := by
  rw [bsONES, BitVec.getLsbD_not]
  simp [hj]

theorem checkBytes_outcome (hS : S.Holds C n) (first count : Nat) (hlo : lo ≤ 8 * first)
    (hn : first + count ≤ 4 * n) (htop : 8 * (first + count) ≤ top)
    (hclear : Clear C lo top (8 * first)) :
    Outcome (Good C lo top) (fun _ => Clear C lo top (8 * (first + count)))
      (S.checkBytes first count) := by
  refine forFrom_outcome (fun i _ => Clear C lo top (8 * i)) count first ()
    (fun i _ hi hlt h => checkByte_outcome hS (by omega) (fun j hj => ?_) h) hclear
  exact iff_of_true (getLsbD_bsONES (by omega)) ⟨by omega, by omega⟩

theorem checkWords_outcome (hS : S.Holds C n) (first count : Nat) (hlo : lo ≤ 32 * first)
    (hn : first + count ≤ n) (htop : 32 * (first + count) ≤ top)
    (hclear : Clear C lo top (32 * first)) :
    Outcome (Good C lo top) (fun _ => Clear C lo top (32 * (first + count)))
      (S.checkWords first count) := by
  refine forFrom_outcome (fun i _ => Clear C lo top (32 * i)) count first ()
    (fun i _ hi hlt h => ?_) hclear
  simp only [hS.word i (by omega), fetch, bind, Except.bind]
  split
  · have hend : 32 * (i + 1) = 8 * (i * 4 + 4) := by omega
    rw [hend]
    exact checkBytes_outcome hS _ _ (by omega) (by omega) (by omega)
      (by rwa [show 8 * (i * 4) = 32 * i by omega])
  · next hzero =>
    intro y hy
    by_contra hlt'
    have hge := h y hy
    have hbit := hy.1
    rw [Bit, show y / 32 = i by omega, not_not.mp hzero] at hbit
    simp at hbit

theorem outcome_bind {P P' : Unit → Prop} {Q : Exit → Prop}
    {f : Unit → Except Exit Unit} (h : Outcome Q P r) (hf : P () → Outcome Q P' (f ())) :
    Outcome Q P' (r >>= f) := by
  cases r with
  | error _ => exact h
  | ok _ => exact hf h

theorem getLsbD_shiftLeft_bsONES (hj : j < 8) : (bsONES <<< k).getLsbD j = true ↔ k ≤ j := by
  rw [BitVec.getLsbD_shiftLeft]
  by_cases hk : k ≤ j
  · simp [hk, getLsbD_bsONES (show j - k < 32 by omega), show j < 32 by omega]
  · simp [hk, not_le.mp hk]

theorem getLsbD_ushiftRight_bsONES (hk : k < 8) :
    (bsONES >>> (31 - k)).getLsbD j = true ↔ j ≤ k := by
  rw [BitVec.getLsbD_ushiftRight]
  by_cases hle : j ≤ k
  · exact iff_of_true (getLsbD_bsONES (by omega)) hle
  · exact iff_of_false (by simp [bsONES, show 32 ≤ 31 - k + j by omega]) hle

theorem nextFrom_outcome (hS : S.Holds C n) {bound : Nat} (hb : bound < 32 * n) :
    Outcome (Good C bound (32 * n)) (fun _ => Clear C bound (32 * n) (32 * n))
      (S.nextFrom n bound) := by
  have hfirst : Outcome (Good C bound (32 * n))
      (fun _ => Clear C bound (32 * n) (8 * (bound / 8 + 1)))
      (S.checkByte (bound / 8) (bsONES <<< (bound % 8))) :=
    checkByte_outcome hS (by omega) (fun j hj => by rw [getLsbD_shiftLeft_bsONES hj]; omega)
      (fun y hy => by have := hy.2.1; omega)
  refine outcome_bind hfirst fun hclear => ?_
  have hword := checkBytes_outcome hS (bound / 8 + 1) ((bound / 32 + 1) * 4 - (bound / 8 + 1))
    (by omega) (by omega) (by omega) hclear
  refine outcome_bind hword fun hclear => ?_
  rw [show 8 * (bound / 8 + 1 + ((bound / 32 + 1) * 4 - (bound / 8 + 1))) = 32 * (bound / 32 + 1)
    by omega] at hclear
  have hrest := checkWords_outcome hS (bound / 32 + 1) (n - (bound / 32 + 1))
    (by omega) (by omega) (by omega) hclear
  rwa [show bound / 32 + 1 + (n - (bound / 32 + 1)) = n by omega] at hrest

theorem rangeFrom_outcome (hS : S.Holds C n) {low high : Nat} (hle : low ≤ high)
    (hn : high < 32 * n) :
    Outcome (Good C low (high + 1)) (fun _ => Clear C low (high + 1) (high + 1))
      (S.rangeFrom low high) := by
  have hlow : ∀ j < 8, (bsONES <<< (low % 8)).getLsbD j = true ↔ low ≤ 8 * (low / 8) + j :=
    fun j hj => by rw [getLsbD_shiftLeft_bsONES hj]; omega
  have hhigh : ∀ j < 8, (bsONES >>> (31 - high % 8)).getLsbD j = true ↔
      8 * (high / 8) + j < high + 1 :=
    fun j _ => by rw [getLsbD_ushiftRight_bsONES (by omega)]; omega
  have hstart : Clear C low (high + 1) (8 * (low / 8)) := fun y hy => by have := hy.2.1; omega
  unfold Source.rangeFrom
  by_cases hsame : low / 8 = high / 8
  · simp only [if_pos hsame]
    refine outcome_bind (checkByte_outcome hS (by omega) (fun j hj => ?_) hstart) fun hclear => ?_
    · rw [BitVec.getLsbD_and, Bool.and_eq_true, hlow j hj, hhigh j hj, hsame]
    · intro y hy
      have := hclear y hy
      have := hy.2.2
      omega
  · simp only [if_neg hsame]
    refine outcome_bind (checkByte_outcome hS (by omega) (fun j hj => ?_) hstart) fun hclear => ?_
    · rw [hlow j hj]; omega
    -- the rest of the first word, up to the last byte
    have hend : low / 8 + 1 + ((if (low / 32 + 1) * 4 - 1 ≥ high / 8 then high / 8 - 1 else
        (low / 32 + 1) * 4 - 1) - low / 8) = min ((low / 32 + 1) * 4) (high / 8) := by
      split <;> omega
    refine outcome_bind (checkBytes_outcome hS _ _ (by omega) (by omega) (by omega) hclear)
      fun hclear => ?_
    rw [hend] at hclear
    have hlast : Clear C low (high + 1) (8 * (high / 8)) → Outcome (Good C low (high + 1))
        (fun _ => Clear C low (high + 1) (high + 1))
        (S.checkByte (high / 8) (bsONES >>> (31 - high % 8))) := fun hclear =>
      (checkByte_outcome hS (by omega) (fun j hj => by rw [hhigh j hj]; omega) hclear).imp
        fun _ h y hy => by have := h y hy; omega
    by_cases hword : low / 32 = high / 32
    · -- no word follows the first one
      have hnone : high / 32 - (low / 32 + 1) = 0 := by omega
      have hbytes : high / 8 - max (low / 32 + 1) (high / 32) * 4 = 0 := by omega
      rw [hnone, hbytes]
      exact hlast (by rwa [show min ((low / 32 + 1) * 4) (high / 8) = high / 8 by omega] at hclear)
    · rw [show max (low / 32 + 1) (high / 32) = high / 32 by omega]
      rw [show 8 * min ((low / 32 + 1) * 4) (high / 8) = 32 * (low / 32 + 1) by omega] at hclear
      refine outcome_bind (checkWords_outcome hS _ _ (by omega) (by omega) (by omega) hclear)
        fun hclear => ?_
      rw [show 32 * (low / 32 + 1 + (high / 32 - (low / 32 + 1))) = 8 * (high / 32 * 4) by omega]
        at hclear
      refine outcome_bind (checkBytes_outcome hS _ _ (by omega) (by omega) (by omega) hclear)
        fun hclear => hlast ?_
      rwa [show high / 32 * 4 + (high / 8 - high / 32 * 4) = high / 8 by omega] at hclear

theorem returned_leastOrFailure
    (h : Outcome (Good C lo top) (fun _ => Clear C lo top k) r) (hk : top ≤ k)
    (hp : ∀ x, p x ↔ Sought C lo top x) : LeastOrFailure (returned r) p := by
  cases r with
  | ok _ => exact .inr ⟨rfl, fun x hx => by
      have hx := (hp x).mp hx
      have := h x hx
      have := hx.2.2
      omega⟩
  | error e =>
    cases e with
    | found x => exact .inl ⟨x, rfl, (hp x).mpr h.1, fun y hy => h.2 y ((hp y).mp hy)⟩
    | failure => exact .inr ⟨rfl, fun x hx => h x ((hp x).mp hx)⟩
    | outside => exact h.elim

end Passes

/-! ## Every search -/

theorem bsElt_eq {z : Int} (hlo : -2147483648 ≤ z) (hhi : z ≤ bsEltMax) : bsElt z = z := by
  unfold bsEltMax at hhi
  rw [bsElt, BitVec.toInt_ofInt, Int.bmod_eq_of_le (by omega) (by omega)]

theorem bsPBPW_eq {n : Nat} (h : n < 2 ^ 26) : bsPBPW n = 32 * n := by
  rw [bsPBPW, bsElt_eq (by omega) (by unfold bsEltMax; omega)]
  omega

theorem bsPBPW_full : bsPBPW (2 ^ 26) = -2 ^ 31 := by decide

theorem member_iff_bit (set : BS) (x : Nat) :
    bsMemberP set x = true ↔ Bit (contents set) x := by rw [bsMemberP_eq, Bit]

theorem Bit.lt {set : BS} (h : Bit (contents set) x) : x < 32 * set.length := by
  by_contra hge
  rw [Bit, contents_beyond (by omega)] at h
  simp at h

theorem chooseNext_least {S : Source} {C : Nat → BsWord} {n : Nat}
    (hS : S.Holds C n) (hn : n < 2 ^ 26) (hb : -1 ≤ bound) (hmax : bound < bsEltMax)
    (hp : ∀ x, p x ↔ (Bit C x ∧ x < 32 * n) ∧ bound < x) :
    LeastOrFailure (chooseNext S n bound) p := by
  unfold chooseNext
  simp only [bsPBPW_eq hn, bsElt_eq (z := bound + 1) (by omega) (by omega)]
  split
  · refine .inr ⟨rfl, fun x hx => ?_⟩
    have := (hp x).mp hx
    omega
  · rw [if_neg (by omega)]
    refine returned_leastOrFailure (nextFrom_outcome hS (by omega)) (Nat.le_refl _) fun x => ?_
    rw [hp x, Sought]
    constructor
    · rintro ⟨⟨hbit, hlt⟩, hgt⟩
      exact ⟨hbit, by omega, hlt⟩
    · rintro ⟨hbit, hge, hlt⟩
      exact ⟨⟨hbit, hlt⟩, by omega⟩

variable {set : BS}

theorem bsChooseNext_least (hn : set.length < 2 ^ 26) (hb : -1 ≤ bound) (hmax : bound < bsEltMax) :
    NextRight set bound :=
  chooseNext_least (holds_ofSet set) hn hb hmax fun x => by
    rw [member_iff_bit]
    exact ⟨fun h => ⟨⟨h.1, h.1.lt⟩, h.2⟩, fun h => ⟨h.1.1, h.2⟩⟩

theorem interWords (set1 set2 : BS) : (if set1.length < set2.length then set1.length else
    set2.length) = min set1.length set2.length := by
  split <;> omega

theorem bsIntersectionChooseNext_least {set2 : BS} (hn : min set.length set2.length < 2 ^ 26)
    (hb : -1 ≤ bound) (hmax : bound < bsEltMax) : InterRight set set2 bound := by
  unfold InterRight bsIntersectionChooseNext
  rw [interWords]
  refine chooseNext_least (holds_inter set set2) hn hb hmax fun x => ?_
  have hbit : Bit (fun i => contents set i &&& contents set2 i) x ↔
      Bit (contents set) x ∧ Bit (contents set2) x := by
    simp only [Bit, BitVec.getLsbD_and, Bool.and_eq_true]
  rw [member_iff_bit, member_iff_bit, hbit]
  refine ⟨fun h => ⟨⟨h.1, ?_⟩, h.2⟩, fun h => ⟨h.1.1, h.2⟩⟩
  have h1 := h.1.1.lt
  have h2 := h.1.2.lt
  omega

theorem bsChooseRange_least (hn : set.length ≤ 2 ^ 26) {low : Int} (hlow : 0 ≤ low) :
    RangeRight set low high := by
  -- in the largest set the last element wraps twice, and is right again
  have hlast : bsElt (bsPBPW set.length - 1) = 32 * set.length - 1 := by
    obtain hlt | heq := Nat.lt_or_eq_of_le hn
    · rw [bsPBPW_eq hlt, bsElt_eq (by omega) (by unfold bsEltMax; omega)]
    · rw [heq, bsPBPW_full]
      decide
  have hmin : (if high > 32 * (set.length : Int) - 1 then 32 * (set.length : Int) - 1 else high) =
      min high (32 * set.length - 1) := by
    split <;> omega
  unfold RangeRight bsChooseRange
  simp only [hlast, hmin]
  split
  · refine .inr ⟨rfl, fun x hx => ?_⟩
    have := ((member_iff_bit set x).mp hx.1).lt
    omega
  · refine returned_leastOrFailure (rangeFrom_outcome (holds_ofSet set) (by omega) (by omega))
      (Nat.le_refl _) fun x => ?_
    rw [member_iff_bit, Sought]
    constructor
    · rintro ⟨hbit, hge, hle⟩
      have := hbit.lt
      exact ⟨hbit, by omega, by omega⟩
    · rintro ⟨hbit, hge, hlt⟩
      exact ⟨hbit, by omega, by omega⟩

theorem bsChoose_least (set : BS) :
    LeastOrFailure (bsChoose set) fun x => bsMemberP set x = true := by
  have hscan := checkWords_outcome (holds_ofSet set) 0 set.length
    (Nat.zero_le _) (by omega) (Nat.le_refl _) (fun y _ => Nat.zero_le y)
  refine returned_leastOrFailure hscan (by omega) fun x => ?_
  rw [member_iff_bit, Sought]
  exact ⟨fun h => ⟨h, Nat.zero_le x, by have := h.lt; omega⟩, fun h => h.1⟩

/-! ## The loop over the members -/

theorem elementsFrom_spec (hn : set.length < 2 ^ 26) : ∀ (n : Nat) (x : Nat),
    bsMemberP set x = true → 32 * set.length ≤ x + n → ∃ (fuel : Nat) (l : List Nat),
      elementsFrom set fuel x = some (l.map (↑)) ∧ l.Pairwise (· < ·) ∧
      ∀ y, y ∈ l ↔ bsMemberP set y = true ∧ x ≤ y
  | 0, x, hx, hle => by
    have := ((member_iff_bit set x).mp hx).lt
    omega
  | n + 1, x, hx, hle => by
    have hbelow : ∀ y : Nat, bsMemberP set y = true → (y : Int) < bsEltMax := fun y hy => by
      have := ((member_iff_bit set y).mp hy).lt
      unfold bsEltMax
      omega
    have hne : (x : Int) ≠ chooseFailure := by rw [chooseFailure]; omega
    obtain ⟨z, hz, ⟨hmem, hgt⟩, hleast⟩ | ⟨hz, hnone⟩ :=
      bsChooseNext_least hn (show -1 ≤ (x : Int) by omega) (hbelow x hx)
    · obtain ⟨fuel, l, hrun, hsort, hl⟩ := elementsFrom_spec hn n z hmem (by omega)
      refine ⟨fuel + 1, x :: l, ?_, List.pairwise_cons.mpr ⟨fun y hy => ?_, hsort⟩, fun y => ?_⟩
      · simp only [elementsFrom, if_neg hne, hz, hrun, Option.bind_eq_bind, Option.bind_some]
        rfl
      · have := ((hl y).mp hy).2
        omega
      · rw [List.mem_cons, hl y]
        constructor
        · rintro (rfl | ⟨hy, hzy⟩)
          · exact ⟨hx, Nat.le_refl _⟩
          · exact ⟨hy, by omega⟩
        · rintro ⟨hy, hxy⟩
          obtain rfl | hlt := Nat.eq_or_lt_of_le hxy
          · exact .inl rfl
          · exact .inr ⟨hy, hleast y ⟨hy, by omega⟩⟩
    · refine ⟨2, [x], ?_, List.pairwise_singleton _ _, fun y => ?_⟩
      · simp only [elementsFrom, if_neg hne, hz, if_true, Option.bind_eq_bind, Option.bind_some]
        rfl
      · rw [List.mem_singleton]
        constructor
        · rintro rfl
          exact ⟨hx, Nat.le_refl _⟩
        · rintro ⟨hy, hxy⟩
          have := hnone y
          by_contra hne'
          exact this ⟨hy, by omega⟩

theorem elements_spec (hn : set.length < 2 ^ 26) : Enumerated set := by
  obtain ⟨z, hz, hmem, hleast⟩ | ⟨hz, hnone⟩ := bsChoose_least set
  · obtain ⟨fuel, l, hrun, hsort, hl⟩ := elementsFrom_spec hn _ z hmem (Nat.le_add_left _ _)
    refine ⟨fuel, l, by simp only [elements, hz, Option.bind_eq_bind, Option.bind_some, hrun],
      hsort, fun x => ?_⟩
    rw [hl x]
    exact ⟨fun h => h.1, fun h => ⟨h, hleast x h⟩⟩
  · exact ⟨1, [], by simp only [elements, hz]; rfl, .nil, fun x =>
      iff_of_false List.not_mem_nil (hnone x)⟩

/-! ## Sets whose bits overflow -/

/-- With as many words as a set can have every bound is taken to be beyond the last bit. -/
theorem chooseNext_full (S : Source) : chooseNext S (2 ^ 26) bound = some chooseFailure := by
  have hge : -2 ^ 31 ≤ bsElt (bound + 1) := BitVec.le_toInt _
  exact if_pos (by rw [bsPBPW_full]; exact hge)

/-- The greatest bound is not followed by another one: the search begins before the set. -/
theorem chooseNext_max (S : Source) {n : Nat} (hn : n < 2 ^ 26) : chooseNext S n bsEltMax = none := by
  have hwrap : bsElt (bsEltMax + 1) = -2147483648 := by decide
  unfold chooseNext
  simp only [hwrap, bsPBPW_eq hn]
  rw [if_neg (by omega), if_pos (by omega)]

theorem LeastOrFailure.ne_none (h : LeastOrFailure none p) : False := by
  obtain ⟨_, h, _⟩ | ⟨h, _⟩ := h <;> cases h

theorem leastOrFailure_failure : LeastOrFailure (some chooseFailure) p ↔ ∀ x, ¬ p x := by
  refine ⟨?_, fun h => .inr ⟨rfl, h⟩⟩
  rintro (⟨x, hx, -⟩ | ⟨-, h⟩)
  · rw [chooseFailure, Option.some.injEq] at hx
    omega
  · exact h

/-- When a search for the next member is right, by the words it goes over. -/
theorem chooseNext_right_iff (S : Source) {n : Nat} (hn : n ≤ 2 ^ 26) (hmax : bound ≤ bsEltMax)
    (hsmall : n < 2 ^ 26 → bound < bsEltMax → LeastOrFailure (chooseNext S n bound) p) :
    LeastOrFailure (chooseNext S n bound) p ↔
      n < 2 ^ 26 ∧ bound < bsEltMax ∨ n = 2 ^ 26 ∧ ∀ x, ¬ p x := by
  obtain hlt | rfl := Nat.lt_or_eq_of_le hn
  · rw [or_iff_left fun h => absurd h.1 hlt.ne]
    obtain hb | rfl := Int.lt_or_eq_of_le hmax
    · exact iff_of_true (hsmall hlt hb) ⟨hlt, hb⟩
    · rw [chooseNext_max S hlt]
      exact iff_of_false LeastOrFailure.ne_none fun h => absurd h.2 (lt_irrefl _)
  · rw [chooseNext_full, leastOrFailure_failure, or_iff_right fun h => absurd h.1 (lt_irrefl _)]
    exact ⟨fun h => ⟨rfl, h⟩, fun h => h.2⟩

/-- The loop over the largest set stops after the first member. -/
theorem enumerated_full_iff (hn : set.length = 2 ^ 26) :
    Enumerated set ↔ ∀ x y, bsMemberP set x = true → bsMemberP set y = true → x = y := by
  have hnext : ∀ b, bsChooseNext set b = some chooseFailure := fun b => by
    rw [bsChooseNext, hn, chooseNext_full]
  obtain ⟨z, hz, hmem, hleast⟩ | ⟨hz, hnone⟩ := bsChoose_least set
  · have hne : (z : Int) ≠ chooseFailure := by rw [chooseFailure]; omega
    have hrun : ∀ fuel, elements set fuel = if fuel < 2 then none else some [(z : Int)] := by
      intro fuel
      rcases fuel with _ | _ | fuel
      · simp only [elements, hz, Option.bind_eq_bind, Option.bind_some, elementsFrom]
        rfl
      · simp only [elements, hz, Option.bind_eq_bind, Option.bind_some, elementsFrom, if_neg hne,
          hnext, Option.bind_none]
        rfl
      · simp only [elements, hz, Option.bind_eq_bind, Option.bind_some, elementsFrom, if_neg hne,
          hnext, if_true]
        rfl
    constructor
    · rintro ⟨fuel, l, heq, -, hl⟩ x y hx hy
      rw [hrun] at heq
      split at heq
      · cases heq
      · have hone : l = [z] := by
          have hmap := Option.some.inj heq
          rcases l with _ | ⟨w, _ | ⟨_, _⟩⟩
          · cases hmap
          · have := List.head_eq_of_cons_eq hmap
            rw [Int.ofNat_inj.mp this]
          · cases (List.cons.inj hmap).2
        rw [← hl x, hone, List.mem_singleton] at hx
        rw [← hl y, hone, List.mem_singleton] at hy
        rw [hx, hy]
    · intro hall
      refine ⟨2, [z], hrun 2, List.pairwise_singleton _ _, fun x => ?_⟩
      rw [List.mem_singleton]
      exact ⟨fun h => h ▸ hmem, fun h => hall x z h hmem⟩
  · refine iff_of_true ⟨1, [], by simp only [elements, hz]; rfl, .nil, fun x =>
      iff_of_false List.not_mem_nil (hnone x)⟩ fun x _ hx => absurd hx (hnone x)

/-- When the searches give the least member, and the loop every member once
and in order. A set of `2^26` words, the largest there is, has more bits than
a `BS_ELT` can count, and a bound of `INT32_MAX` has no successor. -/
theorem chooses_iff (set : BS) (hsize : set.length ≤ 2 ^ 26) :
    (∀ low high : Int, 0 ≤ low → low ≤ high + 1 → RangeRight set low high) ∧
    (∀ bound : Int, -1 ≤ bound → bound ≤ bsEltMax → (NextRight set bound ↔
      set.length < 2 ^ 26 ∧ bound < bsEltMax ∨
      set.length = 2 ^ 26 ∧ ∀ x, ¬ (bsMemberP set x = true ∧ bound < x))) ∧
    (∀ (set2 : BS) (bound : Int), -1 ≤ bound → bound ≤ bsEltMax → (InterRight set set2 bound ↔
      min set.length set2.length < 2 ^ 26 ∧ bound < bsEltMax ∨ min set.length set2.length = 2 ^ 26 ∧
        ∀ x, ¬ ((bsMemberP set x = true ∧ bsMemberP set2 x = true) ∧ bound < x))) ∧
    (Enumerated set ↔ set.length < 2 ^ 26 ∨
      ∀ x y, bsMemberP set x = true → bsMemberP set y = true → x = y) := by
  refine ⟨fun _ _ hlow _ => bsChooseRange_least hsize hlow, fun bound hb hmax => ?_,
    fun set2 bound hb hmax => ?_, ?_⟩
  · exact chooseNext_right_iff _ hsize hmax fun hlt hlast => bsChooseNext_least hlt hb hlast
  · have hleast : min set.length set2.length < 2 ^ 26 → bound < bsEltMax →
        InterRight set set2 bound := fun hlt hlast => bsIntersectionChooseNext_least hlt hb hlast
    unfold InterRight bsIntersectionChooseNext at hleast ⊢
    rw [interWords] at hleast ⊢
    exact chooseNext_right_iff _ (by omega) hmax hleast
  · obtain hlt | heq := Nat.lt_or_eq_of_le hsize
    · exact iff_of_true (elements_spec hlt) (.inl hlt)
    · rw [or_iff_right (by omega), enumerated_full_iff heq]

theorem chooses_iff_five : RangeRight [5] 1 40 ∧ NextRight [5] 0 ∧ InterRight [5] [4, 1] 0 ∧
    ¬ NextRight [5] bsEltMax ∧ Enumerated [5] := by
  obtain ⟨hrange, hnext, hinter, henum⟩ := chooses_iff [5] (by decide)
  exact ⟨hrange 1 40 (by decide) (by decide),
    (hnext 0 (by decide) (by decide)).mpr (.inl (by decide)),
    (hinter [4, 1] 0 (by decide) (by decide)).mpr (.inl (by decide)),
    fun h => by
      rcases (hnext bsEltMax (by decide) (by decide)).mp h with ⟨-, hlt⟩ | ⟨hlen, -⟩
      · exact absurd hlt (by decide)
      · exact absurd hlen (by decide),
    henum.mpr (.inl (by decide))⟩

example : (bsChooseRange [5, 0, 8] 3 80, bsChooseNext [5, 0, 8] 67) = (some 67, some (-1)) := rfl

/-- The largest set, with the first bit of each word set: its members are not found. -/
theorem not_chooses_largest :
    (¬ ∀ set : BS, set.length ≤ 2 ^ 26 → ∀ bound, -1 ≤ bound → bound < bsEltMax →
      NextRight set bound) ∧
    ¬ ∀ set : BS, set.length ≤ 2 ^ 26 → Enumerated set := by
  have hlen : (List.replicate (2 ^ 26) (1 : BsWord)).length = 2 ^ 26 := List.length_replicate
  have hmem : ∀ i < 2 ^ 26, bsMemberP (List.replicate (2 ^ 26) (1 : BsWord)) (32 * i) = true := by
    intro i hi
    have hword : 32 * i / 32 = i := by omega
    have hbit : 32 * i % 32 = 0 := by omega
    rw [bsMemberP, dif_pos (by rw [hlen]; omega), List.getElem_replicate]
    simp only [hbit]
    decide
  constructor
  · intro h
    have hright := h _ hlen.le (-1) (by decide) (by decide)
    unfold NextRight at hright
    rw [bsChooseNext, hlen, chooseNext_full, leastOrFailure_failure] at hright
    exact hright 0 ⟨hmem 0 (by decide), by omega⟩
  · intro h
    have hsame := (enumerated_full_iff hlen).mp (h _ hlen.le) 0 32 (hmem 0 (by decide))
      (hmem 1 (by decide))
    exact absurd hsame (by decide)

theorem LeastOrFailure.unique {r r' : Option Int} {p : Nat → Prop} (h : LeastOrFailure r p)
    (h' : LeastOrFailure r' p) : r = r' := by
  rcases h with ⟨x, rfl, hx, hmin⟩ | ⟨rfl, hnone⟩
  · rcases h' with ⟨y, rfl, hy, hmin'⟩ | ⟨-, hnone⟩
    · rw [Nat.le_antisymm (hmin y hy) (hmin' x hx)]
    · exact absurd hx (hnone x)
  · rcases h' with ⟨y, -, hy, -⟩ | ⟨rfl, -⟩
    · exact absurd hy (hnone y)
    · rfl

/-- Searching two sets at once is searching their intersection, however that was made. -/
theorem intersectionChooseNext_eq {s1 s2 t : BS} {bound : Int} (h : min s1.length s2.length < 2 ^ 26)
    (ht : t.length < 2 ^ 26) (hmem : ∀ x, bsMemberP t x = (bsMemberP s1 x && bsMemberP s2 x)) :
    bsIntersectionChooseNext s1 s2 bound = bsChooseNext t bound := by
  -- only the bound as it is counted up matters
  have hmax : bsElt (bound + 1) ≤ bsEltMax :=
    Int.le_sub_one_of_lt (BitVec.toInt_lt (x := .ofInt 32 (bound + 1)))
  have hwrap : ∀ (S : Source) (n : Nat), chooseNext S n bound =
      chooseNext S n (bsElt (bound + 1) - 1) := fun S n => by
    have htwice : bsElt (bsElt (bound + 1) - 1 + 1) = bsElt (bound + 1) := by
      rw [sub_add_cancel]
      exact bsElt_eq (BitVec.le_toInt _) hmax
    unfold chooseNext
    rw [htwice]
  rw [bsIntersectionChooseNext, bsChooseNext, hwrap, hwrap (.ofSet t)]
  by_cases hneg : bsElt (bound + 1) < 0
  · have hnone : ∀ (S : Source) {n : Nat}, n < 2 ^ 26 →
        chooseNext S n (bsElt (bound + 1) - 1) = none := fun S n hn => by
      rw [← hwrap]
      unfold chooseNext
      simp only [bsPBPW_eq hn]
      rw [if_neg (by omega), if_pos hneg]
    rw [hnone _ (by rw [interWords]; exact h), hnone _ ht]
  · have hnext : NextRight t (bsElt (bound + 1) - 1) :=
      bsChooseNext_least ht (by omega) (by omega)
    unfold NextRight at hnext
    simp only [hmem, Bool.and_eq_true] at hnext
    exact (bsIntersectionChooseNext_least h (by omega) (by omega)).unique hnext

theorem intersectionChooseNext_eq_two :
    bsIntersectionChooseNext [5] [6, 1] 0 = bsChooseNext [4] 0 := by
  refine intersectionChooseNext_eq (by decide) (by decide) fun x => ?_
  by_cases hx : x < 32
  · exact (by decide : ∀ x < 32, bsMemberP [4] x = (bsMemberP [5] x && bsMemberP [6, 1] x)) x hx
  · have hfalse : ∀ w : BsWord, bsMemberP [w] x = false := fun w =>
      dif_neg (show ¬ x / 32 < 1 by omega)
    rw [hfalse, hfalse, Bool.false_and]

end BitSet
