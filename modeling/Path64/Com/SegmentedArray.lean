import Path64.Lib.ByteMem
import Mathlib.Tactic.Ring

/-! # Segmented arrays

`common/com/segmented_array.h`: the map has a slot for every `block_size`
elements; a larger block has several slots, and neighbouring slots that
happen to be physically adjacent are treated as one block. Pointers are
addresses in units of an element, and that of a new block is a parameter.
The counters are exact. -/

namespace SegmentedArray

open Nat List ByteMem

variable {α : Type}

/-! ## The array -/

/-- `SEGMENTED_ARRAY`, with the memory its pointers refer to. -/
structure State (α : Type) where
  mem : Nat → α
  map : List (Nat × Bool)
  size : Nat
  maxSize : Nat
  blockBase : Int
  nextBlockSize : Nat
  block : Nat

/-- The constructor: nothing is allocated. -/
def empty (mem : Nat → α) : State α :=
  { mem := mem, map := [], size := 0, maxSize := 0, blockBase := -1, nextBlockSize := 0, block := 0 }

/-- `map[i].first`. -/
def first (map : List (Nat × Bool)) (i : Nat) : Nat := (map.getD i (0, false)).1

variable (bs : Nat)

/-- `x & ~mask`, for the mask of the block size. -/
def clearMask (x : Nat) : Nat := x &&& (2 ^ 32 - 1 - (bs - 1))

def roundUp (s : Nat) : Nat := clearMask bs (s + (bs - 1))

/-- The loop of `Update_Map`, at most `fuel` times. -/
def updateMap (ownMemory : Bool) : Nat → Nat → Nat → List (Nat × Bool) → List (Nat × Bool)
  | 0, _, _, map => map
  | fuel + 1, marker, newSize, map =>
    let map := map ++ [(marker, ownMemory)]
    let newSize := newSize - bs
    if newSize ≠ 0 then updateMap ownMemory fuel (marker + bs) newSize map else map

/-- The size of the block `Allocate` asks for. -/
def allocSize (s : State α) : Nat := if s.nextBlockSize = 0 then bs else roundUp bs s.nextBlockSize

/-- `Allocate`, given a block at `addr`. -/
def allocate (addr : Nat) (s : State α) : State α :=
  let newSize := allocSize bs s
  { s with
    nextBlockSize := 0
    block := addr
    maxSize := s.maxSize + newSize
    blockBase := s.size
    map := updateMap bs true newSize addr newSize s.map }

/-- The address of the first unused element of the last block. -/
def endPtr (s : State α) : Nat := s.block + (s.size - s.blockBase).toNat

def copy (xs : List α) (s : State α) : State α :=
  { s with mem := store s.mem (endPtr s) xs, size := s.size + xs.length }

/-- `New_entry`: the address of the entry. -/
def newEntry (addr : Nat) (s : State α) : Nat × State α :=
  let s := if s.size = s.maxSize then allocate bs addr s else s
  (endPtr s, { s with size := s.size + 1 })

/-- `Insert` of one element. -/
def insert (addr : Nat) (x : α) (s : State α) : State α :=
  let r := newEntry bs addr s
  { r.2 with mem := store r.2.mem r.1 [x] }

def reserve (n : Nat) (s : State α) : State α :=
  if s.maxSize - s.size + s.nextBlockSize < n then
    { s with nextBlockSize := n - (s.maxSize - s.size) }
  else s

/-- `Insert` of several elements. -/
def insertAll (addr : Nat) (xs : List α) (s : State α) : State α :=
  if s.size + xs.length ≤ s.maxSize then copy xs s
  else
    let spaceLeft := s.maxSize - s.size
    let s := copy (xs.take spaceLeft) s
    let xs := xs.drop spaceLeft
    let s := reserve xs.length s
    copy xs (allocate bs addr s)

/-- The part of `Transfer` that adopts whole blocks of the buffer. -/
def adopt (x n : Nat) (s : State α) : State α :=
  let reusedSize := clearMask bs n
  { s with
    block := x
    map := updateMap bs false reusedSize x reusedSize s.map
    blockBase := s.size
    size := s.size + reusedSize
    maxSize := s.maxSize + reusedSize
    nextBlockSize :=
      if s.nextBlockSize > reusedSize then s.nextBlockSize - reusedSize else 0 }

/-- The steps of `Transfer` before it allocates: the state, and what is left of the buffer. -/
def transferFront (x n : Nat) (s : State α) : State α × Nat × Nat :=
  let spaceLeft := s.maxSize - s.size
  let s := copy (load s.mem x spaceLeft) s
  let n := n - spaceLeft
  let x := x + spaceLeft
  if bs ≤ n then
    let reusedSize := clearMask bs n
    (adopt bs x n s, x + reusedSize, n - reusedSize)
  else (s, x, n)

/-- `Transfer` of the `n` elements at `x`. -/
def transfer (addr x n : Nat) (s : State α) : State α :=
  if s.size + n ≤ s.maxSize then copy (load s.mem x n) s
  else
    let r := transferFront bs x n s
    if 0 < r.2.2 then
      let s := allocate bs addr r.1
      copy (load s.mem r.2.1 r.2.2) s
    else r.1

/-- The loop of `Pop_Map` that drops the slots of the last block. -/
def popTo (block : Nat) : List (Nat × Bool) → List (Nat × Bool)
  | [] => []
  | e :: rest => if e.1 = block then rest else popTo block rest

/-- The loop of `Pop_Map` that finds where the last block begins. -/
def walkBack (map : List (Nat × Bool)) : Nat → Nat → Int → Nat × Int
  | 0, block, blockBase => (block, blockBase)
  | idx + 1, block, blockBase =>
    if first map idx + bs = block then walkBack map idx (first map idx) (blockBase - bs)
    else (block, blockBase)

/-- `Pop_Map`. `MEM_POOL_FREE` leaves no trace here: it frees the block whoever owns it, also one
that `Transfer` has adopted. -/
def popMap (s : State α) : State α :=
  let map := (popTo s.block s.map.reverse).reverse
  let s := { s with
    nextBlockSize := s.nextBlockSize + (s.maxSize - s.blockBase).toNat
    map := map
    maxSize := s.size }
  if 0 < s.size then
    let blockBase : Int := s.size - bs
    let idx := blockBase.toNat / bs
    let r := walkBack bs map idx (first map idx) blockBase
    { s with block := r.1, blockBase := r.2 }
  else { s with block := 0, blockBase := -1 }

def deleteLast (s : State α) : State α :=
  let s := { s with size := s.size - 1 }
  if (s.size : Int) = s.blockBase then popMap bs s else s

/-- The loop of `Delete_last(n)`. -/
def deleteLoop : Nat → Nat → State α → State α
  | 0, _, s => s
  | fuel + 1, n, s =>
    if (s.size : Int) - s.blockBase ≤ n then
      deleteLoop fuel (n - (s.size - s.blockBase).toNat)
        (popMap bs { s with size := s.blockBase.toNat })
    else { s with size := s.size - n }

/-- `Delete_last(n)`: every turn of the loop drops a slot of the map. -/
def deleteLastN (n : Nat) (s : State α) : State α := deleteLoop bs (s.map.length + 1) n s

def deleteDownTo (idx : Nat) (s : State α) : State α :=
  if idx < s.size then deleteLastN bs (s.size - idx) s else s

/-! ## Reading the array -/

/-- The address of `Entry(idx)`. -/
def entryPtr (s : State α) (idx : Nat) : Nat := first s.map (idx / bs) + idx % bs

/-- `Entry(idx)`. -/
def entry (s : State α) (idx : Nat) : α := s.mem (entryPtr bs s idx)

def nextBlockIdx (map : List (Nat × Bool)) : Nat → Nat → Nat
  | 0, idx => idx + 1
  | fuel + 1, idx =>
    if idx + 1 < map.length ∧ first map idx + bs = first map (idx + 1) then
      nextBlockIdx map fuel (idx + 1)
    else idx + 1

def blockEnd (s : State α) (idx : Nat) : Nat :=
  first s.map idx + (nextBlockIdx bs s.map s.map.length idx - idx) * bs

/-- `SEGMENTED_ARRAY_ITERATOR`. -/
structure Iter where
  ptr : Nat
  segmentLast : Nat
  mapIdx : Nat

def begin (s : State α) : Iter :=
  { ptr := first s.map 0, segmentLast := blockEnd bs s 0, mapIdx := 0 }

/-- `operator ++`. -/
def Iter.next (s : State α) (it : Iter) : Iter :=
  let it := { it with ptr := it.ptr + 1 }
  if it.ptr = it.segmentLast then
    let mapEntries := (it.segmentLast - first s.map it.mapIdx) / bs
    if it.mapIdx + mapEntries < s.map.length then
      { ptr := first s.map (it.mapIdx + mapEntries)
        segmentLast := blockEnd bs s (it.mapIdx + mapEntries)
        mapIdx := it.mapIdx + mapEntries }
    else it
  else it

/-- The elements visited from an iterator up to `end()`, whose pointer is `endPtr`. -/
def iterate (s : State α) : Nat → Iter → Option (List Nat)
  | 0, _ => none
  | fuel + 1, it =>
    if it.ptr = endPtr s then some []
    else (iterate s fuel (it.next bs s)).map (it.ptr :: ·)

def getBlockSize (s : State α) (idx : Nat) : Nat :=
  min (nextBlockIdx bs s.map s.map.length (idx / bs) * bs) s.size - idx

/-- `For_all_entries`: the calls of `op`, with the index and the pointer. -/
def forAllEntries (s : State α) : Nat → Nat → Option (List (Nat × Nat))
  | 0, _ => none
  | fuel + 1, fst =>
    if fst < s.size then
      let block := entryPtr bs s fst
      let size := getBlockSize bs s fst
      (forAllEntries s fuel (fst + size)).map
        ((range size).map (fun j => (fst + j, block + j)) ++ ·)
    else some []

/-! ## Slots -/

variable {map' : List (Nat × Bool)} {i b c j x n g : Nat} {s' : State α} {xs : List α}

theorem first_append_left {map : List (Nat × Bool)} (h : i < map.length) :
    first (map ++ map') i = first map i := by
  simp [first, getD_eq_getElem?_getD, getElem?_append_left h]

theorem first_append_right {map : List (Nat × Bool)} (h : map.length ≤ i) :
    first (map ++ map') i = first map' (i - map.length) := by
  simp [first, getD_eq_getElem?_getD, getElem?_append_right h]

theorem first_take {map : List (Nat × Bool)} (h : i < b) :
    first (map.take b) i = first map i := by
  simp [first, getD_eq_getElem?_getD, getElem?_take_of_lt h]

/-- The slots of one block of `c` block sizes at `addr`. -/
def blockSlots (bs addr c : Nat) (own : Bool) : List (Nat × Bool) :=
  (range c).map fun j => (addr + j * bs, own)

theorem first_blockSlots {bs addr : Nat} {own : Bool} (h : j < c) :
    first (blockSlots bs addr c own) j = addr + j * bs := by
  simp [first, blockSlots, getD_eq_getElem?_getD, h]

section sizes
variable {bs k : Nat}

theorem clearMask_eq (hbs : bs = 2 ^ k) (hk : k < 32) (hx : x < 2 ^ 32) :
    clearMask bs x = x / bs * bs := by
  have hpos : 0 < bs := by rw [hbs]; exact Nat.two_pow_pos k
  have hsplit : 2 ^ 32 = bs * 2 ^ (32 - k) := by
    rw [hbs, ← pow_add]
    congr 1
    omega
  have hmask : 2 ^ 32 - 1 - (bs - 1) = (2 ^ (32 - k) - 1) <<< k := by
    rw [Nat.shiftLeft_eq, Nat.sub_mul, Nat.one_mul, Nat.mul_comm, ← hbs, ← hsplit]
    omega
  unfold clearMask
  rw [hmask]
  apply eq_of_testBit_eq
  intro i
  rw [testBit_and, testBit_shiftLeft, testBit_two_pow_sub_one, hbs,
    ← shiftRight_eq_div_pow, ← shiftLeft_eq, testBit_shiftLeft, testBit_shiftRight]
  by_cases hi : k ≤ i
  · by_cases hi32 : i < 32
    · simp [hi, show i - k < 32 - k by omega, show k + (i - k) = i by omega]
    · have hzero : x.testBit i = false := by
        apply testBit_lt_two_pow
        calc x < 2 ^ 32 := hx
          _ ≤ 2 ^ i := Nat.pow_le_pow_right (by omega) (by omega)
      simp [hi, hzero, show k + (i - k) = i by omega]
  · simp [hi]

theorem updateMap_eq {own : Bool} (hpos : 0 < bs) (c : Nat) : ∀ (fuel marker : Nat)
    (map : List (Nat × Bool)), c < fuel →
    updateMap bs own fuel marker ((c + 1) * bs) map = map ++ blockSlots bs marker (c + 1) own := by
  induction c with
  | zero =>
    intro fuel marker map hfuel
    obtain ⟨fuel, rfl⟩ := exists_eq_succ_of_ne_zero (show fuel ≠ 0 by omega)
    simp [updateMap, blockSlots]
  | succ c ih =>
    intro fuel marker map hfuel
    obtain ⟨fuel, rfl⟩ := exists_eq_succ_of_ne_zero (show fuel ≠ 0 by omega)
    have hrest : (c + 1 + 1) * bs - bs = (c + 1) * bs := by
      rw [Nat.add_mul (c + 1) 1 bs, Nat.one_mul, Nat.add_sub_cancel]
    have hne : (c + 1) * bs ≠ 0 := Nat.mul_ne_zero (by omega) (by omega)
    unfold updateMap
    rw [hrest, if_pos hne, ih fuel (marker + bs) _ (by omega), append_assoc]
    congr 1
    unfold blockSlots
    rw [range_succ_eq_map (n := c + 1)]
    simp only [map_cons, map_map, singleton_append, zero_mul, add_zero]
    congr 1
    apply map_congr_left
    intro j _
    simp only [Function.comp, succ_eq_add_one, Prod.mk.injEq, and_true]
    ring

/-- The block asked for is a positive number of block sizes and holds what was reserved. -/
theorem allocSize_eq (hbs : bs = 2 ^ k) (hk : k < 32) {s : State α}
    (hfits : s.nextBlockSize + bs ≤ 2 ^ 32) :
    ∃ c, allocSize bs s = (c + 1) * bs ∧ s.nextBlockSize ≤ (c + 1) * bs := by
  have hpos : 0 < bs := by rw [hbs]; exact Nat.two_pow_pos k
  unfold allocSize
  by_cases h0 : s.nextBlockSize = 0
  · rw [if_pos h0, h0]
    exact ⟨0, by omega, zero_le _⟩
  · rw [if_neg h0]
    unfold roundUp
    rw [clearMask_eq hbs hk (by omega)]
    have hdiv : 1 ≤ (s.nextBlockSize + (bs - 1)) / bs := by
      rw [le_div_iff_mul_le hpos]
      omega
    obtain ⟨c, hc⟩ := exists_eq_succ_of_ne_zero (show (s.nextBlockSize + (bs - 1)) / bs ≠ 0 by omega)
    refine ⟨c, by rw [hc], ?_⟩
    have hmod := div_add_mod (s.nextBlockSize + (bs - 1)) bs
    have hlt := mod_lt (s.nextBlockSize + (bs - 1)) hpos
    rw [hc, mul_comm, succ_eq_add_one] at hmod
    omega

end sizes

/-! ## What holds of a state -/

section invariant
variable {bs : Nat} {s : State α} {l : List α}

/-- The entries of the array are the elements of the list, in disjoint slots. -/
structure Core (bs : Nat) (s : State α) (l : List α) : Prop where
  size_eq : s.size = l.length
  size_le : s.size ≤ s.maxSize
  map_len : s.map.length * bs = s.maxSize
  apart : ∀ i j, i < j → j < s.map.length →
    first s.map i + bs ≤ first s.map j ∨ first s.map j + bs ≤ first s.map i
  elems : ∀ i (h : i < l.length), entry bs s i = l[i]

/-- The last block begins at slot `b` and goes to the end of the map. -/
structure LastAt (bs : Nat) (s : State α) (b : Nat) : Prop where
  base : s.blockBase = (b * bs : Nat)
  base_le : b * bs ≤ s.size
  lt : b < s.map.length
  run : ∀ j, b ≤ j → j < s.map.length → first s.map j = s.block + (j - b) * bs

/-- Nothing is allocated. -/
structure NoBlock (s : State α) : Prop where
  size : s.size = 0
  map : s.map = []
  base : s.blockBase = -1

/-- The state between two operations: the last block is not empty. -/
def Inv (bs : Nat) (s : State α) (l : List α) : Prop :=
  Core bs s l ∧ (NoBlock s ∨ ∃ b, LastAt bs s b ∧ b * bs < s.size)

theorem inv_empty (bs : Nat) (mem : Nat → α) : Inv bs (empty mem) [] := by
  refine ⟨⟨rfl, le_refl _, by simp [empty], ?_, ?_⟩, ?_⟩
  · intro i j _ h
    cases h
  · intro i h
    cases h
  · exact .inl ⟨rfl, rfl, rfl⟩

theorem div_lt_of_lt (h : i < c * bs) : i / bs < c :=
  Nat.div_lt_of_lt_mul (by rwa [Nat.mul_comm] at h)

theorem Core.entryPtr_inj (h : Core bs s l) (hpos : 0 < bs) (hi : i < s.maxSize)
    (hj : j < s.maxSize) (heq : entryPtr bs s i = entryPtr bs s j) : i = j := by
  rw [← h.map_len] at hi hj
  have hi' := div_lt_of_lt hi
  have hj' := div_lt_of_lt hj
  have hmi := mod_lt i hpos
  have hmj := mod_lt j hpos
  unfold entryPtr at heq
  rcases lt_trichotomy (i / bs) (j / bs) with hlt | hsame | hlt
  · rcases h.apart _ _ hlt hj' with ha | ha <;> omega
  · rw [hsame] at heq
    rw [← div_add_mod i bs, ← div_add_mod j bs, hsame]
    omega
  · rcases h.apart _ _ hlt hi' with ha | ha <;> omega

theorem LastAt.entryPtr_eq (hlast : LastAt bs s b) (hlen : s.map.length * bs = s.maxSize)
    (hpos : 0 < bs) (hlo : b * bs ≤ i) (hi : i < s.maxSize) :
    entryPtr bs s i = s.block + (i - b * bs) := by
  rw [← hlen] at hi
  have hb : b ≤ i / bs := (le_div_iff_mul_le hpos).mpr hlo
  unfold entryPtr
  rw [hlast.run _ hb (div_lt_of_lt hi), Nat.sub_mul]
  have hdiv := Nat.div_add_mod i bs
  have hle : b * bs ≤ i / bs * bs := mul_le_mul_right bs hb
  rw [mul_comm] at hdiv
  omega

theorem LastAt.endPtr_eq (hlast : LastAt bs s b) : endPtr s = s.block + (s.size - b * bs) := by
  unfold endPtr
  rw [hlast.base]
  omega

theorem entryPtr_congr (hi : i < c * bs)
    (hsame : ∀ j, j < c → first s'.map j = first s.map j) : entryPtr bs s' i = entryPtr bs s i := by
  unfold entryPtr
  rw [hsame _ (div_lt_of_lt hi)]

/-! ## Copying and allocating -/

theorem copy_nil (s : State α) : copy [] s = s := by
  simp [copy]

/-- Copying elements into the room that is left appends them. -/
theorem copy_spec (xs : List α) (h : Core bs s l) (hlast : LastAt bs s b) (hpos : 0 < bs)
    (hroom : s.size + xs.length ≤ s.maxSize) :
    Core bs (copy xs s) (l ++ xs) ∧ LastAt bs (copy xs s) b := by
  have hbase := hlast.base_le
  have hsize := h.size_eq
  refine ⟨⟨?_, hroom, h.map_len, h.apart, ?_⟩, ⟨hlast.base, ?_, hlast.lt, hlast.run⟩⟩
  · simp only [copy, length_append, hsize]
  · intro i hi
    rw [length_append] at hi
    have hptr : entryPtr bs (copy xs s) i = entryPtr bs s i := rfl
    simp only [entry, hptr]
    simp only [copy]
    by_cases hil : i < l.length
    · -- an old entry lies outside the cells written
      have hold := h.elems i hil
      rw [getElem_append_left hil, ← hold]
      apply store_outside
      by_contra hin
      have hidx : ∃ d, d < xs.length ∧ entryPtr bs s i = endPtr s + d :=
        ⟨entryPtr bs s i - endPtr s, by omega, by omega⟩
      obtain ⟨d, hd, heq⟩ := hidx
      have hnew := hlast.entryPtr_eq h.map_len hpos (i := s.size + d) (by omega) (by omega)
      rw [hlast.endPtr_eq] at heq
      have := h.entryPtr_inj hpos (i := i) (j := s.size + d) (by omega) (by omega)
        (by rw [heq, hnew]; omega)
      omega
    · have hnew := hlast.entryPtr_eq h.map_len hpos (i := i) (by omega) (by omega)
      rw [getElem_append_right (by omega), hnew, hlast.endPtr_eq]
      rw [store_inside (by omega) (by omega)]
      congr 1
      omega
  · simp only [copy]
    omega

/-- The cells from `addr` on are in none of the slots. -/
def Placed (bs : Nat) (s : State α) (addr n : Nat) : Prop :=
  ∀ j, j < s.map.length → addr + n ≤ first s.map j ∨ first s.map j + bs ≤ addr

/-- A new block after a full array: the map gets one slot for each block size of it, and the
elements stay. -/
theorem appendBlock_spec (s' : State α) {addr : Nat} {own : Bool} (h : Core bs s l)
    (hfull : s.size = s.maxSize) (hplaced : Placed bs s addr ((c + 1) * bs))
    (hmem : s'.mem = s.mem) (hmap : s'.map = s.map ++ blockSlots bs addr (c + 1) own)
    (hsize : s'.size = s.size) (hmax : s'.maxSize = s.maxSize + (c + 1) * bs)
    (hbase : s'.blockBase = s.size) (hblock : s'.block = addr) :
    Core bs s' l ∧ LastAt bs s' s.map.length := by
  have hlen := h.map_len
  have hslots : (blockSlots bs addr (c + 1) own).length = c + 1 := by simp [blockSlots]
  have hnew : ∀ j, j < c + 1 → first s'.map (s.map.length + j) = addr + j * bs := by
    intro j hj
    rw [hmap, first_append_right (by omega), show s.map.length + j - s.map.length = j by omega,
      first_blockSlots hj]
  have hold : ∀ j, j < s.map.length → first s'.map j = first s.map j := by
    intro j hj
    rw [hmap, first_append_left hj]
  have hlen' : s'.map.length = s.map.length + (c + 1) := by
    rw [hmap, length_append, hslots]
  constructor
  · refine ⟨hsize.trans h.size_eq, by omega, ?_, ?_, ?_⟩
    · rw [hlen', hmax, add_mul, hlen]
    · intro i j hij hj
      rw [hlen'] at hj
      by_cases hj' : j < s.map.length
      · rw [hold i (by omega), hold j hj']
        exact h.apart i j hij hj'
      · obtain ⟨d, rfl⟩ := Nat.exists_eq_add_of_le (Nat.le_of_not_lt hj')
        have hd : (d + 1) * bs ≤ (c + 1) * bs := Nat.mul_le_mul_right bs (by omega)
        rw [add_mul, one_mul] at hd
        rw [hnew d (by omega)]
        by_cases hi : i < s.map.length
        · rw [hold i hi]
          rcases hplaced i hi with hp | hp <;> omega
        · obtain ⟨e, rfl⟩ := Nat.exists_eq_add_of_le (Nat.le_of_not_lt hi)
          have he : (e + 1) * bs ≤ d * bs := Nat.mul_le_mul_right bs (by omega)
          rw [Nat.add_mul, Nat.one_mul] at he
          rw [hnew e (by omega)]
          omega
    · intro i hi
      have hi' : i < s.map.length * bs := by
        rw [hlen, ← hfull, h.size_eq]
        exact hi
      have hold' := h.elems i hi
      unfold entry at hold' ⊢
      rw [entryPtr_congr hi' hold, hmem, hold']
  · refine ⟨?_, ?_, by omega, ?_⟩
    · rw [hbase, hlen, hfull]
    · rw [hsize, hlen, hfull]
    · intro j hlo hj
      obtain ⟨d, rfl⟩ := Nat.exists_eq_add_of_le hlo
      rw [hblock, hnew d (by omega), show s.map.length + d - s.map.length = d by omega]

theorem allocate_spec {k addr : Nat} (hbs : bs = 2 ^ k) (hk : k < 32) (h : Core bs s l)
    (hfull : s.size = s.maxSize) (hfits : s.nextBlockSize + bs ≤ 2 ^ 32)
    (hplaced : Placed bs s addr (allocSize bs s)) :
    Core bs (allocate bs addr s) l ∧ LastAt bs (allocate bs addr s) s.map.length ∧
      s.maxSize + bs ≤ (allocate bs addr s).maxSize ∧
      s.maxSize + s.nextBlockSize ≤ (allocate bs addr s).maxSize := by
  have hpos : 0 < bs := by rw [hbs]; exact Nat.two_pow_pos k
  obtain ⟨c, hc, hle⟩ := allocSize_eq hbs hk hfits
  rw [hc] at hplaced
  have hmap : (allocate bs addr s).map = s.map ++ blockSlots bs addr (c + 1) true := by
    simp only [allocate, hc]
    refine updateMap_eq hpos c _ addr s.map ?_
    have : (c + 1) * 1 ≤ (c + 1) * bs := mul_le_mul_left _ hpos
    omega
  obtain ⟨hcore, hlast⟩ := appendBlock_spec (allocate bs addr s) h hfull hplaced rfl hmap
    rfl (by simp only [allocate, hc]) rfl rfl
  refine ⟨hcore, hlast, ?_, ?_⟩
  · simp only [allocate, hc]
    have : 1 * bs ≤ (c + 1) * bs := mul_le_mul_right bs (by omega)
    omega
  · simp only [allocate, hc]
    omega

end invariant


/-! ## The operations that add elements -/

section adding
variable {bs k : Nat} {s : State α} {l : List α}

/-- A block for the array: outside its slots, and the rounding of its size fits. -/
structure CanAllocate (bs : Nat) (s : State α) (addr : Nat) : Prop where
  fits : s.nextBlockSize + bs ≤ 2 ^ 32
  placed : Placed bs s addr (allocSize bs s)

theorem grow_spec {addr : Nat} (hbs : bs = 2 ^ k) (hk : k < 32) (h : Inv bs s l)
    (hs' : s' = if s.size = s.maxSize then allocate bs addr s else s)
    (halloc : s.size = s.maxSize → CanAllocate bs s addr) (x : α) :
    Inv bs (copy [x] s') (l ++ [x]) := by
  have hpos : 0 < bs := by rw [hbs]; exact Nat.two_pow_pos k
  obtain ⟨hcore, hblock⟩ := h
  have hle := hcore.size_le
  -- both ways there is a last block with room for one more
  have hroom : ∃ b, Core bs s' l ∧ LastAt bs s' b ∧ s'.size + 1 ≤ s'.maxSize := by
    by_cases hfull : s.size = s.maxSize
    · rw [if_pos hfull] at hs'
      have hcan := halloc hfull
      obtain ⟨hcore', hlast', hmax, _⟩ := allocate_spec hbs hk hcore hfull hcan.fits hcan.placed
      have hsame : (allocate bs addr s).size = s.size := rfl
      rw [hs']
      exact ⟨s.map.length, hcore', hlast', by omega⟩
    · rw [if_neg hfull] at hs'
      rw [hs']
      rcases hblock with hno | ⟨b, hlast, _⟩
      · have hsize := hno.size
        have hlen := hcore.map_len
        rw [hno.map] at hlen
        simp only [length_nil, zero_mul] at hlen
        omega
      · exact ⟨b, hcore, hlast, by omega⟩
  obtain ⟨b, hcore', hlast', hroom'⟩ := hroom
  obtain ⟨hcore'', hlast''⟩ := copy_spec (l := l) (s := s') [x] hcore' hlast' hpos hroom'
  refine ⟨hcore'', .inr ⟨b, hlast'', ?_⟩⟩
  have hbase := hlast'.base_le
  simp only [copy, length_singleton]
  omega

theorem insert_spec {addr : Nat} (x : α) (hbs : bs = 2 ^ k) (hk : k < 32) (h : Inv bs s l)
    (halloc : s.size = s.maxSize → CanAllocate bs s addr) : Inv bs (insert bs addr x s) (l ++ [x]):=
  grow_spec hbs hk h rfl halloc x

theorem newEntry_spec {addr : Nat} (hbs : bs = 2 ^ k) (hk : k < 32) (h : Inv bs s l)
    (halloc : s.size = s.maxSize → CanAllocate bs s addr) :
    Inv bs (newEntry bs addr s).2 (l ++ [s.mem (newEntry bs addr s).1]) := by
  have hgrow := grow_spec hbs hk h rfl halloc (s.mem (newEntry bs addr s).1)
  have hmem : (if s.size = s.maxSize then allocate bs addr s else s).mem = s.mem := by
    split <;> rfl
  have hsame : copy [s.mem (newEntry bs addr s).1]
      (if s.size = s.maxSize then allocate bs addr s else s) = (newEntry bs addr s).2 := by
    have hload : ∀ (m : Nat → α) p, [m p] = load m p 1 := by
      intro m p
      simp [load]
    simp only [copy, newEntry, hmem, length_singleton]
    rw [hload, store_load]
  rw [hsame] at hgrow
  exact hgrow

theorem assign_spec (x : α) (hpos : 0 < bs) (h : Inv bs s l) (hi : i < s.size) :
    Inv bs { s with mem := store s.mem (entryPtr bs s i) [x] } (l.set i x) := by
  obtain ⟨hcore, hblock⟩ := h
  have hsize := hcore.size_eq
  have hle := hcore.size_le
  refine ⟨⟨by rw [length_set]; exact hsize, hle, hcore.map_len, hcore.apart, ?_⟩, ?_⟩
  · intro j hj
    rw [length_set] at hj
    change store s.mem (entryPtr bs s i) [x] (entryPtr bs s j) = _
    by_cases hij : i = j
    · subst hij
      rw [getElem_set_self, store_inside (le_refl _) (by simp)]
      simp
    · have hne : entryPtr bs s j ≠ entryPtr bs s i := by
        intro heq
        exact hij (hcore.entryPtr_inj hpos (by omega) (by omega) heq).symm
      rw [getElem_set_ne hij, ← hcore.elems j hj]
      exact store_outside (by simp only [length_singleton]; omega)
  · rcases hblock with hno | ⟨b, hlast, hlt⟩
    · exact .inl ⟨hno.size, hno.map, hno.base⟩
    · exact .inr ⟨b, ⟨hlast.base, hlast.base_le, hlast.lt, hlast.run⟩, hlt⟩

theorem copy_inv (xs : List α) (h : Inv bs s l) (hpos : 0 < bs)
    (hroom : s.size + xs.length ≤ s.maxSize) : Inv bs (copy xs s) (l ++ xs) := by
  obtain ⟨hcore, hblock⟩ := h
  rcases hblock with hno | ⟨b, hlast, hlt⟩
  · have hlen := hcore.map_len
    rw [hno.map] at hlen
    simp only [length_nil, zero_mul] at hlen
    have hnil : xs = [] := length_eq_zero_iff.mp (by omega)
    rw [hnil, copy_nil, append_nil]
    exact ⟨hcore, .inl hno⟩
  · obtain ⟨hcore', hlast'⟩ := copy_spec xs hcore hlast hpos hroom
    refine ⟨hcore', .inr ⟨b, hlast', ?_⟩⟩
    simp only [copy]
    omega

theorem allocate_copy_inv {addr : Nat} (hbs : bs = 2 ^ k) (hk : k < 32)
    (h : Core bs s l) (hfull : s.size = s.maxSize) (hcan : CanAllocate bs s addr)
    (hne : 0 < xs.length) (hroom : xs.length ≤ s.nextBlockSize ∨ xs.length ≤ bs) :
    Inv bs (copy xs (allocate bs addr s)) (l ++ xs) := by
  have hpos : 0 < bs := by rw [hbs]; exact Nat.two_pow_pos k
  obtain ⟨hcore, hlast, hmax, hnext⟩ := allocate_spec hbs hk h hfull hcan.fits hcan.placed
  have hsize : (allocate bs addr s).size = s.size := rfl
  obtain ⟨hcore', hlast'⟩ := copy_spec (l := l) (s := allocate bs addr s) xs hcore hlast
    hpos (by omega)
  refine ⟨hcore', .inr ⟨_, hlast', ?_⟩⟩
  have hbase := hlast.base_le
  simp only [copy]
  omega

theorem reserve_spec (n : Nat) (s : State α) :
    (reserve n s).mem = s.mem ∧ (reserve n s).map = s.map ∧ (reserve n s).size = s.size ∧
      (reserve n s).maxSize = s.maxSize ∧ (reserve n s).blockBase = s.blockBase ∧
      (reserve n s).block = s.block ∧ n ≤ s.maxSize - s.size + (reserve n s).nextBlockSize:= by
  unfold reserve
  split
  · refine ⟨rfl, rfl, rfl, rfl, rfl, rfl, ?_⟩
    simp only
    omega
  · exact ⟨rfl, rfl, rfl, rfl, rfl, rfl, by omega⟩

theorem reserve_inv (n : Nat) (h : Inv bs s l) : Inv bs (reserve n s) l := by
  obtain ⟨hcore, hblock⟩ := h
  unfold reserve
  split
  · refine ⟨⟨hcore.size_eq, hcore.size_le, hcore.map_len, hcore.apart, hcore.elems⟩, ?_⟩
    rcases hblock with hno | ⟨b, hlast, hlt⟩
    · exact .inl ⟨hno.size, hno.map, hno.base⟩
    · exact .inr ⟨b, ⟨hlast.base, hlast.base_le, hlast.lt, hlast.run⟩, hlt⟩
  · exact ⟨hcore, hblock⟩

/-- `Insert` of several elements, where it allocates, up to the allocation. -/
def insertFront (xs : List α) (s : State α) : State α :=
  reserve (xs.drop (s.maxSize - s.size)).length (copy (xs.take (s.maxSize - s.size)) s)

theorem insertAll_spec {addr : Nat} (hbs : bs = 2 ^ k) (hk : k < 32) (h : Inv bs s l)
    (halloc : s.maxSize < s.size + xs.length → CanAllocate bs (insertFront xs s) addr) :
    Inv bs (insertAll bs addr xs s) (l ++ xs) := by
  have hpos : 0 < bs := by rw [hbs]; exact Nat.two_pow_pos k
  have hle := h.1.size_le
  unfold insertAll
  by_cases hroom : s.size + xs.length ≤ s.maxSize
  · rw [if_pos hroom]
    exact copy_inv xs h hpos hroom
  · rw [if_neg hroom]
    have htake : (xs.take (s.maxSize - s.size)).length = s.maxSize - s.size := by
      rw [length_take]
      omega
    have hdrop : (xs.drop (s.maxSize - s.size)).length = xs.length - (s.maxSize - s.size) :=
      length_drop ..
    have hfill := reserve_inv (xs.drop (s.maxSize - s.size)).length
      (copy_inv (xs.take (s.maxSize - s.size)) h hpos (by omega))
    have hsplit : l ++ xs = (l ++ xs.take (s.maxSize - s.size)) ++ xs.drop (s.maxSize - s.size) := by
      rw [append_assoc, take_append_drop]
    obtain ⟨_, _, hsize, hmax, _, _, henough⟩ := reserve_spec
      (xs.drop (s.maxSize - s.size)).length (copy (xs.take (s.maxSize - s.size)) s)
    have hfull : (copy (xs.take (s.maxSize - s.size)) s).size = s.maxSize := by
      simp only [copy, htake]
      omega
    have hsame : (copy (xs.take (s.maxSize - s.size)) s).maxSize = s.maxSize := rfl
    rw [hsplit]
    refine allocate_copy_inv hbs hk hfill.1 ?_ (halloc (by omega)) (by omega) (.inl ?_)
    · rw [hsize, hmax, hfull, hsame]
    · omega

theorem copy_load {ys : List α} (h : Inv bs s l) (hpos : 0 < bs)
    (hroom : s.size + ys.length ≤ s.maxSize) (hp : Placed bs s x n) :
    load (copy ys s).mem x n = load s.mem x n := by
  obtain ⟨hcore, hblock⟩ := h
  rcases hblock with hno | ⟨b, hlast, _⟩
  · have hlen := hcore.map_len
    rw [hno.map] at hlen
    simp only [length_nil, zero_mul] at hlen
    have hnil : ys = [] := length_eq_zero_iff.mp (by omega)
    rw [hnil, copy_nil]
  · unfold load
    apply map_congr_left
    intro j hj
    rw [mem_range] at hj
    apply store_outside
    by_contra hin
    -- a cell written is in a slot
    obtain ⟨d, hd, heq⟩ : ∃ d, d < ys.length ∧ x + j = endPtr s + d :=
      ⟨x + j - endPtr s, by omega, by omega⟩
    have hbase := hlast.base_le
    have hnew := hlast.entryPtr_eq hcore.map_len hpos (i := s.size + d) (by omega) (by omega)
    have hslot : (s.size + d) / bs < s.map.length :=
      div_lt_of_lt (by rw [hcore.map_len]; omega)
    rw [hlast.endPtr_eq] at heq
    have hmod := mod_lt (s.size + d) hpos
    unfold entryPtr at hnew
    rcases hp _ hslot with ha | ha <;> omega

theorem Placed.part (h : Placed bs s x n) (hi : i ≤ n) : Placed bs s (x + i) (n - i) := by
  intro j hj
  rcases h j hj with ha | ha
  · exact .inl (by omega)
  · exact .inr (by omega)

/-- An adopted block counts as full from the start: its whole blocks become elements. -/
theorem adopt_spec (hbs : bs = 2 ^ k) (hk : k < 32) (h : Inv bs s l)
    (hfull : s.size = s.maxSize) (hn : n < 2 ^ 32) (hge : bs ≤ n) (hp : Placed bs s x n) :
    Inv bs (adopt bs x n s) (l ++ load s.mem x (clearMask bs n)) ∧
      (adopt bs x n s).size = (adopt bs x n s).maxSize := by
  have hpos : 0 < bs := by rw [hbs]; exact Nat.two_pow_pos k
  have hdiv : 1 ≤ n / bs := (Nat.one_le_div_iff hpos).mpr hge
  obtain ⟨c, hc⟩ := exists_eq_succ_of_ne_zero (show n / bs ≠ 0 by omega)
  have hreused : clearMask bs n = (c + 1) * bs := by
    rw [clearMask_eq hbs hk hn, hc]
  have hle : (c + 1) * bs ≤ n := by
    have := div_mul_le_self n bs
    rwa [hc] at this
  have hge' : 1 * bs ≤ (c + 1) * bs := mul_le_mul_right bs (by omega)
  -- the block is appended empty, and then filled with what it holds
  let s' : State α := { adopt bs x n s with size := s.size }
  have hmap : s'.map = s.map ++ blockSlots bs x (c + 1) false := by
    simp only [s', adopt, hreused]
    refine updateMap_eq hpos c _ x s.map ?_
    have : (c + 1) * 1 ≤ (c + 1) * bs := mul_le_mul_left _ hpos
    omega
  have hplaced : Placed bs s x ((c + 1) * bs) := by
    intro j hj
    rcases hp j hj with ha | ha
    · exact .inl (by omega)
    · exact .inr ha
  obtain ⟨hcore, hlast⟩ := appendBlock_spec s' h.1 hfull hplaced rfl hmap rfl
    (by simp only [s', adopt, hreused]) rfl rfl
  have hsize : s'.size = s.size := rfl
  have hmax : s'.maxSize = s.maxSize + (c + 1) * bs := by simp only [s', adopt, hreused]
  have hend : endPtr s' = x := by
    rw [hlast.endPtr_eq, hsize, hfull, h.1.map_len]
    simp [s', adopt]
  have hsame : copy (load s.mem x ((c + 1) * bs)) s' = adopt bs x n s := by
    simp only [copy, hend, load_length, hsize]
    have hmem : s'.mem = s.mem := rfl
    rw [hmem, store_load]
    simp only [s', adopt, hreused]
  obtain ⟨hcore', hlast'⟩ := copy_spec (load s.mem x ((c + 1) * bs)) hcore hlast hpos
    (by rw [load_length]; omega)
  rw [hsame] at hcore' hlast'
  have hsize' : (adopt bs x n s).size = s.size + (c + 1) * bs := by simp only [adopt, hreused]
  have hmax' : (adopt bs x n s).maxSize = s.maxSize + (c + 1) * bs := by simp only [adopt, hreused]
  rw [hreused]
  have hbase := hlast.base_le
  exact ⟨⟨hcore', .inr ⟨_, hlast', by omega⟩⟩, by omega⟩

/-- The front of a transfer fills the last block and adopts whole blocks; fewer than a block is left
over. -/
theorem transferFront_spec (hbs : bs = 2 ^ k) (hk : k < 32) (h : Inv bs s l)
    (hroom : s.maxSize < s.size + n) (hn : n < 2 ^ 32) (hp : Placed bs s x n)
    {x' n' : Nat} (hfront : transferFront bs x n s = (s', x', n')) :
    Inv bs s' (l ++ load s.mem x (n - n')) ∧ s'.size = s'.maxSize ∧ n' < bs ∧ n' ≤ n ∧
      load s'.mem x' n' = load s.mem (x + (n - n')) n' := by
  have hpos : 0 < bs := by rw [hbs]; exact Nat.two_pow_pos k
  have hle := h.1.size_le
  obtain ⟨i, hi⟩ : ∃ i, i = s.maxSize - s.size := ⟨_, rfl⟩
  have hfill := copy_inv (load s.mem x i) h hpos (by rw [load_length]; omega)
  have hfull : (copy (load s.mem x i) s).size = (copy (load s.mem x i) s).maxSize := by
    simp only [copy, load_length]
    omega
  have hbuf : load (copy (load s.mem x i) s).mem (x + i) (n - i) = load s.mem (x + i) (n - i) :=
    copy_load h hpos (by rw [load_length]; omega) (hp.part (by omega))
  unfold transferFront at hfront
  simp only [← hi] at hfront
  by_cases hge : bs ≤ n - i
  · rw [if_pos hge] at hfront
    obtain ⟨rfl, rfl, rfl⟩ : _ = s' ∧ _ = x' ∧ _ = n' := by simpa [Prod.ext_iff] using hfront
    obtain ⟨hinv, hfull'⟩ := adopt_spec (s := copy (load s.mem x i) s) hbs hk hfill hfull
      (by omega) hge (hp.part (by omega))
    have hreused := clearMask_eq hbs hk (x := n - i) (by omega)
    have hdivmod := div_add_mod (n - i) bs
    have hmod := mod_lt (n - i) hpos
    rw [mul_comm] at hdivmod
    obtain ⟨r, hr⟩ : ∃ r, r = clearMask bs (n - i) := ⟨_, rfl⟩
    rw [← hr] at hreused hinv ⊢
    have hparts : load (copy (load s.mem x i) s).mem (x + i) (r + (n - i - r))
        = load s.mem (x + i) (r + (n - i - r)) := by
      rw [show r + (n - i - r) = n - i by omega, hbuf]
    rw [load_add, load_add] at hparts
    obtain ⟨hpart1, hpart2⟩ := append_inj hparts (by simp)
    refine ⟨?_, hfull', by omega, by omega, ?_⟩
    · rw [show n - (n - i - r) = i + r by omega, load_add, ← append_assoc, ← hpart1]
      exact hinv
    · have hmem : (adopt bs (x + i) (n - i) (copy (load s.mem x i) s)).mem
          = (copy (load s.mem x i) s).mem := rfl
      rw [hmem, hpart2]
      congr 1
      omega
  · rw [if_neg hge] at hfront
    obtain ⟨rfl, rfl, rfl⟩ : _ = s' ∧ _ = x' ∧ _ = n' := by simpa [Prod.ext_iff] using hfront
    refine ⟨?_, hfull, by omega, by omega, ?_⟩
    · rw [show n - (n - i) = i by omega]
      exact hfill
    · rw [show n - (n - i) = i by omega]
      exact hbuf

theorem transfer_spec {addr : Nat} (hbs : bs = 2 ^ k) (hk : k < 32) (h : Inv bs s l)
    (hn : n < 2 ^ 32) (hp : Placed bs s x n)
    (halloc : s.maxSize < s.size + n → 0 < (transferFront bs x n s).2.2 →
      CanAllocate bs (transferFront bs x n s).1 addr) :
    Inv bs (transfer bs addr x n s) (l ++ load s.mem x n) := by
  have hpos : 0 < bs := by rw [hbs]; exact Nat.two_pow_pos k
  unfold transfer
  by_cases hroom : s.size + n ≤ s.maxSize
  · rw [if_pos hroom]
    exact copy_inv _ h hpos (by rw [load_length]; omega)
  · rw [if_neg hroom]
    have halloc' := halloc (by omega)
    obtain ⟨s', x', n', hfront⟩ : ∃ s' x' n', transferFront bs x n s = (s', x', n') :=
      ⟨_, _, _, rfl⟩
    obtain ⟨hinv, hfull, hlt, hle, hbuf⟩ :=
      transferFront_spec hbs hk h (by omega) hn hp hfront
    rw [hfront] at halloc' ⊢
    have hsplit : load s.mem x n = load s.mem x (n - n') ++ load s.mem (x + (n - n')) n' := by
      rw [← load_add, show n - n' + n' = n by omega]
    simp only at halloc' ⊢
    by_cases hrest : 0 < n'
    · rw [if_pos hrest, hsplit, ← append_assoc, ← hbuf]
      have hmem : (allocate bs addr s').mem = s'.mem := rfl
      rw [hmem]
      exact allocate_copy_inv hbs hk hinv.1 hfull (halloc' hrest) (by rw [load_length]; omega)
        (.inr (by rw [load_length]; omega))
    · rw [if_neg hrest]
      have hzero : n' = 0 := by omega
      rw [hzero, Nat.sub_zero] at hinv
      exact hinv

end adding

/-! ## The operations that delete elements -/

section deleting
variable {bs : Nat} {s : State α} {l : List α}

theorem Core.truncate (h : Core bs s l) (hn : n ≤ s.size) :
    Core bs { s with size := n } (l.take n) := by
  have hsize := h.size_eq
  have hle := h.size_le
  refine ⟨?_, le_trans hn hle, h.map_len, h.apart, ?_⟩
  · simp only [length_take]
    omega
  · intro i hi
    rw [length_take] at hi
    rw [getElem_take]
    exact h.elems i (by omega)

theorem popTo_append {p : Nat} {e : Nat × Bool} {ys : List (Nat × Bool)} (he : e.1 = p) :
    ∀ xs : List (Nat × Bool), (∀ y ∈ xs, y.1 ≠ p) → popTo p (xs ++ e :: ys) = ys := by
  intro xs
  induction xs with
  | nil =>
    intro _
    simp [popTo, he]
  | cons y xs ih =>
    intro hne
    simp only [cons_append, popTo]
    rw [if_neg (hne y (by simp)), ih (fun z hz => hne z (by simp [hz]))]

theorem LastAt.popTo_eq (hlast : LastAt bs s b) (hpos : 0 < bs) :
    (popTo s.block s.map.reverse).reverse = s.map.take b := by
  have hlt := hlast.lt
  have hfirst : ∀ j (hj : j < s.map.length), (s.map[j]).1 = first s.map j := by
    intro j hj
    simp [first, getD_eq_getElem?_getD, hj]
  have hsplit : s.map = s.map.take b ++ s.map[b] :: s.map.drop (b + 1) := by
    rw [getElem_cons_drop hlt, take_append_drop]
  have hrev : s.map.reverse
      = (s.map.drop (b + 1)).reverse ++ s.map[b] :: (s.map.take b).reverse := by
    conv_lhs => rw [hsplit]
    simp
  rw [hrev, popTo_append, reverse_reverse]
  · rw [hfirst b hlt, hlast.run b (le_refl _) hlt]
    simp
  · intro y hy
    rw [mem_reverse, mem_iff_getElem] at hy
    obtain ⟨j, hj, rfl⟩ := hy
    rw [length_drop] at hj
    rw [getElem_drop, hfirst _ (by omega), hlast.run _ (by omega) (by omega),
      show b + 1 + j - b = j + 1 by omega, add_mul, one_mul]
    omega

/-- Walking back from a slot finds the first slot of its block. -/
theorem walkBack_spec (bs : Nat) (map : List (Nat × Bool)) (idx : Nat) :
    ∃ b, walkBack bs map idx (first map idx) ((idx * bs : Nat) : Int)
        = (first map b, ((b * bs : Nat) : Int)) ∧ b ≤ idx ∧
      ∀ j, b ≤ j → j ≤ idx → first map j = first map b + (j - b) * bs := by
  induction idx with
  | zero =>
    refine ⟨0, rfl, le_refl _, ?_⟩
    intro j _ hj
    obtain rfl : j = 0 := by omega
    simp
  | succ idx ih =>
    unfold walkBack
    by_cases hadj : first map idx + bs = first map (idx + 1)
    · rw [if_pos hadj]
      have hbase : (((idx + 1) * bs : Nat) : Int) - bs = ((idx * bs : Nat) : Int) := by
        rw [add_mul, one_mul]
        omega
      rw [hbase]
      obtain ⟨b, heq, hle, hrun⟩ := ih
      refine ⟨b, heq, by omega, ?_⟩
      intro j hlo hhi
      by_cases hj : j ≤ idx
      · exact hrun j hlo hj
      · obtain rfl : j = idx + 1 := by omega
        rw [← hadj, hrun idx hle (le_refl _), show idx + 1 - b = idx - b + 1 by omega,
          add_mul, one_mul]
        omega
    · rw [if_neg hadj]
      refine ⟨idx + 1, rfl, le_refl _, ?_⟩
      intro j hlo hhi
      obtain rfl : j = idx + 1 := by omega
      simp

/-- Dropping the slots of an empty last block keeps the invariant. -/
theorem popMap_spec (hpos : 0 < bs) (h : Core bs s l) (hlast : LastAt bs s b)
    (hempty : s.size = b * bs) :
    Inv bs (popMap bs s) l ∧ (popMap bs s).map.length = b ∧ (popMap bs s).size = s.size := by
  have hlt := hlast.lt
  have hpop := hlast.popTo_eq hpos
  have hlen : (s.map.take b).length = b := by
    rw [length_take]
    omega
  -- what is left, whatever the last block is set to
  have hcore : ∀ nbs blk base, Core bs { s with
      nextBlockSize := nbs, map := s.map.take b, maxSize := s.size,
      block := blk, blockBase := base } l := by
    intro nbs blk base
    refine ⟨h.size_eq, le_refl _, ?_, ?_, ?_⟩
    · simp only [hlen]
      exact hempty.symm
    · intro i j hij hj
      simp only [hlen] at hj
      simp only
      rw [first_take (by omega), first_take hj]
      exact h.apart i j hij (by omega)
    · intro i hi
      rw [← h.elems i hi]
      have hsize := h.size_eq
      unfold entry entryPtr
      simp only
      rw [first_take (div_lt_of_lt (by omega))]
  unfold popMap
  simp only [hpop]
  by_cases hzero : 0 < s.size
  · rw [if_pos hzero]
    obtain ⟨c, rfl⟩ : ∃ c, b = c + 1 := by
      refine exists_eq_succ_of_ne_zero ?_
      rintro rfl
      omega
    have hbase : (s.size : Int) - bs = ((c * bs : Nat) : Int) := by
      rw [hempty, add_mul, one_mul]
      omega
    have hidx : (((c * bs : Nat) : Int)).toNat / bs = c := by
      rw [Int.toNat_natCast, Nat.mul_div_cancel _ hpos]
    rw [hbase, hidx]
    obtain ⟨b', heq, hle, hrun⟩ := walkBack_spec bs (s.map.take (c + 1)) c
    rw [heq]
    have hlow : b' * bs ≤ c * bs := mul_le_mul_right bs hle
    rw [add_mul, one_mul] at hempty
    refine ⟨⟨hcore _ _ _, .inr ⟨b', ⟨rfl, ?_, ?_, ?_⟩, ?_⟩⟩, hlen, rfl⟩
    · simp only
      omega
    · simp only [hlen]
      omega
    · intro j hlo hj
      simp only [hlen] at hj
      exact hrun j hlo (by omega)
    · simp only
      omega
  · rw [if_neg hzero]
    have hb : b = 0 := by
      rcases Nat.eq_zero_or_pos b with hb | hb
      · exact hb
      · have := mul_le_mul_right bs hb
        omega
    subst hb
    refine ⟨⟨hcore _ _ _, .inl ⟨by simp only; omega, by simp, rfl⟩⟩, hlen, rfl⟩

theorem deleteLast_spec (hpos : 0 < bs) (h : Inv bs s l) (hne : 0 < s.size) :
    Inv bs (deleteLast bs s) (l.take (s.size - 1)) := by
  obtain ⟨hcore, hblock⟩ := h
  have hcore' := hcore.truncate (n := s.size - 1) (by omega)
  rcases hblock with hno | ⟨b, hlast, hlt⟩
  · have := hno.size
    omega
  · have hlast' : LastAt bs { s with size := s.size - 1 } b :=
      ⟨hlast.base, by simp only; omega, hlast.lt, hlast.run⟩
    unfold deleteLast
    simp only
    by_cases hpop : ((s.size - 1 : Nat) : Int) = s.blockBase
    · rw [if_pos hpop]
      rw [hlast.base] at hpop
      exact (popMap_spec hpos hcore' hlast' (by simp only; omega)).1
    · rw [if_neg hpop]
      rw [hlast.base] at hpop
      exact ⟨hcore', .inr ⟨b, hlast', by simp only; omega⟩⟩

/-- Deletion from the end, block by block; the measure is the number of slots. -/
theorem deleteLoop_spec (hpos : 0 < bs) : ∀ (fuel n : Nat) (s : State α) (l : List α),
    s.map.length < fuel → Inv bs s l → n ≤ s.size →
    Inv bs (deleteLoop bs fuel n s) (l.take (s.size - n)) := by
  intro fuel
  induction fuel with
  | zero =>
    intro n s l hfuel
    omega
  | succ fuel ih =>
    intro n s l hfuel h hn
    obtain ⟨hcore, hblock⟩ := h
    unfold deleteLoop
    rcases hblock with hno | ⟨b, hlast, hlt⟩
    · have hsize := hno.size
      rw [if_neg (by rw [hno.base]; omega)]
      refine ⟨hcore.truncate (by omega), .inl ⟨?_, hno.map, hno.base⟩⟩
      simp only
      omega
    · have hbase := hlast.base
      by_cases hall : (s.size : Int) - s.blockBase ≤ n
      · rw [if_pos hall]
        have hto : s.blockBase.toNat = b * bs := by
          rw [hbase]
          exact Int.toNat_natCast _
        have hdel : ((s.size : Int) - s.blockBase).toNat = s.size - b * bs := by
          rw [hbase]
          omega
        rw [hto, hdel]
        have hcore' := hcore.truncate (n := b * bs) (by omega)
        have hlast' : LastAt bs { s with size := b * bs } b :=
          ⟨hbase, le_refl _, hlast.lt, hlast.run⟩
        obtain ⟨hinv, hlen, hsize⟩ := popMap_spec hpos hcore' hlast' rfl
        have hmapb := hlast.lt
        simp only at hsize
        have hrest := ih (n - (s.size - b * bs)) _ _ (by omega) hinv (by omega)
        rw [hsize, take_take] at hrest
        rw [show min (b * bs - (n - (s.size - b * bs))) (b * bs) = s.size - n by omega] at hrest
        exact hrest
      · rw [if_neg hall]
        rw [hbase] at hall
        refine ⟨hcore.truncate (by omega), .inr ⟨b, ⟨hbase, ?_, hlast.lt, hlast.run⟩, ?_⟩⟩
        · simp only
          omega
        · simp only
          omega

theorem deleteLastN_spec (hpos : 0 < bs) (h : Inv bs s l) (hn : n ≤ s.size) :
    Inv bs (deleteLastN bs n s) (l.take (s.size - n)) :=
  deleteLoop_spec hpos _ n s l (lt_succ_self _) h hn

theorem deleteDownTo_spec {idx : Nat} (hpos : 0 < bs) (h : Inv bs s l) :
    Inv bs (deleteDownTo bs idx s) (l.take idx) := by
  have hsize := h.1.size_eq
  unfold deleteDownTo
  by_cases hidx : idx < s.size
  · rw [if_pos hidx]
    have hdel := deleteLastN_spec (n := s.size - idx) hpos h (by omega)
    rwa [show s.size - (s.size - idx) = idx by omega] at hdel
  · rw [if_neg hidx, take_of_length_le (by omega)]
    exact h

end deleting

/-! ## Runs -/

/-- The operations. `assign` is the caller's assignment to an entry, `outside` its writes and the
allocator's elsewhere. -/
inductive Op (α : Type)
  | insert (addr : Nat) (x : α)
  | insertAll (addr : Nat) (xs : List α)
  | newEntry (addr : Nat)
  | reserve (n : Nat)
  | transfer (addr x n : Nat)
  | deleteLast
  | deleteLastN (n : Nat)
  | deleteDownTo (idx : Nat)
  | assign (idx : Nat) (x : α)
  | outside (addr : Nat) (xs : List α)

/-- What an operation does to the array. -/
def Op.apply (bs : Nat) (s : State α) : Op α → State α
  | .insert addr x => SegmentedArray.insert bs addr x s
  | .insertAll addr xs => SegmentedArray.insertAll bs addr xs s
  | .newEntry addr => (SegmentedArray.newEntry bs addr s).2
  | .reserve n => SegmentedArray.reserve n s
  | .transfer addr x n => SegmentedArray.transfer bs addr x n s
  | .deleteLast => SegmentedArray.deleteLast bs s
  | .deleteLastN n => SegmentedArray.deleteLastN bs n s
  | .deleteDownTo idx => SegmentedArray.deleteDownTo bs idx s
  | .assign idx x => { s with mem := store s.mem (entryPtr bs s idx) [x] }
  | .outside addr xs => { s with mem := store s.mem addr xs }

/-- What it does to the list. `New_entry` appends what its cell holds, `Transfer` what the buffer
holds. -/
def Op.onList (bs : Nat) (s : State α) (l : List α) : Op α → List α
  | .insert _ x => l ++ [x]
  | .insertAll _ xs => l ++ xs
  | .newEntry addr => l ++ [s.mem (SegmentedArray.newEntry bs addr s).1]
  | .reserve _ => l
  | .transfer _ x n => l ++ load s.mem x n
  | .deleteLast => l.dropLast
  | .deleteLastN n => l.take (l.length - n)
  | .deleteDownTo idx => l.take idx
  | .assign idx x => l.set idx x
  | .outside _ _ => l

/-- When an operation may be called: allocator and buffers keep off the slots, and the sums fit. -/
def Op.Legal (bs : Nat) (s : State α) : Op α → Prop
  | .insert addr _ => s.size = s.maxSize → CanAllocate bs s addr
  | .insertAll addr xs => s.maxSize < s.size + xs.length → CanAllocate bs (insertFront xs s) addr
  | .newEntry addr => s.size = s.maxSize → CanAllocate bs s addr
  | .reserve n => n < 2 ^ 32 ∧ s.maxSize - s.size + s.nextBlockSize < 2 ^ 32
  | .transfer addr x n => n < 2 ^ 32 ∧ Placed bs s x n ∧
      (s.maxSize < s.size + n → 0 < (transferFront bs x n s).2.2 →
        CanAllocate bs (transferFront bs x n s).1 addr ∧
        (addr + allocSize bs (transferFront bs x n s).1 ≤ x ∨ x + n ≤ addr))
  | .deleteLast => 0 < s.size
  | .deleteLastN n => n ≤ s.size
  | .deleteDownTo _ => True
  | .assign idx _ => idx < s.size
  | .outside addr xs => Placed bs s addr xs.length

/-- The counters fit unsigned integers. -/
def Fits (s : State α) : Prop := s.maxSize < 2 ^ 32 ∧ s.nextBlockSize < 2 ^ 32

/-- The states a run of operations reaches, with the list each stands for. -/
inductive Reaches (bs : Nat) : State α → List α → Prop
  | empty (mem : Nat → α) : Reaches bs (empty mem) []
  | step (op : Op α) {s : State α} {l : List α} (h : Reaches bs s l) (legal : op.Legal bs s)
      (fits : Fits (op.apply bs s)) : Reaches bs (op.apply bs s) (op.onList bs s l)

section runs
variable {bs k : Nat} {s : State α} {l : List α}

theorem outside_spec {addr : Nat} (hpos : 0 < bs) (h : Inv bs s l)
    (hp : Placed bs s addr xs.length) : Inv bs { s with mem := store s.mem addr xs } l := by
  obtain ⟨hcore, hblock⟩ := h
  have hsize := hcore.size_eq
  have hle := hcore.size_le
  refine ⟨⟨hcore.size_eq, hcore.size_le, hcore.map_len, hcore.apart, ?_⟩, ?_⟩
  · intro i hi
    rw [← hcore.elems i hi]
    have hslot : i / bs < s.map.length := div_lt_of_lt (by rw [hcore.map_len]; omega)
    have hmod := mod_lt i hpos
    refine store_outside ?_
    simp only [entryPtr]
    rcases hp _ hslot with ha | ha
    · exact .inr (by omega)
    · exact .inl (by omega)
  · rcases hblock with hno | ⟨b, hlast, hlt⟩
    · exact .inl ⟨hno.size, hno.map, hno.base⟩
    · exact .inr ⟨b, ⟨hlast.base, hlast.base_le, hlast.lt, hlast.run⟩, hlt⟩

theorem step_inv (hbs : bs = 2 ^ k) (hk : k < 32) (h : Inv bs s l) (op : Op α)
    (hlegal : op.Legal bs s) : Inv bs (op.apply bs s) (op.onList bs s l) := by
  have hpos : 0 < bs := by rw [hbs]; exact Nat.two_pow_pos k
  have hsize := h.1.size_eq
  cases op with
  | insert addr x => exact insert_spec x hbs hk h hlegal
  | insertAll addr xs => exact insertAll_spec hbs hk h hlegal
  | newEntry addr => exact newEntry_spec hbs hk h hlegal
  | reserve n => exact reserve_inv n h
  | transfer addr x n =>
    exact transfer_spec hbs hk h hlegal.1 hlegal.2.1 (fun hr hn => (hlegal.2.2 hr hn).1)
  | deleteLast =>
    have hdel := deleteLast_spec hpos h hlegal
    rw [hsize, ← dropLast_eq_take] at hdel
    exact hdel
  | deleteLastN n =>
    have hdel := deleteLastN_spec hpos h hlegal
    rw [hsize] at hdel
    exact hdel
  | deleteDownTo idx => exact deleteDownTo_spec hpos h
  | assign idx x => exact assign_spec x hpos h hlegal
  | outside addr xs => exact outside_spec hpos h hlegal

theorem reaches_inv (hbs : bs = 2 ^ k) (hk : k < 32) (h : Reaches bs s l) : Inv bs s l := by
  induction h with
  | empty mem => exact inv_empty bs mem
  | step op _ legal _ ih => exact step_inv hbs hk ih op legal

end runs

/-! ## Going through the array -/

section iteration
variable {bs : Nat} {s : State α} {l : List α}

/-- The slots from `g` to `r` follow each other in memory. -/
def Chain (bs : Nat) (map : List (Nat × Bool)) (g r : Nat) : Prop :=
  ∀ j, g ≤ j → j < r → first map j = first map g + (j - g) * bs

theorem nextBlockIdx_spec (bs : Nat) (map : List (Nat × Bool)) : ∀ (fuel g : Nat),
    map.length ≤ g + fuel → g < map.length →
    g < nextBlockIdx bs map fuel g ∧ nextBlockIdx bs map fuel g ≤ map.length ∧
      Chain bs map g (nextBlockIdx bs map fuel g) ∧ (nextBlockIdx bs map fuel g < map.length →
        first map (nextBlockIdx bs map fuel g - 1) + bs
          ≠ first map (nextBlockIdx bs map fuel g)) := by
  intro fuel
  induction fuel with
  | zero =>
    intro g hfuel hg
    omega
  | succ fuel ih =>
    intro g hfuel hg
    have hself : Chain bs map g (g + 1) := by
      intro j hlo hhi
      obtain rfl : j = g := by omega
      simp
    unfold nextBlockIdx
    by_cases hadj : g + 1 < map.length ∧ first map g + bs = first map (g + 1)
    · rw [if_pos hadj]
      obtain ⟨hlt, hle, hchain, hmax⟩ := ih (g + 1) (by omega) hadj.1
      refine ⟨by omega, hle, ?_, hmax⟩
      intro j hlo hhi
      by_cases hj : j = g
      · subst hj
        simp
      · rw [hchain j (by omega) hhi, ← hadj.2, show j - g = j - (g + 1) + 1 by omega, add_mul,
          one_mul]
        omega
    · rw [if_neg hadj]
      refine ⟨by omega, by omega, hself, ?_⟩
      intro hlt heq
      rw [Nat.add_sub_cancel] at heq
      exact hadj ⟨hlt, heq⟩

theorem Chain.entryPtr_eq {r : Nat} (h : Chain bs s.map g r) (hpos : 0 < bs)
    (hlo : g * bs ≤ i) (hi : i < r * bs) : entryPtr bs s i = first s.map g + (i - g * bs) := by
  have hg : g ≤ i / bs := (le_div_iff_mul_le hpos).mpr hlo
  unfold entryPtr
  rw [h _ hg (div_lt_of_lt hi), Nat.sub_mul]
  have hdiv := Nat.div_add_mod i bs
  have hle : g * bs ≤ i / bs * bs := mul_le_mul_right bs hg
  rw [mul_comm] at hdiv
  omega

/-- The iterator is at the entry `i`. -/
structure Iter.At (bs : Nat) (s : State α) (it : Iter) (i : Nat) : Prop where
  lt : it.mapIdx < s.map.length
  lo : it.mapIdx * bs ≤ i
  hi : i < nextBlockIdx bs s.map s.map.length it.mapIdx * bs
  ptr : it.ptr = entryPtr bs s i
  last : it.segmentLast = blockEnd bs s it.mapIdx

theorem Iter.at_block (hpos : 0 < bs) (hg : g < s.map.length) :
    Iter.At bs s { ptr := first s.map g, segmentLast := blockEnd bs s g, mapIdx := g } (g * bs):= by
  obtain ⟨hlt, _, _, _⟩ := nextBlockIdx_spec bs s.map s.map.length g (by omega) hg
  refine ⟨hg, le_refl _, ?_, ?_, rfl⟩
  · exact Nat.mul_lt_mul_of_pos_right hlt hpos
  · simp [entryPtr, Nat.mul_div_cancel _ hpos]

/-- An iterator advanced inside a block, or across to the next one. -/
theorem Iter.At.next {it : Iter} {i : Nat} (hpos : 0 < bs) (hat : it.At bs s i)
    (hi : i + 1 < s.map.length * bs) : (it.next bs s).At bs s (i + 1) := by
  obtain ⟨hg, hlo, hhi, hptr, hlast⟩ := hat
  obtain ⟨hlt, hle, hchain, _⟩ :=
    nextBlockIdx_spec bs s.map s.map.length it.mapIdx (by omega) hg
  obtain ⟨r, hr⟩ : ∃ r, r = nextBlockIdx bs s.map s.map.length it.mapIdx := ⟨_, rfl⟩
  rw [← hr] at hlt hle hchain hhi
  have hmul : (r - it.mapIdx) * bs = r * bs - it.mapIdx * bs := Nat.sub_mul ..
  have hptr' := hchain.entryPtr_eq hpos hlo hhi
  have hend : blockEnd bs s it.mapIdx = first s.map it.mapIdx + (r - it.mapIdx) * bs := by
    unfold blockEnd
    rw [← hr]
  unfold Iter.next
  simp only
  by_cases hseg : it.ptr + 1 = it.segmentLast
  · -- the block is done: the next one begins with the next entry
    have hentries : (it.segmentLast - first s.map it.mapIdx) / bs = r - it.mapIdx := by
      rw [hlast, hend, Nat.add_sub_cancel_left, Nat.mul_div_cancel _ hpos]
    have hnext : i + 1 = r * bs := by
      rw [hptr, hptr', hlast, hend] at hseg
      omega
    have hrlt : r < s.map.length := by
      rw [hnext] at hi
      exact Nat.lt_of_mul_lt_mul_right hi
    rw [if_pos hseg, hentries, show it.mapIdx + (r - it.mapIdx) = r by omega, if_pos hrlt, hnext]
    exact Iter.at_block hpos hrlt
  · rw [if_neg hseg]
    rw [hptr, hptr', hlast, hend] at hseg
    refine ⟨hg, by simp only; omega, by simp only [← hr]; omega, ?_, hlast⟩
    rw [hchain.entryPtr_eq hpos (by omega) (by omega)]
    simp only
    omega

theorem Iter.At.next_end {it : Iter} (hpos : 0 < bs) (hat : it.At bs s i)
    (hlast : LastAt bs s b) (hlen : s.map.length * bs = s.maxSize) (hle : s.size ≤ s.maxSize)
    (hb : b * bs < s.size) (hi : i + 1 = s.size) : (it.next bs s).ptr = endPtr s := by
  obtain ⟨hg, hlo, hhi, hptr, hseglast⟩ := hat
  obtain ⟨hlt, hrle, hchain, hmax⟩ :=
    nextBlockIdx_spec bs s.map s.map.length it.mapIdx (by omega) hg
  obtain ⟨r, hr⟩ : ∃ r, r = nextBlockIdx bs s.map s.map.length it.mapIdx := ⟨_, rfl⟩
  rw [← hr] at hlt hrle hchain hmax hhi
  have hend : it.ptr + 1 = endPtr s := by
    rw [hptr, hlast.entryPtr_eq hlen hpos (by omega) (by omega), hlast.endPtr_eq]
    omega
  -- the chain of the last block reaches the end of the map
  have hwhole : ¬ r < s.map.length := by
    intro hrlt
    have hbr : b < r := by
      have : b * bs < r * bs := by omega
      exact Nat.lt_of_mul_lt_mul_right this
    refine hmax hrlt ?_
    rw [hlast.run (r - 1) (by omega) (by omega), hlast.run r (by omega) hrlt,
      show r - b = r - 1 - b + 1 by omega, add_mul, one_mul]
    omega
  have hentries : (it.segmentLast - first s.map it.mapIdx) / bs = r - it.mapIdx := by
    rw [hseglast]
    unfold blockEnd
    rw [← hr, Nat.add_sub_cancel_left, Nat.mul_div_cancel _ hpos]
  unfold Iter.next
  simp only
  by_cases hseg : it.ptr + 1 = it.segmentLast
  · rw [if_pos hseg, hentries, show it.mapIdx + (r - it.mapIdx) = r by omega, if_neg hwhole]
    exact hend
  · rw [if_neg hseg]
    exact hend

/-- No block in use begins where the array ends. -/
def NoBlockAtEnd (bs : Nat) (s : State α) : Prop :=
  ∀ j, j * bs < s.size → first s.map j ≠ endPtr s

/-- No element's address is the end pointer, unless a block begins where the array ends. -/
theorem entryPtr_ne_end (hpos : 0 < bs) (h : Inv bs s l) (hno : NoBlockAtEnd bs s)
    (hi : i < s.size) : entryPtr bs s i ≠ endPtr s := by
  intro heq
  obtain ⟨hcore, hblock⟩ := h
  have hle := hcore.size_le
  have hlen := hcore.map_len
  rcases hblock with hnone | ⟨b, hlast, hlt⟩
  · have := hnone.size
    omega
  · have hend := hlast.endPtr_eq
    have hslot : i / bs < s.map.length := div_lt_of_lt (by omega)
    -- the cell before the end is the last entry, so the block of `i` begins at the end
    have hprev := hlast.entryPtr_eq hlen hpos (i := s.size - 1) (by omega) (by omega)
    have hslot' : (s.size - 1) / bs < s.map.length := div_lt_of_lt (by omega)
    have hmod := mod_lt i hpos
    have hmod' := mod_lt (s.size - 1) hpos
    have hdiv := div_add_mod i bs
    rw [mul_comm] at hdiv
    refine hno (i / bs) (by omega) ?_
    by_contra hne
    unfold entryPtr at heq hprev
    have hpred : first s.map (i / bs) + (i % bs - 1) = first s.map ((s.size - 1) / bs)
        + (s.size - 1) % bs := by omega
    have hsame : i - 1 = s.size - 1 := by
      refine hcore.entryPtr_inj hpos (by omega) (by omega) ?_
      have hmod1 : (i - 1) / bs = i / bs ∧ (i - 1) % bs = i % bs - 1 := by
        have hi1 : i - 1 = bs * (i / bs) + (i % bs - 1) := by
          rw [mul_comm]
          omega
        have hlt1 : i % bs - 1 < bs := by omega
        constructor
        · rw [hi1, mul_add_div hpos, div_eq_of_lt hlt1, add_zero]
        · rw [hi1, mul_add_mod, mod_eq_of_lt hlt1]
      unfold entryPtr
      rw [hmod1.1, hmod1.2]
      exact hpred
    omega

theorem iterate_from (hpos : 0 < bs) (h : Inv bs s l) (hno : NoBlockAtEnd bs s) :
    ∀ (d i : Nat) (it : Iter), i + d + 1 = s.size → it.At bs s i →
    iterate bs s (d + 2) it = some ((range' i (d + 1)).map (entryPtr bs s)) := by
  have hcore := h.1
  have hle := hcore.size_le
  have hlen := hcore.map_len
  intro d
  induction d with
  | zero =>
    intro i it hi hat
    have hne := entryPtr_ne_end hpos h hno (i := i) (by omega)
    rcases h.2 with hnone | ⟨b, hlast, hlt⟩
    · have := hnone.size
      omega
    · have hend := hat.next_end hpos hlast hlen hle hlt (by omega)
      simp only [iterate]
      rw [hat.ptr, if_neg hne, if_pos hend]
      rfl
  | succ d ih =>
    intro i it hi hat
    have hne := entryPtr_ne_end hpos h hno (i := i) (by omega)
    have hnext := ih (i + 1) _ (by omega) (hat.next hpos (by omega))
    rw [iterate, hat.ptr, if_neg hne, hnext]
    rfl

theorem iterate_ne_end : ∀ (fuel : Nat) (it : Iter) (ps : List Nat),
    iterate bs s fuel it = some ps → ∀ p ∈ ps, p ≠ endPtr s := by
  intro fuel
  induction fuel with
  | zero =>
    intro it ps h
    simp [iterate] at h
  | succ fuel ih =>
    intro it ps h
    unfold iterate at h
    by_cases hend : it.ptr = endPtr s
    · rw [if_pos hend, Option.some.injEq] at h
      subst h
      intro p hp
      cases hp
    · rw [if_neg hend, Option.map_eq_some_iff] at h
      obtain ⟨qs, hqs, rfl⟩ := h
      intro p hp
      rcases mem_cons.mp hp with rfl | hp
      · exact hend
      · exact ih _ _ hqs p hp

/-- Iteration visits every entry once, in order, exactly when no block begins where the array ends.
-/
theorem iterate_iff (hpos : 0 < bs) (h : Inv bs s l) (hne : 0 < s.size) :
    (∃ fuel, iterate bs s fuel (begin bs s) = some ((range s.size).map (entryPtr bs s))) ↔
      NoBlockAtEnd bs s := by
  have hlen := h.1.map_len
  have hle := h.1.size_le
  constructor
  · rintro ⟨fuel, heq⟩ j hj hfirst
    refine iterate_ne_end fuel _ _ heq (entryPtr bs s (j * bs)) ?_ ?_
    · exact mem_map_of_mem (mem_range.mpr hj)
    · rw [← hfirst]
      simp [entryPtr, Nat.mul_div_cancel _ hpos]
  · intro hno
    have hmap : 0 < s.map.length := by
      rcases Nat.eq_zero_or_pos s.map.length with hz | hz
      · rw [hz] at hlen
        omega
      · exact hz
    have hbegin : (begin bs s).At bs s 0 := by
      have := Iter.at_block (s := s) hpos hmap
      rwa [zero_mul] at this
    have hall := iterate_from hpos h hno (s.size - 1) 0 (begin bs s) (by omega) hbegin
    rw [show s.size - 1 + 1 = s.size by omega, ← range_eq_range'] at hall
    exact ⟨_, hall⟩

/-- The loop over the entries visits each index once, in order. -/
theorem forAllEntries_from (hpos : 0 < bs) (h : Core bs s l) : ∀ (fuel fst : Nat),
    fst ≤ s.size → s.size < fst + fuel → forAllEntries bs s fuel fst
      = some ((range' fst (s.size - fst)).map fun i => (i, entryPtr bs s i)) := by
  have hle := h.size_le
  have hlen := h.map_len
  intro fuel
  induction fuel with
  | zero =>
    intro fst hfst hfuel
    omega
  | succ fuel ih =>
    intro fst hfst hfuel
    unfold forAllEntries
    by_cases hlt : fst < s.size
    · have hslot : fst / bs < s.map.length := div_lt_of_lt (by omega)
      obtain ⟨hg, _, hchain, _⟩ :=
        nextBlockIdx_spec bs s.map s.map.length (fst / bs) (Nat.le_add_left ..) hslot
      obtain ⟨r, hr⟩ : ∃ r, r = nextBlockIdx bs s.map s.map.length (fst / bs) := ⟨_, rfl⟩
      rw [← hr] at hg hchain
      have hlo : fst / bs * bs ≤ fst := div_mul_le_self ..
      have hhi : fst < r * bs := by
        calc fst < (fst / bs + 1) * bs := lt_mul_of_div_lt (lt_succ_self _) hpos
          _ ≤ r * bs := mul_le_mul_right bs hg
      obtain ⟨m, hm⟩ : ∃ m, m = getBlockSize bs s fst := ⟨_, rfl⟩
      have hmeq : m = min (r * bs) s.size - fst := by
        rw [hm, getBlockSize, ← hr]
      rw [if_pos hlt]
      simp only
      rw [← hm, ih (fst + m) (by omega) (by omega), Option.map_some]
      congr 1
      have hsplit : range' fst (s.size - fst)
          = range' fst m ++ range' (fst + m) (s.size - (fst + m)) := by
        have happ := range'_append_1 (s := fst) (m := m) (n := s.size - (fst + m))
        rw [show m + (s.size - (fst + m)) = s.size - fst by omega] at happ
        exact happ.symm
      rw [hsplit, map_append]
      congr 1
      rw [range'_eq_map_range, map_map]
      apply map_congr_left
      intro j hj
      rw [mem_range] at hj
      simp only [Function.comp, Prod.mk.injEq, true_and]
      rw [hchain.entryPtr_eq hpos hlo hhi, hchain.entryPtr_eq hpos (i := fst + j) (by omega) (by omega)]
      omega
    · rw [if_neg hlt, show s.size - fst = 0 by omega]
      rfl

end iteration

/-! ## A segmented array behaves as a list -/

/-- The array reads as the list `l`, in size, entries, and both ways of going through it. -/
structure ListLike (bs : Nat) (s : State α) (l : List α) : Prop where
  size_eq : s.size = l.length
  entry_eq : ∀ i (h : i < l.length), entry bs s i = l[i]
  forAll : ∃ fuel, forAllEntries bs s fuel 0
    = some ((range s.size).map fun i => (i, entryPtr bs s i))
  iterates : 0 < s.size →
    ∃ fuel, iterate bs s fuel (begin bs s) = some ((range s.size).map (entryPtr bs s))

section main
variable {bs k : Nat} {s : State α} {l : List α}

theorem Inv.reads (hpos : 0 < bs) (h : Inv bs s l) :
    s.size = l.length ∧ (∀ i (h : i < l.length), entry bs s i = l[i]) ∧
      ∃ fuel, forAllEntries bs s fuel 0
        = some ((range s.size).map fun i => (i, entryPtr bs s i)) := by
  refine ⟨h.1.size_eq, h.1.elems, s.size + 1, ?_⟩
  rw [forAllEntries_from hpos h.1 (s.size + 1) 0 (Nat.zero_le _) (by omega), Nat.sub_zero,
    ← range_eq_range']

/-- After every run the array reads as the list, iterators included, exactly when no block in use
begins at the address where the array ends. -/
theorem segmentedArray_listLike (hk : k < 32) (h : Reaches (2 ^ k) s l) :
    ListLike (2 ^ k) s l ↔ NoBlockAtEnd (2 ^ k) s := by
  have hpos : 0 < 2 ^ k := Nat.two_pow_pos k
  have hinv := reaches_inv rfl hk h
  obtain ⟨hsize, hentry, hall⟩ := hinv.reads hpos
  constructor
  · intro hlike j hj
    have hne : 0 < s.size := by omega
    exact (iterate_iff hpos hinv hne).mp (hlike.iterates hne) j hj
  · intro hno
    exact ⟨hsize, hentry, hall, fun hne => (iterate_iff hpos hinv hne).mpr hno⟩

end main

/-- Four elements in two blocks of two, the second one right below the first. -/
def twoBlocks : State Nat :=
  insertAll 2 10 [3, 4] (insertAll 2 12 [1, 2] (empty fun _ => 0))

theorem reaches_twoBlocks : Reaches 2 twoBlocks [1, 2, 3, 4] := by
  have hfirst : Reaches 2 (insertAll 2 12 [1, 2] (empty fun _ => 0)) [1, 2] := by
    refine Reaches.step (.insertAll 12 [1, 2]) (Reaches.empty fun _ => 0) ?_ ⟨by decide, by decide⟩
    intro _
    refine ⟨by decide, ?_⟩
    intro j hj
    exact absurd hj (not_lt_zero j)
  refine Reaches.step (.insertAll 10 [3, 4]) hfirst ?_ ⟨by decide, by decide⟩
  intro _
  refine ⟨by decide, ?_⟩
  intro j hj
  obtain rfl : j = 0 := lt_one_iff.mp hj
  exact .inl (by decide)

theorem segmentedArray_listLike_twoBlocks :
    ListLike (2 ^ 1) twoBlocks [1, 2, 3, 4] ↔ NoBlockAtEnd (2 ^ 1) twoBlocks :=
  segmentedArray_listLike (by decide) reaches_twoBlocks

/-- There `begin()` is `end()`: the loop visits nothing. -/
theorem iterators_stop_early :
    ¬ ∀ (k : Nat) (s : State Nat) (l : List Nat), k < 32 → Reaches (2 ^ k) s l →
      ListLike (2 ^ k) s l := by
  intro hall
  have hlike := hall 1 twoBlocks [1, 2, 3, 4] (by decide) reaches_twoBlocks
  obtain ⟨fuel, heq⟩ := hlike.iterates (by decide)
  exact iterate_ne_end fuel _ _ heq 12 (by decide) (by decide)

end SegmentedArray
