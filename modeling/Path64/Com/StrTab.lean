import Path64.Lib.ByteMem
import Mathlib.Data.List.Nodup
import Mathlib.Algebra.Group.Int.Defs
import Mathlib.Algebra.GroupWithZero.Nat

/-! # String tables

`common/com/strtab.cxx`: strings are interned in one growing buffer,
and a hash table of packed positions finds the copy that is there. A
string is appended before it is looked up, and the append is undone
when an equal one is found.

The template parameter `STR` of `STR_TAB` is a record of the functions
it provides; the two classes of the source are its two instances. -/

namespace StrTab

open Option List ByteMem

/-! ## String formats -/

/-- What `STR_TAB` uses of its parameter. -/
structure StrFormat where
  getStr : Mem → Nat → Nat
  getLength : Mem → Nat → Nat → Option Nat
  getBufferLength : Nat → Nat
  copy : List Byte → List Byte

/-- `strlen`, in a buffer of `size` bytes. -/
def strlen (m : Mem) (size idx : Nat) : Option Nat :=
  (range (size - idx)).find? fun k => m (idx + k) = 0

def nullTerminatedString : StrFormat where
  getStr _ buffer := buffer
  getLength := strlen
  getBufferLength length := (length + 1) % 2 ^ 32
  copy str := str ++ [0]

/-- A `char` converted to `UINT32`: it is signed. -/
def charToUint32 (c : Byte) : Nat := (c.toInt % 2 ^ 32).toNat

def characterArray : StrFormat where
  getStr m buffer := if (m buffer).toInt ≠ 0xff then buffer + 1 else buffer + 4 + 1
  getLength m size buffer :=
    if size ≤ buffer then none
    else if (m buffer).toInt ≠ 0xff then some (charToUint32 (m buffer))
    else if size < buffer + 5 then none
    else some (load32 m (buffer + 1)).toNat
  getBufferLength length := if length < 0xff then length + 1 else (length + 1 + 4) % 2 ^ 32
  copy str :=
    if str.length < 0xff then BitVec.ofNat 8 str.length :: str
    else 0xff :: le32 (BitVec.ofNat 32 str.length) ++ str

/-! ## The table -/

/-- `STR_TAB`: the hash table is the set of its packed positions. -/
structure Table where
  buffer : Mem
  bufferSize : Nat
  lastIdx : Nat
  hashTable : List Nat

/-- `make_STR_INDEX`. A `STR_INDEX` has 64 bits; of one below `2 ^ 24`, which the tables here keep to,
the low 32 bits are all that `idx << 8` needs. -/
def makeStrIndex (size idx : Nat) : Nat :=
  let size := if size > 0xff then 0xff else size
  ((idx <<< 8) ||| size) % 2 ^ 32

def strIndexSize (x : Nat) : Nat := x &&& 0xff

def strIndexIndex (x : Nat) : Nat := x >>> 8

structure HashKey where
  str : Nat
  size : Nat

/-- The `n` characters at `p`. -/
def readBytes (t : Table) (p n : Nat) : Option (List Byte) :=
  if p + n ≤ t.bufferSize then some (load t.buffer p n) else none

def hash (t : Table) (key : HashKey) : Option (BitVec 32) :=
  (readBytes t key.str key.size).map fun bs => bs.foldl (fun h c => 5 * h + c.signExtend 32) 0

def extractKey (fmt : StrFormat) (t : Table) (strIndex : Nat) : Option HashKey :=
  let str := strIndexIndex strIndex
  if strIndexSize strIndex < 0xff then
    some ⟨fmt.getStr t.buffer str, strIndexSize strIndex⟩
  else (fmt.getLength t.buffer t.bufferSize str).map fun n => ⟨fmt.getStr t.buffer str, n⟩

def equal (t : Table) (key1 key2 : HashKey) : Option Bool :=
  if key1.size ≠ key2.size then some false
  else do
    let c1 ← readBytes t key1.str 1
    let c2 ← readBytes t key2.str 1
    if c1 ≠ c2 then return false
    let bs1 ← readBytes t key1.str key1.size
    let bs2 ← readBytes t key2.str key1.size
    return bs1 == bs2

/-- Whether an element of the hash table has this key. -/
def hasKey (fmt : StrFormat) (t : Table) (key : HashKey) (y : Nat) : Option Bool := do
  let key' ← extractKey fmt t y
  equal t key' key

/-- `find_or_insert`: the first entry with an equal key, or the new one. -/
def findOrInsert (fmt : StrFormat) (t : Table) (x : Nat) : Option (Nat × Table) := do
  let key ← extractKey fmt t x
  let _ ← hash t key
  let found ← t.hashTable.findM? (hasKey fmt t key)
  match found with
  | some y => return (y, t)
  | none => return (x, { t with hashTable := t.hashTable ++ [x] })

/-- The loop of `reserve`. -/
def growSize (size lastIdx : Nat) : Nat → Nat → Nat
  | 0, bufferSize => bufferSize
  | fuel + 1, bufferSize =>
    if size > bufferSize - lastIdx then
      growSize size lastIdx fuel
        (if bufferSize < 0x100000 then bufferSize * 2 else bufferSize + 0x80000)
    else bufferSize

/-- `reserve`: what is beyond the old buffer keeps its arbitrary contents. -/
def reserve (t : Table) (size : Nat) : Table :=
  { t with bufferSize := growSize size t.lastIdx size t.bufferSize }

def copyStr (fmt : StrFormat) (t : Table) (str : List Byte) : Table :=
  let bufferLength := fmt.getBufferLength str.length
  let t := reserve t bufferLength
  { t with buffer := store t.buffer t.lastIdx (fmt.copy str)
           lastIdx := t.lastIdx + bufferLength }

def insert (fmt : StrFormat) (t : Table) (str : List Byte) : Option (Nat × Table) := do
  let index := t.lastIdx
  let t := copyStr fmt t str
  let newIndex := makeStrIndex str.length index
  let (oldIndex, t) ← findOrInsert fmt t newIndex
  if newIndex ≠ oldIndex then
    return (strIndexIndex oldIndex, { t with lastIdx := index })
  else return (index, t)

def saveStr (t : Table) (str : List Byte) : Option (Nat × Table) :=
  insert nullTerminatedString t str

def saveStrN (t : Table) (str : List Byte) : Option (Nat × Table) :=
  if str.length = 0 then some (0, t) else insert characterArray t str

/-- `initialize_strtab(strtab, size)`: the allocated buffer holds anything. -/
def initializeStrtab (garbage : Mem) (size : Nat) : Table :=
  { buffer := store garbage 0 [0], bufferSize := size, lastIdx := 1, hashTable := [] }

/-- A table over a copy of `buf`, with nothing in its hash table. -/
def bufferTable (garbage : Mem) (buf : List Byte) : Table :=
  { buffer := store garbage 0 buf, bufferSize := buf.length, lastIdx := buf.length, hashTable := [] }

/-- The loop of `init_hash`; `idx` has 64 bits there, which a table below `2 ^ 24` bytes does not
need. -/
def initHashFrom (fmt : StrFormat) : Nat → Nat → Table → Option Table
  | 0, idx, t => if idx < t.lastIdx then none else some t
  | fuel + 1, idx, t =>
    if idx < t.lastIdx then do
      let length ← fmt.getLength t.buffer t.bufferSize idx
      let (_, t) ← findOrInsert fmt t (makeStrIndex length idx)
      initHashFrom fmt fuel ((idx + fmt.getBufferLength length) % 2 ^ 32) t
    else some t

/-- `initialize_strtab(strtab, buf, size)`. -/
def initializeStrtabFrom (fmt : StrFormat) (garbage : Mem) (buf : List Byte) : Option Table :=
  initHashFrom fmt buf.length 1 (bufferTable garbage buf)

/-- The loop of `merge_strtab` over the buffer of another table; the map is a list of pairs. -/
def mergeFrom (fmt : StrFormat) (src : Table) : Nat → Nat → List (Nat × Nat) → Table →
    Option (List (Nat × Nat) × Table)
  | 0, idx, map, t => if idx < src.lastIdx then none else some (map, t)
  | fuel + 1, idx, map, t =>
    if idx < src.lastIdx then do
      let size ← fmt.getLength src.buffer src.bufferSize idx
      let str ← readBytes src (fmt.getStr src.buffer idx) size
      let (newIdx, t) ← insert fmt t str
      mergeFrom fmt src fuel ((idx + fmt.getBufferLength size) % 2 ^ 32) (map ++ [(idx, newIdx)]) t
    else some (map, t)

/-- `merge_strtab`: a dumped buffer into a table. -/
def mergeStrtab (fmt : StrFormat) (t : Table) (garbage : Mem) (buf : List Byte) :
    Option (List (Nat × Nat) × Table) :=
  mergeFrom fmt (bufferTable garbage buf) buf.length 1 [(0, 0)] t

/-- The buffer as it is written to a file. -/
def dump (t : Table) : List Byte := load t.buffer 0 t.lastIdx

/-! ## Entries -/

/-- A string that is looked up: `base` are the entries found without a look. -/
def Key (P : List Byte → Prop) (base : List (Nat × List Byte)) (s : List Byte) : Prop :=
  P s ∧ s ∉ base.map Prod.snd

/-- What a format promises of the strings `P`: they can be read back and have a first character. -/
structure Lawful (fmt : StrFormat) (P : List Byte → Prop) (base : List (Nat × List Byte)) :
    Prop where
  copy_pos : ∀ s, 0 < (fmt.copy s).length
  copy_length : ∀ s, P s → (fmt.copy s).length < 2 ^ 24 →
    (fmt.copy s).length = fmt.getBufferLength s.length
  getStr : ∀ m i s, P s → Holds m i (fmt.copy s) →
    Holds m (fmt.getStr m i) s ∧ fmt.getStr m i + s.length ≤ i + (fmt.copy s).length
  first : ∀ m i s, Key P base s → Holds m i (fmt.copy s) →
    fmt.getStr m i + 1 ≤ i + (fmt.copy s).length ∧ (s = [] → m (fmt.getStr m i) = 0)
  getLength : ∀ m size i s, P s → Holds m i (fmt.copy s) → i + (fmt.copy s).length ≤ size →
    fmt.getLength m size i = some s.length

/-- The position of an entry with its length, as the hash table keeps it. -/
def packed (e : Nat × List Byte) : Nat := makeStrIndex e.2.length e.1

/-- The entries `es` fill the buffer from `i` to `last`. -/
def Laid (fmt : StrFormat) (m : Mem) : Nat → List (Nat × List Byte) → Nat → Prop
  | i, [], last => i = last
  | i, e :: es, last =>
    e.1 = i ∧ Holds m i (fmt.copy e.2) ∧ Laid fmt m (i + (fmt.copy e.2).length) es last

theorem makeStrIndex_eq {size idx : Nat} (h : idx < 2 ^ 24) :
    makeStrIndex size idx = idx * 256 + min size 255 := by
  unfold makeStrIndex
  have hsize : (if size > 0xff then 0xff else size) = min size 255 := by
    split <;> omega
  simp only [hsize]
  rw [← Nat.shiftLeft_add_eq_or_of_lt (show min size 255 < 2 ^ 8 by omega), Nat.shiftLeft_eq]
  omega

theorem strIndexIndex_packed {e : Nat × List Byte} (h : e.1 < 2 ^ 24) :
    strIndexIndex (packed e) = e.1 := by
  unfold strIndexIndex packed
  rw [makeStrIndex_eq h, Nat.shiftRight_eq_div_pow]
  omega

theorem strIndexSize_packed {e : Nat × List Byte} (h : e.1 < 2 ^ 24) :
    strIndexSize (packed e) = min e.2.length 255 := by
  unfold strIndexSize packed
  rw [makeStrIndex_eq h, show (0xff : Nat) = 2 ^ 8 - 1 from rfl, Nat.and_two_pow_sub_one_eq_mod]
  omega

theorem packed_inj {e e' : Nat × List Byte} (h : e.1 < 2 ^ 24) (h' : e'.1 < 2 ^ 24)
    (heq : packed e = packed e') : e.1 = e'.1 := by
  rw [← strIndexIndex_packed h, heq, strIndexIndex_packed h']

variable {s : List Byte} {idxs : List Nat} {n : Nat} {t' : Table}

section layout
variable {fmt : StrFormat} {m m' : Mem} {i last : Nat} {es : List (Nat × List Byte)}

theorem Laid.le : ∀ {es : List (Nat × List Byte)} {i : Nat}, Laid fmt m i es last → i ≤ last := by
  intro es
  induction es with
  | nil => intro i h; exact Nat.le_of_eq h
  | cons e es ih =>
    rintro i ⟨_, _, h⟩
    have := ih h
    omega

theorem Laid.mem {e : Nat × List Byte} : ∀ {es : List (Nat × List Byte)} {i : Nat},
    Laid fmt m i es last → e ∈ es →
      i ≤ e.1 ∧ Holds m e.1 (fmt.copy e.2) ∧ e.1 + (fmt.copy e.2).length ≤ last := by
  intro es
  induction es with
  | nil => intro i _ h; cases h
  | cons e' es ih =>
    rintro i ⟨rfl, hholds, hrest⟩ hmem
    rcases mem_cons.mp hmem with rfl | hmem
    · exact ⟨Nat.le_refl _, hholds, hrest.le⟩
    · obtain ⟨h1, h2, h3⟩ := ih hrest hmem
      exact ⟨by omega, h2, h3⟩

theorem Laid.congr : ∀ {es : List (Nat × List Byte)} {i : Nat}, Laid fmt m i es last →
    (∀ x, i ≤ x → x < last → m' x = m x) → Laid fmt m' i es last := by
  intro es
  induction es with
  | nil => intro i h _; exact h
  | cons e es ih =>
    rintro i ⟨rfl, hholds, hrest⟩ hsame
    have hle := hrest.le
    refine ⟨rfl, fun k hk => ?_, ih hrest fun x h1 h2 => hsame x (by omega) h2⟩
    rw [hsame _ (by omega) (by omega)]
    exact hholds k hk

theorem Laid.append : ∀ {es : List (Nat × List Byte)} {i : Nat},
    Laid fmt m i es last → Holds m last (fmt.copy s) →
      Laid fmt m i (es ++ [(last, s)]) (last + (fmt.copy s).length) := by
  intro es
  induction es with
  | nil =>
    rintro i rfl hs
    exact ⟨rfl, hs, rfl⟩
  | cons e es ih =>
    rintro i ⟨rfl, hholds, hrest⟩ hs
    exact ⟨rfl, hholds, ih hrest hs⟩

theorem Laid.unique (hne : ∀ e ∈ es, 0 < (fmt.copy e.2).length) : ∀ {i : Nat},
    Laid fmt m i es last → ∀ e ∈ es, ∀ e' ∈ es, e.1 = e'.1 → e = e' := by
  induction es with
  | nil => intro i _ e he; cases he
  | cons d es ih =>
    rintro i ⟨rfl, _, hrest⟩ e he e' he' heq
    have hd := hne d (mem_cons_self ..)
    rcases mem_cons.mp he with rfl | hin
    · rcases mem_cons.mp he' with rfl | hin'
      · rfl
      · have := (hrest.mem hin').1
        omega
    · rcases mem_cons.mp he' with rfl | hin'
      · have := (hrest.mem hin).1
        omega
      · exact ih (fun x hx => hne x (mem_cons_of_mem _ hx)) hrest e hin e' hin' heq

end layout

/-! ## Looking up an entry -/

section lookup
variable {fmt : StrFormat} {P : List Byte → Prop} {base es : List (Nat × List Byte)} {t : Table}
  {e e' : Nat × List Byte}

/-- The bytes of an entry are in the table. -/
structure Stored (fmt : StrFormat) (t : Table) (e : Nat × List Byte) : Prop where
  holds : Holds t.buffer e.1 (fmt.copy e.2)
  inside : e.1 + (fmt.copy e.2).length ≤ t.bufferSize
  small : e.1 < 2 ^ 24

theorem readBytes_eq {p : Nat} (h : Holds t.buffer p s)
    (hin : p + s.length ≤ t.bufferSize) : readBytes t p s.length = some s := by
  unfold readBytes
  rw [if_pos hin, h.load]

theorem extractKey_packed (law : Lawful fmt P base) (h : Stored fmt t e) (hp : P e.2) :
    extractKey fmt t (packed e) = some ⟨fmt.getStr t.buffer e.1, e.2.length⟩ := by
  have hlen := law.getLength t.buffer t.bufferSize e.1 e.2 hp h.holds h.inside
  unfold extractKey
  simp only [strIndexIndex_packed h.small, strIndexSize_packed h.small, hlen]
  by_cases hl : e.2.length < 255
  · rw [if_pos (by omega), show min e.2.length 255 = e.2.length by omega]
  · rw [if_neg (by omega)]
    rfl

theorem hash_isSome (law : Lawful fmt P base) (h : Stored fmt t e) (hp : P e.2) :
    ∃ v, hash t ⟨fmt.getStr t.buffer e.1, e.2.length⟩ = some v := by
  obtain ⟨hholds, hin⟩ := law.getStr t.buffer e.1 e.2 hp h.holds
  have hinside := h.inside
  unfold hash
  simp only
  rw [readBytes_eq hholds (by omega)]
  exact ⟨_, rfl⟩

theorem equal_eq (law : Lawful fmt P base) (h : Stored fmt t e) (h' : Stored fmt t e')
    (hk : Key P base e.2) (hk' : Key P base e'.2) :
    equal t ⟨fmt.getStr t.buffer e.1, e.2.length⟩ ⟨fmt.getStr t.buffer e'.1, e'.2.length⟩
      = some (decide (e.2 = e'.2)) := by
  obtain ⟨hholds, hin⟩ := law.getStr t.buffer e.1 e.2 hk.1 h.holds
  obtain ⟨hholds', hin'⟩ := law.getStr t.buffer e'.1 e'.2 hk'.1 h'.holds
  obtain ⟨hfst, hzero⟩ := law.first t.buffer e.1 e.2 hk h.holds
  obtain ⟨hfst', hzero'⟩ := law.first t.buffer e'.1 e'.2 hk' h'.holds
  have hinside := h.inside
  have hinside' := h'.inside
  unfold equal
  by_cases hlen : e.2.length = e'.2.length
  · have hread := readBytes_eq hholds (by omega)
    have hread' := readBytes_eq hholds' (by omega)
    have hone : readBytes t (fmt.getStr t.buffer e.1) 1 = some [t.buffer (fmt.getStr t.buffer e.1)] := by
      unfold readBytes
      rw [if_pos (by omega)]
      simp [load]
    have hone' : readBytes t (fmt.getStr t.buffer e'.1) 1
        = some [t.buffer (fmt.getStr t.buffer e'.1)] := by
      unfold readBytes
      rw [if_pos (by omega)]
      simp [load]
    rw [← hlen] at hread'
    simp only [hlen.symm, ne_eq, not_true_eq_false, if_false, hone, hone', hread, hread',
      bind_eq_bind, bind_some]
    by_cases hs : e.2 = e'.2
    · -- equal strings begin with the same character, the empty one with its terminator
      have hfirst : t.buffer (fmt.getStr t.buffer e.1) = t.buffer (fmt.getStr t.buffer e'.1) := by
        rcases hcase : e.2 with _ | ⟨c, cs⟩
        · rw [hzero hcase, hzero' (by rw [← hs]; exact hcase)]
        · have h0 := hholds 0 (by rw [hcase]; simp)
          have h0' := hholds' 0 (by rw [← hs, hcase]; simp)
          rw [Nat.add_zero] at h0 h0'
          rw [h0, h0']
          simp only [hs]
      rw [if_neg (by simp [hfirst])]
      simp [hs]
    · rw [decide_eq_false hs]
      by_cases hc : [t.buffer (fmt.getStr t.buffer e.1)] = [t.buffer (fmt.getStr t.buffer e'.1)]
      · rw [if_neg (by simp [hc])]
        simp [hs]
      · rw [if_pos hc]
        rfl
  · simp only [ne_eq, hlen, not_false_eq_true, if_true]
    have hs : e.2 ≠ e'.2 := fun h => hlen (by rw [h])
    simp [hs]

theorem findM?_cons {α : Type} (p : α → Option Bool) (x : α) (l : List α) {b : Bool}
    (h : p x = some b) : (x :: l).findM? p = if b then some (some x) else l.findM? p := by
  cases b <;> simp [findM?, h]

theorem findOrInsert_eq (law : Lawful fmt P base) (hhash : t.hashTable = es.map packed)
    (hes : ∀ d ∈ es, Stored fmt t d ∧ Key P base d.2) (h : Stored fmt t e) (hk : Key P base e.2) :
    findOrInsert fmt t (packed e) = match es.find? (fun d => decide (d.2 = e.2)) with
      | some d => some (packed d, t)
      | none => some (packed e, { t with hashTable := t.hashTable ++ [packed e] }) := by
  obtain ⟨v, hv⟩ := hash_isSome law h hk.1
  have hfind : t.hashTable.findM? (hasKey fmt t ⟨fmt.getStr t.buffer e.1, e.2.length⟩)
      = some ((es.find? fun d => decide (d.2 = e.2)).map packed) := by
    rw [hhash]
    clear hhash
    induction es with
    | nil => rfl
    | cons d es ih =>
      obtain ⟨hd, hkd⟩ := hes d (mem_cons_self ..)
      have hstep : hasKey fmt t ⟨fmt.getStr t.buffer e.1, e.2.length⟩ (packed d)
          = some (decide (d.2 = e.2)) := by
        unfold hasKey
        rw [extractKey_packed law hd hkd.1, bind_eq_bind, bind_some]
        exact equal_eq law hd h hkd hk
      rw [map_cons, findM?_cons _ _ _ hstep, find?_cons]
      by_cases hs : d.2 = e.2
      · simp [hs]
      · simpa [hs] using ih fun x hx => hes x (mem_cons_of_mem _ hx)
  unfold findOrInsert
  simp only [extractKey_packed law h hk.1, bind_eq_bind, bind_some, hv]
  rw [hfind]
  cases es.find? fun d => decide (d.2 = e.2) with
  | none => rfl
  | some d => rfl

end lookup

/-! ## Inserting -/

/-- The table holds the entries `es` behind the empty first one. -/
structure Inv (fmt : StrFormat) (P : List Byte → Prop) (base : List (Nat × List Byte)) (t : Table)
    (es : List (Nat × List Byte)) : Prop where
  room : t.lastIdx ≤ t.bufferSize
  small : t.lastIdx < 2 ^ 24
  laid : Laid fmt t.buffer 0 ((0, []) :: es) t.lastIdx
  hashed : t.hashTable = es.map packed
  distinct : ((base ++ es).map Prod.snd).Nodup
  allowed : ∀ e ∈ (0, []) :: es, P e.2

section inserting
variable {fmt : StrFormat} {P : List Byte → Prop} {base es : List (Nat × List Byte)} {t : Table}

theorem Inv.stored (h : Inv fmt P base t es) {e : Nat × List Byte} (he : e ∈ (0, []) :: es) :
    Stored fmt t e := by
  obtain ⟨_, hholds, hlast⟩ := h.laid.mem he
  have hroom := h.room
  have hsmall := h.small
  exact ⟨hholds, by omega, by omega⟩

theorem Inv.pos (law : Lawful fmt P base) (h : Inv fmt P base t es) : 0 < t.lastIdx := by
  have hfirst := (h.laid.mem (mem_cons_self ..)).2.2
  have hlen := law.copy_pos []
  simp only at hfirst
  omega

theorem le_growSize (size : Nat) {lastIdx : Nat} : ∀ (fuel : Nat) {b : Nat}, 0 < b → lastIdx ≤ b →
    size ≤ b - lastIdx + fuel →
    size ≤ growSize size lastIdx fuel b - lastIdx ∧ b ≤ growSize size lastIdx fuel b := by
  intro fuel
  induction fuel with
  | zero => intro b _ _ h; exact ⟨h, Nat.le_refl _⟩
  | succ fuel ih =>
    intro b hb hlast h
    unfold growSize
    by_cases hgt : size > b - lastIdx
    · rw [if_pos hgt]
      by_cases hsmall : b < 0x100000
      · rw [if_pos hsmall]
        have := @ih (b * 2) (by omega) (by omega) (by omega)
        omega
      · rw [if_neg hsmall]
        have := @ih (b + 0x80000) (by omega) (by omega) (by omega)
        omega
    · rw [if_neg hgt]
      exact ⟨by omega, Nat.le_refl _⟩

theorem copyStr_spec (law : Lawful fmt P base) (h : Inv fmt P base t es) (hs : P s)
    (hfits : t.lastIdx + (fmt.copy s).length < 2 ^ 24) :
    (copyStr fmt t s).lastIdx = t.lastIdx + (fmt.copy s).length ∧
      (copyStr fmt t s).lastIdx ≤ (copyStr fmt t s).bufferSize ∧
      (copyStr fmt t s).hashTable = t.hashTable ∧
      Laid fmt (copyStr fmt t s).buffer 0 ((0, []) :: es) t.lastIdx ∧
      Holds (copyStr fmt t s).buffer t.lastIdx (fmt.copy s) := by
  have hlen := law.copy_length s hs (by omega)
  have hroom := h.room
  have hpos := h.pos law
  obtain ⟨hgrow, _⟩ := le_growSize (fmt.getBufferLength s.length)
    (fmt.getBufferLength s.length) (b := t.bufferSize) (by omega) hroom (by omega)
  refine ⟨?_, ?_, rfl, ?_, ?_⟩
  · simp only [copyStr, reserve, hlen]
  · simp only [copyStr, reserve]
    omega
  · refine h.laid.congr fun x _ hx => ?_
    simp only [copyStr, reserve]
    exact store_outside (.inl hx)
  · simp only [copyStr, reserve]
    exact holds_store _ _ _

theorem Inv.key (h : Inv fmt P base t es) {d : Nat × List Byte} (hd : d ∈ es) : Key P base d.2:= by
  refine ⟨h.allowed d (mem_cons_of_mem _ hd), fun hmem => ?_⟩
  have hdis := h.distinct
  rw [map_append, nodup_append] at hdis
  exact hdis.2.2 d.2 hmem d.2 (mem_map_of_mem hd) rfl

/-- An insertion finds an equal string that is stored, or appends one; stored strings keep their
index. -/
theorem insert_spec (law : Lawful fmt P base) (h : Inv fmt P base t es)
    (hkey : Key P base s) (hfits : t.lastIdx + (fmt.copy s).length < 2 ^ 24) :
    ∃ i t' es', insert fmt t s = some (i, t') ∧ Inv fmt P base t' es' ∧ es <+: es' ∧
      (i, s) ∈ es' := by
  obtain ⟨hlast, hroom, hhash, hlaid, hnew⟩ := copyStr_spec law h hkey.1 hfits
  have hsmall := h.small
  -- in the enlarged buffer the old entries and the new one are stored
  have hold : ∀ d ∈ es, Stored fmt (copyStr fmt t s) d ∧ Key P base d.2 := by
    intro d hd
    obtain ⟨_, hholds, hle⟩ := hlaid.mem (mem_cons_of_mem _ hd)
    have := law.copy_pos d.2
    exact ⟨⟨hholds, by omega, by omega⟩, h.key hd⟩
  have hstored : Stored fmt (copyStr fmt t s) (t.lastIdx, s) := ⟨hnew, by simp only; omega, hsmall⟩
  have hfind := findOrInsert_eq law (hhash.trans h.hashed) hold hstored hkey
  have hpacked : makeStrIndex s.length t.lastIdx = packed (t.lastIdx, s) := rfl
  unfold insert
  simp only [hpacked, hfind, bind_eq_bind]
  cases hcase : es.find? fun d => decide (d.2 = s) with
  | some d =>
    -- an entry with these contents: the append is undone
    have hd : d ∈ es := mem_of_find?_eq_some hcase
    have hds : d.2 = s := by simpa using find?_some hcase
    obtain ⟨_, _, hle⟩ := hlaid.mem (mem_cons_of_mem _ hd)
    have hlen := law.copy_pos d.2
    have hne : packed (t.lastIdx, s) ≠ packed d := by
      intro heq
      have := packed_inj (e := (t.lastIdx, s)) hsmall (show d.1 < 2 ^ 24 by omega) heq
      simp only at this
      omega
    refine ⟨d.1, { copyStr fmt t s with lastIdx := t.lastIdx }, es, ?_, ?_, prefix_rfl, ?_⟩
    · simp only [bind_some, if_pos hne, strIndexIndex_packed (show d.1 < 2 ^ 24 by omega)]
      rfl
    · exact ⟨by simp only; omega, hsmall, hlaid, hhash.trans h.hashed, h.distinct, h.allowed⟩
    · rw [← hds]
      exact hd
  | none =>
    have habsent : s ∉ es.map Prod.snd := by
      intro hmem
      obtain ⟨d, hd, hds⟩ := mem_map.mp hmem
      have := find?_eq_none.mp hcase d hd
      simp [hds] at this
    refine ⟨t.lastIdx,
      { copyStr fmt t s with
        hashTable := (copyStr fmt t s).hashTable ++ [packed (t.lastIdx, s)] },
      es ++ [(t.lastIdx, s)], ?_, ?_, prefix_append _ _, by simp⟩
    · simp only [bind_some, ne_eq, not_true_eq_false, if_false]
      rfl
    · refine ⟨hroom, by rw [hlast]; exact hfits, ?_, ?_, ?_, ?_⟩
      · rw [hlast]
        exact hlaid.append hnew
      · simp only [hhash, h.hashed, map_append, map_cons, map_nil]
      · rw [← append_assoc, map_append, nodup_append]
        refine ⟨h.distinct, by simp, ?_⟩
        intro a ha b hb
        simp only [map_cons, map_nil, mem_singleton] at hb
        rw [map_append, mem_append] at ha
        rintro rfl
        subst hb
        exact ha.elim hkey.2 habsent
      · intro e he
        rw [← cons_append, mem_append] at he
        rcases he with he | he
        · exact h.allowed e he
        · rw [mem_singleton] at he
          rw [he]
          exact hkey.1

end inserting

/-! ## Sequences of insertions -/

/-- A sequence of insertions, and the indices it returns. -/
def saveAll (save : Table → List Byte → Option (Nat × Table)) :
    Table → List (List Byte) → Option (List Nat × Table)
  | t, [] => some ([], t)
  | t, s :: strs => do
    let (i, t) ← save t s
    let (idxs, t) ← saveAll save t strs
    return (i :: idxs, t)

/-- The buffer stays below 2^24 bytes, a string that is only looked up included. -/
def Fits (fmt : StrFormat) (save : Table → List Byte → Option (Nat × Table)) :
    Table → List (List Byte) → Prop
  | _, [] => True
  | t, s :: strs => t.lastIdx + (fmt.copy s).length < 2 ^ 24 ∧
      ∀ i t', save t s = some (i, t') → Fits fmt save t' strs

/-- Index `i` reads back the string `s` and its length. -/
def ReadsBack (fmt : StrFormat) (t : Table) (i : Nat) (s : List Byte) : Prop :=
  fmt.getLength t.buffer t.bufferSize i = some s.length ∧
    readBytes t (fmt.getStr t.buffer i) s.length = some s

/-- The indices read back their strings, and are equal exactly for equal ones. -/
structure Interned (fmt : StrFormat) (t : Table) (strs : List (List Byte)) (idxs : List Nat) :
    Prop where
  length : idxs.length = strs.length
  reads : ∀ p ∈ idxs.zip strs, ReadsBack fmt t p.1 p.2
  same : ∀ p ∈ idxs.zip strs, ∀ q ∈ idxs.zip strs, p.1 = q.1 ↔ p.2 = q.2

/-- How one insertion behaves: what both ways to save a string have in common. -/
def SaveSpec (fmt : StrFormat) (P : List Byte → Prop) (base : List (Nat × List Byte))
    (save : Table → List Byte → Option (Nat × Table)) : Prop :=
  ∀ t es s, Inv fmt P base t es → P s → t.lastIdx + (fmt.copy s).length < 2 ^ 24 →
    ∃ i t' es', save t s = some (i, t') ∧ Inv fmt P base t' es' ∧ es <+: es' ∧
      (i, s) ∈ base ++ es'

section sequences
variable {fmt : StrFormat} {P : List Byte → Prop} {base es : List (Nat × List Byte)} {t : Table}
  {save : Table → List Byte → Option (Nat × Table)}

theorem saveAll_spec (hsave : SaveSpec fmt P base save) (strs : List (List Byte)) :
    ∀ {t : Table} {es : List (Nat × List Byte)}, Inv fmt P base t es → (∀ s ∈ strs, P s) →
      Fits fmt save t strs →
      ∃ idxs t' es', saveAll save t strs = some (idxs, t') ∧ Inv fmt P base t' es' ∧ es <+: es' ∧
        idxs.length = strs.length ∧ ∀ p ∈ idxs.zip strs, p ∈ base ++ es' := by
  induction strs with
  | nil =>
    intro t es h _ _
    exact ⟨[], t, es, rfl, h, prefix_rfl, rfl, fun p hp => by cases hp⟩
  | cons s strs ih =>
    rintro t es h hP ⟨hfit, hfits⟩
    obtain ⟨i, t1, es1, hone, hinv1, hpre1, hmem1⟩ :=
      hsave t es s h (hP s (mem_cons_self ..)) hfit
    obtain ⟨idxs, t2, es2, hrest, hinv2, hpre2, hlen, hmem2⟩ :=
      ih hinv1 (fun s hs => hP s (mem_cons_of_mem _ hs)) (hfits i t1 hone)
    refine ⟨i :: idxs, t2, es2, ?_, hinv2, hpre1.trans hpre2, by simp [hlen], ?_⟩
    · simp only [saveAll, hone, hrest, bind_eq_bind, bind_some]
      rfl
    · intro p hp
      rw [zip_cons_cons, mem_cons] at hp
      rcases hp with rfl | hp
      · rw [mem_append] at hmem1 ⊢
        exact hmem1.imp_right fun h => hpre2.subset h
      · exact hmem2 p hp

theorem saveAll_take (strs : List (List Byte)) : ∀ {t t' : Table} {idxs : List Nat} (k : Nat),
    saveAll save t strs = some (idxs, t') →
    ∃ t1, saveAll save t (strs.take k) = some (idxs.take k, t1) := by
  induction strs with
  | nil =>
    intro t t' idxs k h
    cases h
    exact ⟨t, by simp [saveAll]⟩
  | cons s strs ih =>
    intro t t' idxs k h
    cases k with
    | zero => exact ⟨t, rfl⟩
    | succ k =>
      simp only [saveAll, bind_eq_bind] at h
      obtain ⟨⟨i, t1⟩, hone, h⟩ := bind_eq_some_iff.mp h
      obtain ⟨⟨is, t2⟩, hrest, h⟩ := bind_eq_some_iff.mp h
      cases h
      obtain ⟨t3, h3⟩ := ih k hrest
      refine ⟨t3, ?_⟩
      simp only [take_succ_cons, saveAll, hone, h3, bind_eq_bind, bind_some]
      rfl

theorem Fits.take : ∀ {strs : List (List Byte)} {t : Table} (k : Nat), Fits fmt save t strs →
    Fits fmt save t (strs.take k) := by
  intro strs
  induction strs with
  | nil => intro t k _; simp [Fits]
  | cons s strs ih =>
    rintro t k ⟨hfit, hrest⟩
    cases k with
    | zero => trivial
    | succ k => exact ⟨hfit, fun i t' h => ih k (hrest i t' h)⟩

theorem Inv.interned (law : Lawful fmt P base) (h : Inv fmt P base t es)
    (hbase : ∀ e ∈ base, e = (0, [])) {strs : List (List Byte)}
    (hlen : idxs.length = strs.length) (hmem : ∀ p ∈ idxs.zip strs, p ∈ base ++ es) :
    Interned fmt t strs idxs := by
  have hentry : ∀ p ∈ base ++ es, p ∈ (0, []) :: es := by
    intro p hp
    rcases mem_append.mp hp with hp | hp
    · rw [hbase p hp]
      exact mem_cons_self ..
    · exact mem_cons_of_mem _ hp
  have hpos : ∀ e ∈ (0, []) :: es, 0 < (fmt.copy e.2).length := fun e _ => law.copy_pos e.2
  refine ⟨hlen, fun p hp => ?_, fun p hp q hq => ⟨fun heq => ?_, fun heq => ?_⟩⟩
  · have he := hentry p (hmem p hp)
    have hst := h.stored he
    obtain ⟨hholds, hin⟩ := law.getStr t.buffer p.1 p.2 (h.allowed p he) hst.holds
    have hinside := hst.inside
    exact ⟨law.getLength _ _ _ _ (h.allowed p he) hst.holds hst.inside,
      readBytes_eq hholds (by omega)⟩
  · rw [h.laid.unique hpos p (hentry p (hmem p hp)) q (hentry q (hmem q hq)) heq]
  · have hinj := inj_on_of_nodup_map h.distinct (hmem p hp) (hmem q hq) heq
    rw [hinj]

end sequences

/-! ## Loading a dumped buffer -/

section loading
variable {fmt : StrFormat} {P : List Byte → Prop} {base es : List (Nat × List Byte)} {t : Table}

theorem Inv.nodup (h : Inv fmt P base t es) : (es.map Prod.snd).Nodup := by
  have hdis := h.distinct
  rw [map_append, nodup_append] at hdis
  exact hdis.2.1

theorem dump_length (t : Table) : (dump t).length = t.lastIdx := by
  simp [dump]

theorem laid_dump {last i : Nat} {m : Mem} (garbage : Mem) (h : Laid fmt m i es last) :
    Laid fmt (store garbage 0 (load m 0 last)) i es last := by
  refine h.congr fun x _ hx => ?_
  rw [store_inside (by omega) (by simpa using hx)]
  simp [load]

/-- The scan that rebuilds the hash table of a buffer finds the strings that were laid into it, one
after the other. -/
theorem initHashFrom_eq (law : Lawful fmt P base) (rest : List (Nat × List Byte)) :
    ∀ (done : List (Nat × List Byte)) (t : Table) (idx fuel : Nat),
      t.lastIdx ≤ t.bufferSize → t.lastIdx < 2 ^ 24 → t.hashTable = done.map packed →
      (∀ d ∈ done, Stored fmt t d ∧ Key P base d.2) → Laid fmt t.buffer idx rest t.lastIdx →
      (∀ e ∈ rest, Key P base e.2) → ((done ++ rest).map Prod.snd).Nodup → t.lastIdx ≤ idx + fuel →
      initHashFrom fmt fuel idx t = some { t with hashTable := (done ++ rest).map packed } := by
  induction rest with
  | nil =>
    rintro done t idx fuel _ _ hhash _ hlaid _ _ _
    have hend : ¬ idx < t.lastIdx := Nat.not_lt.mpr (Nat.le_of_eq hlaid.symm)
    have ht : { t with hashTable := (done ++ []).map packed } = t := by
      rw [append_nil, ← hhash]
    rw [ht]
    cases fuel with
    | zero => simp [initHashFrom, hend]
    | succ fuel => simp [initHashFrom, hend]
  | cons e rest ih =>
    rintro done t idx fuel hroom hsmall hhash hdone ⟨rfl, hholds, hlaid⟩ hP hnodup hfuel
    have hkey := hP e (mem_cons_self ..)
    have hpe := hkey.1
    have hlen := law.copy_pos e.2
    have hle := hlaid.le
    have hbuf := law.copy_length e.2 hpe (by omega)
    cases fuel with
    | zero => omega
    | succ fuel =>
      have hstored : Stored fmt t e := ⟨hholds, by omega, by omega⟩
      have hnone : done.find? (fun d => decide (d.2 = e.2)) = none := by
        rw [find?_eq_none]
        intro d hd heq
        rw [map_append, nodup_append] at hnodup
        exact hnodup.2.2 d.2 (mem_map_of_mem hd) e.2
          (mem_map_of_mem (mem_cons_self ..)) (by simpa using heq)
      have hfind := findOrInsert_eq law hhash hdone hstored hkey
      rw [hnone] at hfind
      have hpacked : makeStrIndex e.2.length e.1 = packed e := rfl
      have hnext : (e.1 + fmt.getBufferLength e.2.length) % 2 ^ 32
          = e.1 + (fmt.copy e.2).length := by
        rw [← hbuf]
        omega
      have hrest := ih (done ++ [e]) { t with hashTable := t.hashTable ++ [packed e] }
        (e.1 + (fmt.copy e.2).length) fuel hroom hsmall (by simp [hhash])
        (by
          intro d hd
          rcases mem_append.mp hd with hd | hd
          · obtain ⟨⟨h1, h2, h3⟩, h4⟩ := hdone d hd
            exact ⟨⟨h1, h2, h3⟩, h4⟩
          · rw [mem_singleton] at hd
            subst hd
            exact ⟨⟨hholds, hstored.inside, hstored.small⟩, hkey⟩)
        hlaid (fun d hd => hP d (mem_cons_of_mem _ hd)) (by simpa using hnodup)
        (by simp only; omega)
      unfold initHashFrom
      rw [if_pos (by omega)]
      simp only [law.getLength _ _ _ _ hpe hholds hstored.inside, bind_eq_bind,
        bind_some, hpacked, hfind, hnext, hrest]
      simp

theorem initializeStrtabFrom_spec (law : Lawful fmt P base) (h : Inv fmt P base t es) (garbage : Mem)
    (hfirst : fmt.copy [] = [0]) :
    ∃ t', initializeStrtabFrom fmt garbage (dump t) = some t' ∧ Inv fmt P base t' es := by
  have hlaid := laid_dump garbage h.laid
  obtain ⟨_, _, hes⟩ := hlaid
  rw [hfirst] at hes
  have hload := initHashFrom_eq law es [] (bufferTable garbage (dump t)) 1 (dump t).length
    (Nat.le_refl _) (by simp only [bufferTable, dump_length]; exact h.small) rfl (fun d hd => by cases hd)
    (by simp only [bufferTable, dump_length]; exact hes)
    (fun e he => h.key he) (by simpa using h.nodup)
    (by simp only [bufferTable]; omega)
  refine ⟨_, hload, ?_⟩
  refine ⟨Nat.le_refl _, by simp only [bufferTable, dump_length]; exact h.small, ?_, rfl,
    h.distinct, h.allowed⟩
  simp only [bufferTable, dump_length]
  exact laid_dump garbage h.laid

end loading

/-- Merging keeps the buffer of the table below 2^24 bytes. -/
def MergeFits (fmt : StrFormat) (src : Table) : Nat → Nat → Table → Prop
  | 0, _, _ => True
  | fuel + 1, idx, t => idx < src.lastIdx → ∀ size str,
      fmt.getLength src.buffer src.bufferSize idx = some size →
      readBytes src (fmt.getStr src.buffer idx) size = some str →
      t.lastIdx + (fmt.copy str).length < 2 ^ 24 ∧
        ∀ i t', insert fmt t str = some (i, t') →
          MergeFits fmt src fuel ((idx + fmt.getBufferLength size) % 2 ^ 32) t'

section merging
variable {fmt : StrFormat} {P : List Byte → Prop} {base : List (Nat × List Byte)} {src : Table}

/-- The merge scan inserts every string of the other table and maps its index to the new one. -/
theorem mergeFrom_spec (law : Lawful fmt P base) (hroom : src.lastIdx ≤ src.bufferSize)
    (hsmall : src.lastIdx < 2 ^ 24) (rest : List (Nat × List Byte)) :
    ∀ (idx fuel : Nat) (map : List (Nat × Nat)) (t : Table) (es : List (Nat × List Byte)),
      Laid fmt src.buffer idx rest src.lastIdx → (∀ e ∈ rest, Key P base e.2) →
      src.lastIdx ≤ idx + fuel → Inv fmt P base t es → MergeFits fmt src fuel idx t →
      ∃ map' t' es', mergeFrom fmt src fuel idx map t = some (map ++ map', t') ∧
        Inv fmt P base t' es' ∧ es <+: es' ∧ map'.map Prod.fst = rest.map Prod.fst ∧
        ∀ q ∈ map', ∃ e ∈ rest, e.1 = q.1 ∧ (q.2, e.2) ∈ es' := by
  induction rest with
  | nil =>
    rintro idx fuel map t es hlaid _ _ hinv _
    have hend : ¬ idx < src.lastIdx := Nat.not_lt.mpr (Nat.le_of_eq hlaid.symm)
    refine ⟨[], t, es, ?_, hinv, prefix_rfl, rfl, fun q hq => by cases hq⟩
    rw [append_nil]
    cases fuel with
    | zero => simp [mergeFrom, hend]
    | succ fuel => simp [mergeFrom, hend]
  | cons e rest ih =>
    rintro idx fuel map t es ⟨rfl, hholds, hlaid⟩ hkeys hfuel hinv hfits
    have hkey := hkeys e (mem_cons_self ..)
    have hlen := law.copy_pos e.2
    have hle := hlaid.le
    have hbuf := law.copy_length e.2 hkey.1 (by omega)
    cases fuel with
    | zero => omega
    | succ fuel =>
      have hlt : e.1 < src.lastIdx := by omega
      have hsize := law.getLength src.buffer src.bufferSize e.1 e.2 hkey.1 hholds (by omega)
      obtain ⟨hstr, hin⟩ := law.getStr src.buffer e.1 e.2 hkey.1 hholds
      have hread := readBytes_eq (t := src) hstr (by omega)
      obtain ⟨hfit, hrestFits⟩ := hfits hlt _ _ hsize hread
      obtain ⟨i, t1, es1, hins, hinv1, hpre1, hmem1⟩ := insert_spec law hinv hkey hfit
      have hnext : (e.1 + fmt.getBufferLength e.2.length) % 2 ^ 32
          = e.1 + (fmt.copy e.2).length := by
        rw [← hbuf]
        omega
      have hfits1 := hrestFits i t1 hins
      rw [hnext] at hfits1
      obtain ⟨map', t2, es2, hmerge, hinv2, hpre2, hfst, hmap⟩ :=
        ih (e.1 + (fmt.copy e.2).length) fuel (map ++ [(e.1, i)]) t1 es1 hlaid
          (fun d hd => hkeys d (mem_cons_of_mem _ hd)) (by omega) hinv1 hfits1
      refine ⟨(e.1, i) :: map', t2, es2, ?_, hinv2, hpre1.trans hpre2, by simp [hfst], ?_⟩
      · unfold mergeFrom
        rw [if_pos hlt]
        simp only [hsize, hread, hins, hnext, bind_eq_bind, bind_some]
        rw [hmerge, append_assoc]
        rfl
      · intro q hq
        rcases mem_cons.mp hq with rfl | hq
        · exact ⟨e, mem_cons_self .., rfl, hpre2.subset hmem1⟩
        · obtain ⟨d, hd, h1, h2⟩ := hmap q hq
          exact ⟨d, mem_cons_of_mem _ hd, h1, h2⟩

end merging

/-! ## The two formats -/

/-- No character of the string is the terminator. -/
def NoNul (s : List Byte) : Prop := ∀ c ∈ s, c ≠ 0

/-- The length fits a signed `char`. -/
def Short (s : List Byte) : Prop := s.length ≤ 127

theorem strlen_eq {m : Mem} {size i : Nat} (hs : NoNul s)
    (h : Holds m i (s ++ [0])) (hin : i + (s.length + 1) ≤ size) : strlen m size i = some s.length := by
  unfold strlen
  rw [find?_range_eq_some]
  refine ⟨?_, ?_, ?_⟩
  · have hend := h s.length (by simp)
    rw [getElem_append_right (by omega)] at hend
    simpa using hend
  · rw [mem_range]
    omega
  · intro j hj
    have hchar := h j (by rw [length_append]; omega)
    rw [getElem_append_left hj] at hchar
    simpa [hchar] using hs _ (getElem_mem hj)

theorem nullTerminated_lawful : Lawful nullTerminatedString NoNul [] where
  copy_pos s := by simp [nullTerminatedString]
  copy_length s _ hlt := by
    simp only [nullTerminatedString, length_append, length_cons, length_nil] at hlt ⊢
    omega
  getStr m i s _ h := by
    refine ⟨(holds_append.mp h).1, ?_⟩
    simp only [nullTerminatedString, length_append]
    omega
  first m i s _ h := by
    refine ⟨?_, fun hs => ?_⟩
    · simp only [nullTerminatedString, length_append, length_cons, length_nil]
      omega
    · subst hs
      exact h 0 (by simp [nullTerminatedString])
  getLength m size i s hs h hin := by
    simp only [nullTerminatedString, length_append, length_cons, length_nil] at hin
    exact strlen_eq hs h hin

theorem short_char (h : n ≤ 127) : (BitVec.ofNat 8 n).toInt = n := by
  rw [BitVec.toInt_eq_toNat_cond, BitVec.toNat_ofNat, Nat.mod_eq_of_lt (by omega),
    if_pos (by omega)]

theorem characterArray_copy (hs : Short s) :
    characterArray.copy s = BitVec.ofNat 8 s.length :: s := by
  have hlt : s.length < 0xff := by
    have : s.length ≤ 127 := hs
    omega
  simp only [characterArray, if_pos hlt]

theorem characterArray_head {m : Mem} {i : Nat} (hs : Short s)
    (h : Holds m i (characterArray.copy s)) :
    (m i).toInt = s.length ∧ characterArray.getStr m i = i + 1 ∧ Holds m (i + 1) s := by
  rw [characterArray_copy hs] at h
  have hle : s.length ≤ 127 := hs
  have hhead : (m i).toInt = s.length := by
    have h0 := h 0 (by simp)
    rw [Nat.add_zero] at h0
    rw [h0]
    exact short_char hs
  refine ⟨hhead, ?_, ?_⟩
  · simp only [characterArray, hhead]
    rw [if_pos (by omega)]
  · have hsplit : BitVec.ofNat 8 s.length :: s = [BitVec.ofNat 8 s.length] ++ s := rfl
    rw [hsplit, holds_append] at h
    exact h.2

theorem characterArray_lawful : Lawful characterArray Short [(0, [])] where
  copy_pos s := by
    simp only [characterArray]
    split <;> simp
  copy_length s hs _ := by
    have hle : s.length ≤ 127 := hs
    rw [characterArray_copy hs]
    simp only [characterArray, length_cons, if_pos (show s.length < 0xff by omega)]
  getStr m i s hs h := by
    obtain ⟨_, hget, hholds⟩ := characterArray_head hs h
    rw [hget, characterArray_copy hs, length_cons]
    exact ⟨hholds, by omega⟩
  first m i s hk h := by
    obtain ⟨hs, hne⟩ := hk
    have hnil : s ≠ [] := by simpa using hne
    have hpos := length_pos_of_ne_nil hnil
    obtain ⟨_, hget, _⟩ := characterArray_head hs h
    rw [hget, characterArray_copy hs, length_cons]
    exact ⟨by omega, fun h => absurd h hnil⟩
  getLength m size i s hs h hin := by
    have hle : s.length ≤ 127 := hs
    obtain ⟨hhead, _, _⟩ := characterArray_head hs h
    rw [characterArray_copy hs, length_cons] at hin
    simp only [characterArray, hhead, charToUint32]
    rw [if_neg (by omega), if_pos (by omega)]
    congr 1
    omega

theorem characterArray_length_range {m : Mem} {size i : Nat}
    (h : characterArray.getLength m size i = some n) (hn : n < 2 ^ 24) : n ≤ 127 := by
  have hlow : -128 ≤ (m i).toInt := BitVec.le_toInt _
  have hhigh : (m i).toInt < 128 := BitVec.toInt_lt
  simp only [characterArray] at h
  by_cases hin : size ≤ i
  · rw [if_pos hin] at h
    cases h
  · rw [if_neg hin, if_pos (by omega)] at h
    cases h
    unfold charToUint32 at hn ⊢
    omega

theorem saveStr_spec : SaveSpec nullTerminatedString NoNul [] saveStr := by
  intro t es s hinv hs hfit
  exact insert_spec nullTerminated_lawful hinv ⟨hs, by simp⟩ hfit

theorem saveStrN_spec : SaveSpec characterArray Short [(0, [])] saveStrN := by
  intro t es s hinv hs hfit
  unfold saveStrN
  by_cases h0 : s.length = 0
  · rw [if_pos h0]
    rw [length_eq_zero_iff] at h0
    subst h0
    exact ⟨0, t, es, rfl, hinv, prefix_rfl, by simp⟩
  · rw [if_neg h0]
    obtain ⟨i, t', es', hins, hinv', hpre, hmem⟩ := insert_spec characterArray_lawful hinv
      ⟨hs, by simpa [length_eq_zero_iff] using h0⟩ hfit
    exact ⟨i, t', es', hins, hinv', hpre, mem_append_right _ hmem⟩

/-! ## Interning is faithful -/

/-- The tables to start from: an empty one, or one loaded from the dumped buffer of another. -/
inductive Initialised (fmt : StrFormat) (save : Table → List Byte → Option (Nat × Table))
    (ok : List Byte → Prop) : Table → Prop
  | empty (garbage : Mem) (size : Nat) : 1 ≤ size →
      Initialised fmt save ok (initializeStrtab garbage size)
  | loaded (garbage : Mem) {t t' t'' : Table} {strs : List (List Byte)} {idxs : List Nat} :
      Initialised fmt save ok t → (∀ s ∈ strs, ok s) → Fits fmt save t strs →
      saveAll save t strs = some (idxs, t') →
      initializeStrtabFrom fmt garbage (dump t') = some t'' → Initialised fmt save ok t''

/-- The strings `strs` saved in `t` are interned, also when loaded or merged into the table `u`. -/
def Faithful (fmt : StrFormat) (save : Table → List Byte → Option (Nat × Table))
    (t : Table) (strs : List (List Byte)) (u : Table) (others : List (List Byte)) : Prop :=
  ∃ idxs t' idxs₀ u', saveAll save t strs = some (idxs, t') ∧
    saveAll save u others = some (idxs₀, u') ∧ Interned fmt u' others idxs₀ ∧
    (∀ k ≤ strs.length, ∃ tk, saveAll save t (strs.take k) = some (idxs.take k, tk) ∧
      Interned fmt tk (strs.take k) (idxs.take k)) ∧
    (∀ garbage, ∃ t'', initializeStrtabFrom fmt garbage (dump t') = some t'' ∧
      Interned fmt t'' strs idxs) ∧
    ∀ garbage, MergeFits fmt (bufferTable garbage (dump t')) (dump t').length 1 u' →
      ∃ map u'', mergeStrtab fmt u' garbage (dump t') = some (map, u'') ∧
        Interned fmt u'' others idxs₀ ∧
        ∀ p ∈ idxs.zip strs, (∃ j, (p.1, j) ∈ map) ∧
          ∀ j, (p.1, j) ∈ map → ReadsBack fmt u'' j p.2

section faithful
variable {fmt : StrFormat} {P : List Byte → Prop} {base es : List (Nat × List Byte)} {t u : Table}
  {save : Table → List Byte → Option (Nat × Table)} {strs others : List (List Byte)}

theorem Initialised.inv (law : Lawful fmt P base) (hsave : SaveSpec fmt P base save)
    (hfirst : fmt.copy [] = [0]) (hnil : P []) (hbase : (base.map Prod.snd).Nodup)
    (h : Initialised fmt save P t) : ∃ es, Inv fmt P base t es := by
  induction h with
  | empty garbage size hsize =>
    refine ⟨[], hsize, Nat.one_lt_two_pow (by omega), ?_, rfl, by simpa using hbase, by simpa using hnil⟩
    refine ⟨rfl, ?_, ?_⟩
    · rw [hfirst]
      exact holds_store _ _ _
    · rw [hfirst]
      rfl
  | loaded garbage _ hok hfits hrun hload ih =>
    obtain ⟨es, hinv⟩ := ih
    obtain ⟨idxs, t1, es1, hrun1, hinv1, _⟩ := saveAll_spec hsave _ hinv hok hfits
    rw [hrun] at hrun1
    cases hrun1
    obtain ⟨t2, hload2, hinv2⟩ := initializeStrtabFrom_spec law hinv1 garbage hfirst
    rw [hload] at hload2
    cases hload2
    exact ⟨es1, hinv2⟩

theorem inv_merge (law : Lawful fmt P base) (hfirst : fmt.copy [] = [0]) (h : Inv fmt P base t es)
    {us : List (Nat × List Byte)} (hu : Inv fmt P base u us) (garbage : Mem)
    (hfits : MergeFits fmt (bufferTable garbage (dump t)) (dump t).length 1 u) :
    ∃ map' u' us', mergeStrtab fmt u garbage (dump t) = some ([(0, 0)] ++ map', u') ∧
      Inv fmt P base u' us' ∧ us <+: us' ∧ map'.map Prod.fst = es.map Prod.fst ∧
      ∀ q ∈ map', ∃ e ∈ es, e.1 = q.1 ∧ (q.2, e.2) ∈ us' := by
  obtain ⟨_, _, hlaid⟩ := laid_dump garbage h.laid
  rw [hfirst] at hlaid
  refine mergeFrom_spec law (Nat.le_refl _) ?_ es 1 (dump t).length [(0, 0)] u us ?_
    (fun e he => h.key he) ?_ hu hfits
  · simp only [bufferTable, dump_length]
    exact h.small
  · simp only [bufferTable, dump_length]
    exact hlaid
  · simp only [bufferTable]
    omega

/-- From the laws of a string format to the faithfulness of every run of its table. -/
theorem faithful_of_spec (law : Lawful fmt P base) (hsave : SaveSpec fmt P base save)
    (hfirst : fmt.copy [] = [0]) (hnil : P []) (hnodup : (base.map Prod.snd).Nodup)
    (hbase : ∀ e ∈ base, e = (0, [])) (ht : Initialised fmt save P t)
    (hu : Initialised fmt save P u) (hstrs : ∀ s ∈ strs, P s) (hothers : ∀ s ∈ others, P s)
    (hfits : Fits fmt save t strs) (hfitsu : Fits fmt save u others) :
    Faithful fmt save t strs u others := by
  obtain ⟨es0, hinv0⟩ := ht.inv law hsave hfirst hnil hnodup
  obtain ⟨us0, huinv0⟩ := hu.inv law hsave hfirst hnil hnodup
  obtain ⟨idxs, t', es, hrun, hinv, _, hlen, hmem⟩ := saveAll_spec hsave strs hinv0 hstrs hfits
  obtain ⟨idxs0, u', us, hrunu, huinv, _, hlenu, hmemu⟩ :=
    saveAll_spec hsave others huinv0 hothers hfitsu
  refine ⟨idxs, t', idxs0, u', hrun, hrunu, huinv.interned law hbase hlenu hmemu, ?_, ?_, ?_⟩
  · intro k _
    obtain ⟨tk, hk⟩ := saveAll_take strs k hrun
    obtain ⟨idxsk, tk', esk, hrunk, hinvk, _, hlenk, hmemk⟩ := saveAll_spec hsave (strs.take k)
      hinv0 (fun s hs => hstrs s (mem_of_mem_take hs)) (hfits.take k)
    rw [hk] at hrunk
    cases hrunk
    exact ⟨tk, hk, hinvk.interned law hbase hlenk hmemk⟩
  · intro garbage
    obtain ⟨t'', hload, hinv''⟩ := initializeStrtabFrom_spec law hinv garbage hfirst
    exact ⟨t'', hload, hinv''.interned law hbase hlen hmem⟩
  · intro garbage hmfits
    obtain ⟨map', u'', us', hmerge, huinv', hpre, hkeys, hmap⟩ :=
      inv_merge law hfirst hinv huinv garbage hmfits
    have hold : ∀ p ∈ idxs0.zip others, p ∈ base ++ us' := by
      intro p hp
      have := hmemu p hp
      rw [mem_append] at this ⊢
      exact this.imp_right fun h => hpre.subset h
    -- what an entry of the merged table reads back
    have hreads : ∀ e ∈ (0, []) :: us', ReadsBack fmt u'' e.1 e.2 := by
      intro e he
      have hst := huinv'.stored he
      obtain ⟨hholds, hin⟩ := law.getStr u''.buffer e.1 e.2 (huinv'.allowed e he) hst.holds
      have hinside := hst.inside
      exact ⟨law.getLength _ _ _ _ (huinv'.allowed e he) hst.holds hst.inside,
        readBytes_eq hholds (by omega)⟩
    have hpos : ∀ e ∈ (0, []) :: es, 0 < (fmt.copy e.2).length := fun e _ => law.copy_pos e.2
    refine ⟨[(0, 0)] ++ map', u'', hmerge, huinv'.interned law hbase hlenu hold, ?_⟩
    intro p hp
    have hpe : p ∈ (0, []) :: es := by
      rcases mem_append.mp (hmem p hp) with h | h
      · rw [hbase p h]
        exact mem_cons_self ..
      · exact mem_cons_of_mem _ h
    constructor
    · rcases mem_cons.mp hpe with rfl | h
      · exact ⟨0, by simp⟩
      · have hfst : p.1 ∈ map'.map Prod.fst := by
          rw [hkeys]
          exact mem_map_of_mem h
        obtain ⟨q, hq, hq1⟩ := mem_map.mp hfst
        exact ⟨q.2, mem_append_right _ (by rw [← hq1]; exact hq)⟩
    · intro j hj
      rcases mem_append.mp hj with h | h
      · -- index 0 is the empty first entry
        have hzero : p.1 = 0 ∧ j = 0 := by simpa using h
        have hfst := hinv.laid.unique hpos p hpe (0, []) (mem_cons_self ..) hzero.1
        rw [hfst, hzero.2]
        exact hreads (0, []) (mem_cons_self ..)
      · obtain ⟨e, he, he1, hmemj⟩ := hmap _ h
        have hsame := hinv.laid.unique hpos e (mem_cons_of_mem _ he) p hpe he1
        rw [← hsame]
        exact hreads (j, e.2) (mem_cons_of_mem _ hmemj)

theorem fits_length : ∀ {strs : List (List Byte)} {t t' : Table} {idxs : List Nat},
    Fits fmt save t strs → saveAll save t strs = some (idxs, t') →
    ∀ s ∈ strs, (fmt.copy s).length < 2 ^ 24 := by
  intro strs
  induction strs with
  | nil => intro t t' idxs _ _ s hs; cases hs
  | cons s strs ih =>
    rintro t t' idxs ⟨hfit, hrest⟩ hrun r hr
    simp only [saveAll, bind_eq_bind] at hrun
    obtain ⟨⟨i, t1⟩, hone, hrun⟩ := bind_eq_some_iff.mp hrun
    obtain ⟨⟨is, t2⟩, htail, hrun⟩ := bind_eq_some_iff.mp hrun
    rcases mem_cons.mp hr with rfl | hr
    · omega
    · exact ih (hrest i t1 hone) htail r hr

theorem fits_of_sum (hstep : ∀ t s i t', save t s = some (i, t') →
      t'.lastIdx ≤ t.lastIdx + (fmt.copy s).length) (strs : List (List Byte)) :
    ∀ {t : Table}, t.lastIdx + (strs.map fun s => (fmt.copy s).length).sum < 2 ^ 24 →
      Fits fmt save t strs := by
  induction strs with
  | nil => intro t _; trivial
  | cons s strs ih =>
    intro t h
    rw [map_cons, sum_cons] at h
    refine ⟨by omega, fun i t' hs => ih ?_⟩
    have := hstep t s i t' hs
    omega

theorem findOrInsert_lastIdx {x y : Nat} (h : findOrInsert fmt t x = some (y, t')) :
    t'.lastIdx = t.lastIdx := by
  unfold findOrInsert at h
  obtain ⟨key, _, h⟩ := bind_eq_some_iff.mp h
  obtain ⟨_, _, h⟩ := bind_eq_some_iff.mp h
  obtain ⟨found, _, h⟩ := bind_eq_some_iff.mp h
  cases found with
  | none => cases h; rfl
  | some z => cases h; rfl

theorem insert_lastIdx {i : Nat} (h : insert fmt t s = some (i, t')) :
    t'.lastIdx ≤ t.lastIdx + fmt.getBufferLength s.length := by
  unfold insert at h
  obtain ⟨⟨old, t1⟩, hfind, h⟩ := bind_eq_some_iff.mp h
  have hlast := findOrInsert_lastIdx hfind
  simp only [copyStr, reserve] at hlast
  by_cases hne : makeStrIndex s.length t.lastIdx ≠ old
  · simp only [if_pos hne] at h
    cases h
    simp only
    omega
  · simp only [if_neg hne] at h
    cases h
    omega

theorem saveStr_lastIdx (t : Table) (s : List Byte) (i : Nat) (t' : Table)
    (h : saveStr t s = some (i, t')) :
    t'.lastIdx ≤ t.lastIdx + (nullTerminatedString.copy s).length := by
  have hle := insert_lastIdx h
  have hmod : nullTerminatedString.getBufferLength s.length ≤ s.length + 1 := Nat.mod_le _ _
  have hcopy : (nullTerminatedString.copy s).length = s.length + 1 := by
    simp [nullTerminatedString]
  omega

theorem saveStrN_lastIdx (t : Table) (s : List Byte) (i : Nat) (t' : Table)
    (h : saveStrN t s = some (i, t')) : t'.lastIdx ≤ t.lastIdx + (characterArray.copy s).length:= by
  unfold saveStrN at h
  by_cases h0 : s.length = 0
  · rw [if_pos h0] at h
    cases h
    omega
  · rw [if_neg h0] at h
    have hle := insert_lastIdx h
    have hcopy : characterArray.getBufferLength s.length ≤ (characterArray.copy s).length := by
      simp only [characterArray]
      split
      · simp
      · simp only [length_append, length_cons, le32_length]
        omega
    omega

theorem short_of_interned {t : Table} (hfits : Fits characterArray save t strs)
    (hrun : saveAll save t strs = some (idxs, t')) {t1 : Table}
    (h : Interned characterArray t1 strs idxs) : ∀ s ∈ strs, Short s := by
  intro s hs
  have hcopy := fits_length hfits hrun s hs
  have hlen : s.length < 2 ^ 24 := by
    have hle : s.length ≤ (characterArray.copy s).length := by
      simp only [characterArray]
      split
      · simp
      · simp only [length_append, length_cons]
        omega
    omega
  obtain ⟨k, hk, rfl⟩ := mem_iff_getElem.mp hs
  have hk' : k < idxs.length := by rw [h.length]; exact hk
  have hzip : (idxs[k], strs[k]) ∈ idxs.zip strs := by
    rw [mem_iff_getElem]
    exact ⟨k, by rw [length_zip]; omega, by simp⟩
  exact characterArray_length_range (h.reads _ hzip).1 hlen

end faithful

/-- Interning null-terminated strings is faithful. Interning character arrays is exactly when no
array is longer than 127: the length is stored in a byte and read back through a signed `char`. -/
theorem strTabs_faithful (t u : Table) (strs others : List (List Byte)) :
    (Initialised nullTerminatedString saveStr NoNul t →
      Initialised nullTerminatedString saveStr NoNul u →
      (∀ s ∈ strs, NoNul s) → (∀ s ∈ others, NoNul s) →
      Fits nullTerminatedString saveStr t strs → Fits nullTerminatedString saveStr u others →
      Faithful nullTerminatedString saveStr t strs u others) ∧
    (Initialised characterArray saveStrN Short t → Initialised characterArray saveStrN Short u →
      Fits characterArray saveStrN t strs → Fits characterArray saveStrN u others →
      (Faithful characterArray saveStrN t strs u others ↔
        (∀ s ∈ strs, Short s) ∧ ∀ s ∈ others, Short s)) := by
  constructor
  · intro ht hu hstrs hothers hfits hfitsu
    exact faithful_of_spec nullTerminated_lawful saveStr_spec rfl (fun c hc => by cases hc)
      (by simp) (by simp) ht hu hstrs hothers hfits hfitsu
  · intro ht hu hfits hfitsu
    constructor
    · rintro ⟨idxs, t', idxs0, u', hrun, hrunu, hinternedu, _, hload, _⟩
      obtain ⟨t'', _, hinterned⟩ := hload (fun _ => 0)
      exact ⟨short_of_interned hfits hrun hinterned, short_of_interned hfitsu hrunu hinternedu⟩
    · rintro ⟨hstrs, hothers⟩
      exact faithful_of_spec characterArray_lawful saveStrN_spec rfl (by simp [Short])
        (by simp) (by simp) ht hu hstrs hothers hfits hfitsu

theorem strTabs_faithful_names :
    Faithful nullTerminatedString saveStr (initializeStrtab (fun _ => 7) 16)
      [[97, 98], [99], [97, 98]] (initializeStrtab (fun _ => 9) 1) [[99]] ∧
    Faithful characterArray saveStrN (initializeStrtab (fun _ => 7) 16)
      [[97, 0], [], [97, 0]] (initializeStrtab (fun _ => 9) 1) [[0]] := by
  constructor
  · exact (strTabs_faithful _ _ _ _).1 (.empty _ 16 (by decide)) (.empty _ 1 (by decide))
      (by unfold NoNul; decide) (by unfold NoNul; decide)
      (fits_of_sum saveStr_lastIdx _ (by decide)) (fits_of_sum saveStr_lastIdx _ (by decide))
  · exact ((strTabs_faithful _ _ _ _).2 (.empty _ 16 (by decide)) (.empty _ 1 (by decide))
      (fits_of_sum saveStrN_lastIdx _ (by decide))
      (fits_of_sum saveStrN_lastIdx _ (by decide))).mpr
      ⟨by unfold Short; decide, by unfold Short; decide⟩

/-- An array of 128 bytes comes back with another length. -/
theorem strTabs_long_array : ¬ ∀ t u strs others,
    Initialised characterArray saveStrN (fun _ => True) t →
    Initialised characterArray saveStrN (fun _ => True) u →
    Fits characterArray saveStrN t strs → Fits characterArray saveStrN u others →
    Faithful characterArray saveStrN t strs u others := by
  intro h
  have hfits : Fits characterArray saveStrN (initializeStrtab (fun _ => 0) 1)
      [replicate 128 0] := by
    refine ⟨?_, fun _ _ _ => trivial⟩
    simp only [characterArray, length_replicate, initializeStrtab]
    simp
  obtain ⟨idxs, t', _, _, hrun, _, _, _, hload, _⟩ := h (initializeStrtab (fun _ => 0) 1)
    (initializeStrtab (fun _ => 0) 1) [replicate 128 0] [] (.empty _ 1 (by decide))
    (.empty _ 1 (by decide)) hfits trivial
  obtain ⟨t'', _, hinterned⟩ := hload (fun _ => 0)
  have hshort := short_of_interned hfits hrun hinterned _ (mem_cons_self ..)
  have hlong : (replicate 128 (0 : Byte)).length ≤ 127 := hshort
  rw [length_replicate] at hlong
  omega

end StrTab
