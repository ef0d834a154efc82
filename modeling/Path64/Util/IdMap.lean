import Path64.Lib.Segments
import Mathlib.Data.Finset.Card
import Mathlib.Data.List.Chain

/-! # The sparse ID map

A hash table whose collision chains live inside the table: the entries of
one chain share a hash value and the first of them is at that index, so an
entry of another chain that is found there has to be displaced. The slots
that are not in use form a list with links both ways. -/

namespace Idmap

open List Function Segments
open Option (bind_eq_bind bind_some)

/-! ## Model -/

/-- The union of a key, for an entry in use, and the previous free entry. -/
inductive KeyOrPrev (K : Type) where
  | key (k : K)
  | prev (i : Int)

/-- `ID_MAP_HASH_ENTRY`. -/
structure HashEntry (K V : Type) where
  node : V
  link : KeyOrPrev K
  next : Int

/-- `ID_MAP`; `table` beyond `tableSize` is memory not yet allocated. -/
structure IdMap (K V : Type) where
  notFoundValue : V
  isAllocated : Bool
  table : Int → HashEntry K V
  tableSize : Nat
  numEntries : Nat
  freeList : Int

/-- `Is_True` and `FmtAssert`. -/
def isTrue (p : Prop) [Decidable p] : Option Unit := if p then some () else none

def capacity (size : Nat) : Nat := 3 * size / 4

def size (capacity : Nat) : Nat := (4 * capacity + 2) / 3

def minTableSize : Nat := 16

section Model

variable {K V : Type}

/-- `_key`, where there is one. -/
def HashEntry.key (e : HashEntry K V) : Option K :=
  match e.link with
  | .key k => some k
  | .prev _ => none

/-- `_prev`; `bits` is what a key reads as. -/
def HashEntry.prev (bits : K → Int) (e : HashEntry K V) : Int :=
  match e.link with
  | .key k => bits k
  | .prev i => i

namespace IdMap

/-- An index that the table has. -/
def InTable (m : IdMap K V) (i : Int) : Prop := 0 ≤ i ∧ i < m.tableSize

instance (m : IdMap K V) (i : Int) : Decidable (m.InTable i) := by unfold InTable; infer_instance

def entry (m : IdMap K V) (i : Int) : Option (HashEntry K V) :=
  if m.InTable i then some (m.table i) else none

def setEntry (m : IdMap K V) (i : Int) (g : HashEntry K V → HashEntry K V) : Option (IdMap K V) :=
  if m.InTable i then some { m with table := update m.table i (g (m.table i)) } else none

def setNode (m : IdMap K V) (i : Int) (node : V) : Option (IdMap K V) :=
  m.setEntry i fun e => { e with node := node }

def setLink (m : IdMap K V) (i : Int) (link : KeyOrPrev K) : Option (IdMap K V) :=
  m.setEntry i fun e => { e with link := link }

def setNext (m : IdMap K V) (i next : Int) : Option (IdMap K V) :=
  m.setEntry i fun e => { e with next := next }

variable [DecidableEq K] [DecidableEq V]

def addToFreeList (idx : Int) (m : IdMap K V) : Option (IdMap K V) := do
  let m ← if m.freeList ≠ -1 then m.setLink m.freeList (.prev idx) else some m
  let m ← m.setNext idx m.freeList
  let m ← m.setNode idx m.notFoundValue
  isTrue (m.freeList ≠ idx)
  some { m with freeList := idx }

def removeFromFreeList (bits : K → Int) (idx : Int) (m : IdMap K V) : Option (IdMap K V) := do
  let e ← m.entry idx
  isTrue (e.node = m.notFoundValue)
  let m ←
    if m.freeList = idx then do
      let m := { m with freeList := e.next }
      isTrue (m.freeList ≠ idx)
      isTrue (e.node = m.notFoundValue)
      some m
    else do
      isTrue (e.prev bits ≠ -1)
      isTrue (e.next ≠ idx)
      m.setNext (e.prev bits) e.next
  let e ← m.entry idx
  if e.next ≠ -1 then do
    let m ← m.setLink e.next (.prev (e.prev bits))
    m.setNext idx (-1)
  else some m

def allocFromFreeList (m : IdMap K V) : Option (Int × IdMap K V) := do
  isTrue (m.freeList ≠ -1)
  let idx := m.freeList
  let e ← m.entry m.freeList
  isTrue (e.node = m.notFoundValue)
  let m := { m with freeList := e.next }
  isTrue (idx ≠ m.freeList)
  let e ← m.entry m.freeList
  isTrue (e.node = m.notFoundValue)
  some (idx, m)

/-- The constructor. -/
def construct (initCapacity : Nat) (notFoundValue : V) (memory : Int → HashEntry K V)
    (freeList : Int) : IdMap K V :=
  { notFoundValue := notFoundValue, isAllocated := false, table := memory,
    tableSize := size initCapacity, numEntries := 0, freeList := freeList }

def allocTableSpace (tableSize : Nat) (m : IdMap K V) : IdMap K V :=
  if !m.isAllocated then
    let tableSize := if tableSize < minTableSize then minTableSize else tableSize
    { m with tableSize := tableSize, isAllocated := true }
  else if m.tableSize < tableSize then { m with tableSize := tableSize }
  else m

/-- The loop of `Initialize_table`, over the first `n` slots. -/
def initializeSlots (m : IdMap K V) : Nat → Option (IdMap K V)
  | 0 => some m
  | i + 1 => (m.initializeSlots i).bind fun m => m.setEntry i fun _ => ⟨m.notFoundValue, .prev (i - 1), i + 1⟩

def initializeTable (m : IdMap K V) : Option (IdMap K V) := do
  let m ← { m with freeList := 0 }.initializeSlots m.tableSize
  m.setNext (m.tableSize - 1) (-1)

/-- `Init`, with the table size of the constructor or for a new capacity. -/
def init (capacity : Option Nat) (m : IdMap K V) : Option (IdMap K V) :=
  (m.allocTableSpace ((capacity.map size).getD m.tableSize)).initializeTable

/-! ### `Enlarge` -/

/-- The new entries from `first` on are cleared. -/
def clearNew (first : Nat) : Nat → IdMap K V → Option (IdMap K V)
  | 0, m => some m
  | n + 1, m => do
    let m ← m.setNext (first + n : Nat) (-1)
    let m ← m.setNode (first + n : Nat) m.notFoundValue
    clearNew first n m

/-- The links of the old entries are cleared. -/
def clearOld : Nat → IdMap K V → Option (IdMap K V)
  | 0, m => some m
  | i + 1, m => (m.setNext i (-1)).bind (clearOld i)

/-- The loop that marks the hash values, over the remaining `save_num_entries`. -/
def markHashes (hash : K → Nat → Nat) : List Nat → Nat → IdMap K V → Option (Nat × IdMap K V)
  | [], saveNumEntries, m => some (saveNumEntries, m)
  | i :: is, saveNumEntries, m => do
    let e ← m.entry i
    if e.node ≠ m.notFoundValue then do
      let key ← e.key
      let h := hash key m.tableSize
      let e ← m.entry h
      if e.next = -1 then do
        isTrue (saveNumEntries ≠ 0)
        let m ← m.setNext h 0
        markHashes hash is (saveNumEntries - 1) m
      else markHashes hash is saveNumEntries m
    else markHashes hash is saveNumEntries m

/-- The loop that marks an entry for every hash collision. -/
def markCollisions : List Nat → Nat → IdMap K V → Option (IdMap K V)
  | _, 0, m => some m
  | [], _ + 1, _ => none
  | i :: is, saveNumEntries + 1, m => do
    let e ← m.entry i
    if e.next = -1 then do
      let m ← m.setNext i 0
      markCollisions is saveNumEntries m
    else markCollisions is (saveNumEntries + 1) m

/-- The loop for the head of the unoccupied list, which starts at the last entry. -/
def findUnoccHead (m : IdMap K V) : Nat → Option Nat
  | 0 => none
  | i + 1 => do
    let e ← m.entry i
    if e.next = -1 then some i
    else do
      isTrue (i > 0)
      m.findUnoccHead i

/-- The loop that links the unoccupied entries below `i`. -/
def linkUnocc : Nat → Int → IdMap K V → Option (Int × IdMap K V)
  | 0, unoccHead, m => some (unoccHead, m)
  | i + 1, unoccHead, m => do
    let e ← m.entry i
    if e.next = -1 then do
      let m ← m.setNext i (-unoccHead - 2)
      linkUnocc i i m
    else linkUnocc i unoccHead m

/-- The loop for an unoccupied entry that holds no pair. -/
def skipOccupied (m : IdMap K V) : Nat → Int → Option Int
  | 0, _ => none
  | fuel + 1, unocc => do
    let e ← m.entry unocc
    if e.node ≠ m.notFoundValue then m.skipOccupied fuel (-e.next - 2) else some unocc

/-- The loop that moves the pairs out of the entries that will be occupied. -/
def moveNodes : Nat → Int → IdMap K V → Option (IdMap K V)
  | 0, _, m => some m
  | i + 1, unocc, m => do
    let e ← m.entry i
    if e.next = 0 then
      if e.node ≠ m.notFoundValue then do
        isTrue (unocc ≠ -1)
        let u ← m.entry unocc
        isTrue (u.node = m.notFoundValue)
        let m ← m.setNode unocc e.node
        let m ← m.setLink unocc e.link
        let unocc ← m.skipOccupied m.tableSize (-u.next - 2)
        let m ← m.addToFreeList i
        moveNodes i unocc m
      else do
        let m ← m.addToFreeList i
        moveNodes i unocc m
    else moveNodes i unocc m

/-- The loop that inserts the pairs of the unoccupied list again. -/
def reinsert (insert : K → V → IdMap K V → Option (IdMap K V)) :
    Nat → Int → IdMap K V → Option (IdMap K V)
  | 0, _, _ => none
  | fuel + 1, i, m =>
    if i = -1 then some m
    else do
      let e ← m.entry i
      let unocc := -e.next - 2
      let m ← m.addToFreeList i
      if e.node ≠ m.notFoundValue then do
        let key ← e.key
        let m ← insert key e.node { m with numEntries := 0 }
        reinsert insert fuel unocc m
      else reinsert insert fuel unocc m

/-- `Enlarge`, which calls `Insert`. -/
def enlarge (hash : K → Nat → Nat) (insert : K → V → IdMap K V → Option (IdMap K V))
    (m : IdMap K V) : Option (IdMap K V) := do
  let firstNewIdx := m.tableSize
  let m := { m with tableSize := 2 * m.tableSize }
  let m ← clearNew firstNewIdx firstNewIdx m
  let m ← clearOld firstNewIdx m
  let (saveNumEntries, m) ← markHashes hash (range firstNewIdx) m.numEntries m
  let m ← markCollisions (range m.tableSize) saveNumEntries m
  let i ← m.findUnoccHead m.tableSize
  let (unoccHead, m) ← linkUnocc i i m
  let unocc ← m.skipOccupied m.tableSize unoccHead
  let m ← moveNodes m.tableSize unocc { m with freeList := -1 }
  let saveNumEntries := m.numEntries
  let m ← reinsert insert (m.tableSize + 1) unoccHead m
  some { m with numEntries := saveNumEntries }

/-! ### The operations -/

/-- The loop of `Insert` for the link to `idx`. -/
def findDangling (m : IdMap K V) (idx : Int) : Nat → Int → Option Int
  | 0, _ => none
  | fuel + 1, tempIdx =>
    if tempIdx = -1 then some tempIdx
    else do
      let e ← m.entry tempIdx
      if e.next ≠ idx then m.findDangling idx fuel e.next else some tempIdx

/-- The branch of `Insert` where `idx` is in use. -/
def displace (hash : K → Nat → Nat) (idx : Int) (m : IdMap K V) : Option (IdMap K V) := do
  let e ← m.entry idx
  isTrue (e.next ≠ m.freeList)
  let (displaced, m) ← m.allocFromFreeList
  let m ← m.setNode displaced e.node
  let m ← m.setLink displaced e.link
  isTrue (e.next ≠ displaced)
  let m ← m.setNext displaced e.next
  isTrue (idx ≠ displaced)
  isTrue (displaced ≠ m.freeList)
  let key ← e.key
  let tempIdx : Int := hash key m.tableSize
  if idx = tempIdx then m.setNext idx displaced
  else do
    let m ← m.setNext idx (-1)
    let tempIdx ← m.findDangling idx (m.tableSize + 1) tempIdx
    isTrue (tempIdx ≠ -1)
    let e ← m.entry tempIdx
    isTrue (e.next = idx)
    m.setNext tempIdx displaced

/-- What `Insert` does in a table that is large enough. -/
def place (hash : K → Nat → Nat) (bits : K → Int) (key : K) (node : V) (m : IdMap K V) :
    Option (IdMap K V) := do
  let idx : Int := hash key m.tableSize
  let e ← m.entry idx
  let m ←
    if e.node ≠ m.notFoundValue then m.displace hash idx
    else do
      let m ← m.removeFromFreeList bits idx
      m.setNext idx (-1)
  let m ← m.setNode idx node
  let m ← m.setLink idx (.key key)
  some { m with numEntries := m.numEntries + 1 }

/-- `Insert`; the first argument bounds the depth of the calls. -/
def insert (hash : K → Nat → Nat) (bits : K → Int) : Nat → K → V → IdMap K V → Option (IdMap K V)
  | 0, _, _, _ => none
  | depth + 1, key, node, m => do
    let m ←
      if m.numEntries + 1 > capacity m.tableSize then do
        let m ← m.enlarge hash (insert hash bits depth)
        isTrue (m.numEntries ≤ capacity m.tableSize)
        some m
      else some m
    m.place hash bits key node

/-- The loop of `Delete`: the entry, and the one before it. -/
def findEntry (m : IdMap K V) (key : K) : Nat → Int → Int → Option (Int × Int)
  | 0, _, _ => none
  | fuel + 1, prevIdx, idx =>
    if idx = -1 then some (prevIdx, idx)
    else do
      let e ← m.entry idx
      if e.node ≠ m.notFoundValue then do
        let k ← e.key
        if k ≠ key then m.findEntry key fuel idx e.next else some (prevIdx, idx)
      else some (prevIdx, idx)

/-- The branches of `Delete`: the entry leaves its chain, and with it a slot. -/
def takeOut (prevIdx idx : Int) (m : IdMap K V) : Option (Int × IdMap K V) := do
  let e ← m.entry idx
  if prevIdx ≠ -1 then do
    let m ← m.setNext prevIdx e.next
    some (idx, m)
  else
    let nextIdx := e.next
    if nextIdx ≠ -1 then do
      let n ← m.entry nextIdx
      let m ← m.setEntry idx fun _ => n
      some (nextIdx, m)
    else some (idx, m)

def delete (hash : K → Nat → Nat) (key : K) (m : IdMap K V) : Option (IdMap K V) := do
  let (prevIdx, idx) ← m.findEntry key (m.tableSize + 1) (-1) (hash key m.tableSize)
  isTrue (idx ≠ -1)
  let e ← m.entry idx
  isTrue (e.node ≠ m.notFoundValue)
  let (idx, m) ← m.takeOut prevIdx idx
  let m ← m.addToFreeList idx
  some { m with numEntries := m.numEntries - 1 }

/-- One step of the second index of `Entry_lookup`, which looks for a loop. -/
def advance (m : IdMap K V) (loopcheck : Int) : Option Int :=
  if loopcheck ≠ -1 then (m.entry loopcheck).map HashEntry.next else some loopcheck

/-- The loop of `Entry_lookup`. -/
def lookupLoop (m : IdMap K V) (key : K) : Nat → Int → Int → Option Int
  | 0, _, _ => none
  | fuel + 1, idx, loopcheck =>
    if idx = -1 then some idx
    else do
      let e ← m.entry idx
      if e.node ≠ m.notFoundValue then do
        let k ← e.key
        if k ≠ key then do
          let loopcheck ← m.advance loopcheck
          let loopcheck ← m.advance loopcheck
          isTrue (loopcheck ≠ -1 → loopcheck ≠ e.next)
          m.lookupLoop key fuel e.next loopcheck
        else some idx
      else some idx

section
-- derives the equations
attribute [local simp] findUnoccHead lookupLoop
end

def entryLookup (hash : K → Nat → Nat) (key : K) (m : IdMap K V) : Option Int := do
  let h : Int := hash key m.tableSize
  let idx ← m.lookupLoop key (m.tableSize + 1) h h
  if idx = -1 then some (-1)
  else do
    let e ← m.entry idx
    if e.node = m.notFoundValue then some (-1) else some idx

def lookup (hash : K → Nat → Nat) (key : K) (m : IdMap K V) : Option V := do
  let idx ← m.entryLookup hash key
  if idx = -1 then some m.notFoundValue
  else (m.entry idx).map HashEntry.node

end IdMap

/-- The maps that operations lead to, each with the entries that it should hold. -/
inductive Run (hash : K → Nat → Nat) (bits : K → Int) (notFoundValue : V) [DecidableEq K]
    [DecidableEq V] : IdMap K V → (K → Option V) → Prop
  | init {m : IdMap K V} (initCapacity : Nat) (memory : Int → HashEntry K V) (freeList : Int)
      (capacity : Option Nat) :
      (IdMap.construct initCapacity notFoundValue memory freeList).init capacity = some m →
        Run hash bits notFoundValue m fun _ => none
  | initAgain {m m' : IdMap K V} {f : K → Option V} (capacity : Option Nat) :
      Run hash bits notFoundValue m f → m.init capacity = some m' →
        Run hash bits notFoundValue m' fun _ => none
  | insert {m m' : IdMap K V} {f : K → Option V} {key : K} {node : V} :
      Run hash bits notFoundValue m f → f key = none → node ≠ notFoundValue →
        m.insert hash bits 2 key node = some m' →
          Run hash bits notFoundValue m' (update f key (some node))
  | delete {m m' : IdMap K V} {f : K → Option V} {key : K} :
      Run hash bits notFoundValue m f → f key ≠ none → m.delete hash key = some m' →
        Run hash bits notFoundValue m' (update f key none)

end Model

/-! ## Slots -/

variable {p t' c d : Int} {n fuel : Nat} {l l1 l2 : List Int} {S : Int → Prop}

section Slots

variable {K V : Type} {m m' : IdMap K V} {i j : Int}

@[simp] theorem isTrue_of {p : Prop} [Decidable p] (h : p) : isTrue p = some () := if_pos h

namespace IdMap

theorem entry_eq (h : m.InTable i) : m.entry i = some (m.table i) := if_pos h

/-- The map with another entry at `i`. -/
def upd (m : IdMap K V) (i : Int) (e : HashEntry K V) : IdMap K V :=
  { m with table := update m.table i e }

theorem setEntry_eq (h : m.InTable i) (g : HashEntry K V → HashEntry K V) :
    m.setEntry i g = some (m.upd i (g (m.table i))) := if_pos h

theorem setNode_eq (h : m.InTable i) (node : V) :
    m.setNode i node = some (m.upd i { m.table i with node := node }) := if_pos h

theorem setLink_eq (h : m.InTable i) (link : KeyOrPrev K) :
    m.setLink i link = some (m.upd i { m.table i with link := link }) := if_pos h

theorem setNext_eq (h : m.InTable i) (next : Int) :
    m.setNext i next = some (m.upd i { m.table i with next := next }) := if_pos h

section Upd

variable {e : HashEntry K V}

@[simp] theorem upd_table_self : (m.upd i e).table i = e := update_self _ _ _

@[simp] theorem upd_table_of_ne (h : j ≠ i) : (m.upd i e).table j = m.table j :=
  update_of_ne h _ _

@[simp] theorem upd_upd {e' : HashEntry K V} : (m.upd i e).upd i e' = m.upd i e' := by
  simp [upd]

@[simp] theorem upd_freeList : (m.upd i e).freeList = m.freeList := rfl
@[simp] theorem upd_notFoundValue : (m.upd i e).notFoundValue = m.notFoundValue := rfl
@[simp] theorem upd_isAllocated : (m.upd i e).isAllocated = m.isAllocated := rfl
@[simp] theorem upd_tableSize : (m.upd i e).tableSize = m.tableSize := rfl
@[simp] theorem upd_numEntries : (m.upd i e).numEntries = m.numEntries := rfl
@[simp] theorem inTable_upd : (m.upd i e).InTable j ↔ m.InTable j := Iff.rfl

end Upd

@[simp] theorem inTable_mk {v : V} {a : Bool} {t : Int → HashEntry K V} {s : Nat} {l : Int} :
    InTable ⟨v, a, t, s, n, l⟩ i ↔ 0 ≤ i ∧ i < s := Iff.rfl

theorem length_le_tableSize (hnd : l.Nodup) (hl : ∀ i ∈ l, m.InTable i) :
    l.length ≤ m.tableSize := by
  have hinj : (l.map Int.toNat).Nodup := by
    refine List.Nodup.map_on (fun i hi j hj heq => ?_) hnd
    have hi := (hl i hi).1
    have hj := (hl j hj).1
    omega
  have hsub : l.map Int.toNat ⊆ range m.tableSize := by
    intro n hn
    obtain ⟨i, hi, rfl⟩ := mem_map.mp hn
    obtain ⟨h0, h1⟩ := hl i hi
    exact mem_range.mpr (by omega)
  simpa using (subperm_of_subset hinj hsub).length_le

theorem InTable.ne (h : m.InTable i) : i ≠ -1 := by
  have := h.1
  omega

end IdMap

/-- All but the entries at `S` and the head of the free list is the same. -/
structure SameBut (S : Int → Prop) (m m' : IdMap K V) : Prop where
  notFoundValue : m'.notFoundValue = m.notFoundValue
  isAllocated : m'.isAllocated = m.isAllocated
  tableSize : m'.tableSize = m.tableSize
  numEntries : m'.numEntries = m.numEntries
  table : ∀ i, ¬ S i → m'.table i = m.table i

theorem SameBut.inTable (h : SameBut S m m') (i : Int) : m'.InTable i ↔ m.InTable i := by
  unfold IdMap.InTable
  rw [h.tableSize]

end Slots

/-! ## The free list -/

section FreeList

variable {K V : Type} {m m' : IdMap K V} {free : List Int} {idx : Int}

/-- The free list, from its head on. -/
structure FreeOk (m : IdMap K V) (free : List Int) : Prop where
  seg : Seg (fun i => (m.table i).next) m.freeList free (-1)
  prevs : free.IsChain fun i j => (m.table j).link = .prev i
  slots : ∀ i ∈ free, m.InTable i ∧ (m.table i).node = m.notFoundValue

theorem FreeOk.notMem_stop (h : FreeOk m free) : (-1 : Int) ∉ free := fun hmem => (h.slots _ hmem).1.ne rfl

theorem FreeOk.nodup (h : FreeOk m free) : free.Nodup := h.seg.nodup h.notMem_stop

theorem FreeOk.congr (h : FreeOk m free) {S : Int → Prop} (hs : SameBut S m m')
    (hhead : m'.freeList = m.freeList) (hfree : ∀ i ∈ free, ¬ S i) : FreeOk m' free := by
  refine ⟨?_, ?_, fun i hi => ?_⟩
  · rw [hhead]
    refine h.seg.congr fun i hi => ?_
    rw [hs.table i (hfree i hi)]
  · refine h.prevs.imp_of_mem_imp fun i j _ hj hij => ?_
    rw [hs.table j (hfree j hj), hij]
  · rw [hs.inTable, hs.table i (hfree i hi), hs.notFoundValue]
    exact h.slots i hi

theorem FreeOk.addToFreeList (h : FreeOk m free) (hidx : m.InTable idx) (hnew : idx ∉ free) :
    ∃ m', m.addToFreeList idx = some m' ∧ FreeOk m' (idx :: free) ∧
      SameBut (fun i => i = idx ∨ i ∈ free) m m' := by
  cases free with
  | nil =>
    have hhead : m.freeList = -1 := h.seg
    have hne : ¬ (-1 : Int) = idx := fun heq => hidx.ne heq.symm
    refine ⟨_, by simp [IdMap.addToFreeList, hhead, IdMap.setNext_eq, IdMap.setNode_eq, hidx, hne]; rfl, ?_, ?_⟩
    · refine ⟨⟨rfl, ?_⟩, isChain_singleton _, ?_⟩
      · simp
      · simp [hidx.1, hidx.2]
    · refine ⟨rfl, rfl, rfl, rfl, fun i hi => ?_⟩
      have hi : i ≠ idx := fun heq => hi (.inl heq)
      simp [hi]
  | cons a l =>
    obtain ⟨hhead, hseg⟩ := h.seg
    have ha := (h.slots a mem_cons_self).1
    have hane : a ≠ -1 := ha.ne
    have hia : idx ≠ a := fun heq => hnew (heq ▸ mem_cons_self)
    have hil : idx ∉ l := fun hmem => hnew (mem_cons_of_mem _ hmem)
    have hal : a ∉ l := (nodup_cons.mp h.nodup).1
    refine ⟨_, by simp [IdMap.addToFreeList, hhead, hane, IdMap.setNext_eq, IdMap.setNode_eq,
      IdMap.setLink_eq, hidx, ha, hia.symm, hia]; rfl, ?_, ?_⟩
    · refine ⟨⟨rfl, ?_⟩, ?_, ?_⟩
      · refine ⟨by simp, ?_⟩
        have hnext : ∀ x ∈ l, x ≠ idx ∧ x ≠ a := fun x hx =>
          ⟨fun heq => hil (heq ▸ hx), fun heq => hal (heq ▸ hx)⟩
        simp only [IdMap.upd_table_of_ne hia.symm, IdMap.upd_table_self]
        refine hseg.congr fun x hx => ?_
        simp [hnext x hx]
      · refine isChain_cons_cons.mpr ⟨by simp [hia.symm], ?_⟩
        refine h.prevs.imp_of_mem_tail_imp fun i j _ hj hij => ?_
        have hj1 : j ≠ idx := fun heq => hil (heq ▸ hj)
        have hj2 : j ≠ a := fun heq => hal (heq ▸ hj)
        simp [hj1, hj2, hij]
      · intro i hi
        by_cases hi1 : i = idx
        · subst hi1
          simp [hidx.1, hidx.2]
        · have hi2 := h.slots i ((mem_cons.mp hi).resolve_left hi1)
          by_cases hi3 : i = a
          · subst hi3
            simp [hi1, hi2.2, hi2.1.1, hi2.1.2]
          · simp [hi1, hi3, hi2.2, hi2.1.1, hi2.1.2]
    · refine ⟨rfl, rfl, rfl, rfl, fun i hi => ?_⟩
      have hi1 : i ≠ idx := fun heq => hi (.inl heq)
      have hi2 : i ≠ a := fun heq => hi (.inr (heq ▸ mem_cons_self))
      simp [hi1, hi2]

theorem FreeOk.after (h : FreeOk m (l1 ++ idx :: l2)) :
    (l2 = [] ∧ (m.table idx).next = -1) ∨ ∃ b l3, l2 = b :: l3 ∧ (m.table idx).next = b ∧ b ≠ -1 ∧
        Seg (fun i => (m.table i).next) (m.table b).next l3 (-1) := by
  obtain ⟨-, hrest⟩ := seg_split.mp h.seg
  cases l2 with
  | nil => exact .inl ⟨rfl, hrest⟩
  | cons b l3 =>
    obtain ⟨hb, hrest⟩ := hrest
    exact .inr ⟨b, l3, rfl, hb, (h.slots b (by simp)).1.ne, hrest⟩

variable [DecidableEq V]

theorem FreeOk.removeHead (h : FreeOk m (idx :: l2)) (bits : K → Int) :
    ∃ m', m.removeFromFreeList bits idx = some m' ∧ FreeOk m' l2 ∧ SameBut (· ∈ idx :: l2) m m':= by
  have hhead : m.freeList = idx := h.seg.1
  obtain ⟨hidx, hnode⟩ := h.slots idx mem_cons_self
  have hnd := nodup_cons.mp h.nodup
  have h0 : FreeOk m ([] ++ idx :: l2) := h
  rcases h0.after with ⟨rfl, hnext⟩ | ⟨b, l3, rfl, hnext, hb, hseg⟩
  · have hne := hidx.ne
    refine ⟨_, by simp [IdMap.removeFromFreeList, hhead, IdMap.entry_eq, hidx, hidx.1, hidx.2, hnode,
      hnext, hne.symm]; rfl, ?_, ?_⟩
    · exact ⟨rfl, isChain_nil, by simp⟩
    · exact ⟨rfl, rfl, rfl, rfl, fun i _ => rfl⟩
  · have hbt := (h.slots b (by simp)).1
    have hne : b ≠ idx := fun heq => hnd.1 (heq ▸ mem_cons_self)
    have hnd3 := nodup_cons.mp hnd.2
    have hl3 : ∀ i ∈ l3, i ≠ idx ∧ i ≠ b := fun i hi =>
      ⟨fun heq => hnd.1 (heq ▸ mem_cons_of_mem _ hi), fun heq => hnd3.1 (heq ▸ hi)⟩
    refine ⟨_, by simp [IdMap.removeFromFreeList, hhead, IdMap.entry_eq, hidx, hidx.1, hidx.2, hnode,
      hnext, hne, hb, hbt.1, hbt.2, IdMap.setLink_eq, IdMap.setNext_eq]; rfl, ⟨⟨?_, ?_⟩, ?_, ?_⟩,
      ⟨?_, ?_, ?_, ?_, fun i hi => ?_⟩⟩
    · rfl
    · simp only [IdMap.upd_table_of_ne hne, IdMap.upd_table_self]
      refine hseg.congr fun x hx => ?_
      simp [hl3 x hx]
    · refine h.prevs.tail.imp_of_mem_tail_imp fun i j _ hj hij => ?_
      simp [hl3 j hj, hij]
    · intro i hi
      have hi' := h.slots i (mem_cons_of_mem _ hi)
      by_cases hib : i = b
      · subst hib
        simp [hne, hi'.2, hbt.1, hbt.2]
      · have hil := hl3 i ((mem_cons.mp hi).resolve_left hib)
        simp [hil, hi'.2, hi'.1.1, hi'.1.2]
    · rfl
    · rfl
    · rfl
    · rfl
    · have hi1 : i ≠ idx := fun heq => hi (heq ▸ mem_cons_self)
      have hi2 : i ≠ b := fun heq => hi (by simp [heq])
      simp [hi1, hi2]

theorem FreeOk.removeInner (h : FreeOk m (l1 ++ p :: idx :: l2))
    (bits : K → Int) : ∃ m', m.removeFromFreeList bits idx = some m' ∧ FreeOk m' (l1 ++ p :: l2) ∧
      SameBut (· ∈ l1 ++ p :: idx :: l2) m m' := by
  obtain ⟨hidx, hnode⟩ := h.slots idx (by simp)
  have hp := (h.slots p (by simp)).1
  have hnd := h.nodup
  rw [nodup_middle, nodup_cons] at hnd
  obtain ⟨hpl, hnd⟩ := hnd
  rw [nodup_middle, nodup_cons] at hnd
  obtain ⟨hil, hnd⟩ := hnd
  have hpidx : idx ≠ p := fun heq => hpl (heq ▸ by simp)
  obtain ⟨hchain1, hchain2⟩ := isChain_split.mp h.prevs
  have hread : (m.table idx).prev bits = p := by
    unfold HashEntry.prev
    rw [(isChain_cons_cons.mp hchain2).1]
  obtain ⟨hseg1, hseg2⟩ := seg_split.mp h.seg
  -- the entry is not the head, so it has a predecessor
  have hhead : m.freeList ≠ idx := by
    intro heq
    cases l1 with
    | nil => exact hpidx (heq ▸ hseg1)
    | cons a l1 => exact hil (by simp [← heq, hseg1.1])
  have h' : FreeOk m ((l1 ++ [p]) ++ idx :: l2) := by simpa using h
  rcases h'.after with ⟨rfl, hnext⟩ | ⟨b, l3, rfl, hnext, hb, hseg⟩
  · -- the entry is the last of the free list
    have hne := hidx.ne
    have hother : ∀ i ∈ l1, i ≠ p := fun i hi heq => hpl (heq ▸ mem_append_left _ hi)
    refine ⟨_, by simp [IdMap.removeFromFreeList, hhead, IdMap.entry_eq, hidx, hnode, hread, hp.ne, hp,
      hnext, hne.symm, IdMap.setNext_eq, hpidx]; rfl, ⟨seg_split.mpr ⟨?_, ?_⟩, ?_, fun i hi => ?_⟩, ?_⟩
    · refine hseg1.congr fun i hi => ?_
      simp [hother i hi]
    · simp
    · refine hchain1.imp fun i j hij => ?_
      by_cases hj : j = p
      · subst hj
        simp [hij]
      · simp [hj, hij]
    · have hi' := h.slots i (by simp at hi ⊢; tauto)
      by_cases hj : i = p
      · subst hj
        simp [hi'.2, hp]
      · simp [hj, hi'.2, hi'.1]
    · refine ⟨rfl, rfl, rfl, rfl, fun i hi => ?_⟩
      have hj : i ≠ p := fun heq => hi (by simp [heq])
      simp [hj]
  · rw [nodup_middle, nodup_cons] at hnd
    obtain ⟨hbl, hnd⟩ := hnd
    have hbt := (h.slots b (by simp)).1
    have hbp : b ≠ p := fun heq => hpl (heq ▸ by simp)
    have hbi : b ≠ idx := fun heq => hil (heq ▸ by simp)
    have hother : ∀ i ∈ l1 ++ l3, i ≠ p ∧ i ≠ idx ∧ i ≠ b := fun i hi =>
      ⟨fun heq => hpl (by simp at hi ⊢; rw [← heq]; tauto),
        fun heq => hil (by simp at hi ⊢; rw [← heq]; tauto), fun heq => hbl (heq ▸ hi)⟩
    refine ⟨_, by simp [IdMap.removeFromFreeList, hhead, IdMap.entry_eq, hidx, hnode, hread, hp.ne, hp,
      hnext, hb, hbi, hbt, IdMap.setNext_eq, IdMap.setLink_eq, hpidx]; rfl,
      ⟨seg_split.mpr ⟨?_, ?_⟩, ?_, fun i hi => ?_⟩, ?_⟩
    · refine hseg1.congr fun i hi => ?_
      simp [hother i (mem_append_left _ hi)]
    · refine ⟨by simp [hpidx.symm, hbp.symm], ?_⟩
      simp only [IdMap.upd_table_of_ne hbi, IdMap.upd_table_self, IdMap.upd_table_of_ne hbp]
      refine hseg.congr fun i hi => ?_
      simp [hother i (mem_append_right _ hi)]
    · refine isChain_split.mpr ⟨?_, isChain_cons_cons.mpr ⟨by simp [hbi], ?_⟩⟩
      · refine hchain1.imp_of_mem_imp fun i j _ hj hij => ?_
        rcases mem_append.mp hj with hj | hj
        · simp [hother j (mem_append_left _ hj), hij]
        · obtain rfl := mem_singleton.mp hj
          simp [hpidx.symm, hbp.symm, hij]
      · refine hchain2.tail.tail.imp_of_mem_tail_imp fun i j _ hj hij => ?_
        simp [hother j (mem_append_right _ hj), hij]
    · have hi' := h.slots i (by simp at hi ⊢; tauto)
      by_cases hj : i = p
      · subst hj
        simp [hpidx.symm, hbp.symm, hi'.2, hp]
      · by_cases hk : i = b
        · subst hk
          simp [hbi, hj, hi'.2, hbt]
        · have hin : i ∈ l1 ++ l3 := by
            simp only [mem_append, mem_cons] at hi ⊢
            tauto
          simp [hother i hin, hi'.2, hi'.1]
    · refine ⟨rfl, rfl, rfl, rfl, fun i hi => ?_⟩
      simp only [mem_append, mem_cons, not_or] at hi
      simp [hi]

theorem FreeOk.removeFromFreeList (h : FreeOk m free) (hidx : idx ∈ free) (bits : K → Int) :
    ∃ m' free', m.removeFromFreeList bits idx = some m' ∧ FreeOk m' free' ∧
      SameBut (· ∈ free) m m' ∧ (∀ i, i ∈ free' ↔ i ∈ free ∧ i ≠ idx) ∧
      free'.length + 1 = free.length := by
  have hnd := h.nodup
  obtain ⟨l1, l2, rfl⟩ := append_of_mem hidx
  have hother : ∀ i, i ∈ l1 ++ l2 ↔ i ∈ l1 ++ idx :: l2 ∧ i ≠ idx := by
    rw [nodup_middle, nodup_cons] at hnd
    intro i
    constructor
    · intro hi
      refine ⟨?_, fun heq => hnd.1 (heq ▸ hi)⟩
      simp only [mem_append, mem_cons] at hi ⊢
      tauto
    · rintro ⟨hi, hne⟩
      simp only [mem_append, mem_cons] at hi ⊢
      tauto
  have hlen : (l1 ++ l2).length + 1 = (l1 ++ idx :: l2).length := by
    simp only [length_append, length_cons]
    omega
  rcases eq_nil_or_concat l1 with rfl | ⟨l3, p, rfl⟩
  · obtain ⟨m', hm', hfree, hsame⟩ := h.removeHead bits
    exact ⟨m', l2, hm', hfree, hsame, hother, hlen⟩
  · simp only [concat_eq_append, append_assoc, singleton_append] at h hother hlen ⊢
    obtain ⟨m', hm', hfree, hsame⟩ := h.removeInner bits
    exact ⟨m', _, hm', hfree, hsame, hother, hlen⟩

theorem FreeOk.allocFromFreeList {a b : Int} {l : List Int} (h : FreeOk m (a :: b :: l)) :
    m.allocFromFreeList = some (a, { m with freeList := b }) ∧
      FreeOk { m with freeList := b } (b :: l) := by
  obtain ⟨hhead, hnext, hseg⟩ := h.seg
  obtain ⟨ha, hnode⟩ := h.slots a mem_cons_self
  obtain ⟨hb, hnodeb⟩ := h.slots b (by simp)
  have hab : a ≠ b := fun heq => (nodup_cons.mp h.nodup).1 (heq ▸ mem_cons_self)
  refine ⟨?_, ⟨rfl, hseg⟩, h.prevs.tail, fun i hi => h.slots i (mem_cons_of_mem _ hi)⟩
  simp only at hnext
  simp [IdMap.allocFromFreeList, hhead, ha.ne, IdMap.entry_eq, ha, hnode, hnext, hab, hb.1, hb.2, hnodeb]

end FreeList

/-! ## The chains -/

section Chains

variable {K V : Type} {hash : K → Nat → Nat} {m m' : IdMap K V} {chain : Int → List Int}
  {b : Int → List (K × V)} {f : K → Option V}

/-- What an entry holds. -/
def IdMap.cell (m : IdMap K V) (i : Int) : KeyOrPrev K × V := ((m.table i).link, (m.table i).node)

/-- A pair, as an entry holds it. -/
def stored (p : K × V) : KeyOrPrev K × V := (.key p.1, p.2)

/-- The chains of the table, each with the pairs it holds. -/
structure ChainsOk (m : IdMap K V) (chain : Int → List Int) (b : Int → List (K × V)) : Prop where
  inTable : ∀ h, ∀ i ∈ chain h, m.InTable i
  seg : ∀ h, chain h ≠ [] → Seg (fun i => (m.table i).next) h (chain h) (-1)
  cells : ∀ h, (chain h).map m.cell = (b h).map stored

/-- The pairs of a map by their hash values. -/
structure Buckets (hash : K → Nat → Nat) (size : Nat) (notFoundValue : V) [DecidableEq K]
    (b : Int → List (K × V)) (f : K → Option V) : Prop where
  home : ∀ h, ∀ p ∈ b h, (hash p.1 size : Int) = h
  found : ∀ h, ∀ p ∈ b h, p.2 ≠ notFoundValue
  nodup : ∀ h, ((b h).map Prod.fst).Nodup
  lookup : ∀ k v, f k = some v ↔ (k, v) ∈ b (hash k size)

section

variable (h : ChainsOk m chain b)
include h

theorem ChainsOk.congr {S : Int → Prop} (hs : SameBut S m m')
    (hchain : ∀ t, ∀ i ∈ chain t, ¬ S i) : ChainsOk m' chain b := by
  refine ⟨fun t i hi => (hs.inTable i).mpr (h.inTable t i hi), fun t ht => ?_, fun t => ?_⟩
  · refine (h.seg t ht).congr fun i hi => ?_
    rw [hs.table i (hchain t i hi)]
  · rw [← h.cells t]
    refine map_congr_left fun i hi => ?_
    unfold IdMap.cell
    rw [hs.table i (hchain t i hi)]

theorem ChainsOk.notMem_stop (t : Int) : (-1 : Int) ∉ chain t :=
  fun hmem => (h.inTable t _ hmem).ne rfl

theorem ChainsOk.nodup (t : Int) : (chain t).Nodup := by
  by_cases ht : chain t = []
  · rw [ht]
    exact nodup_nil
  · exact (h.seg t ht).nodup (h.notMem_stop t)

theorem ChainsOk.cell {t i : Int} (hi : i ∈ chain t) : ∃ p ∈ b t, m.cell i = stored p:= by
  have hmem : m.cell i ∈ (b t).map stored := h.cells t ▸ mem_map_of_mem hi
  obtain ⟨p, hp, heq⟩ := mem_map.mp hmem
  exact ⟨p, hp, heq.symm⟩

theorem ChainsOk.exists_slot {t : Int} {p : K × V} (hp : p ∈ b t) :
    ∃ i ∈ chain t, m.cell i = stored p := by
  have hmem : stored p ∈ (chain t).map m.cell := h.cells t ▸ mem_map_of_mem hp
  exact mem_map.mp hmem

theorem ChainsOk.update {t : Int} {c : List Int} {l : List (K × V)}
    (hsize : m'.tableSize = m.tableSize)
    (hother : ∀ t', t' ≠ t → ∀ i ∈ chain t', m'.table i = m.table i) (hin : ∀ i ∈ c, m.InTable i)
    (hseg : c ≠ [] → Seg (fun i => (m'.table i).next) t c (-1))
    (hcells : c.map m'.cell = l.map stored) : ChainsOk m' (update chain t c) (update b t l):= by
  have hinTable : ∀ i, m'.InTable i ↔ m.InTable i := fun i => by
    unfold IdMap.InTable
    rw [hsize]
  refine ⟨fun t' i hi => ?_, fun t' ht' => ?_, fun t' => ?_⟩
  · rw [hinTable]
    by_cases heq : t' = t
    · subst heq
      rw [update_self] at hi
      exact hin i hi
    · rw [update_of_ne heq] at hi
      exact h.inTable t' i hi
  · by_cases heq : t' = t
    · subst heq
      rw [update_self] at ht' ⊢
      exact hseg ht'
    · rw [update_of_ne heq] at ht' ⊢
      refine (h.seg t' ht').congr fun i hi => ?_
      rw [hother t' heq i hi]
  · by_cases heq : t' = t
    · subst heq
      rw [update_self, update_self]
      exact hcells
    · rw [update_of_ne heq, update_of_ne heq, ← h.cells t']
      refine map_congr_left fun i hi => ?_
      unfold IdMap.cell
      rw [hother t' heq i hi]

end

variable [DecidableEq K] {size : Nat} {nf : V}

theorem Buckets.insert (h : Buckets hash size nf b f) {key : K} {node : V} (hkey : f key = none)
    (hnode : node ≠ nf) : Buckets hash size nf
      (update b (hash key size) ((key, node) :: b (hash key size))) (update f key (some node)):= by
  have hnew : key ∉ (b (hash key size)).map Prod.fst := by
    intro hmem
    obtain ⟨⟨k, v⟩, hp, rfl⟩ := mem_map.mp hmem
    rw [(h.lookup k v).mpr hp] at hkey
    cases hkey
  refine ⟨fun t p hp => ?_, fun t p hp => ?_, fun t => ?_, fun k v => ?_⟩
  · by_cases ht : t = hash key size
    · subst ht
      rw [update_self] at hp
      rcases mem_cons.mp hp with rfl | hp
      · rfl
      · exact h.home _ p hp
    · rw [update_of_ne ht] at hp
      exact h.home t p hp
  · by_cases ht : t = hash key size
    · subst ht
      rw [update_self] at hp
      rcases mem_cons.mp hp with rfl | hp
      · exact hnode
      · exact h.found _ p hp
    · rw [update_of_ne ht] at hp
      exact h.found t p hp
  · by_cases ht : t = hash key size
    · subst ht
      rw [update_self, map_cons, nodup_cons]
      exact ⟨hnew, h.nodup _⟩
    · rw [update_of_ne ht]
      exact h.nodup t
  · by_cases hk : k = key
    · subst hk
      rw [update_self, update_self, mem_cons]
      constructor
      · intro hv
        rw [Option.some.inj hv]
        exact .inl rfl
      · rintro (hv | hv)
        · rw [(Prod.mk.inj hv).2]
        · exact absurd (mem_map_of_mem hv) hnew
    · rw [update_of_ne hk, h.lookup k v]
      by_cases ht : (hash k size : Int) = hash key size
      · rw [ht, update_self, mem_cons]
        refine ⟨.inr, fun hv => hv.resolve_left fun heq => hk (Prod.mk.inj heq).1⟩
      · rw [update_of_ne ht]

theorem Buckets.remove (h : Buckets hash size nf b f) {t : Int} {key : K} {node : V}
    {l1 l2 : List (K × V)} (ht : b t = l1 ++ (key, node) :: l2) :
    Buckets hash size nf (update b t (l1 ++ l2)) (update f key none) := by
  have hmem : ∀ p ∈ l1 ++ l2, p ∈ b t := by
    intro p hp
    rw [ht]
    simp only [mem_append, mem_cons] at hp ⊢
    tauto
  have hkeys := h.nodup t
  rw [ht, map_append, map_cons, nodup_middle, nodup_cons, ← map_append] at hkeys
  have hhome : (hash key size : Int) = t := h.home t (key, node) (by rw [ht]; simp)
  refine ⟨fun t' p hp => ?_, fun t' p hp => ?_, fun t' => ?_, fun k v => ?_⟩
  · by_cases heq : t' = t
    · subst heq
      rw [update_self] at hp
      exact h.home _ p (hmem p hp)
    · rw [update_of_ne heq] at hp
      exact h.home t' p hp
  · by_cases heq : t' = t
    · subst heq
      rw [update_self] at hp
      exact h.found _ p (hmem p hp)
    · rw [update_of_ne heq] at hp
      exact h.found t' p hp
  · by_cases heq : t' = t
    · subst heq
      rw [update_self]
      exact hkeys.2
    · rw [update_of_ne heq]
      exact h.nodup t'
  · by_cases hk : k = key
    · subst hk
      rw [update_self, hhome, update_self]
      exact ⟨fun hv => (by cases hv), fun hv => absurd (mem_map_of_mem hv) hkeys.1⟩
    · rw [update_of_ne hk, h.lookup k v]
      by_cases heq : (hash k size : Int) = t
      · rw [heq, update_self, ht]
        refine ⟨fun hv => ?_, fun hv => ht ▸ hmem _ hv⟩
        simp only [mem_append, mem_cons, Prod.mk.injEq, hk, false_and, false_or] at hv ⊢
        exact hv
      · rw [update_of_ne heq]

end Chains

/-! ## The map -/

section Map

variable {K V : Type} [DecidableEq K] [DecidableEq V] {hash : K → Nat → Nat} {m m' : IdMap K V}
  {pending free : List Int} {chain : Int → List Int} {b : Int → List (K × V)} {f : K → Option V}
  {idx t i : Int}

/-- The table holds the entries of `f`; `pending` slots are neither free nor chained. -/
structure Rep (hash : K → Nat → Nat) (m : IdMap K V) (pending free : List Int)
    (chain : Int → List Int) (b : Int → List (K × V)) (f : K → Option V) : Prop where
  freeOk : FreeOk m free
  chains : ChainsOk m chain b
  buckets : Buckets hash m.tableSize m.notFoundValue b f
  cover : ∀ i, m.InTable i → i ∈ pending ∨ i ∈ free ∨ ∃ t, i ∈ chain t
  apart : ∀ i ∈ pending, i ∉ free ∧ ∀ t, i ∉ chain t
  pendingIn : ∀ i ∈ pending, m.InTable i

omit [DecidableEq V] in
theorem Rep.used (h : Rep hash m pending free chain b f) (hi : i ∈ chain t) :
    ∃ key node, m.cell i = stored (key, node) ∧ (key, node) ∈ b t ∧ node ≠ m.notFoundValue ∧
      (hash key m.tableSize : Int) = t ∧ f key = some node := by
  obtain ⟨⟨key, node⟩, hp, hcell⟩ := h.chains.cell hi
  have hhome := h.buckets.home t _ hp
  refine ⟨key, node, hcell, hp, h.buckets.found t _ hp, hhome, (h.buckets.lookup key node).mpr ?_⟩
  simp only at hhome
  rw [hhome]
  exact hp

omit [DecidableEq K] [DecidableEq V] in
theorem cell_eq {key : K} {node : V} (h : m.cell i = stored (key, node)) :
    (m.table i).link = .key key ∧ (m.table i).node = node := Prod.mk.inj h

omit [DecidableEq V] in
theorem Rep.node_ne (h : Rep hash m pending free chain b f) (hi : i ∈ chain t) :
    (m.table i).node ≠ m.notFoundValue := by
  obtain ⟨key, node, hcell, -, hne, -⟩ := h.used hi
  rw [(cell_eq hcell).2]
  exact hne

omit [DecidableEq V] in
theorem Rep.notMem_free (h : Rep hash m pending free chain b f) (hi : i ∈ chain t) : i ∉ free :=
  fun hmem => h.node_ne hi (h.freeOk.slots i hmem).2

omit [DecidableEq V] in
theorem Rep.notMem_pending (h : Rep hash m pending free chain b f) (hi : i ∈ chain t) : i ∉ pending :=
  fun hmem => (h.apart i hmem).2 t hi

omit [DecidableEq V] in
theorem Rep.same_chain (h : Rep hash m pending free chain b f) (hi : i ∈ chain t)
    (hi' : i ∈ chain t') : t = t' := by
  obtain ⟨key, node, hcell, -, -, hhome, -⟩ := h.used hi
  obtain ⟨key', node', hcell', -, -, hhome', -⟩ := h.used hi'
  have hkey := (cell_eq hcell).1.symm.trans (cell_eq hcell').1
  rw [KeyOrPrev.key.injEq] at hkey
  rw [← hhome, ← hhome', hkey]

omit [DecidableEq V] in
theorem Rep.head (h : Rep hash m pending free chain b f) (ht : chain t ≠ []) : t ∈ chain t :=
  (h.chains.seg t ht).head ht

omit [DecidableEq V] in
theorem Rep.withNumEntries (h : Rep hash m pending free chain b f) (n : Nat) :
    Rep hash { m with numEntries := n } pending free chain b f :=
  ⟨⟨h.freeOk.seg, h.freeOk.prevs, h.freeOk.slots⟩, ⟨h.chains.inTable, h.chains.seg, h.chains.cells⟩,
    h.buckets, h.cover, h.apart, h.pendingIn⟩

/-! ### The free list of a map -/

omit [DecidableEq V] in
theorem Rep.addToFreeList (h : Rep hash m pending free chain b f) (hidx : idx ∈ pending)
    {pending' : List Int} (hpending' : ∀ i, i ∈ pending' ↔ i ∈ pending ∧ i ≠ idx) :
    ∃ m', m.addToFreeList idx = some m' ∧ Rep hash m' pending' (idx :: free) chain b f ∧
      SameBut (fun i => i = idx ∨ i ∈ free) m m' := by
  obtain ⟨m', hm', hfree, hsame⟩ := h.freeOk.addToFreeList (h.pendingIn idx hidx) (h.apart idx hidx).1
  refine ⟨m', hm', ⟨hfree, h.chains.congr hsame fun t i hi => ?_, ?_, fun i hi => ?_, fun i hi => ?_,
    fun i hi => ?_⟩, hsame⟩
  · rintro (rfl | hmem)
    · exact h.notMem_pending hi hidx
    · exact h.notMem_free hi hmem
  · rw [hsame.tableSize, hsame.notFoundValue]
    exact h.buckets
  · rw [hsame.inTable] at hi
    rw [hpending', mem_cons]
    rcases h.cover i hi with hi | hi | hi <;> tauto
  · obtain ⟨hi, hne⟩ := (hpending' i).mp hi
    exact ⟨by simp [hne, h.apart i hi], (h.apart i hi).2⟩
  · rw [hsame.inTable]
    exact h.pendingIn i ((hpending' i).mp hi).1

theorem Rep.removeFromFreeList (h : Rep hash m pending free chain b f) (hidx : idx ∈ free)
    (bits : K → Int) : ∃ m' free', m.removeFromFreeList bits idx = some m' ∧
      Rep hash m' (idx :: pending) free' chain b f ∧ SameBut (· ∈ free) m m' ∧
      free'.length + 1 = free.length := by
  obtain ⟨m', free', hm', hfree, hsame, hmem, hlen⟩ := h.freeOk.removeFromFreeList hidx bits
  refine ⟨m', free', hm', ⟨hfree, h.chains.congr hsame fun t i hi => h.notMem_free hi, ?_,
    fun i hi => ?_, fun i hi => ?_, fun i hi => ?_⟩, hsame, hlen⟩
  · rw [hsame.tableSize, hsame.notFoundValue]
    exact h.buckets
  · rw [hsame.inTable] at hi
    rw [hmem, mem_cons]
    rcases h.cover i hi with hi | hi | hi <;> tauto
  · rw [hmem]
    rcases mem_cons.mp hi with rfl | hi
    · exact ⟨fun hi => hi.2 rfl, fun t ht => h.notMem_free ht hidx⟩
    · exact ⟨fun hi' => (h.apart i hi).1 hi'.1, (h.apart i hi).2⟩
  · rw [hsame.inTable]
    rcases mem_cons.mp hi with rfl | hi
    · exact (h.freeOk.slots _ hidx).1
    · exact h.pendingIn i hi

theorem Rep.allocFromFreeList {a c : Int} {l : List Int}
    (h : Rep hash m pending (a :: c :: l) chain b f) :
    m.allocFromFreeList = some (a, { m with freeList := c }) ∧
      Rep hash { m with freeList := c } (a :: pending) (c :: l) chain b f := by
  obtain ⟨heq, hfree⟩ := h.freeOk.allocFromFreeList
  have hnd := nodup_cons.mp h.freeOk.nodup
  refine ⟨heq, hfree, ⟨h.chains.inTable, h.chains.seg, h.chains.cells⟩, h.buckets, fun i hi => ?_,
    fun i hi => ?_, fun i hi => ?_⟩
  · rcases h.cover i hi with hi | hi | hi
    · exact .inl (mem_cons_of_mem _ hi)
    · rcases mem_cons.mp hi with rfl | hi
      · exact .inl mem_cons_self
      · exact .inr (.inl hi)
    · exact .inr (.inr hi)
  · rcases mem_cons.mp hi with rfl | hi
    · exact ⟨hnd.1, fun t ht => h.notMem_free ht mem_cons_self⟩
    · exact ⟨fun hmem => (h.apart i hi).1 (mem_cons_of_mem _ hmem), (h.apart i hi).2⟩
  · rcases mem_cons.mp hi with rfl | hi
    · exact (h.freeOk.slots i mem_cons_self).1
    · exact h.pendingIn i hi

/-! ### One chain is changed -/

omit [DecidableEq V] in
theorem Rep.modify (h : Rep hash m pending free chain b f) {pending' c : List Int}
    {l : List (K × V)} {f' : K → Option V} (hsame : SameBut S m m') (hhead : m'.freeList = m.freeList)
    (hS : ∀ i, S i → i ∈ pending ∨ i ∈ chain t)
    (hseg : c ≠ [] → Seg (fun i => (m'.table i).next) t c (-1))
    (hcells : c.map m'.cell = l.map stored)
    (hb : Buckets hash m.tableSize m.notFoundValue (update b t l) f')
    (hpart : ∀ i, i ∈ pending' ∨ i ∈ c ↔ i ∈ pending ∨ i ∈ chain t)
    (hdisj : ∀ i ∈ pending', i ∉ c) :
    Rep hash m' pending' free (update chain t c) (update b t l) f' := by
  have hin : ∀ i, i ∈ pending ∨ i ∈ chain t → m.InTable i := by
    rintro i (hi | hi)
    · exact h.pendingIn i hi
    · exact h.chains.inTable t i hi
  have hfree : ∀ i, i ∈ pending ∨ i ∈ chain t → i ∉ free := by
    rintro i (hi | hi)
    · exact (h.apart i hi).1
    · exact h.notMem_free hi
  have hother : ∀ t', t' ≠ t → ∀ i ∈ chain t', ¬ (i ∈ pending ∨ i ∈ chain t) := by
    rintro t' ht' i hi (hi' | hi')
    · exact h.notMem_pending hi hi'
    · exact ht' (h.same_chain hi hi')
  refine ⟨h.freeOk.congr hsame hhead fun i hi hs => hfree i (hS i hs) hi, ?_, ?_, fun i hi => ?_,
    fun i hi => ⟨hfree i ((hpart i).mp (.inl hi)), fun t' => ?_⟩, fun i hi => ?_⟩
  · refine h.chains.update hsame.tableSize (fun t' ht' i hi => hsame.table i fun hs => ?_)
      (fun i hi => hin i ((hpart i).mp (.inr hi))) hseg hcells
    exact hother t' ht' i hi (hS i hs)
  · rw [hsame.tableSize, hsame.notFoundValue]
    exact hb
  · rw [hsame.inTable] at hi
    by_cases hp : i ∈ pending ∨ i ∈ chain t
    · rcases (hpart i).mpr hp with hi' | hi'
      · exact .inl hi'
      · exact .inr (.inr ⟨t, by rwa [update_self]⟩)
    · rcases h.cover i hi with hi' | hi' | ⟨t', hi'⟩
      · exact absurd (.inl hi') hp
      · exact .inr (.inl hi')
      · refine .inr (.inr ⟨t', ?_⟩)
        have ht' : t' ≠ t := fun heq => hp (.inr (heq ▸ hi'))
        rwa [update_of_ne ht']
  · by_cases ht' : t' = t
    · rw [ht', update_self]
      exact hdisj i hi
    · rw [update_of_ne ht']
      exact fun hi' => hother t' ht' i hi' ((hpart i).mp (.inl hi))
  · rw [hsame.inTable]
    exact hin i ((hpart i).mp (.inl hi))

omit [DecidableEq V] in
theorem Rep.chain_nil (h : Rep hash m pending free chain b f) (ht : t ∈ pending ∨ t ∈ free) :
    chain t = [] := by
  by_contra hne
  rcases ht with ht | ht
  · exact h.notMem_pending (h.head hne) ht
  · exact h.notMem_free (h.head hne) ht

omit [DecidableEq V] in
theorem Rep.bucket_nil (h : Rep hash m pending free chain b f) (ht : chain t = []) : b t = [] := by
  have hcells := h.chains.cells t
  rw [ht] at hcells
  exact map_eq_nil_iff.mp hcells.symm

omit [DecidableEq V] in
theorem Rep.fill {key : K} {node : V} (h : Rep hash m (idx :: pending) free chain b f)
    (hidx : idx = hash key m.tableSize) (hnew : idx ∉ pending) (hkey : f key = none)
    (hnode : node ≠ m.notFoundValue) :
    ∃ chain' b', Rep hash (m.upd idx ⟨node, .key key, -1⟩) pending free chain' b'
      (update f key (some node)) := by
  have hchain : chain idx = [] := h.chain_nil (.inl mem_cons_self)
  have hbucket := h.bucket_nil hchain
  have hinsert := h.buckets.insert hkey hnode
  rw [← hidx, hbucket] at hinsert
  refine ⟨_, _, h.modify (S := (· = idx)) (c := [idx]) ⟨rfl, rfl, rfl, rfl, fun i hi => ?_⟩ rfl ?_ ?_ ?_
    hinsert ?_ ?_⟩
  · exact IdMap.upd_table_of_ne hi
  · rintro i rfl
    exact .inl mem_cons_self
  · intro _
    simp
  · simp [IdMap.cell, stored]
  · intro i
    rw [hchain]
    simp [or_comm]
  · intro i hi hmem
    obtain rfl := mem_singleton.mp hmem
    exact hnew hi

omit [DecidableEq V] in
/-- A pair put at the head of its chain; the head before it moves to the free cell `d`. -/
theorem Rep.addHead {key : K} {node : V} {rest : List Int}
    (h : Rep hash m (d :: pending) free chain b f)
    (hidx : idx = hash key m.tableSize) (hchain : chain idx = idx :: rest) (hnew : d ∉ pending)
    (hkey : f key = none) (hnode : node ≠ m.notFoundValue) :
    ∃ chain' b', Rep hash ((m.upd d (m.table idx)).upd idx ⟨node, .key key, d⟩) pending free chain' b'
      (update f key (some node)) := by
  have hinsert := h.buckets.insert hkey hnode
  rw [← hidx] at hinsert
  have hmem : idx ∈ chain idx := by simp [hchain]
  have hd : ∀ i ∈ chain idx, i ≠ d := fun i hi heq => h.notMem_pending hi (heq ▸ mem_cons_self)
  have hdi := (hd idx hmem).symm
  have hnd := h.chains.nodup idx
  have hseg := h.chains.seg idx (ne_nil_of_mem hmem)
  have hcells := h.chains.cells idx
  rw [hchain] at hnd hseg hcells
  have hrest : ∀ i ∈ rest, i ≠ d ∧ i ≠ idx := fun i hi =>
    ⟨hd i (by simp [hchain, hi]), fun heq => (nodup_cons.mp hnd).1 (heq ▸ hi)⟩
  refine ⟨_, _, h.modify (S := fun i => i = d ∨ i = idx) (c := idx :: d :: rest)
    ⟨rfl, rfl, rfl, rfl, fun i hi => ?_⟩ rfl ?_ ?_ ?_ hinsert ?_ ?_⟩
  · rw [not_or] at hi
    simp [hi]
  · rintro i (rfl | rfl)
    · exact .inl mem_cons_self
    · exact .inr hmem
  · intro _
    refine ⟨rfl, by simp, ?_⟩
    simp only [IdMap.upd_table_of_ne hdi, IdMap.upd_table_self]
    refine hseg.2.congr fun i hi => ?_
    simp [hrest i hi]
  · rw [map_cons, map_cons, map_cons, ← hcells, map_cons]
    have hsame : ∀ i ∈ rest,
        ((m.upd d (m.table idx)).upd idx ⟨node, .key key, d⟩).cell i = m.cell i := by
      intro i hi
      simp [IdMap.cell, hrest i hi]
    rw [map_congr_left hsame]
    simp [IdMap.cell, stored, hdi]
  · intro i
    rw [hchain]
    simp only [mem_cons]
    tauto
  · intro i hi hmem'
    rcases mem_cons.mp hmem' with rfl | hmem'
    · exact h.notMem_pending hmem (mem_cons_of_mem _ hi)
    · rcases mem_cons.mp hmem' with rfl | hmem'
      · exact hnew hi
      · exact h.notMem_pending (t := idx) (by simp [hchain, hmem']) (mem_cons_of_mem _ hi)

omit [DecidableEq V] in
/-- An entry inside a chain moves to the free cell `d`, and its predecessor is linked to it
there. -/
theorem Rep.relocate (h : Rep hash m (d :: pending) free chain b f)
    (hchain : chain t = l1 ++ p :: idx :: l2) (hnew : d ∉ pending)
    (hsame : SameBut (fun i => i = d ∨ i = idx ∨ i = p) m m') (hhead : m'.freeList = m.freeList)
    (hd : m'.table d = m.table idx) (hp : m'.table p = { m.table p with next := d }) :
    ∃ chain' b', Rep hash m' (idx :: pending) free chain' b' f := by
  have hall : ∀ i ∈ chain t, i ≠ d := fun i hi heq => h.notMem_pending hi (heq ▸ mem_cons_self)
  have hseg := h.chains.seg t (by simp [hchain])
  have hnd := h.chains.nodup t
  have hcells := h.chains.cells t
  rw [hchain] at hall hseg hnd hcells
  obtain ⟨hseg1, hseg2⟩ := seg_split.mp hseg
  rw [nodup_middle, nodup_cons] at hnd
  obtain ⟨hpl, hnd⟩ := hnd
  rw [nodup_middle, nodup_cons] at hnd
  have hpidx : p ≠ idx := fun heq => hpl (heq ▸ by simp)
  have hother : ∀ i ∈ l1 ++ l2, m'.table i = m.table i := by
    intro i hi
    have hi' : i ∈ l1 ++ idx :: l2 := by
      simp only [mem_append, mem_cons] at hi ⊢
      tauto
    refine hsame.table i ?_
    rintro (rfl | rfl | rfl)
    · refine hall i ?_ rfl
      simp only [mem_append, mem_cons] at hi' ⊢
      tauto
    · exact hnd.1 hi
    · exact hpl hi'
  refine ⟨_, _, h.modify (t := t) (c := l1 ++ p :: d :: l2) (l := b t) hsame hhead ?_ ?_ ?_ ?_ ?_ ?_⟩
  · rintro i (rfl | rfl | rfl)
    · exact .inl mem_cons_self
    · exact .inr (by simp [hchain])
    · exact .inr (by simp [hchain])
  · intro _
    refine seg_split.mpr ⟨?_, ?_, ?_⟩
    · refine hseg1.congr fun i hi => ?_
      rw [hother i (mem_append_left _ hi)]
    · rw [hp]
    · simp only [hd]
      refine hseg2.2.congr fun i hi => ?_
      rw [hother i (mem_append_right _ hi)]
  · have hsame1 : ∀ i ∈ l1 ++ l2, m'.cell i = m.cell i := by
      intro i hi
      unfold IdMap.cell
      rw [hother i hi]
    have hd' : m'.cell d = m.cell idx := by
      unfold IdMap.cell
      rw [hd]
    have hp' : m'.cell p = m.cell p := by
      unfold IdMap.cell
      rw [hp]
    rw [← hcells]
    simp only [map_append, map_cons, hd', hp']
    rw [map_congr_left fun i hi => hsame1 i (mem_append_left _ hi),
      map_congr_left fun i hi => hsame1 i (mem_append_right _ hi)]
  · rw [update_eq_self]
    exact h.buckets
  · intro i
    rw [hchain]
    simp only [mem_cons, mem_append]
    tauto
  · -- no cell of the free list or still to be placed is in the new chain
    intro i hi hmem
    have hmem' : i = d ∨ i ∈ l1 ++ p :: l2 := by
      simp only [mem_append, mem_cons] at hmem ⊢
      tauto
    rcases mem_cons.mp hi with rfl | hi
    · rcases hmem' with rfl | hmem'
      · exact hall i (by simp) rfl
      · refine hnd.1 ?_
        simp only [mem_append, mem_cons, hpidx.symm, false_or] at hmem' ⊢
        exact hmem'
    · rcases hmem' with rfl | hmem'
      · exact hnew hi
      · refine h.notMem_pending (t := t) ?_ (mem_cons_of_mem _ hi)
        rw [hchain]
        simp only [mem_append, mem_cons] at hmem' ⊢
        tauto

/-! ### `Insert` in a table that is large enough -/

omit [DecidableEq K] [DecidableEq V] in
theorem findDangling_spec
    (hseg : Seg (fun i => (m.table i).next) t l p) (hp : m.InTable p) (hnext : (m.table p).next = idx)
    (hl : ∀ i ∈ l, m.InTable i ∧ (m.table i).next ≠ idx) (hfuel : l.length < fuel) :
    m.findDangling idx fuel t = some p := by
  induction l generalizing t fuel with
  | nil =>
    obtain rfl : t = p := hseg
    cases fuel with
    | zero => cases hfuel
    | succ fuel => simp [IdMap.findDangling, hp.ne, IdMap.entry_eq hp, hnext]
  | cons a l ih =>
    obtain ⟨rfl, hseg⟩ := hseg
    obtain ⟨ht, hne⟩ := hl t mem_cons_self
    cases fuel with
    | zero => cases hfuel
    | succ fuel =>
      simp only [IdMap.findDangling, if_neg ht.ne, IdMap.entry_eq ht, bind_eq_bind,
        bind_some, if_pos hne]
      exact ih hseg (fun i hi => hl i (mem_cons_of_mem _ hi)) (Nat.lt_of_succ_lt_succ hfuel)

omit [DecidableEq V] in
theorem Rep.next_ne (h : Rep hash m pending free chain b f) (hi : i ∈ chain t)
    (hd : d ∈ pending ∨ d ∈ free) (hne : d ≠ -1) : (m.table i).next ≠ d := by
  rintro heq
  rcases (h.chains.seg t (ne_nil_of_mem hi)).next_mem hi with hmem | hstop
  · rw [heq] at hmem
    rcases hd with hd | hd
    · exact h.notMem_pending hmem hd
    · exact h.notMem_free hmem hd
  · exact hne (heq.symm.trans hstop)

/-- The map when `displace` has copied the entry to `d`. -/
def copied (m : IdMap K V) (d c idx : Int) : IdMap K V :=
  IdMap.upd { m with freeList := c } d (m.table idx)

theorem Rep.displace_eq (h : Rep hash m pending (d :: c :: l) chain b f)
    (hidx : idx ∈ chain t) : m.displace hash idx =
      if idx = t then (copied m d c idx).setNext idx d
      else ((copied m d c idx).setNext idx (-1)).bind fun m =>
        (m.findDangling idx (m.tableSize + 1) t).bind fun tempIdx =>
          (isTrue (tempIdx ≠ -1)).bind fun _ => (m.entry tempIdx).bind fun e =>
            (isTrue (e.next = idx)).bind fun _ => m.setNext tempIdx d := by
  obtain ⟨key, node, hcell, -, -, hhome, -⟩ := h.used hidx
  obtain ⟨hd, -⟩ := h.freeOk.slots d mem_cons_self
  have hhead : m.freeList = d := h.freeOk.seg.1
  have hdc : d ≠ c := fun heq => (nodup_cons.mp h.freeOk.nodup).1 (heq ▸ mem_cons_self)
  have hnext := h.next_ne hidx (.inr mem_cons_self) hd.ne
  have hid : idx ≠ d := fun heq => h.notMem_free hidx (heq ▸ mem_cons_self)
  have hkey : (m.table idx).key = some key := by
    unfold HashEntry.key
    rw [(cell_eq hcell).1]
  simp [IdMap.displace, IdMap.entry_eq (h.chains.inTable t idx hidx), hhead, hnext,
    (h.allocFromFreeList).1, IdMap.setNode_eq, IdMap.setLink_eq, IdMap.setNext_eq, hd.1, hd.2, hid, hdc,
    hkey, hhome, copied]

/-- What `place` keeps. -/
structure Kept (pending : List Int) (m m' : IdMap K V) : Prop where
  notFoundValue : m'.notFoundValue = m.notFoundValue
  isAllocated : m'.isAllocated = m.isAllocated
  tableSize : m'.tableSize = m.tableSize
  table : ∀ i ∈ pending, m'.table i = m.table i

omit [DecidableEq K] [DecidableEq V] in
theorem SameBut.kept (h : SameBut S m m') (hS : ∀ i ∈ pending, ¬ S i) : Kept pending m m' :=
  ⟨h.notFoundValue, h.isAllocated, h.tableSize, fun i hi => h.table i (hS i hi)⟩

section

variable {key : K} {node : V}

theorem Rep.placeFree (h : Rep hash m pending free chain b f)
    (hidx : idx = hash key m.tableSize) (hmem : idx ∈ free) (hkey : f key = none)
    (hnode : node ≠ m.notFoundValue) (bits : K → Int) :
    ∃ m' free' chain' b', m.place hash bits key node = some m' ∧
      Rep hash m' pending free' chain' b' (update f key (some node)) ∧
      free'.length + 1 = free.length ∧ m'.numEntries = m.numEntries + 1 ∧ Kept pending m m' := by
  obtain ⟨hin, hnf⟩ := h.freeOk.slots idx hmem
  obtain ⟨m1, free', hm1, h1, hsame, hlen⟩ := h.removeFromFreeList hmem bits
  have hin1 : m1.InTable idx := (hsame.inTable idx).mpr hin
  have hnew : idx ∉ pending := fun hp => (h.apart idx hp).1 hmem
  rw [← hsame.notFoundValue] at hnode
  rw [← hsame.tableSize] at hidx
  obtain ⟨chain', b', h2⟩ := h1.fill hidx hnew hkey hnode
  refine ⟨_, free', chain', b', ?_, h2.withNumEntries (m1.numEntries + 1), hlen,
    congrArg (· + 1) hsame.numEntries, hsame.notFoundValue, hsame.isAllocated, hsame.tableSize,
    fun i hi => ?_⟩
  · rw [hsame.tableSize] at hidx
    simp [IdMap.place, ← hidx, IdMap.entry_eq hin, hnf, hm1, IdMap.setNext_eq, IdMap.setNode_eq,
      IdMap.setLink_eq, hin1]
  · have hi1 : i ≠ idx := fun heq => hnew (heq ▸ hi)
    exact (IdMap.upd_table_of_ne hi1).trans (hsame.table i (h.apart i hi).1)

theorem Rep.placeOwn
    (h : Rep hash m pending (d :: c :: l) chain b f) (hidx : idx = hash key m.tableSize)
    (hmem : idx ∈ chain idx) (hkey : f key = none) (hnode : node ≠ m.notFoundValue) (bits : K → Int) :
    ∃ m' chain' b', m.place hash bits key node = some m' ∧
      Rep hash m' pending (c :: l) chain' b' (update f key (some node)) ∧
      m'.numEntries = m.numEntries + 1 ∧ Kept pending m m' := by
  have hin := h.chains.inTable idx idx hmem
  obtain ⟨-, h1⟩ := h.allocFromFreeList
  have hd : d ∉ pending := fun hp => (h.apart d hp).1 mem_cons_self
  obtain ⟨rest, hrest, -⟩ := (h.chains.seg idx (ne_nil_of_mem hmem)).eq_cons hin.ne
  obtain ⟨chain', b', h2⟩ := h1.addHead hidx hrest hd hkey hnode
  refine ⟨_, chain', b', ?_, h2.withNumEntries (m.numEntries + 1), rfl, rfl, rfl, rfl, fun i hi => ?_⟩
  · have hin1 : (copied m d c idx).InTable idx := hin
    simp only [IdMap.place, ← hidx, IdMap.entry_eq hin, bind_eq_bind, bind_some,
      if_pos (h.node_ne hmem), h.displace_eq hmem, if_true, IdMap.setNext_eq hin1]
    simp [IdMap.setNode_eq, IdMap.setLink_eq, hin1]
    exact ⟨rfl, rfl, rfl, rfl, rfl, rfl⟩
  · have hi1 : i ≠ d := fun heq => hd (heq ▸ hi)
    have hi2 : i ≠ idx := fun heq => h.notMem_pending hmem (heq ▸ hi)
    exact (IdMap.upd_table_of_ne hi2).trans (IdMap.upd_table_of_ne hi1)

/-- The cell a key hashes to holds an entry of another chain: that entry moves away, and the key's
own chain begins there. -/
theorem Rep.placeOther
    (h : Rep hash m pending (d :: c :: l) chain b f) (hidx : idx = hash key m.tableSize)
    (hmem : idx ∈ chain t) (ht : t ≠ idx) (hkey : f key = none) (hnode : node ≠ m.notFoundValue)
    (bits : K → Int) : ∃ m' chain' b', m.place hash bits key node = some m' ∧
      Rep hash m' pending (c :: l) chain' b' (update f key (some node)) ∧
      m'.numEntries = m.numEntries + 1 ∧ Kept pending m m' := by
  have hin := h.chains.inTable t idx hmem
  obtain ⟨-, h1⟩ := h.allocFromFreeList
  have hd : d ∉ pending := fun hp => (h.apart d hp).1 mem_cons_self
  have hcd : ∀ i ∈ chain t, i ≠ d := fun i hi heq => h.notMem_free hi (heq ▸ mem_cons_self)
  have hseg := h.chains.seg t (ne_nil_of_mem hmem)
  obtain ⟨l1, p, l2, hchain, hnext⟩ := hseg.exists_prev hmem ht
  have hnd := h.chains.nodup t
  rw [hchain] at hseg hnd
  obtain ⟨hseg1, -⟩ := seg_split.mp hseg
  have hpmem : p ∈ chain t := by simp [hchain]
  have hl1 : ∀ i ∈ l1, i ∈ chain t := fun i hi => by simp [hchain, hi]
  have hpin := h.chains.inTable t p hpmem
  have hidx1 : idx ∉ l1 ∧ idx ≠ p := by
    rw [nodup_middle, nodup_cons] at hnd
    refine ⟨fun hi => ?_, fun heq => hnd.1 (by simp [heq])⟩
    have := (nodup_middle.mp hnd.2)
    exact (nodup_cons.mp this).1 (mem_append_left _ hi)
  -- the map when the link to the displaced entry is looked for
  have hin1 : (copied m d c idx).InTable idx := hin
  let m2 := (copied m d c idx).upd idx { (copied m d c idx).table idx with next := -1 }
  have htable : ∀ i, i ≠ d → i ≠ idx → m2.table i = m.table i := fun i hi1 hi2 =>
    (IdMap.upd_table_of_ne hi2).trans (IdMap.upd_table_of_ne hi1)
  have htable1 : ∀ i ∈ l1, m2.table i = m.table i := fun i hi =>
    htable i (hcd i (hl1 i hi)) fun heq => hidx1.1 (heq ▸ hi)
  have htablep : m2.table p = m.table p := htable p (hcd p hpmem) hidx1.2.symm
  have hfind : m2.findDangling idx (m2.tableSize + 1) t = some p := by
    refine findDangling_spec (l := l1) (hseg1.congr fun i hi => ?_) hpin ?_ (fun i hi => ?_) ?_
    · rw [htable1 i hi]
    · rw [htablep]
      exact hnext
    · refine ⟨h.chains.inTable t i (hl1 i hi), ?_⟩
      rw [htable1 i hi]
      intro heq
      rcases hseg1.next_mem hi with hnext' | hnext'
      · exact hidx1.1 (heq ▸ hnext')
      · exact hidx1.2 (heq.symm.trans hnext')
    · have hle := IdMap.length_le_tableSize (h.chains.nodup t) (h.chains.inTable t)
      rw [hchain] at hle
      simp only [length_append, length_cons] at hle
      exact Nat.lt_succ_of_le (Nat.le_of_add_right_le hle)
  let m3 := m2.upd p { m2.table p with next := d }
  have hdp : d ≠ p := (hcd p hpmem).symm
  have hdi : d ≠ idx := (hcd idx hmem).symm
  have hsame : SameBut (fun i => i = d ∨ i = idx ∨ i = p) { m with freeList := c } m3 := by
    refine ⟨rfl, rfl, rfl, rfl, fun i hi => ?_⟩
    rw [not_or, not_or] at hi
    exact (IdMap.upd_table_of_ne hi.2.2).trans (htable i hi.1 hi.2.1)
  have hd3 : m3.table d = m.table idx :=
    (IdMap.upd_table_of_ne hdp).trans ((IdMap.upd_table_of_ne hdi).trans IdMap.upd_table_self)
  have hp3 : m3.table p = { m.table p with next := d } := by
    rw [← htablep]
    exact IdMap.upd_table_self
  obtain ⟨chain1, b1, h2⟩ := h1.relocate hchain hd hsame rfl hd3 hp3
  obtain ⟨chain', b', h3⟩ := h2.fill hidx (h.notMem_pending hmem) hkey hnode
  refine ⟨_, chain', b', ?_, h3.withNumEntries (m.numEntries + 1), rfl, rfl, rfl, rfl, fun i hi => ?_⟩
  · have hp2 : m2.InTable p := hpin
    have hin3 : m3.InTable idx := hin
    have hdisplace : m.displace hash idx = some m3 := by
      rw [h.displace_eq hmem, if_neg ht.symm, IdMap.setNext_eq hin1, bind_some, hfind,
        bind_some, isTrue_of hpin.ne, bind_some, IdMap.entry_eq hp2, bind_some,
        isTrue_of (htablep ▸ hnext), bind_some, IdMap.setNext_eq hp2]
    have hself : m3.table idx = { m2.table idx with next := -1 } := by
      refine (IdMap.upd_table_of_ne hidx1.2).trans ?_
      simp [m2]
    simp only [IdMap.place, ← hidx, IdMap.entry_eq hin, bind_eq_bind, bind_some,
      if_pos (h.node_ne hmem), hdisplace]
    simp [IdMap.setNode_eq, IdMap.setLink_eq, hin3, hself]
    rfl
  · have hi1 : i ≠ d := fun heq => hd (heq ▸ hi)
    have hi2 : i ≠ idx := fun heq => h.notMem_pending hmem (heq ▸ hi)
    have hi3 : i ≠ p := fun heq => h.notMem_pending hpmem (heq ▸ hi)
    exact (IdMap.upd_table_of_ne hi2).trans ((IdMap.upd_table_of_ne hi3).trans (htable i hi1 hi2))

theorem Rep.place (h : Rep hash m pending free chain b f)
    (hin : m.InTable (hash key m.tableSize)) (hnew : (hash key m.tableSize : Int) ∉ pending)
    (hkey : f key = none) (hnode : node ≠ m.notFoundValue) (hroom : 2 ≤ free.length) (bits : K → Int) :
    ∃ m' free' chain' b', m.place hash bits key node = some m' ∧
      Rep hash m' pending free' chain' b' (update f key (some node)) ∧
      free'.length + 1 = free.length ∧ m'.numEntries = m.numEntries + 1 ∧ Kept pending m m' := by
  rcases h.cover _ hin with hmem | hmem | ⟨t, hmem⟩
  · exact absurd hmem hnew
  · exact h.placeFree rfl hmem hkey hnode bits
  · obtain ⟨d, c, l, rfl⟩ : ∃ d c l, free = d :: c :: l := by
      match free, hroom with
      | d :: c :: l, _ => exact ⟨d, c, l, rfl⟩
    by_cases ht : t = hash key m.tableSize
    · obtain ⟨m', chain', b', hm', h', hnum, hkept⟩ := h.placeOwn rfl (ht ▸ hmem) hkey hnode bits
      exact ⟨m', _, chain', b', hm', h', rfl, hnum, hkept⟩
    · obtain ⟨m', chain', b', hm', h', hnum, hkept⟩ := h.placeOther rfl hmem ht hkey hnode bits
      exact ⟨m', _, chain', b', hm', h', rfl, hnum, hkept⟩

end

/-! ### `Lookup` and `Delete` -/

omit [DecidableEq K] [DecidableEq V] in
theorem advance_spec (hseg : Seg (fun i => (m.table i).next) i l (-1))
    (hl : ∀ j ∈ l, m.InTable j) :
    ∃ i', m.advance i = some i' ∧ Seg (fun i => (m.table i).next) i' (l.drop 1) (-1) := by
  unfold IdMap.advance
  cases l with
  | nil =>
    obtain rfl : i = -1 := hseg
    exact ⟨-1, by simp, rfl⟩
  | cons a l =>
    obtain ⟨rfl, hseg⟩ := hseg
    have hi := hl i mem_cons_self
    exact ⟨_, by rw [if_pos hi.ne, IdMap.entry_eq hi]; rfl, hseg⟩

theorem Rep.lookupLoop (h : Rep hash m pending free chain b f) (key : K) {l : List Int} {fuel n : Nat}
    {loopcheck : Int} (hl : ∀ i ∈ l, i ∈ chain t) (hnd : l.Nodup)
    (hseg : Seg (fun i => (m.table i).next) idx l (-1))
    (hloop : Seg (fun i => (m.table i).next) loopcheck (l.drop n) (-1)) (hfuel : l.length < fuel) :
    ∃ r, m.lookupLoop key fuel idx loopcheck = some r ∧
      (r = -1 ∧ (∀ i ∈ l, (m.table i).link ≠ .key key) ∨ r ∈ l ∧ (m.table r).link = .key key) := by
  induction l generalizing idx loopcheck fuel n with
  | nil =>
    obtain rfl : idx = -1 := hseg
    cases fuel with
    | zero => cases hfuel
    | succ fuel => exact ⟨-1, by simp [IdMap.lookupLoop], .inl ⟨rfl, fun i hi => (by cases hi)⟩⟩
  | cons a l ih =>
    obtain ⟨rfl, hseg⟩ := hseg
    have hmem := hl idx mem_cons_self
    obtain ⟨k, node, hcell, -⟩ := h.used hmem
    have hidx := h.chains.inTable t idx hmem
    have hk : (m.table idx).key = some k := by
      unfold HashEntry.key
      rw [(cell_eq hcell).1]
    cases fuel with
    | zero => cases hfuel
    | succ fuel =>
      simp only [IdMap.lookupLoop, if_neg hidx.ne, IdMap.entry_eq hidx, bind_eq_bind,
        bind_some, if_pos (h.node_ne hmem), hk]
      by_cases hkey : k = key
      · rw [if_neg (not_not.mpr hkey)]
        exact ⟨idx, rfl, .inr ⟨mem_cons_self, by rw [(cell_eq hcell).1, hkey]⟩⟩
      · have hin : ∀ j ∈ idx :: l, m.InTable j := fun j hj => h.chains.inTable t j (hl j hj)
        obtain ⟨i1, hi1, hseg1⟩ := advance_spec hloop fun j hj => hin j (mem_of_mem_drop hj)
        obtain ⟨i2, hi2, hseg2⟩ := advance_spec hseg1 fun j hj =>
          hin j (mem_of_mem_drop (mem_of_mem_drop hj))
        rw [drop_drop, drop_drop, drop_succ_cons] at hseg2
        have hassert : i2 ≠ -1 → i2 ≠ (m.table idx).next := by
          rintro hne rfl
          obtain ⟨l', rfl, -⟩ := hseg.eq_cons hne
          have hmem2 := hseg2.head fun hnil => hne (by rw [hnil] at hseg2; exact hseg2)
          rw [drop_succ_cons] at hmem2
          exact (nodup_cons.mp (nodup_cons.mp hnd).2).1 (mem_of_mem_drop hmem2)
        rw [if_pos hkey, hi1, bind_some, hi2, bind_some, isTrue_of hassert,
          bind_some]
        obtain ⟨r, hr, hcase⟩ := ih (fun i hi => hl i (mem_cons_of_mem _ hi))
          (nodup_cons.mp hnd).2 hseg hseg2 (Nat.lt_of_succ_lt_succ hfuel)
        refine ⟨r, hr, hcase.imp (fun hnone => ⟨hnone.1, fun i hi => ?_⟩) fun hfound =>
          ⟨mem_cons_of_mem _ hfound.1, hfound.2⟩⟩
        rcases mem_cons.mp hi with rfl | hi
        · rw [(cell_eq hcell).1]
          intro heq
          rw [KeyOrPrev.key.injEq] at heq
          exact hkey heq
        · exact hnone.2 i hi

/-- The walk along the chain of a key finds its value, or ends. -/
theorem Rep.lookup (h : Rep hash m [] free chain b f) (key : K)
    (hin : m.InTable (hash key m.tableSize)) :
    m.lookup hash key = some ((f key).getD m.notFoundValue) := by
  rcases (h.cover _ hin).resolve_left not_mem_nil with hmem | ⟨t, hmem⟩
  · -- the slot of the hash value is free, so the key is absent
    have hnode := (h.freeOk.slots _ hmem).2
    have hnone : f key = none := by
      rw [Option.eq_none_iff_forall_not_mem]
      intro v hv
      have hv := (h.buckets.lookup key v).mp hv
      rw [h.bucket_nil (h.chain_nil (.inr hmem))] at hv
      cases hv
    simp [IdMap.lookup, IdMap.entryLookup, IdMap.lookupLoop, IdMap.entry_eq hin, hin.ne, hnode, hnone]
  · have hseg := h.chains.seg t (ne_nil_of_mem hmem)
    have hnd := h.chains.nodup t
    have hle := IdMap.length_le_tableSize hnd (h.chains.inTable t)
    obtain ⟨l1, l2, hchain⟩ := append_of_mem hmem
    rw [hchain] at hseg hnd hle
    obtain ⟨-, hseg2⟩ := seg_split.mp hseg
    have hsub : ∀ i ∈ (hash key m.tableSize : Int) :: l2, i ∈ chain t := fun i hi => by
      rw [hchain]
      exact mem_append_right _ hi
    have hlen : ((hash key m.tableSize : Int) :: l2).length < m.tableSize + 1 := by
      rw [length_append] at hle
      omega
    obtain ⟨r, hr, hcase⟩ := h.lookupLoop key (n := 0) hsub (nodup_append.mp hnd).2.1
      ⟨rfl, hseg2⟩ ⟨rfl, hseg2⟩ hlen
    rcases hcase with ⟨rfl, hnone⟩ | ⟨hmemr, hlink⟩
    · have habsent : f key = none := by
        rw [Option.eq_none_iff_forall_not_mem]
        intro v hv
        have hv := (h.buckets.lookup key v).mp hv
        obtain ⟨i, hi, hcell⟩ := h.chains.exists_slot hv
        -- the chain of the key starts at its hash value
        have hhead := h.head (ne_nil_of_mem hi)
        obtain rfl := h.same_chain hhead hmem
        cases l1 with
        | nil =>
          rw [hchain] at hi
          exact hnone i hi (cell_eq hcell).1
        | cons a l1 =>
          refine (nodup_cons.mp hnd).1 ?_
          rw [← hseg.1]
          simp
      simp [IdMap.lookup, IdMap.entryLookup, hr, habsent]
    · obtain ⟨k, node, hcell, -, hne, -, hf⟩ := h.used (hsub r hmemr)
      have hrin := h.chains.inTable t r (hsub r hmemr)
      rw [(cell_eq hcell).1, KeyOrPrev.key.injEq] at hlink
      rw [hlink] at hf
      simp [IdMap.lookup, IdMap.entryLookup, hr, hrin.ne, IdMap.entry_eq hrin, (cell_eq hcell).2, hne, hf]

omit [DecidableEq K] in
theorem findEntry_spec {key : K} [DecidableEq K] (hne : ∀ i ∈ chain t, (m.table i).node ≠ m.notFoundValue)
    (hkeys : ∀ i ∈ chain t, m.InTable i ∧ ∃ k, (m.table i).link = .key k)
    {prevIdx r : Int} (hl : ∀ i ∈ l1, i ∈ chain t ∧ (m.table i).link ≠ .key key) (hr : r ∈ chain t)
    (hlink : (m.table r).link = .key key)
    (hseg : Seg (fun i => (m.table i).next) idx (l1 ++ r :: l2) (-1)) (hfuel : l1.length < fuel) :
    m.findEntry key fuel prevIdx idx = some (l1.getLastD prevIdx, r) := by
  induction l1 generalizing idx prevIdx fuel with
  | nil =>
    obtain ⟨rfl, -⟩ := hseg
    cases fuel with
    | zero => cases hfuel
    | succ fuel =>
      have hin := (hkeys idx hr).1
      have hk : (m.table idx).key = some key := by
        unfold HashEntry.key
        rw [hlink]
      simp [IdMap.findEntry, hin.ne, IdMap.entry_eq hin, hne idx hr, hk]
  | cons a l1 ih =>
    obtain ⟨rfl, hseg⟩ := hseg
    obtain ⟨hmem, hlinka⟩ := hl idx mem_cons_self
    obtain ⟨hin, k, hk⟩ := hkeys idx hmem
    cases fuel with
    | zero => cases hfuel
    | succ fuel =>
      have hkey : (m.table idx).key = some k := by
        unfold HashEntry.key
        rw [hk]
      have hkne : k ≠ key := fun heq => hlinka (by rw [hk, heq])
      simp only [IdMap.findEntry, if_neg hin.ne, IdMap.entry_eq hin, bind_eq_bind,
        bind_some, if_pos (hne idx hmem), hkey, if_pos hkne]
      rw [ih (fun i hi => hl i (mem_cons_of_mem _ hi)) hseg (Nat.lt_of_succ_lt_succ hfuel),
        getLastD_cons]

omit [DecidableEq V] in
theorem Rep.bucket_split {key : K} (h : Rep hash m pending free chain b f)
    (hchain : chain t = l1 ++ idx :: l2) (hlink : (m.table idx).link = .key key) :
    ∃ b1 node b2, b t = b1 ++ (key, node) :: b2 ∧ l1.map m.cell = b1.map stored ∧
      l2.map m.cell = b2.map stored := by
  have hcells := h.chains.cells t
  rw [hchain, map_append, map_cons] at hcells
  obtain ⟨b1, b', hb, h1, h'⟩ := map_eq_append_iff.mp hcells.symm
  obtain ⟨⟨k, node⟩, b2, rfl, hcell, h2⟩ := map_eq_cons_iff.mp h'
  have hk := (cell_eq hcell.symm).1
  rw [hlink, KeyOrPrev.key.injEq] at hk
  exact ⟨b1, node, b2, by rw [hb, hk], h1.symm, h2.symm⟩

omit [DecidableEq V] in
theorem Rep.unlink {key : K} (h : Rep hash m [] free chain b f)
    (hchain : chain t = l1 ++ p :: idx :: l2) (hlink : (m.table idx).link = .key key) :
    ∃ chain' b', Rep hash (m.upd p { m.table p with next := (m.table idx).next }) [idx] free chain' b'
      (update f key none) := by
  obtain ⟨b1, node, b2, hb, h1, h2⟩ :=
    h.bucket_split (show chain t = (l1 ++ [p]) ++ idx :: l2 by rw [hchain, append_assoc]; rfl) hlink
  have hseg := h.chains.seg t (by simp [hchain])
  have hnd := h.chains.nodup t
  rw [hchain] at hseg hnd
  obtain ⟨hseg1, -, hseg2⟩ := seg_split.mp hseg
  rw [nodup_middle, nodup_cons] at hnd
  obtain ⟨hpl, hnd⟩ := hnd
  rw [nodup_middle, nodup_cons] at hnd
  have hp1 : ∀ i ∈ l1, i ≠ p := fun i hi heq => hpl (heq ▸ mem_append_left _ hi)
  have hp2 : ∀ i ∈ l2, i ≠ p := fun i hi heq =>
    hpl (heq ▸ mem_append_right _ (mem_cons_of_mem _ hi))
  refine ⟨_, _, h.modify (t := t) (S := (· = p)) (c := l1 ++ p :: l2)
    ⟨rfl, rfl, rfl, rfl, fun i hi => IdMap.upd_table_of_ne hi⟩ rfl ?_ ?_ ?_ (h.buckets.remove hb) ?_ ?_⟩
  · rintro i rfl
    exact .inr (by simp [hchain])
  · intro _
    refine seg_split.mpr ⟨?_, ?_⟩
    · refine hseg1.congr fun i hi => ?_
      simp [hp1 i hi]
    · simp only [IdMap.upd_table_self]
      refine hseg2.congr fun i hi => ?_
      simp [hp2 i hi]
  · simp only [map_append]
    rw [← h1, ← h2]
    simp only [map_append, map_cons, map_nil, append_assoc, singleton_append]
    have hcell : ∀ i, (m.upd p { m.table p with next := (m.table idx).next }).cell i = m.cell i := by
      intro i
      by_cases hi : i = p
      · subst hi
        simp [IdMap.cell]
      · simp [IdMap.cell, hi]
    rw [funext hcell]
  · intro i
    rw [hchain]
    simp only [mem_cons, mem_append, not_mem_nil]
    tauto
  · intro i hi hmem
    obtain rfl := mem_singleton.mp hi
    rcases mem_append.mp hmem with hmem | hmem
    · exact hnd.1 (mem_append_left _ hmem)
    · rcases mem_cons.mp hmem with rfl | hmem
      · exact hpl (by simp)
      · exact hnd.1 (mem_append_right _ hmem)

omit [DecidableEq V] in
theorem Rep.pull {key : K} {n : Int} (h : Rep hash m [] free chain b f)
    (hchain : chain t = t :: n :: l) (hlink : (m.table t).link = .key key) :
    ∃ chain' b', Rep hash (m.upd t (m.table n)) [n] free chain' b' (update f key none) := by
  obtain ⟨b1, node, b2, hb, h1, h2⟩ := h.bucket_split (show chain t = [] ++ t :: n :: l from hchain) hlink
  obtain rfl := map_eq_nil_iff.mp h1.symm
  have hseg := h.chains.seg t (by simp [hchain])
  have hnd := h.chains.nodup t
  rw [hchain] at hseg hnd
  obtain ⟨-, -, hseg⟩ := hseg
  obtain ⟨htl, hnd⟩ := nodup_cons.mp hnd
  have ht : ∀ i ∈ l, i ≠ t := fun i hi heq => htl (heq ▸ mem_cons_of_mem _ hi)
  refine ⟨_, _, h.modify (t := t) (S := (· = t)) (c := t :: l)
    ⟨rfl, rfl, rfl, rfl, fun i hi => IdMap.upd_table_of_ne hi⟩ rfl ?_ ?_ ?_ (h.buckets.remove hb) ?_ ?_⟩
  · rintro i rfl
    exact .inr (by simp [hchain])
  · intro _
    refine ⟨rfl, ?_⟩
    simp only [IdMap.upd_table_self]
    refine hseg.congr fun i hi => ?_
    simp [ht i hi]
  · rw [nil_append, ← h2, map_cons, map_cons]
    have hcell : ∀ i ∈ l, (m.upd t (m.table n)).cell i = m.cell i := by
      intro i hi
      simp [IdMap.cell, ht i hi]
    rw [map_congr_left hcell]
    simp [IdMap.cell]
  · intro i
    rw [hchain]
    simp only [mem_cons, not_mem_nil]
    tauto
  · intro i hi hmem
    obtain rfl := mem_singleton.mp hi
    rcases mem_cons.mp hmem with rfl | hmem
    · exact htl mem_cons_self
    · exact (nodup_cons.mp hnd).1 hmem

omit [DecidableEq V] in
theorem Rep.drop {key : K} (h : Rep hash m [] free chain b f) (hchain : chain t = [t])
    (hlink : (m.table t).link = .key key) :
    ∃ chain' b', Rep hash m [t] free chain' b' (update f key none) := by
  obtain ⟨b1, node, b2, hb, h1, h2⟩ := h.bucket_split (show chain t = [] ++ [t] from hchain) hlink
  obtain rfl := map_eq_nil_iff.mp h1.symm
  obtain rfl := map_eq_nil_iff.mp h2.symm
  exact ⟨_, _, h.modify (t := t) (S := fun _ => False) (c := [])
    ⟨rfl, rfl, rfl, rfl, fun i _ => rfl⟩ rfl (fun _ hs => hs.elim) (fun hne => absurd rfl hne) rfl
    (h.buckets.remove hb) (fun i => by simp [hchain]) fun _ _ hmem => by cases hmem⟩

omit [DecidableEq V] in
theorem Rep.takeOut {key : K} {l1 l2 : List Int} (h : Rep hash m [] free chain b f)
    (hchain : chain t = l1 ++ idx :: l2) (hlink : (m.table idx).link = .key key) :
    ∃ m' idx' chain' b', m.takeOut (l1.getLastD (-1)) idx = some (idx', m') ∧
      Rep hash m' [idx'] free chain' b' (update f key none) ∧
      m'.numEntries = m.numEntries ∧ Kept [] m m' := by
  have hmem : ∀ i ∈ l1 ++ idx :: l2, m.InTable i := fun i hi => h.chains.inTable t i (hchain ▸ hi)
  have hin := hmem idx (by simp)
  have hseg := h.chains.seg t (by simp [hchain])
  rw [hchain] at hseg
  unfold IdMap.takeOut
  simp only [IdMap.entry_eq hin, bind_eq_bind, bind_some]
  rcases eq_nil_or_concat l1 with rfl | ⟨l3, p, rfl⟩
  · obtain ⟨rfl, hseg⟩ := hseg
    rw [getLastD_nil, if_neg (not_not.mpr rfl)]
    cases l2 with
    | nil =>
      have hnext : (m.table t).next = -1 := hseg
      obtain ⟨chain', b', h'⟩ := h.drop hchain hlink
      rw [if_neg (not_not.mpr hnext)]
      exact ⟨m, t, chain', b', rfl, h', rfl, rfl, rfl, rfl, fun i hi => (by cases hi)⟩
    | cons n l =>
      have hnext : (m.table t).next = n := hseg.1
      have hn := hmem n (by simp)
      obtain ⟨chain', b', h'⟩ := h.pull hchain hlink
      rw [hnext, if_pos hn.ne, IdMap.entry_eq hn, bind_some, IdMap.setEntry_eq hin, bind_some]
      exact ⟨_, n, chain', b', rfl, h', rfl, rfl, rfl, rfl, fun i hi => (by cases hi)⟩
  · rw [concat_eq_append] at hchain hmem ⊢
    have hp := hmem p (by simp)
    obtain ⟨chain', b', h'⟩ := h.unlink (by rw [hchain, append_assoc]; rfl) hlink
    rw [getLastD_concat, if_pos hp.ne, IdMap.setNext_eq hp, bind_some]
    exact ⟨_, idx, chain', b', rfl, h', rfl, rfl, rfl, rfl, fun i hi => (by cases hi)⟩

/-- A deleted pair leaves its chain, and the cell goes to the free list. -/
theorem Rep.delete {key : K} (h : Rep hash m [] free chain b f) (hkey : f key ≠ none) :
    ∃ m' idx chain' b', m.delete hash key = some m' ∧
      Rep hash m' [] (idx :: free) chain' b' (update f key none) ∧
      m'.numEntries = m.numEntries - 1 ∧ Kept [] m m' := by
  obtain ⟨v, hv⟩ := Option.ne_none_iff_exists'.mp hkey
  obtain ⟨r, hr, hcell⟩ := h.chains.exists_slot ((h.buckets.lookup key v).mp hv)
  have hlink := (cell_eq hcell).1
  obtain ⟨l1, l2, hchain⟩ := append_of_mem hr
  have hseg := h.chains.seg _ (ne_nil_of_mem hr)
  have hlen := IdMap.length_le_tableSize (h.chains.nodup (hash key m.tableSize)) (h.chains.inTable _)
  rw [hchain] at hseg hlen
  have hkeys : ∀ i ∈ chain (hash key m.tableSize), m.InTable i ∧ ∃ k, (m.table i).link = .key k := by
    intro i hi
    obtain ⟨k, node, hc, -⟩ := h.used hi
    exact ⟨h.chains.inTable _ i hi, k, (cell_eq hc).1⟩
  obtain ⟨b1, node, b2, hb, h1, -⟩ := h.bucket_split hchain hlink
  -- the entries before it have other keys
  have hl1 : ∀ i ∈ l1, i ∈ chain (hash key m.tableSize) ∧ (m.table i).link ≠ .key key := by
    intro i hi
    refine ⟨by simp [hchain, hi], fun hlinki => ?_⟩
    have hkeys := h.buckets.nodup (hash key m.tableSize)
    rw [hb, map_append, map_cons, nodup_middle, nodup_cons] at hkeys
    refine hkeys.1 (mem_append_left _ ?_)
    have hmem : m.cell i ∈ b1.map stored := h1 ▸ mem_map_of_mem hi
    obtain ⟨⟨k, node'⟩, hp, hcelli⟩ := mem_map.mp hmem
    have hk := (cell_eq hcelli.symm).1
    rw [hlinki, KeyOrPrev.key.injEq] at hk
    exact mem_map.mpr ⟨_, hp, hk.symm⟩
  have hfind : m.findEntry key (m.tableSize + 1) (-1) (hash key m.tableSize) =
      some (l1.getLastD (-1), r) := by
    refine findEntry_spec (fun i hi => h.node_ne hi) hkeys hl1 hr hlink hseg ?_
    rw [length_append] at hlen
    omega
  have hin := h.chains.inTable _ r hr
  obtain ⟨m1, idx, chain', b', hm1, hrep1, hnum1, hkept1⟩ := h.takeOut hchain hlink
  have hlast : ∀ i, i ∈ ([] : List Int) ↔ i ∈ [idx] ∧ i ≠ idx := by simp
  obtain ⟨m2, hm2, hrep2, hsame⟩ := hrep1.addToFreeList mem_cons_self hlast
  refine ⟨_, idx, chain', b', ?_, hrep2.withNumEntries (m2.numEntries - 1),
    congrArg (· - 1) (hsame.numEntries.trans hnum1), hsame.notFoundValue.trans hkept1.notFoundValue,
    hsame.isAllocated.trans hkept1.isAllocated, hsame.tableSize.trans hkept1.tableSize,
    fun i hi => (by cases hi)⟩
  unfold IdMap.delete
  simp only [hfind, bind_eq_bind, bind_some, isTrue_of hin.ne, IdMap.entry_eq hin,
    isTrue_of (h.node_ne hr), hm1, hm2]

/-! ### Room -/

omit [DecidableEq K] [DecidableEq V] in
theorem used_length_le {D : Finset K} (hnd : l.Nodup)
    (hkey : ∀ i ∈ l, ∃ k ∈ D, (m.table i).link = .key k)
    (hinj : ∀ i ∈ l, ∀ j ∈ l, (m.table i).link = (m.table j).link → i = j) : l.length ≤ D.card := by
  have hmap : (l.map fun i => (m.table i).link).Nodup := hnd.map_on hinj
  have hsub : (l.map fun i => (m.table i).link) ⊆ D.toList.map KeyOrPrev.key := by
    intro x hx
    obtain ⟨i, hi, rfl⟩ := mem_map.mp hx
    obtain ⟨k, hk, hlink⟩ := hkey i hi
    exact mem_map.mpr ⟨k, Finset.mem_toList.mpr hk, hlink.symm⟩
  have hle := (subperm_of_subset hmap hsub).length_le
  simpa using hle

omit [DecidableEq V] in
theorem Rep.distinct (h : Rep hash m pending free chain b f) {j : Int} (hi : i ∈ chain t)
    (hj : j ∈ chain t') (hlink : (m.table i).link = (m.table j).link) : i = j := by
  obtain ⟨k, node, hcell, -, -, hhome, -⟩ := h.used hi
  obtain ⟨k', node', hcell', -, -, hhome', -⟩ := h.used hj
  have hk := hlink
  rw [(cell_eq hcell).1, (cell_eq hcell').1, KeyOrPrev.key.injEq] at hk
  obtain rfl : t = t' := by rw [← hhome, ← hhome', hk]
  have hkeys := (h.buckets.nodup t).map fun a a' (heq : KeyOrPrev.key a = .key a') => by
    rwa [KeyOrPrev.key.injEq] at heq
  have hlinks : (chain t).map (fun i => (m.table i).link) = ((b t).map Prod.fst).map KeyOrPrev.key := by
    have hcells := congrArg (map Prod.fst) (h.chains.cells t)
    rw [map_map, map_map] at hcells
    rw [map_map]
    exact hcells
  rw [← hlinks] at hkeys
  exact inj_on_of_nodup_map hkeys hi hj hlink

/-- The slots of the table. -/
def slots (n : Nat) : List Int := (range n).map Nat.cast

theorem mem_slots : i ∈ slots n ↔ 0 ≤ i ∧ i < n := by
  unfold slots
  rw [mem_map]
  constructor
  · rintro ⟨j, hj, rfl⟩
    have := mem_range.mp hj
    exact ⟨by omega, by exact_mod_cast this⟩
  · rintro ⟨h0, h1⟩
    exact ⟨i.toNat, mem_range.mpr (by omega), by omega⟩

theorem slots_nodup (n : Nat) : (slots n).Nodup :=
  nodup_range.map fun _ _ heq => Int.ofNat.inj heq

theorem length_slots (n : Nat) : (slots n).length = n := by simp [slots]

omit [DecidableEq V] in
theorem Rep.room (h : Rep hash m pending free chain b f) {D : Finset K}
    (hD : ∀ k, f k ≠ none → k ∈ D) : m.tableSize ≤ pending.length + free.length + D.card := by
  have hused : ((slots m.tableSize).filter fun i => decide (i ∉ pending ++ free)).length ≤ D.card := by
    have hchain : ∀ i ∈ (slots m.tableSize).filter fun i => decide (i ∉ pending ++ free), ∃ t, i ∈ chain t := by
      intro i hi
      obtain ⟨hi, hnot⟩ := mem_filter.mp hi
      rw [decide_eq_true_eq, mem_append, not_or] at hnot
      rcases h.cover i (mem_slots.mp hi) with hp | hf | hc
      · exact absurd hp hnot.1
      · exact absurd hf hnot.2
      · exact hc
    refine used_length_le (m := m) ((slots_nodup _).filter _) (fun i hi => ?_) fun i hi j hj hlink => ?_
    · obtain ⟨t, ht⟩ := hchain i hi
      obtain ⟨k, node, hcell, -, -, -, hf⟩ := h.used ht
      exact ⟨k, hD k (by rw [hf]; exact Option.some_ne_none node), (cell_eq hcell).1⟩
    · obtain ⟨t, ht⟩ := hchain i hi
      obtain ⟨t', ht'⟩ := hchain j hj
      exact h.distinct ht ht' hlink
  have hrest : ((slots m.tableSize).filter fun i => !decide (i ∉ pending ++ free)).length ≤
      (pending ++ free).length := by
    refine (subperm_of_subset ((slots_nodup _).filter _) fun i hi => ?_).length_le
    have := (mem_filter.mp hi).2
    simpa using this
  have hall := length_eq_length_filter_add (l := slots m.tableSize)
    fun i => decide (i ∉ pending ++ free)
  rw [length_slots] at hall
  rw [length_append] at hrest
  omega

/-! ### `Init` -/

omit [DecidableEq K] [DecidableEq V] in
theorem initializeSlots_spec (m : IdMap K V) (hn : n ≤ m.tableSize) :
    ∃ m', m.initializeSlots n = some m' ∧ SameBut (fun i => 0 ≤ i ∧ i < n) m m' ∧
      m'.freeList = m.freeList ∧ ∀ i : Int, 0 ≤ i → i < n → m'.table i = ⟨m.notFoundValue, .prev (i - 1), i + 1⟩ := by
  induction n with
  | zero => exact ⟨m, rfl, ⟨rfl, rfl, rfl, rfl, fun i _ => rfl⟩, rfl, fun i h0 h1 => by omega⟩
  | succ n ih =>
    obtain ⟨m1, hm1, hsame, hhead, htable⟩ := ih (Nat.le_of_succ_le hn)
    have hin : m1.InTable n := by
      refine ⟨Int.natCast_nonneg n, ?_⟩
      rw [hsame.tableSize]
      exact_mod_cast hn
    refine ⟨m1.upd n ⟨m.notFoundValue, .prev (n - 1), n + 1⟩, ?_,
      ⟨hsame.notFoundValue, hsame.isAllocated, hsame.tableSize, hsame.numEntries, fun i hi => ?_⟩, hhead,
      fun i h0 h1 => ?_⟩
    · unfold IdMap.initializeSlots
      rw [hm1, bind_some, IdMap.setEntry_eq hin, hsame.notFoundValue]
    · have hne : i ≠ n := fun heq => hi (by omega)
      rw [IdMap.upd_table_of_ne hne]
      exact hsame.table i fun hlt => hi (by omega)
    · by_cases hi : i = n
      · rw [hi, IdMap.upd_table_self]
      · rw [IdMap.upd_table_of_ne hi]
        exact htable i h0 (by omega)

omit [DecidableEq K] [DecidableEq V] in
theorem seg_range' {next : Int → Int} {size : Nat}
    (hnext : ∀ i : Int, 0 ≤ i → i < size → next i = if i + 1 = size then -1 else i + 1) :
    ∀ n a : Nat, a + n = size → 0 < n → Seg next a ((range' a n).map Nat.cast) (-1) := by
  intro n
  induction n with
  | zero =>
    intro a _ h
    cases h
  | succ n ih =>
    intro a ha _
    rw [range'_succ, map_cons]
    refine ⟨rfl, ?_⟩
    rw [hnext a (Int.natCast_nonneg a) (by omega)]
    cases n with
    | zero =>
      rw [if_pos (by omega)]
      rfl
    | succ n =>
      rw [if_neg (by omega)]
      have hseg := ih (a + 1) (by omega) (Nat.succ_pos n)
      rwa [Int.natCast_add, Int.natCast_one] at hseg

omit [DecidableEq K] [DecidableEq V] in
theorem allocTableSpace_spec (n : Nat) (m : IdMap K V)
    (hsize : m.isAllocated = true → minTableSize ≤ m.tableSize) :
    (m.allocTableSpace n).isAllocated = true ∧ minTableSize ≤ (m.allocTableSpace n).tableSize ∧
      (m.allocTableSpace n).notFoundValue = m.notFoundValue ∧
      (m.allocTableSpace n).numEntries = m.numEntries ∧
      (m.isAllocated = true → m.tableSize ≤ (m.allocTableSpace n).tableSize) := by
  unfold IdMap.allocTableSpace
  cases halloc : m.isAllocated with
  | false =>
    refine ⟨rfl, ?_, rfl, rfl, fun h => by cases h⟩
    simp only [Bool.not_false, if_true]
    split <;> omega
  | true =>
    have hsize := hsize halloc
    simp only [Bool.not_true, Bool.false_eq_true, if_false]
    split
    · rename_i hlt
      exact ⟨rfl, hsize.trans hlt.le, rfl, rfl, fun _ => hlt.le⟩
    · exact ⟨halloc, hsize, rfl, rfl, fun _ => le_rfl⟩

omit [DecidableEq V] in
theorem initializeTable_spec (hash : K → Nat → Nat) (m : IdMap K V) (hsize : 0 < m.tableSize) :
    ∃ m', m.initializeTable = some m' ∧
      Rep hash m' [] (slots m.tableSize) (fun _ => []) (fun _ => []) (fun _ => none) ∧
      m'.numEntries = m.numEntries ∧ Kept [] m m' := by
  obtain ⟨m1, hm1, hsame, hhead, htable⟩ :=
    initializeSlots_spec { m with freeList := 0 } (n := m.tableSize) (Nat.le_refl _)
  have hn : m1.tableSize = m.tableSize := hsame.tableSize
  have hin : m1.InTable (m1.tableSize - 1 : Int) := ⟨by omega, by omega⟩
  have hentry : ∀ i : Int, 0 ≤ i → i < m.tableSize →
      (m1.upd (m1.tableSize - 1 : Int) { m1.table (m1.tableSize - 1 : Int) with next := -1 }).table i =
        ⟨m.notFoundValue, .prev (i - 1), if i + 1 = m.tableSize then -1 else i + 1⟩ := by
    intro i h0 h1
    by_cases hi : i = m1.tableSize - 1
    · subst hi
      rw [IdMap.upd_table_self, htable _ h0 h1, if_pos (by omega)]
    · rw [IdMap.upd_table_of_ne hi, htable i h0 h1, if_neg (by omega)]
  refine ⟨m1.upd (m1.tableSize - 1 : Int) { m1.table (m1.tableSize - 1 : Int) with next := -1 }, ?_,
    ⟨⟨?_, ?_, fun i hi => ?_⟩, ⟨fun h i hi => (by cases hi), fun h hh => absurd rfl hh,
    fun h => rfl⟩, ⟨fun h p hp => (by cases hp), fun h p hp => (by cases hp), fun h => nodup_nil,
    fun k v => ⟨fun hv => (by cases hv), fun hv => (by cases hv)⟩⟩, fun i hi => ?_,
    fun i hi => (by cases hi), fun i hi => (by cases hi)⟩, hsame.numEntries, hsame.notFoundValue,
    hsame.isAllocated, hsame.tableSize, fun i hi => (by cases hi)⟩
  · unfold IdMap.initializeTable
    simp only [bind_eq_bind, hm1, bind_some, IdMap.setNext_eq hin]
  · have hseg := @seg_range' _ m.tableSize (fun i h0 h1 => congrArg HashEntry.next (hentry i h0 h1)) m.tableSize 0 (by omega) hsize
    rw [← range_eq_range'] at hseg
    rw [IdMap.upd_freeList, hhead]
    exact hseg
  · rw [isChain_iff_getElem]
    intro i hi
    rw [length_slots] at hi
    simp only [slots, getElem_map, getElem_range]
    rw [hentry _ (Int.natCast_nonneg _) (by omega)]
    simp
  · obtain ⟨h0, h1⟩ := mem_slots.mp hi
    rw [hentry i h0 h1, IdMap.inTable_upd, IdMap.upd_notFoundValue]
    exact ⟨⟨h0, by rw [hn]; exact h1⟩, hsame.notFoundValue.symm⟩
  · refine .inr (.inl (mem_slots.mpr ⟨hi.1, ?_⟩))
    rw [← hn]
    exact hi.2

omit [DecidableEq V] in
theorem init_spec (hash : K → Nat → Nat) (capacity : Option Nat) (m : IdMap K V)
    (hsize : m.isAllocated = true → minTableSize ≤ m.tableSize) : ∃ m', m.init capacity = some m' ∧
      Rep hash m' [] (slots m'.tableSize) (fun _ => []) (fun _ => []) (fun _ => none) ∧
      m'.isAllocated = true ∧ minTableSize ≤ m'.tableSize ∧ m'.notFoundValue = m.notFoundValue ∧
      m'.numEntries = m.numEntries ∧ (m.isAllocated = true → m.tableSize ≤ m'.tableSize) := by
  obtain ⟨halloc, hmin, hnf, hnum, hgrow⟩ :=
    allocTableSpace_spec ((capacity.map size).getD m.tableSize) m hsize
  obtain ⟨m', hm', hrep, hnum', hkept⟩ := initializeTable_spec hash
    (m.allocTableSpace ((capacity.map size).getD m.tableSize)) (Nat.lt_of_lt_of_le (by decide) hmin)
  refine ⟨m', hm', ?_, hkept.isAllocated.trans halloc, ?_, hkept.notFoundValue.trans hnf,
    hnum'.trans hnum, fun h => ?_⟩
  · rw [hkept.tableSize]
    exact hrep
  · rw [hkept.tableSize]
    exact hmin
  · rw [hkept.tableSize]
    exact hgrow h

end Map

end Idmap
