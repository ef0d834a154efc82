import Path64.Lib.ByteMem
import Mathlib.Data.List.FinRange
import Mathlib.Algebra.Group.Nat.Defs

/-! # Program-unit headers

`common/com/pu_info.{h,cxx}`: the tree of `PU_Info`s is written as
arrays of records, the units in preorder, and read back into one array.
A record keeps the index of the previous sibling, or -1 for the first
child of the record before it.

The counters are exact; a header of 2^31 bytes or more does not fit the
`INT` that announces its size. -/

namespace PuHeader

open Option List Nat Function ByteMem
open BitVec (ofNat getLsbD_and)

/-! ## Units -/

abbrev wtSubsections : Nat := 9

def wtProcSym : Int := -1

def puHeaderVersion : BitVec 32 := 1

inductive SubsectState where
  | missing
  | inFile
  | inMem
  | written
  deriving DecidableEq

/-- The two bits of a state; `inFile` is `Subsect_Exists`. -/
def SubsectState.code : SubsectState → BitVec 32
  | missing => 0
  | inFile => 1
  | inMem => 2
  | written => 3

def SubsectState.ofCode (v : BitVec 32) : SubsectState :=
  if v = 0 then missing else if v = 1 then inFile else if v = 2 then inMem else written

structure DstIdx where
  byteIdx : BitVec 32
  blockIdx : BitVec 32

def dstInvalidIdx : DstIdx := ⟨-1, -1⟩

structure Subsect where
  offset : BitVec 32
  size : BitVec 32

/-- `struct pu_info` without its links; an `ST_IDX` is as wide as a pointer. -/
structure PuInfo where
  state : BitVec 32
  procSym : BitVec 64
  flags : BitVec 32
  puDst : DstIdx
  cuDst : DstIdx
  subsect : Fin wtSubsections → Subsect
  maptab : Nat

/-- The bit position of the state of a subsection, `((ndx) + 1) << 1`. -/
def stateShift (ndx : Int) : Nat := (ndx + 1).toNat <<< 1

def puInfoState (state : BitVec 32) (ndx : Int) : SubsectState :=
  .ofCode ((state.sshiftRight (stateShift ndx)) &&& 3)

def setPuInfoState (state : BitVec 32) (ndx : Int) (st : SubsectState) : BitVec 32 :=
  state &&& ~~~((3 : BitVec 32) <<< stateShift ndx) ||| (st.code <<< stateShift ndx)

/-- A list of units linked by `next`, each with the list of its children. -/
inductive Forest where
  | nil
  | cons (pu : PuInfo) (child next : Forest)

namespace Forest

/-- The units in preorder. -/
def units : Forest → List PuInfo
  | nil => []
  | cons pu child next => pu :: (child.units ++ next.units)

def count : Forest → Nat
  | nil => 0
  | cons _ child next => 1 + child.count + next.count

def map (f : PuInfo → PuInfo) : Forest → Forest
  | nil => nil
  | cons pu child next => cons (f pu) (child.map f) (next.map f)

@[simp] theorem units_length (f : Forest) : f.units.length = f.count := by
  induction f with
  | nil => rfl
  | cons pu child next ihc ihn =>
    simp only [units, count, length_cons, length_append, ihc, ihn]
    omega

@[simp] theorem count_map (g : PuInfo → PuInfo) (f : Forest) : (f.map g).count = f.count := by
  induction f with
  | nil => rfl
  | cons pu child next ihc ihn => simp only [map, count, ihc, ihn]

@[simp] theorem units_map (g : PuInfo → PuInfo) (f : Forest) : (f.map g).units = f.units.map g := by
  induction f with
  | nil => rfl
  | cons pu child next ihc ihn => simp [map, units, ihc, ihn]

theorem map_map (g h : PuInfo → PuInfo) (f : Forest) : (f.map g).map h = f.map (h ∘ g) := by
  induction f with
  | nil => rfl
  | cons pu child next ihc ihn => simp [map, ihc, ihn]

end Forest

/-! ## Numbering and writing -/

/-- `number_PU_Infos`: each unit is given its index in the map table field. -/
def numberPuInfos : Forest → Nat → Forest × Nat
  | .nil, numPus => (.nil, numPus)
  | .cons pu child next, numPus =>
    let c := numberPuInfos child (numPus + 1)
    let n := numberPuInfos next c.2
    (.cons { pu with maptab := numPus } c.1 n.1, n.2)

/-- `Sizeof_PU_Infos`: the size of the header, and the tree it has numbered. -/
def sizeofPuInfos (puTree : Forest) : Nat × Forest :=
  let r := numberPuInfos puTree 0
  (4 * (3 + wtSubsections) + r.2 * (3 * 4 + 8 + 2 * 4 * wtSubsections), r.1)

/-- The previous-sibling field. -/
def prevIndex : Option PuInfo → BitVec 32
  | some prevPu => ofNat 32 prevPu.maptab
  | none => -1

/-- `write_PU_fields`, over the memory, the address and `*p_num_PUs`. -/
def writePuFields : Forest → Option PuInfo → Mem × Nat × Nat → Mem × Nat × Nat
  | .nil, _, s => s
  | .cons pu child next, prevPu, (m, addr, numPus) =>
    let m := store32 m addr (pu.procSym.setWidth 32)
    let m := store32 m (addr + 4) pu.flags
    let m := store32 m (addr + 8) pu.puDst.byteIdx
    let m := store32 m (addr + 12) pu.puDst.blockIdx
    let m := store32 m (addr + 16) (prevIndex prevPu)
    writePuFields next (some pu) (writePuFields child none (m, addr + 20, numPus + 1))

/-- The subsection as written: a missing one is cleared. -/
def writtenSubsect (pu : PuInfo) (k : Fin wtSubsections) : Option PuInfo :=
  match puInfoState pu.state k with
  | .missing => some { pu with subsect := update pu.subsect k ⟨0, 0⟩ }
  | .written => some pu
  | _ => none

/-- `write_PU_subsect_info`; `none` is the `NULL` it returns. -/
def writePuSubsectInfo : Forest → Fin wtSubsections → Mem × Nat → Option (Forest × Mem × Nat)
  | .nil, _, (m, addr) => some (.nil, m, addr)
  | .cons pu child next, k, (m, addr) => do
    let pu ← writtenSubsect pu k
    let m := store32 m addr (pu.subsect k).offset
    let m := store32 m (addr + 4) (pu.subsect k).size
    let (child, s) ← writePuSubsectInfo child k (m, addr + 8)
    let (next, s) ← writePuSubsectInfo next k s
    return (.cons pu child next, s)

/-- One turn of the loop over the subsection kinds. -/
def writePuSubsectKind : Forest × Mem × Nat → Fin wtSubsections → Option (Forest × Mem × Nat)
  | (puTree, m, addr), k => writePuSubsectInfo puTree k (store32 m addr (ofNat 32 k), addr + 4)

/-- `Write_PU_Infos`: the tree and the memory it leaves; `none` is -1. -/
def writePuInfos (puTree : Forest) (m : Mem) (base : Nat) : Option (Forest × Mem) := do
  let m := store32 m base puHeaderVersion
  let base := base + 4
  let (m, addr, numPus) := writePuFields puTree none (m, base + 4, 0)
  let m := store32 m addr (ofNat 32 wtSubsections)
  let (puTree, m, _) ← (finRange wtSubsections).foldlM writePuSubsectKind (puTree, m, addr + 4)
  return (puTree, store32 m base (ofNat 32 numPus))

/-! ## Reading -/

/-- An element of the array of units, its links as indices. -/
structure Node where
  info : PuInfo
  next : Option Nat
  child : Option Nat

/-- The array before anything is read: `bzero`. -/
def zeroNode : Node :=
  { info := { state := 0, procSym := 0, flags := 0, puDst := ⟨0, 0⟩, cuDst := ⟨0, 0⟩,
              subsect := fun _ => ⟨0, 0⟩, maptab := 0 }
    next := none, child := none }

def puInfoInit (pu : Node) : Node :=
  { info := { pu.info with
      state := 0, procSym := 0, flags := 0, puDst := dstInvalidIdx, cuDst := dstInvalidIdx,
      maptab := 0 }
    next := none, child := none }

/-- Linking unit `n` to its previous sibling, or to the unit before it as its first child. -/
def linkPu (numPus n : Nat) (prev : Int) (arr : Nat → Node) : Option (Nat → Node) :=
  if prev = -1 then
    if n ≠ 0 then
      some (update arr (n - 1) { arr (n - 1) with child := some n })
    else some arr
  else if 0 ≤ prev ∧ prev.toNat < numPus then
    some (update arr prev.toNat { arr prev.toNat with next := some n })
  else none

/-- One record of the unit array. -/
def readPuFields (m : Mem) (numPus : Nat) : (Nat → Node) × Nat → Nat → Option ((Nat → Node) × Nat)
  | (arr, addr), n => do
    let pu := puInfoInit (arr n)
    let pu := { pu with info := { pu.info with
      state := setPuInfoState pu.info.state wtProcSym .inFile
      procSym := (load32 m addr).signExtend 64
      flags := load32 m (addr + 4)
      puDst := ⟨load32 m (addr + 8), load32 m (addr + 12)⟩ } }
    let arr ← linkPu numPus n (load32 m (addr + 16)).toInt (update arr n pu)
    return (arr, addr + 20)

/-- The offset and the size of one subsection of one unit. -/
def readSubsect (m : Mem) (kind : Fin wtSubsections) : (Nat → Node) × Nat → Nat → (Nat → Node) × Nat
  | (arr, addr), n =>
    let offset := load32 m addr
    let size := load32 m (addr + 4)
    let info := { (arr n).info with
      subsect := update (arr n).info.subsect kind ⟨offset, size⟩
      state := if size ≠ 0 then setPuInfoState (arr n).info.state kind .inFile
        else (arr n).info.state }
    (update arr n { arr n with info := info }, addr + 8)

/-- One subsection kind of all units; kinds it does not understand are skipped. -/
def readSubsectKind (m : Mem) (numPus : Nat) : (Nat → Node) × Nat → Nat →
    Option ((Nat → Node) × Nat)
  | (arr, addr), _ =>
    let kind := (load32 m addr).toInt
    let addr := addr + 4
    if (wtSubsections : Int) ≤ kind then some (arr, addr + numPus * 2 * 4)
    else if h : 0 ≤ kind ∧ kind.toNat < wtSubsections then
      some ((range numPus).foldl (readSubsect m ⟨kind.toNat, h.2⟩) (arr, addr))
    else none

/-- What `Read_PU_Infos` returns: the root, the number of units, and the array. -/
structure ReadResult where
  numPus : Int
  root : Option Nat
  arr : Nat → Node

/-- `Read_PU_Infos`; `none` is -1 (and an access outside the array). -/
def readPuInfos (m : Mem) (base : Nat) (size : Nat) : Option ReadResult :=
  let addr := base + (load32 m base).toNat
  if load32 m addr ≠ puHeaderVersion then none
  else
    let numPus := (load32 m (addr + 4)).toInt
    if numPus < 0 then none
    else if numPus = 0 then some ⟨numPus, none, fun _ => zeroNode⟩
    else do
      let (arr, addr) ← (range numPus.toNat).foldlM (readPuFields m numPus.toNat)
        (fun _ => zeroNode, addr + 8)
      let subsectKinds := (load32 m addr).toInt
      let (arr, addr) ← (range subsectKinds.toNat).foldlM (readSubsectKind m numPus.toNat)
        (arr, addr + 4)
      if base + size < addr then none
      else return ⟨numPus, some 0, arr⟩

/-! ## The bytes the writer leaves -/

/-- The subsection as it ends up in the file. -/
def cleared (pu : PuInfo) (k : Fin wtSubsections) : Subsect :=
  if puInfoState pu.state k = .missing then ⟨0, 0⟩ else pu.subsect k

/-- The unit after `Write_PU_Infos`: missing subsections are cleared. -/
def clearMissing (pu : PuInfo) : PuInfo := { pu with subsect := cleared pu }

/-- A symbol as it comes back: its low half, with the sign extended. -/
def storedSym (sym : BitVec 64) : BitVec 64 := (sym.setWidth 32).signExtend 64

/-- The unit as it comes back. -/
def stored (pu : PuInfo) : PuInfo := { clearMissing pu with procSym := storedSym pu.procSym }

/-- What the writer accepts: each subsection is missing or written. -/
def Writable (pu : PuInfo) : Prop :=
  ∀ k : Fin wtSubsections, puInfoState pu.state k = .missing ∨ puInfoState pu.state k = .written

/-- One record. -/
def puBytes (pu : PuInfo) (prevPu : Option PuInfo) : List Byte :=
  le32 (pu.procSym.setWidth 32) ++ le32 pu.flags ++ le32 pu.puDst.byteIdx ++ le32 pu.puDst.blockIdx ++
    le32 (prevIndex prevPu)

/-- The records of a list of units. -/
def fieldBytes : Forest → Option PuInfo → List Byte
  | .nil, _ => []
  | .cons pu child next, prevPu =>
    puBytes pu prevPu ++ (fieldBytes child none ++ fieldBytes next (some pu))

def subsectBytes (s : Subsect) : List Byte := le32 s.offset ++ le32 s.size

/-- One subsection of all units, its identifier in front. -/
def kindBytes (f : Forest) (k : Fin wtSubsections) : List Byte :=
  le32 (ofNat 32 k) ++ f.units.flatMap fun pu => subsectBytes (cleared pu k)

/-- The header: version, number of units, records, number of kinds, kinds. -/
def headerBytes (f : Forest) : List Byte :=
  le32 puHeaderVersion ++ (le32 (ofNat 32 f.count) ++ (fieldBytes f none ++
    (le32 (ofNat 32 wtSubsections) ++ (finRange wtSubsections).flatMap (kindBytes f))))

@[simp] theorem puBytes_length (pu : PuInfo) (prevPu : Option PuInfo) :
    (puBytes pu prevPu).length = 20 := rfl

@[simp] theorem subsectBytes_length (s : Subsect) : (subsectBytes s).length = 8 := rfl

@[simp] theorem fieldBytes_length (f : Forest) (prevPu : Option PuInfo) :
    (fieldBytes f prevPu).length = 20 * f.count := by
  induction f generalizing prevPu with
  | nil => rfl
  | cons pu child next ihc ihn =>
    simp only [fieldBytes, length_append, puBytes_length, ihc, ihn, Forest.count]
    omega

theorem flatMap_subsectBytes_length {α : Type} (g : α → Subsect) (l : List α) :
    (l.flatMap fun x => subsectBytes (g x)).length = 8 * l.length := by
  induction l with
  | nil => rfl
  | cons x l ih =>
    simp only [flatMap_cons, length_append, subsectBytes_length, length_cons, ih]
    omega

@[simp] theorem kindBytes_length (f : Forest) (k : Fin wtSubsections) :
    (kindBytes f k).length = 4 + 8 * f.count := by
  simp only [kindBytes, length_append, le32_length, flatMap_subsectBytes_length,
    Forest.units_length]

theorem flatMap_kindBytes_length (f : Forest) (ks : List (Fin wtSubsections)) :
    (ks.flatMap (kindBytes f)).length = ks.length * (4 + 8 * f.count) := by
  induction ks with
  | nil => simp
  | cons k ks ih =>
    simp only [flatMap_cons, length_append, kindBytes_length, length_cons, ih]
    rw [Nat.add_mul]
    omega

theorem headerBytes_length (f : Forest) : (headerBytes f).length = 48 + 92 * f.count := by
  simp only [headerBytes, length_append, le32_length, fieldBytes_length,
    flatMap_kindBytes_length, length_finRange, wtSubsections]
  omega

theorem store_puBytes (m : Mem) (addr : Nat) (pu : PuInfo) (prevPu : Option PuInfo) :
    store32 (store32 (store32 (store32 (store32 m addr (pu.procSym.setWidth 32)) (addr + 4) pu.flags)
      (addr + 8) pu.puDst.byteIdx) (addr + 12) pu.puDst.blockIdx) (addr + 16) (prevIndex prevPu)
      = store m addr (puBytes pu prevPu) := by
  unfold store32
  rw [show addr + 4 = addr + (le32 (pu.procSym.setWidth 32)).length from rfl, store_append,
    show addr + 8 = addr + (le32 (pu.procSym.setWidth 32) ++ le32 pu.flags).length from rfl, store_append,
    show addr + 12 = addr + (le32 (pu.procSym.setWidth 32) ++ le32 pu.flags ++ le32 pu.puDst.byteIdx).length
      from rfl, store_append,
    show addr + 16 = addr + (le32 (pu.procSym.setWidth 32) ++ le32 pu.flags ++ le32 pu.puDst.byteIdx ++
      le32 pu.puDst.blockIdx).length from rfl, store_append]
  rfl

theorem writePuFields_eq (f : Forest) : ∀ (prevPu : Option PuInfo) (m : Mem) (addr numPus : Nat),
    writePuFields f prevPu (m, addr, numPus) =
      (store m addr (fieldBytes f prevPu), addr + 20 * f.count, numPus + f.count) := by
  induction f with
  | nil =>
    intro prevPu m addr numPus
    simp [writePuFields, fieldBytes, Forest.count]
  | cons pu child next ihc ihn =>
    intro prevPu m addr numPus
    simp only [writePuFields, store_puBytes, ihc, ihn]
    have hchild : store (store m addr (puBytes pu prevPu)) (addr + 20) (fieldBytes child none)
        = store m addr (puBytes pu prevPu ++ fieldBytes child none) := store_append
    have hnext : addr + 20 + 20 * child.count
        = addr + (puBytes pu prevPu ++ fieldBytes child none).length := by
      simp only [length_append, puBytes_length, fieldBytes_length]
      omega
    rw [hchild, hnext, store_append]
    simp only [fieldBytes, Forest.count, append_assoc, length_append, puBytes_length,
      fieldBytes_length, Prod.mk.injEq, true_and]
    omega

/-- The unit with subsection `k` as written. -/
def clearAt (k : Fin wtSubsections) (pu : PuInfo) : PuInfo :=
  { pu with subsect := update pu.subsect k (cleared pu k) }

variable {pu : PuInfo} {k : Fin wtSubsections} {f : Forest} {arr : Nat → Node} {numPus n : Nat}
  {prevPu : Option PuInfo} {m : Mem}

theorem writtenSubsect_eq (h : Writable pu) : writtenSubsect pu k = some (clearAt k pu) := by
  rcases h k with hk | hk
  · simp [writtenSubsect, clearAt, cleared, hk]
  · simp [writtenSubsect, clearAt, cleared, hk, update_eq_self]

/-- The writer of one kind of subsection, by induction on the tree in the order in which it is
written. -/
theorem writePuSubsectInfo_eq (f : Forest) :
    ∀ (m : Mem) (addr : Nat), (∀ pu ∈ f.units, Writable pu) → writePuSubsectInfo f k (m, addr) =
        some (f.map (clearAt k),
          store m addr (f.units.flatMap fun pu => subsectBytes (cleared pu k)),
          addr + 8 * f.count) := by
  induction f with
  | nil =>
    intro m addr _
    simp [writePuSubsectInfo, Forest.units, Forest.map, Forest.count]
  | cons pu child next ihc ihn =>
    intro m addr h
    have hpu := writtenSubsect_eq (k := k) (h pu (by simp [Forest.units]))
    have hchild := ihc (store m addr (subsectBytes (cleared pu k))) (addr + 8)
      (fun p hp => h p (by simp [Forest.units, hp]))
    have hat : (clearAt k pu).subsect k = cleared pu k := by simp [clearAt]
    have hpair : store32 (store32 m addr (cleared pu k).offset) (addr + 4) (cleared pu k).size
        = store m addr (subsectBytes (cleared pu k)) := store_append
    have hjoin : store (store m addr (subsectBytes (cleared pu k))) (addr + 8)
          (child.units.flatMap fun p => subsectBytes (cleared p k))
        = store m addr (subsectBytes (cleared pu k) ++
          child.units.flatMap fun p => subsectBytes (cleared p k)) := store_append
    have hnext : addr + 8 + 8 * child.count = addr + (subsectBytes (cleared pu k) ++
        child.units.flatMap fun p => subsectBytes (cleared p k)).length := by
      rw [length_append, subsectBytes_length, flatMap_subsectBytes_length, Forest.units_length]
      omega
    unfold writePuSubsectInfo
    simp only [hpu, bind_eq_bind, bind_some, hat, hpair, hchild, hjoin]
    rw [hnext, ihn _ _ (fun p hp => h p (by simp [Forest.units, hp])), store_append]
    simp only [Option.bind_some, Forest.map, Forest.units, Forest.count, flatMap_cons,
      flatMap_append, append_assoc, Option.pure_def, Option.some.injEq, Prod.mk.injEq,
      true_and]
    rw [← hnext]
    omega

theorem writePuSubsectInfo_none (f : Forest) :
    ∀ (s : Mem × Nat), (∃ pu ∈ f.units, puInfoState pu.state k ≠ .missing ∧
      puInfoState pu.state k ≠ .written) → writePuSubsectInfo f k s = none := by
  induction f with
  | nil =>
    rintro s ⟨pu, hpu, _⟩
    cases hpu
  | cons pu child next ihc ihn =>
    rintro ⟨m, addr⟩ ⟨bad, hbad, hstate⟩
    unfold writePuSubsectInfo
    cases hw : writtenSubsect pu k with
    | none => rfl
    | some pu' =>
      simp only [Forest.units, mem_cons, mem_append] at hbad
      simp only [bind_eq_bind, bind_some]
      rcases hbad with rfl | hin | hin
      · -- the unit itself would have been refused
        unfold writtenSubsect at hw
        cases hs : puInfoState bad.state k <;> simp_all
      · rw [ihc _ ⟨bad, hin, hstate⟩]
        rfl
      · cases hc : writePuSubsectInfo child k
            (store32 (store32 m addr (pu'.subsect k).offset) (addr + 4) (pu'.subsect k).size,
              addr + 8) with
        | none => rfl
        | some r =>
          simp only [bind_some]
          rw [ihn _ ⟨bad, hin, hstate⟩]
          rfl

@[simp] theorem clearAt_state (k : Fin wtSubsections) (pu : PuInfo) :
    (clearAt k pu).state = pu.state := rfl

theorem cleared_clearAt (j k : Fin wtSubsections) (pu : PuInfo) :
    cleared (clearAt k pu) j = cleared pu j := by
  unfold cleared
  by_cases hm : puInfoState pu.state j = .missing
  · simp [hm]
  · by_cases hj : j = k
    · subst hj
      simp [clearAt, cleared, hm]
    · simp [clearAt, hm, hj]

theorem writable_map_clearAt (k : Fin wtSubsections)
    (h : ∀ pu ∈ f.units, Writable pu) : ∀ pu ∈ (f.map (clearAt k)).units, Writable pu := by
  intro pu hpu
  rw [Forest.units_map] at hpu
  obtain ⟨p, hp, rfl⟩ := mem_map.mp hpu
  exact h p hp

theorem kindBytes_map_clearAt (f : Forest) (k : Fin wtSubsections) :
    kindBytes (f.map (clearAt k)) = kindBytes f := by
  funext j
  simp [kindBytes, flatMap_map, cleared_clearAt]

/-- The units after the loop over the kinds `ks`. -/
def clearAll (ks : List (Fin wtSubsections)) (pu : PuInfo) : PuInfo :=
  { pu with subsect := fun k => if k ∈ ks then cleared pu k else pu.subsect k }

theorem clearAll_cons (k : Fin wtSubsections) (ks : List (Fin wtSubsections)) :
    clearAll ks ∘ clearAt k = clearAll (k :: ks) := by
  funext pu
  simp only [comp, clearAll, cleared_clearAt]
  congr 1
  funext j
  by_cases hj : j ∈ ks
  · simp [hj]
  · by_cases hk : j = k
    · subst hk
      simp [hj, clearAt]
    · simp [hj, hk, clearAt]

theorem clearAll_finRange : clearAll (finRange wtSubsections) = clearMissing := by
  funext pu
  simp [clearAll, clearMissing]

theorem writePuSubsectKind_eq (h : ∀ pu ∈ f.units, Writable pu) (m : Mem)
    (addr : Nat) (k : Fin wtSubsections) : writePuSubsectKind (f, m, addr) k =
      some (f.map (clearAt k), store m addr (kindBytes f k), addr + (4 + 8 * f.count)) := by
  simp only [writePuSubsectKind, writePuSubsectInfo_eq f _ _ h]
  unfold kindBytes
  rw [← store_append, add_assoc]
  rfl

theorem writeKinds_eq (ks : List (Fin wtSubsections)) :
    ∀ (f : Forest) (m : Mem) (addr : Nat), (∀ pu ∈ f.units, Writable pu) →
      ks.foldlM writePuSubsectKind (f, m, addr) =
        some (f.map (clearAll ks), store m addr (ks.flatMap (kindBytes f)),
          addr + ks.length * (4 + 8 * f.count)) := by
  induction ks with
  | nil =>
    intro f m addr _
    have hid : f.map (clearAll []) = f := by
      have hself : clearAll [] = id := by
        funext pu
        simp [clearAll]
      rw [hself]
      induction f with
      | nil => rfl
      | cons pu child next ihc ihn => simp_all [Forest.map, Forest.units]
    simp [hid]
  | cons k ks ih =>
    intro f m addr h
    have hlen : addr + (4 + 8 * f.count) = addr + (kindBytes f k).length := by
      rw [kindBytes_length]
    rw [foldlM_cons, writePuSubsectKind_eq h]
    simp only [bind_eq_bind, bind_some]
    rw [hlen, ih _ _ _ (writable_map_clearAt k h), kindBytes_map_clearAt, store_append,
      Forest.map_map, clearAll_cons, Forest.count_map, kindBytes_length, length_cons,
      flatMap_cons, Nat.add_mul]
    simp only [some.injEq, Prod.mk.injEq, true_and]
    omega

theorem writePuInfos_eq (h : ∀ pu ∈ f.units, Writable pu) (m : Mem) (base : Nat) :
    writePuInfos f m base = some (f.map clearMissing, store m base (headerBytes f)) := by
  have hkinds := writeKinds_eq (finRange wtSubsections) f
    (store32 (store (store32 m base puHeaderVersion) (base + 4 + 4) (fieldBytes f none))
      (base + 4 + 4 + 20 * f.count) (ofNat 32 wtSubsections))
    (base + 4 + 4 + 20 * f.count + 4) h
  simp only [writePuInfos, writePuFields_eq, hkinds, Option.bind_eq_bind, Option.bind_some,
    clearAll_finRange, Option.pure_def, Option.some.injEq, Prod.mk.injEq, true_and, zero_add]
  -- everything behind the number of units is one block
  have hfields : store32 (store (store32 m base puHeaderVersion) (base + 4 + 4) (fieldBytes f none))
      (base + 4 + 4 + 20 * f.count) (ofNat 32 wtSubsections)
      = store (store32 m base puHeaderVersion) (base + 4 + 4)
        (fieldBytes f none ++ le32 (ofNat 32 wtSubsections)) := by
    rw [← store_append, fieldBytes_length]
    rfl
  have hlen : base + 4 + 4 + 20 * f.count + 4 = base + 4 + 4 +
      (fieldBytes f none ++ le32 (ofNat 32 wtSubsections)).length := by
    rw [length_append, fieldBytes_length, le32_length]
    omega
  rw [hfields, hlen, store_append]
  -- the number of units fills the gap, right behind the version
  have hgap : ∀ (bs : List Byte), store32 (store (store32 m base puHeaderVersion) (base + 4 + 4) bs)
      (base + 4) (ofNat 32 f.count)
      = store m base (le32 puHeaderVersion ++ (le32 (ofNat 32 f.count) ++ bs)) := by
    intro bs
    have hbefore : store (store (store32 m base puHeaderVersion)
        (base + 4 + (le32 (ofNat 32 f.count)).length) bs) (base + 4)
        (le32 (ofNat 32 f.count)) = store (store32 m base puHeaderVersion) (base + 4)
          (le32 (ofNat 32 f.count) ++ bs) := store_before
    rw [← store_append]
    exact hbefore
  rw [hgap]
  simp only [headerBytes, append_assoc]

theorem writtenSubsect_state {pu' : PuInfo}
    (h : writtenSubsect pu k = some pu') : pu'.state = pu.state := by
  unfold writtenSubsect at h
  cases hs : puInfoState pu.state k <;> rw [hs] at h <;> cases h <;> rfl

theorem writePuSubsectInfo_states (f : Forest) :
    ∀ {s : Mem × Nat} {r : Forest × Mem × Nat}, writePuSubsectInfo f k s = some r →
      r.1.units.map PuInfo.state = f.units.map PuInfo.state := by
  induction f with
  | nil =>
    rintro ⟨m, addr⟩ r h
    cases h
    rfl
  | cons pu child next ihc ihn =>
    rintro ⟨m, addr⟩ r h
    unfold writePuSubsectInfo at h
    obtain ⟨pu', hpu, h⟩ := bind_eq_some_iff.mp h
    obtain ⟨⟨child', s1⟩, hchild, h⟩ := bind_eq_some_iff.mp h
    obtain ⟨⟨next', s2⟩, hnext, h⟩ := bind_eq_some_iff.mp h
    cases h
    have hc := ihc hchild
    have hn := ihn hnext
    simp only [Forest.units, map_cons, map_append, hc, hn, writtenSubsect_state hpu]

theorem writeKinds_none (ks : List (Fin wtSubsections)) (hk : k ∈ ks) :
    ∀ (s : Forest × Mem × Nat), (∃ st ∈ s.1.units.map PuInfo.state,
      puInfoState st k ≠ .missing ∧ puInfoState st k ≠ .written) →
      ks.foldlM writePuSubsectKind s = none := by
  induction ks with
  | nil => cases hk
  | cons j ks ih =>
    rintro ⟨f, m, addr⟩ ⟨st, hst, hstate⟩
    rw [foldlM_cons]
    cases hstep : writePuSubsectKind (f, m, addr) j with
    | none => rfl
    | some r =>
      rcases mem_cons.mp hk with rfl | hks
      · obtain ⟨bad, hbad, rfl⟩ := mem_map.mp hst
        have hnone := writePuSubsectInfo_none f (store32 m addr (ofNat 32 k), addr + 4)
          ⟨bad, hbad, hstate⟩
        simp only [writePuSubsectKind, hnone] at hstep
        cases hstep
      · have hkept := writePuSubsectInfo_states f hstep
        exact ih hks r ⟨st, by rw [hkept]; exact hst, hstate⟩

theorem writePuInfos_none (m : Mem) (base : Nat)
    (h : ∃ pu ∈ f.units, ¬ Writable pu) : writePuInfos f m base = none := by
  obtain ⟨pu, hpu, hbad⟩ := h
  obtain ⟨k, hk⟩ := not_forall.mp hbad
  rw [not_or] at hk
  have hnone := writeKinds_none (finRange wtSubsections) (mem_finRange k)
    (f, store32 (store (store32 m base puHeaderVersion) (base + 4 + 4) (fieldBytes f none))
      (base + 4 + 4 + 20 * f.count) (ofNat 32 wtSubsections),
      base + 4 + 4 + 20 * f.count + 4)
    ⟨pu.state, mem_map_of_mem hpu, hk⟩
  simp only [writePuInfos, writePuFields_eq, hnone, bind_eq_bind, bind_none]

/-! ## The states of a unit -/

theorem stateShift_kind (k : Fin wtSubsections) : stateShift (k : Nat) = 2 * (k.val + 1) := by
  unfold stateShift
  rw [shiftLeft_eq]
  omega

theorem getLsbD_three (i : Nat) : (3 : BitVec 32).getLsbD i = decide (i < 2) := by
  rcases i with _ | _ | i
  · rfl
  · rfl
  · have hge : ¬ i + 1 + 1 < 2 := by omega
    rw [decide_eq_false hge]
    change (ofNat 32 3).getLsbD (i + 2) = false
    rw [BitVec.getLsbD_ofNat]
    have hbit : Nat.testBit 3 (i + 2) = false := by
      apply testBit_lt_two_pow
      calc 3 < 2 ^ 2 := by omega
        _ ≤ 2 ^ (i + 2) := Nat.pow_le_pow_right (by omega) (by omega)
    rw [hbit, Bool.and_false]

theorem state_bits {s : BitVec 32} {a i : Nat} (ha : a + 2 ≤ 32) :
    ((s.sshiftRight a) &&& 3).getLsbD i = (decide (i < 2) && s.getLsbD (a + i)) := by
  rw [getLsbD_and, getLsbD_three, Bool.and_comm]
  by_cases hi : i < 2
  · rw [BitVec.getLsbD_sshiftRight]
    simp [show ¬ 32 ≤ i by omega, show a + i < 32 by omega]
  · simp [hi]

/-- The states are packed in 2 bits each: setting one leaves the others. -/
theorem puInfoState_set (s : BitVec 32) (j k : Fin wtSubsections) :
    puInfoState (setPuInfoState s k .inFile) j =
      if j = k then .inFile else puInfoState s j := by
  have hj := stateShift_kind j
  have hk := stateShift_kind k
  have hjlt : j.val < 9 := j.isLt
  have hklt : k.val < 9 := k.isLt
  unfold puInfoState setPuInfoState
  rw [hj, hk]
  by_cases hjk : j = k
  · subst hjk
    rw [if_pos rfl]
    have hcode : ((s &&& ~~~((3 : BitVec 32) <<< (2 * (j.val + 1))) |||
        SubsectState.inFile.code <<< (2 * (j.val + 1))).sshiftRight (2 * (j.val + 1)) &&& 3)
          = 1 := by
      apply BitVec.eq_of_getLsbD_eq
      intro i hi
      rw [state_bits (by omega)]
      have hone : (1 : BitVec 32).getLsbD i = decide (i = 0) := by
        rcases i with _ | i
        · rfl
        · simp
      simp only [BitVec.getLsbD_or, getLsbD_and, BitVec.getLsbD_not,
        BitVec.getLsbD_shiftLeft, getLsbD_three, SubsectState.code, hone,
        show 2 * (j.val + 1) + i - 2 * (j.val + 1) = i by omega]
      by_cases h2 : i < 2
      · simp [h2, show 2 * (j.val + 1) + i < 32 by omega,
          show ¬ 2 * (j.val + 1) + i < 2 * (j.val + 1) by omega]
      · simp [h2, show i ≠ 0 by omega]
    rw [hcode]
    rfl
  · rw [if_neg hjk]
    congr 1
    apply BitVec.eq_of_getLsbD_eq
    intro i hi
    rw [state_bits (by omega), state_bits (by omega)]
    by_cases h2 : i < 2
    · have hne : j.val ≠ k.val := fun h => hjk (Fin.ext h)
      simp only [BitVec.getLsbD_or, getLsbD_and, BitVec.getLsbD_not,
        BitVec.getLsbD_shiftLeft, getLsbD_three, SubsectState.code]
      rcases lt_or_gt_of_ne hne with h | h
      · simp [show 2 * (j.val + 1) + i < 2 * (k.val + 1) by omega,
          show 2 * (j.val + 1) + i < 32 by omega]
      · have hout : ¬ 2 * (j.val + 1) + i - 2 * (k.val + 1) < 2 := by omega
        have hpos : 2 * (j.val + 1) + i - 2 * (k.val + 1) ≠ 0 := by omega
        simp [hout, hpos, show 2 * (j.val + 1) + i < 32 by omega,
          show ¬ 2 * (j.val + 1) + i < 2 * (k.val + 1) by omega]
    · simp [h2]

theorem puInfoState_fresh (k : Fin wtSubsections) :
    puInfoState (setPuInfoState 0 wtProcSym .inFile) k = .missing := by
  revert k
  decide

/-! ## Reading the records -/

/-- Each unit holds its index in the map table field. -/
def Numbered : Nat → Forest → Prop
  | _, .nil => True
  | i, .cons pu child next =>
    pu.maptab = i ∧ Numbered (i + 1) child ∧ Numbered (i + 1 + child.count) next

theorem numberPuInfos_numbered (f : Forest) : ∀ i, (numberPuInfos f i).2 = i + f.count ∧
    (numberPuInfos f i).1.count = f.count ∧ Numbered i (numberPuInfos f i).1 := by
  induction f with
  | nil => intro i; exact ⟨rfl, rfl, trivial⟩
  | cons pu child next ihc ihn =>
    intro i
    obtain ⟨hc1, hc2, hc3⟩ := ihc (i + 1)
    obtain ⟨hn1, hn2, hn3⟩ := ihn (i + 1 + child.count)
    simp only [numberPuInfos, Forest.count, hc1, hc2, hn1, hn2]
    refine ⟨by omega, trivial, rfl, hc3, ?_⟩
    rw [hc2]
    exact hn3

/-- The index of the first unit of a list that starts at index `i`. -/
def start (f : Forest) (i : Nat) : Option Nat := if f.count = 0 then none else some i

/-- The links of the units of `f`, in preorder from index `i` on. -/
def Placed (arr : Nat → Node) : Nat → Forest → Prop
  | _, .nil => True
  | i, .cons _ child next =>
    (arr i).child = start child (i + 1) ∧ (arr i).next = start next (i + 1 + child.count) ∧
      Placed arr (i + 1) child ∧ Placed arr (i + 1 + child.count) next

theorem Placed.congr {arr' : Nat → Node} : ∀ {i : Nat}, Placed arr i f →
    (∀ j, i ≤ j → j < i + f.count → (arr' j).child = (arr j).child ∧ (arr' j).next = (arr j).next) →
    Placed arr' i f := by
  induction f with
  | nil => intro i _ _; trivial
  | cons pu child next ihc ihn =>
    rintro i ⟨h1, h2, h3, h4⟩ hsame
    simp only [Forest.count] at hsame
    obtain ⟨hc, hn⟩ := hsame i (le_refl _) (by omega)
    exact ⟨hc.trans h1, hn.trans h2, ihc h3 (fun j h h' => hsame j (by omega) (by omega)),
      ihn h4 (fun j h h' => hsame j (by omega) (by omega))⟩

/-- A unit as the records give it. -/
def fieldInfo (pu : PuInfo) : PuInfo :=
  { state := setPuInfoState 0 wtProcSym .inFile
    procSym := storedSym pu.procSym, flags := pu.flags, puDst := pu.puDst, cuDst := dstInvalidIdx
    subsect := fun _ => ⟨0, 0⟩, maptab := 0 }

/-- An element after unit `n` was linked to its previous sibling, or to the unit before it. -/
def withLink (prev : Option Nat) (n : Nat) (arr : Nat → Node) (j : Nat) : Node :=
  match prev with
  | none => if j + 1 = n then { arr j with child := some n } else arr j
  | some p => if j = p then { arr j with next := some n } else arr j

theorem prevIndex_toInt {p : PuInfo} (h : p.maptab < 2 ^ 31) :
    (prevIndex (some p)).toInt = p.maptab := by
  change (ofNat 32 p.maptab).toInt = p.maptab
  have hnat : (ofNat 32 p.maptab).toNat = p.maptab := by
    rw [BitVec.toNat_ofNat]
    omega
  rw [BitVec.toInt_eq_toNat_cond, hnat, if_pos (by omega)]

theorem linkPu_eq (arr : Nat → Node)
    (hnum : numPus < 2 ^ 31) (hn : n < numPus) (hprev : ∀ p ∈ prevPu, p.maptab < n) :
    ∃ arr', linkPu numPus n (prevIndex prevPu).toInt arr = some arr' ∧
      ∀ j, arr' j = withLink (prevPu.map PuInfo.maptab) n arr j := by
  cases prevPu with
  | none =>
    have hneg : (prevIndex none).toInt = -1 := by decide
    unfold linkPu
    rw [if_pos hneg]
    by_cases h0 : n = 0
    · subst h0
      exact ⟨arr, by simp, fun j => by simp [withLink]⟩
    · rw [if_pos h0]
      refine ⟨_, rfl, fun j => ?_⟩
      by_cases hj : j = n - 1
      · subst hj
        simp [withLink, show n - 1 + 1 = n by omega]
      · simp [withLink, hj, show ¬ j + 1 = n by omega]
  | some p =>
    have hp : p.maptab < n := hprev p rfl
    have hidx := prevIndex_toInt (p := p) (by omega)
    unfold linkPu
    rw [hidx, if_neg (by omega), if_pos ⟨by omega, by omega⟩]
    refine ⟨_, rfl, fun j => ?_⟩
    by_cases hj : j = p.maptab
    · simp [withLink, hj]
    · simp [withLink, hj]

theorem readPuFields_step {addr : Nat} (hnum : numPus < 2 ^ 31) (hn : n < numPus)
    (hprev : ∀ p ∈ prevPu, p.maptab < n) (hm : Holds m addr (puBytes pu prevPu))
    (hzero : arr n = zeroNode) :
    ∃ arr', readPuFields m numPus (arr, addr) n = some (arr', addr + 20) ∧
      arr' n = ⟨fieldInfo pu, none, none⟩ ∧
      ∀ j, j ≠ n → arr' j = withLink (prevPu.map PuInfo.maptab) n arr j := by
  simp only [puBytes, holds_append, length_append, le32_length] at hm
  obtain ⟨⟨⟨⟨h0, h4⟩, h8⟩, h12⟩, h16⟩ := hm
  have hinit : puInfoInit (arr n) = puInfoInit zeroNode := by rw [hzero]
  obtain ⟨arr', hlink, hval⟩ := linkPu_eq
    (update arr n ⟨fieldInfo pu, none, none⟩) hnum hn hprev
  refine ⟨arr', ?_, ?_, fun j hj => ?_⟩
  · simp only [readPuFields, hinit, h0.load32, h4.load32, h8.load32, h12.load32, h16.load32]
    change (linkPu numPus n (prevIndex prevPu).toInt
      (update arr n ⟨fieldInfo pu, none, none⟩)).bind _ = _
    rw [hlink]
    rfl
  · rw [hval n]
    cases prevPu with
    | none => simp [withLink]
    | some p =>
      have hp := hprev p rfl
      simp [withLink, show n ≠ p.maptab by omega]
  · rw [hval j]
    cases prevPu with
    | none => simp [withLink, hj]
    | some p => simp [withLink, hj]

/-- The reader of the fixed fields, by induction on the forest: the flags it reads say where the
next record is linked. -/
theorem readFields_eq (hnum : numPus < 2 ^ 31) (f : Forest) :
    ∀ (prevPu : Option PuInfo) (i addr : Nat) (arr : Nat → Node), Numbered i f →
      (∀ p ∈ prevPu, p.maptab < i) → i + f.count ≤ numPus →
      Holds m addr (fieldBytes f prevPu) → (∀ j, i ≤ j → arr j = zeroNode) →
      ∃ arr', (range' i f.count).foldlM (readPuFields m numPus) (arr, addr)
          = some (arr', addr + 20 * f.count) ∧
        Placed arr' i f ∧
        (range' i f.count).map (fun j => (arr' j).info) = f.units.map fieldInfo ∧
        (∀ j, i + f.count ≤ j → arr' j = zeroNode) ∧
        (∀ j, j < i → arr' j = if f.count = 0 then arr j
          else withLink (prevPu.map PuInfo.maptab) i arr j) := by
  induction f with
  | nil =>
    intro prevPu i addr arr _ _ _ _ hzero
    exact ⟨arr, rfl, trivial, rfl, fun j hj => hzero j hj, fun j _ => rfl⟩
  | cons pu child next ihc ihn =>
    rintro prevPu i addr arr ⟨hmap, hnc, hnn⟩ hprev hle hm hzero
    simp only [fieldBytes, holds_append, puBytes_length, fieldBytes_length] at hm
    obtain ⟨hm1, hm2, hm3⟩ := hm
    simp only [Forest.count] at hle
    obtain ⟨arr1, hstep, hown, hlink1⟩ := readPuFields_step hnum (by omega) hprev hm1
      (hzero i (le_refl _))
    -- behind the unit nothing has been touched
    have hzero1 : ∀ j, i + 1 ≤ j → arr1 j = zeroNode := by
      intro j hj
      rw [hlink1 j (by omega), ← hzero j (by omega)]
      cases prevPu with
      | none => simp [withLink, show ¬ j + 1 = i by omega]
      | some p =>
        have hp := hprev p rfl
        simp [withLink, show j ≠ p.maptab by omega]
    obtain ⟨arr2, hchild, hplc, hinfoc, hzero2, hlink2⟩ := ihc none (i + 1) (addr + 20) arr1 hnc
      (fun p hp => by cases hp) (by omega) hm2 hzero1
    obtain ⟨arr3, hnext, hpln, hinfon, hzero3, hlink3⟩ := ihn (some pu) (i + 1 + child.count)
      (addr + 20 + 20 * child.count) arr2 hnn
      (fun p hp => by cases hp; omega) (by omega) hm3 hzero2
    -- the unit keeps its fields and gets its two links
    have hown2 : arr2 i = ⟨fieldInfo pu, none, start child (i + 1)⟩ := by
      rw [hlink2 i (by omega)]
      unfold start
      by_cases hc : child.count = 0
      · simp [hc, hown]
      · simp [hc, hown, withLink]
    have hown3 : arr3 i = ⟨fieldInfo pu, start next (i + 1 + child.count), start child (i + 1)⟩ := by
      rw [hlink3 i (by omega)]
      unfold start
      by_cases hc : next.count = 0
      · simpa [hc, start] using hown2
      · simp [hc, hown2, withLink, hmap, start]
    -- the units of the children are not touched by the following siblings
    have hsame : ∀ j, i + 1 ≤ j → j < i + 1 + child.count → arr3 j = arr2 j := by
      intro j h1 h2
      rw [hlink3 j h2]
      by_cases hc : next.count = 0
      · rw [if_pos hc]
      · rw [if_neg hc]
        simp [withLink, hmap, show j ≠ i by omega]
    have hsplit : range' i (1 + child.count + next.count) = i :: (range' (i + 1) child.count ++
            range' (i + 1 + child.count) next.count) := by
      rw [range'_append_1, show 1 + child.count + next.count = (child.count + next.count) + 1
        by omega, range'_succ]
    refine ⟨arr3, ?_, ⟨?_, ?_, ?_, hpln⟩, ?_, ?_, ?_⟩
    · simp only [Forest.count, hsplit, foldlM_cons, foldlM_append, hstep,
        bind_eq_bind, bind_some, hchild, hnext, some.injEq, Prod.mk.injEq,
        true_and]
      omega
    · rw [hown3]
    · rw [hown3]
    · exact hplc.congr fun j h1 h2 => by rw [hsame j h1 h2]; exact ⟨rfl, rfl⟩
    · have hkids : (range' (i + 1) child.count).map (fun j => (arr3 j).info)
          = (range' (i + 1) child.count).map (fun j => (arr2 j).info) := by
        apply map_congr_left
        intro j hj
        have hj' := mem_range'_1.mp hj
        rw [hsame j (by omega) (by omega)]
      simp only [Forest.count, hsplit, map_cons, map_append, Forest.units, hkids, hinfoc,
        hinfon, hown3]
    · intro j hj
      simp only [Forest.count] at hj
      exact hzero3 j (by omega)
    · intro j hj
      have h2 : arr3 j = arr2 j := by
        rw [hlink3 j (by omega)]
        by_cases hc : next.count = 0
        · rw [if_pos hc]
        · rw [if_neg hc]
          simp [withLink, hmap, show j ≠ i by omega]
      have h1 : arr2 j = arr1 j := by
        rw [hlink2 j (by omega)]
        by_cases hc : child.count = 0
        · rw [if_pos hc]
        · rw [if_neg hc]
          simp [withLink, show j ≠ i by omega]
      rw [h2, h1, hlink1 j (by omega), if_neg (by simp only [Forest.count]; omega)]

/-! ## Reading the subsections -/

/-- An element with one subsection read. -/
def withSubsect (k : Fin wtSubsections) (s : Subsect) (pu : Node) : Node :=
  { pu with info := { pu.info with
      subsect := update pu.info.subsect k s
      state := if s.size ≠ 0 then setPuInfoState pu.info.state k .inFile else pu.info.state } }

/-- The reader of one kind of subsection fills in that field of every record and nothing else. -/
theorem readSubsects_eq (k : Fin wtSubsections) (us : List PuInfo) :
    ∀ (i addr : Nat) (arr : Nat → Node),
      Holds m addr (us.flatMap fun pu => subsectBytes (cleared pu k)) →
      ∃ arr', (range' i us.length).foldl (readSubsect m k) (arr, addr)
          = (arr', addr + 8 * us.length) ∧ (∀ j, j < i → arr' j = arr j) ∧
        (∀ t pu, us[t]? = some pu → arr' (i + t) = withSubsect k (cleared pu k) (arr (i + t))) := by
  induction us with
  | nil =>
    intro i addr arr _
    exact ⟨arr, rfl, fun j _ => rfl, fun t pu h => by cases h⟩
  | cons pu us ih =>
    intro i addr arr hm
    rw [flatMap_cons, holds_append, subsectBytes_length] at hm
    obtain ⟨hpu, hus⟩ := hm
    obtain ⟨hoff, hsize⟩ := holds_append.mp hpu
    have hread : readSubsect m k (arr, addr) i
        = (update arr i (withSubsect k (cleared pu k) (arr i)), addr + 8) := by
      simp only [readSubsect, hoff.load32]
      rw [le32_length] at hsize
      simp only [hsize.load32]
      rfl
    obtain ⟨arr', hrest, hbefore, hval⟩ := ih (i + 1) (addr + 8)
      (update arr i (withSubsect k (cleared pu k) (arr i))) hus
    refine ⟨arr', ?_, fun j hj => ?_, fun t p ht => ?_⟩
    · rw [length_cons, range'_succ, foldl_cons, hread, hrest]
      congr 1
      omega
    · rw [hbefore j (by omega), update_of_ne (by omega)]
    · cases t with
      | zero =>
        cases ht
        rw [add_zero, hbefore i (by omega), update_self]
      | succ t =>
        rw [getElem?_cons_succ] at ht
        rw [show i + (t + 1) = i + 1 + t by omega, hval t p ht,
          update_of_ne (by omega)]

theorem kind_toInt : ∀ k : Fin wtSubsections, (ofNat 32 k.val).toInt = k.val := by
  decide

theorem readSubsectKind_eq {addr : Nat} (arr : Nat → Node)
    (k : Fin wtSubsections) (hm : Holds m addr (kindBytes f k)) :
    ∃ arr', readSubsectKind m f.count (arr, addr) n = some (arr', addr + (4 + 8 * f.count)) ∧
      ∀ t pu, f.units[t]? = some pu → arr' t = withSubsect k (cleared pu k) (arr t) := by
  rw [kindBytes, holds_append, le32_length] at hm
  obtain ⟨hkind, hunits⟩ := hm
  obtain ⟨arr', hread, _, hval⟩ := readSubsects_eq k f.units 0 (addr + 4) arr hunits
  have hlt : k.val < 9 := k.isLt
  refine ⟨arr', ?_, fun t pu ht => by simpa using hval t pu ht⟩
  simp only [readSubsectKind, hkind.load32, kind_toInt, Int.toNat_natCast, Fin.eta]
  rw [if_neg (by simp only [wtSubsections]; omega), dif_pos ⟨by omega, k.isLt⟩,
    range_eq_range', ← Forest.units_length f, hread]
  simp only [some.injEq, Prod.mk.injEq, true_and]
  omega

theorem readKinds_eq (ks : List (Fin wtSubsections)) :
    ∀ (l : List Nat) (addr : Nat) (arr : Nat → Node), l.length = ks.length →
      Holds m addr (ks.flatMap (kindBytes f)) →
      ∃ arr', l.foldlM (readSubsectKind m f.count) (arr, addr)
          = some (arr', addr + ks.length * (4 + 8 * f.count)) ∧ ∀ t pu, f.units[t]? = some pu →
          arr' t = ks.foldl (fun node k => withSubsect k (cleared pu k) node) (arr t) := by
  induction ks with
  | nil =>
    intro l addr arr hl _
    rw [length_nil, length_eq_zero_iff] at hl
    subst hl
    exact ⟨arr, by simp, fun t pu _ => rfl⟩
  | cons k ks ih =>
    intro l addr arr hl hm
    cases l with
    | nil => cases hl
    | cons n l =>
      rw [flatMap_cons, holds_append, kindBytes_length] at hm
      obtain ⟨arr1, hstep, hval1⟩ := readSubsectKind_eq (n := n) arr k hm.1
      obtain ⟨arr2, hrest, hval2⟩ := ih l (addr + (4 + 8 * f.count)) arr1 (by simpa using hl) hm.2
      refine ⟨arr2, ?_, fun t pu ht => ?_⟩
      · rw [foldlM_cons, hstep, bind_eq_bind, bind_some, hrest,
          length_cons, Nat.add_mul]
        simp only [some.injEq, Prod.mk.injEq, true_and]
        omega
      · rw [hval2 t pu ht, hval1 t pu ht, foldl_cons]

theorem foldl_withSubsect (s : Fin wtSubsections → Subsect) (ks : List (Fin wtSubsections)) :
    ∀ (pu : Node), ∃ r, ks.foldl (fun node k => withSubsect k (s k) node) pu = r ∧
      r.next = pu.next ∧ r.child = pu.child ∧ r.info.procSym = pu.info.procSym ∧
      r.info.flags = pu.info.flags ∧ r.info.puDst = pu.info.puDst ∧
      (∀ k, r.info.subsect k = if k ∈ ks then s k else pu.info.subsect k) ∧
      (∀ k : Fin wtSubsections, puInfoState r.info.state k =
        if k ∈ ks ∧ (s k).size ≠ 0 then .inFile else puInfoState pu.info.state k) := by
  induction ks with
  | nil =>
    intro pu
    exact ⟨pu, rfl, rfl, rfl, rfl, rfl, rfl, fun k => by simp, fun k => by simp⟩
  | cons k ks ih =>
    intro pu
    obtain ⟨r, hr, hnext, hchild, hsym, hflags, hdst, hsub, hstate⟩ := ih (withSubsect k (s k) pu)
    refine ⟨r, hr, hnext, hchild, hsym, hflags, hdst, fun j => ?_, fun j => ?_⟩
    · rw [hsub j]
      by_cases hj : j ∈ ks
      · simp [hj]
      · by_cases hjk : j = k
        · subst hjk
          simp [hj, withSubsect]
        · simp [hj, hjk, withSubsect]
    · rw [hstate j]
      by_cases hj : j ∈ ks ∧ (s j).size ≠ 0
      · rw [if_pos hj, if_pos ⟨mem_cons_of_mem _ hj.1, hj.2⟩]
      · rw [if_neg hj]
        by_cases hsz : (s k).size = 0
        · have hcond : ¬ (j ∈ k :: ks ∧ (s j).size ≠ 0) := by
            rintro ⟨hmem, hne⟩
            rcases mem_cons.mp hmem with rfl | hmem
            · exact hne hsz
            · exact hj ⟨hmem, hne⟩
          rw [if_neg hcond]
          simp [withSubsect, hsz]
        · simp only [withSubsect, ne_eq, hsz, not_false_eq_true, if_true, puInfoState_set]
          by_cases hjk : j = k
          · subst hjk
            rw [if_pos rfl, if_pos ⟨mem_cons_self .., hsz⟩]
          · have hcond : ¬ (j ∈ k :: ks ∧ ¬ (s j).size = 0) := by
              rintro ⟨hmem, hne⟩
              exact hj ⟨(mem_cons.mp hmem).resolve_left hjk, hne⟩
            rw [if_neg hjk, if_neg hcond]

/-! ## The round trip -/

/-- A unit read back: its fields, and `Subsect_Exists` for what is not empty. -/
structure SameUnit (r w : PuInfo) : Prop where
  procSym : r.procSym = w.procSym
  flags : r.flags = w.flags
  puDst : r.puDst = w.puDst
  subsect : r.subsect = w.subsect
  state : ∀ k : Fin wtSubsections, puInfoState r.state k = .inFile ↔ (w.subsect k).size ≠ 0

/-- The links of the array from `root` on are those of the forest, unit by unit. -/
def Linked (arr : Nat → Node) : Option Nat → Forest → Prop
  | none, .nil => True
  | some i, .cons pu child next =>
    SameUnit (arr i).info pu ∧ Linked arr (arr i).child child ∧ Linked arr (arr i).next next
  | _, _ => False

theorem linked_of_placed (g : PuInfo → PuInfo) (f : Forest) : ∀ {i : Nat},
    Placed arr i f → (∀ t pu, f.units[t]? = some pu → SameUnit (arr (i + t)).info (g pu)) →
    Linked arr (start f i) (f.map g) := by
  induction f with
  | nil => intro i _ _; trivial
  | cons pu child next ihc ihn =>
    rintro i ⟨hc, hn, hpc, hpn⟩ hsame
    have hroot : start (.cons pu child next) i = some i := by
      exact if_neg (by simp only [Forest.count]; omega)
    rw [hroot]
    refine ⟨hsame 0 pu (by simp [Forest.units]), ?_, ?_⟩
    · rw [hc]
      apply ihc hpc
      intro t p ht
      have := hsame (t + 1) p (by
        simp only [Forest.units, List.getElem?_cons_succ]
        rw [List.getElem?_append_left (List.getElem?_eq_some_iff.mp ht).1]
        exact ht)
      rwa [show i + (t + 1) = i + 1 + t by omega] at this
    · rw [hn]
      apply ihn hpn
      intro t p ht
      have := hsame (1 + child.count + t) p (by
        rw [show 1 + child.count + t = (child.count + t) + 1 by omega]
        simp only [Forest.units, getElem?_cons_succ]
        rw [getElem?_append_right (by rw [Forest.units_length]; omega), Forest.units_length,
          show child.count + t - child.count = t by omega]
        exact ht)
      rwa [show i + (1 + child.count + t) = i + 1 + child.count + t by omega] at this

theorem headerBytes_fields {addr : Nat} (hm : Holds m addr (headerBytes f)) :
    load32 m addr = puHeaderVersion ∧ load32 m (addr + 4) = ofNat 32 f.count ∧
      Holds m (addr + 8) (fieldBytes f none) ∧
      load32 m (addr + 8 + 20 * f.count) = ofNat 32 wtSubsections ∧
      Holds m (addr + 8 + 20 * f.count + 4) ((finRange wtSubsections).flatMap (kindBytes f)) := by
  simp only [headerBytes, holds_append, le32_length, fieldBytes_length] at hm
  obtain ⟨hversion, hcount, hfields, hkinds, hrest⟩ := hm
  exact ⟨hversion.load32, hcount.load32, hfields, hkinds.load32, hrest⟩

/-- All passes of the reader over what the writer left give the forest back. -/
theorem readPuInfos_eq {base size : Nat} (hnum : Numbered 0 f)
    (hfits : f.count < 2 ^ 31) (hm : Holds m (base + (load32 m base).toNat) (headerBytes f))
    (hsize : (load32 m base).toNat + (headerBytes f).length ≤ size) :
    ∃ r, readPuInfos m base size = some r ∧ r.numPus = f.count ∧
      Linked r.arr r.root (f.map stored) := by
  obtain ⟨hversion, hcount, hfields, hkinds, hrest⟩ := headerBytes_fields hm
  rw [headerBytes_length] at hsize
  have hn : (ofNat 32 f.count).toInt = f.count := by
    rw [BitVec.toInt_eq_toNat_cond, BitVec.toNat_ofNat, mod_eq_of_lt (by omega),
      if_pos (by omega)]
  unfold readPuInfos
  simp only [hversion, ne_eq, not_true_eq_false, if_false, hcount, hn, Int.toNat_natCast]
  rw [if_neg (by omega)]
  by_cases h0 : f.count = 0
  · rw [if_pos (by exact_mod_cast h0)]
    refine ⟨_, rfl, rfl, ?_⟩
    cases f with
    | nil => trivial
    | cons pu child next => simp only [Forest.count] at h0; omega
  · rw [if_neg (by exact_mod_cast h0)]
    obtain ⟨arr1, hread, hplaced, hinfo, _, _⟩ := readFields_eq hfits f none 0
      (base + (load32 m base).toNat + 8) (fun _ => zeroNode) hnum (fun p hp => by cases hp)
      (by omega) hfields (fun _ _ => rfl)
    obtain ⟨arr2, hkindsRead, hval⟩ := readKinds_eq (finRange wtSubsections) (range 9)
      (base + (load32 m base).toNat + 8 + 20 * f.count + 4) arr1 (by decide) hrest
    have hnine : (ofNat 32 wtSubsections).toInt.toNat = 9 := by decide
    have hlen : (finRange wtSubsections).length = 9 := by decide
    rw [hlen] at hkindsRead
    rw [← range_eq_range'] at hread
    simp only [hread, bind_eq_bind, bind_some, hkinds, hnine, hkindsRead]
    rw [if_neg (by omega)]
    refine ⟨_, rfl, rfl, ?_⟩
    have hroot : some 0 = start f 0 := (if_neg h0).symm
    simp only [hroot]
    -- the subsections leave the links, and the fields of the records
    have hunit : ∀ t pu, f.units[t]? = some pu →
        (arr2 t).next = (arr1 t).next ∧ (arr2 t).child = (arr1 t).child ∧
          SameUnit (arr2 t).info (stored pu) := by
      intro t pu ht
      have hinf : (arr1 t).info = fieldInfo pu := by
        have hget := congrArg (fun l : List PuInfo => l[t]?) hinfo
        have hlt := (List.getElem?_eq_some_iff.mp ht).1
        rw [Forest.units_length] at hlt
        simp only [getElem?_map, ht, map_some, getElem?_range' hlt] at hget
        simpa using hget
      obtain ⟨r, hr, hnext, hchild, hsym, hflags, hdst, hsub, hstate⟩ :=
        foldl_withSubsect (cleared pu) (finRange wtSubsections) (arr1 t)
      rw [hval t pu ht, hr]
      refine ⟨hnext, hchild, ?_, ?_, ?_, ?_, ?_⟩
      · rw [hsym, hinf]; rfl
      · rw [hflags, hinf]; rfl
      · rw [hdst, hinf]; rfl
      · funext k
        rw [hsub k, if_pos (mem_finRange k)]
        rfl
      · intro k
        rw [hstate k, hinf]
        by_cases hz : (cleared pu k).size = 0
        · rw [if_neg (fun h => h.2 hz)]
          have hfresh := puInfoState_fresh k
          exact ⟨fun h => absurd (hfresh.symm.trans h) (by decide), fun h => absurd hz h⟩
        · rw [if_pos ⟨mem_finRange k, hz⟩]
          exact iff_of_true rfl hz
    apply linked_of_placed
    · apply hplaced.congr
      intro j _ hj
      have hlt : j < f.units.length := by rw [Forest.units_length]; omega
      obtain ⟨hn', hc', _⟩ := hunit j _ (getElem?_eq_getElem hlt)
      exact ⟨hc', hn'⟩
    · intro t pu ht
      rw [zero_add]
      exact (hunit t pu ht).2.2

theorem linked_numbered (g : PuInfo → PuInfo) (hg : ∀ pu n r, SameUnit r (g { pu with maptab := n }) ↔
    SameUnit r (g pu)) (f : Forest) : ∀ (i : Nat) (root : Option Nat),
    Linked arr root ((numberPuInfos f i).1.map g) ↔ Linked arr root (f.map g) := by
  induction f with
  | nil => exact fun i root => Iff.rfl
  | cons pu child next ihc ihn =>
    intro i root
    cases root with
    | none => exact Iff.rfl
    | some r => exact and_congr (hg pu i _) (and_congr (ihc _ _) (ihn _ _))

/-- What is read back are the units that were written just where the symbols are. -/
theorem linked_stored_iff (f : Forest) : ∀ root : Option Nat, Linked arr root (f.map stored) →
    (Linked arr root (f.map clearMissing) ↔ ∀ pu ∈ f.units, storedSym pu.procSym = pu.procSym) := by
  induction f with
  | nil => exact fun root h => iff_of_true h fun _ hpu => absurd hpu not_mem_nil
  | cons pu child next ihc ihn =>
    intro root h
    cases root with
    | none => exact h.elim
    | some r =>
      obtain ⟨hunit, hc, hn⟩ := h
      have hsame : SameUnit (arr r).info (clearMissing pu) ↔ storedSym pu.procSym = pu.procSym :=
        ⟨fun hw => hunit.procSym.symm.trans hw.procSym, fun hsym =>
          ⟨hunit.procSym.trans hsym, hunit.flags, hunit.puDst, hunit.subsect, hunit.state⟩⟩
      simp only [Forest.units, forall_mem_cons, forall_mem_append]
      exact and_congr hsame (and_congr (ihc _ hc) (ihn _ hn))

theorem writable_numbered (f : Forest) : ∀ i : Nat,
    (∀ pu ∈ (numberPuInfos f i).1.units, Writable pu) ↔ ∀ pu ∈ f.units, Writable pu := by
  induction f with
  | nil => intro i; exact Iff.rfl
  | cons pu child next ihc ihn =>
    intro i
    simp only [numberPuInfos, Forest.units, forall_mem_cons, forall_mem_append]
    rw [ihc, ihn]
    exact Iff.rfl

theorem sizeofPuInfos_eq (f : Forest) : (sizeofPuInfos f).1 = 48 + 92 * f.count := by
  obtain ⟨hcount, _, _⟩ := numberPuInfos_numbered f 0
  simp only [sizeofPuInfos, hcount, wtSubsections]
  omega

/-- Every tree whose subsections are all missing or written is stored in exactly the announced
number of bytes, whatever was there before, and read back unit by unit from any section whose first
word leads to these bytes; with a subsection in another state the writer returns -1. -/
def RoundTrips (puTree : Forest) : Prop :=
  ((∀ pu ∈ puTree.units, Writable pu) →
      ∃ puTree' bytes, bytes.length = (sizeofPuInfos puTree).1 ∧
        (∀ m base, writePuInfos (sizeofPuInfos puTree).2 m base
          = some (puTree', store m base bytes)) ∧ ∀ m base size, (sizeofPuInfos puTree).1 < 2 ^ 31 →
          Holds m (base + (load32 m base).toNat) bytes →
          (load32 m base).toNat + bytes.length ≤ size →
          ∃ r, readPuInfos m base size = some r ∧ r.numPus = puTree.count ∧
            Linked r.arr r.root puTree' ∧ Linked r.arr r.root (puTree.map clearMissing)) ∧
    ((∃ pu ∈ puTree.units, ¬ Writable pu) →
      ∀ m base, writePuInfos (sizeofPuInfos puTree).2 m base = none)

/-- What is written is read back as `stored` says. -/
theorem writeRead_stored {puTree : Forest} (hw : ∀ pu ∈ puTree.units, Writable pu) :
    ∃ bytes, bytes.length = (sizeofPuInfos puTree).1 ∧
      (∀ m base, writePuInfos (sizeofPuInfos puTree).2 m base
        = some ((sizeofPuInfos puTree).2.map clearMissing, store m base bytes)) ∧
      ∀ m base size, (sizeofPuInfos puTree).1 < 2 ^ 31 →
        Holds m (base + (load32 m base).toNat) bytes →
        (load32 m base).toNat + bytes.length ≤ size →
        ∃ r, readPuInfos m base size = some r ∧ r.numPus = puTree.count ∧
          Linked r.arr r.root (puTree.map stored) := by
  obtain ⟨_, hcount, hnum⟩ := numberPuInfos_numbered puTree 0
  have hsizeof := sizeofPuInfos_eq puTree
  have hlen : (headerBytes (sizeofPuInfos puTree).2).length = (sizeofPuInfos puTree).1 := by
    rw [headerBytes_length, hsizeof]
    simp only [sizeofPuInfos, hcount]
  refine ⟨headerBytes (sizeofPuInfos puTree).2, hlen,
    fun m base => writePuInfos_eq ((writable_numbered puTree 0).mpr hw) m base, ?_⟩
  intro m base size hfits hm hsize
  obtain ⟨r, hread, hn, hlinked⟩ := readPuInfos_eq (f := (sizeofPuInfos puTree).2) hnum
    (by simp only [sizeofPuInfos, hcount]; omega) hm hsize
  refine ⟨r, hread, ?_, (linked_numbered stored (fun _ _ _ => ⟨fun h => ⟨h.1, h.2, h.3, h.4, h.5⟩,
    fun h => ⟨h.1, h.2, h.3, h.4, h.5⟩⟩) puTree 0 _).mp hlinked⟩
  rw [hn]
  simp only [sizeofPuInfos, hcount]

/-- A section whose first word leads to the bytes behind it. -/
def sectionOf (bytes : List Byte) : Mem := store (store32 (fun _ => 0) 0 4) 4 bytes

theorem sectionOf_spec (bytes : List Byte) :
    (load32 (sectionOf bytes) 0).toNat = 4 ∧ Holds (sectionOf bytes) 4 bytes := by
  have hhdr : Holds (sectionOf bytes) 0 (le32 4) :=
    (holds_store _ 0 (le32 4)).store_of_disjoint (.inr (by simp))
  exact ⟨by rw [hhdr.load32]; rfl, holds_store _ _ _⟩

/-- The round trip loses nothing exactly if every symbol is its low half, sign-extended: the record
has 32 bits for it. -/
theorem puInfos_roundTrip_iff (puTree : Forest) : RoundTrips puTree ↔
    ((∀ pu ∈ puTree.units, Writable pu) → (sizeofPuInfos puTree).1 < 2 ^ 31 →
      ∀ pu ∈ puTree.units, storedSym pu.procSym = pu.procSym) := by
  have hclear : ∀ pu n r, SameUnit r (clearMissing { pu with maptab := n }) ↔
      SameUnit r (clearMissing pu) := fun _ _ _ =>
    ⟨fun h => ⟨h.1, h.2, h.3, h.4, h.5⟩, fun h => ⟨h.1, h.2, h.3, h.4, h.5⟩⟩
  constructor
  · rintro ⟨hround, -⟩ hw hfits
    obtain ⟨puTree', bytes, hlen, hwrite, hread⟩ := hround hw
    obtain ⟨bytes', hlen', hwrite', hread'⟩ := writeRead_stored hw
    -- both are what the writer leaves
    have hsame : sectionOf bytes = sectionOf bytes' :=
      congrArg Prod.snd (some.inj ((hwrite _ 4).symm.trans (hwrite' _ 4)))
    obtain ⟨hfour, hm⟩ := sectionOf_spec bytes
    obtain ⟨r, hr, -, -, hlinked⟩ := hread (sectionOf bytes) 0 (4 + bytes.length) hfits
      (by rwa [hfour, zero_add]) (by rw [hfour])
    obtain ⟨r', hr', -, hstored⟩ := hread' (sectionOf bytes) 0 (4 + bytes.length) hfits
      (by rw [hfour, zero_add, hsame]; exact (sectionOf_spec bytes').2)
      (by rw [hfour, hlen, hlen'])
    rw [hr] at hr'
    cases hr'
    exact (linked_stored_iff puTree _ hstored).mp hlinked
  · intro hsyms
    refine ⟨fun hw => ?_, ?_⟩
    · obtain ⟨bytes, hlen, hwrite, hread⟩ := writeRead_stored hw
      refine ⟨_, bytes, hlen, hwrite, fun m base size hfits hm hsize => ?_⟩
      obtain ⟨r, hr, hn, hlinked⟩ := hread m base size hfits hm hsize
      have hkept := (linked_stored_iff puTree _ hlinked).mpr (hsyms hw hfits)
      exact ⟨r, hr, hn, (linked_numbered clearMissing hclear puTree 0 _).mpr hkept, hkept⟩
    · rintro ⟨pu, hpu, hnot⟩ m base
      apply writePuInfos_none
      by_contra hall
      have hw := (writable_numbered puTree 0).mp fun p hp => by
        by_contra hp'
        exact hall ⟨p, hp, hp'⟩
      exact hnot (hw pu hpu)

/-- A unit with one nested unit; its tree is written, the rest is missing. -/
def nestedPair : Forest :=
  .cons { state := 0x30, procSym := 257, flags := 2, puDst := ⟨16, 0⟩, cuDst := ⟨0, 0⟩,
          subsect := fun _ => ⟨64, 128⟩, maptab := 0 }
    (.cons { state := 0, procSym := 513, flags := 0, puDst := ⟨32, 0⟩, cuDst := ⟨0, 0⟩,
             subsect := fun _ => ⟨0, 0⟩, maptab := 0 } .nil .nil) .nil

theorem puInfos_roundTrip_nested : ∃ m r, readPuInfos m 0 236 = some r ∧ r.numPus = 2 ∧
    Linked r.arr r.root (nestedPair.map clearMissing) := by
  have hw : ∀ pu ∈ nestedPair.units, Writable pu := by
    unfold nestedPair Writable
    decide
  have hsyms : ∀ pu ∈ nestedPair.units, storedSym pu.procSym = pu.procSym := by
    unfold nestedPair
    decide
  obtain ⟨_, bytes, hlen, _, hread⟩ :=
    ((puInfos_roundTrip_iff nestedPair).mpr fun _ _ => hsyms).1 hw
  have hsize : (sizeofPuInfos nestedPair).1 = 232 := by decide
  obtain ⟨hfour, hm⟩ := sectionOf_spec bytes
  obtain ⟨r, hr, hn, _, hlinked⟩ := hread (sectionOf bytes) 0 236 (by omega)
    (by rwa [hfour, zero_add]) (by rw [hfour]; omega)
  exact ⟨sectionOf bytes, r, hr, hn, hlinked⟩

/-- A unit of the symbol with the index 0x800001 at level 0. -/
def highSymbol : Forest :=
  .cons { state := 0, procSym := 0x80000100, flags := 0, puDst := ⟨16, 0⟩, cuDst := ⟨0, 0⟩,
          subsect := fun _ => ⟨0, 0⟩, maptab := 0 } .nil .nil

/-- The symbol comes back as 0xFFFFFFFF80000100. -/
theorem highSymbol_changed : ¬ ∀ puTree : Forest, RoundTrips puTree := by
  intro hall
  have hw : ∀ pu ∈ highSymbol.units, Writable pu := by
    unfold highSymbol Writable
    decide
  have hsym := (puInfos_roundTrip_iff highSymbol).mp (hall highSymbol) hw (by decide) _ mem_cons_self
  exact absurd hsym (by decide)

end PuHeader
