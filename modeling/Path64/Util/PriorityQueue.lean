import Path64.Lib.Heap

/-! # The priority queue

A heap in a vector that grows. The client may keep the position of an element
in the element itself; the queue then tells it every move. -/

namespace PriorityQueue

open Function Heap

/-! ## Model -/

/-- What the client gives: the comparison, and whether indices are kept. -/
structure Client (α : Type) where
  comparison : α → α → Bool
  indexed : Bool

/-- `PRQ`. `heapVector i` is kept at `i - 1`; `index` was last set. -/
structure Prq (α : Type) where
  heapVector : Nat → α
  size : Nat
  allocatedSize : Nat
  expansionFactor : Nat
  index : α → Nat

section Model

variable {α : Type} [DecidableEq α] (cl : Client α)

namespace Prq

/-- `PRQ_Ith`. -/
def ith (q : Prq α) (i : Nat) : α := q.heapVector i

/-- `PRQ_Set_Ith`. -/
def setIth (q : Prq α) (i : Nat) (element : α) : Prq α :=
  { q with
    heapVector := update q.heapVector i element
    index := if cl.indexed then update q.index element i else q.index }

/-- The loop of `PRQ_Upheap`. -/
def upheapLoop (element : α) : Nat → Prq α → Nat → Prq α × Nat
  | 0, q, index => (q, index)
  | fuel + 1, q, index =>
    if 1 < index then
      let parent := q.ith (index / 2)
      if cl.comparison element parent then
        upheapLoop element fuel (q.setIth cl index parent) (index / 2)
      else (q, index)
    else (q, index)

/-- `PRQ_Upheap`; `none` is a failed assertion. -/
def upheap (q : Prq α) (index : Nat) : Option (Prq α × Nat) :=
  if index ≤ q.size ∧ 0 < index then
    let element := q.ith index
    let (q, index) := upheapLoop cl element index q index
    some (q.setIth cl index element, index)
  else none

/-- The loop of `PRQ_Downheap`. -/
def downheapLoop (element : α) : Nat → Prq α → Nat → Prq α × Nat
  | 0, q, index => (q, index)
  | fuel + 1, q, index =>
    let leftIndex := index * 2
    let rightIndex := leftIndex + 1
    if q.size < leftIndex then (q, index)
    else
      let left := q.ith leftIndex
      if rightIndex ≤ q.size ∧ cl.comparison (q.ith rightIndex) left = true then
        let right := q.ith rightIndex
        if cl.comparison right element then
          downheapLoop element fuel (q.setIth cl index right) rightIndex
        else (q, index)
      else if cl.comparison left element then
        downheapLoop element fuel (q.setIth cl index left) leftIndex
      else (q, index)

/-- `PRQ_Downheap`. -/
def downheap (q : Prq α) (index : Nat) : Option (Prq α × Nat) :=
  if index ≤ q.size ∧ 0 < index then
    let element := q.ith index
    let (q, index) := downheapLoop cl element q.size q index
    some (q.setIth cl index element, index)
  else none

/-- `PRQ_Initialize`; what the vector and the elements hold is left as it was. -/
def init (heapVector : Nat → α) (index : α → Nat) (initialSize expansionFactor : Int) : Prq α where
  heapVector := heapVector
  size := 0
  allocatedSize := if initialSize ≤ 0 then 200 else initialSize.toNat
  expansionFactor := if expansionFactor ≤ 100 then 200 else expansionFactor.toNat
  index := index

/-- `PRQ_Delete_Top`. -/
def deleteTop (q : Prq α) : Option (α × Prq α) :=
  if 0 < q.size then
    let topElement := q.ith 1
    if q.size = 1 then some (topElement, { q with size := 0 })
    else do
      let bottomElement := q.ith q.size
      let q := { q with size := q.size - 1 }
      let (q, _) ← (q.setIth cl 1 bottomElement).downheap cl 1
      some (topElement, q)
  else none

/-- The growth of the vector in `PRQ_Insert`. -/
def grow (q : Prq α) : Prq α :=
  if q.size = q.allocatedSize then
    let newSize := q.size * q.expansionFactor / 100
    { q with allocatedSize := if newSize ≤ q.size then q.size + 10 else newSize }
  else q

/-- `PRQ_Insert`. -/
def insert (q : Prq α) (element : α) : Option (Prq α) := do
  let q := q.grow
  let q := { q with size := q.size + 1 }
  let (q, _) ← (q.setIth cl q.size element).upheap cl q.size
  some q

/-- The index that `PRQ_Remove` finds. -/
def find (q : Prq α) (element : α) : Option Nat :=
  if cl.indexed then
    if q.ith (q.index element) = element then some (q.index element) else none
  else (List.range' 1 q.size).find? fun i => q.ith i = element

/-- `PRQ_Remove`. -/
def remove (q : Prq α) (element : α) : Option (Prq α) :=
  if 0 < q.size then do
    let index ← q.find cl element
    if index = q.size then some { q with size := q.size - 1 }
    else
      let bottomElement := q.ith q.size
      let q := { q with size := q.size - 1 }
      let (q, index') ← (q.setIth cl index bottomElement).upheap cl index
      if index' = index then (q.downheap cl index).map Prod.fst else some q
  else none

end Prq

/-- The queues reached from an empty one, with what is in them; `allowed` may be inserted. -/
inductive Run (allowed : Multiset α → α → Prop) : Prq α → Multiset α → Prop
  | init (heapVector : Nat → α) (index : α → Nat) (initialSize expansionFactor : Int) :
      Run allowed (.init heapVector index initialSize expansionFactor) 0
  | insert {q q' m x} : Run allowed q m → allowed m x → q.insert cl x = some q' →
      Run allowed q' (x ::ₘ m)
  | deleteTop {q q' m x} : Run allowed q m → q.deleteTop cl = some (x, q') →
      Run allowed q' (m.erase x)
  | remove {q q' m x} : Run allowed q m → q.remove cl x = some q' → Run allowed q' (m.erase x)

end Model

/-! ## A queue while an element is sifted -/

section Held

variable {α : Type} {cl : Client α}

/-- The queue holds `m`, and has told every element its position. -/
structure Holds (cl : Client α) (q : Prq α) (m : Multiset α) : Prop where
  elements : contents q.heapVector q.size = m
  indices : cl.indexed = true → ∀ i, 1 ≤ i → i ≤ q.size → q.index (q.ith i) = i

/-- The same, but `e` is on its way to the hole. -/
structure Held [DecidableEq α] (cl : Client α) (q : Prq α) (hole : Nat) (e : α)
    (m : Multiset α) : Prop where
  pos : 1 ≤ hole
  le_size : hole ≤ q.size
  elements : contents (update q.heapVector hole e) q.size = m
  indices : cl.indexed = true → ∀ i, 1 ≤ i → i ≤ q.size → i ≠ hole → q.index (q.ith i) = i

variable [DecidableEq α] {q : Prq α} {m : Multiset α} {hole : Nat} {e : α}

@[simp] theorem size_setIth (q : Prq α) (i : Nat) (e : α) : (q.setIth cl i e).size = q.size := rfl

@[simp] theorem heapVector_setIth (q : Prq α) (i : Nat) (e : α) :
    (q.setIth cl i e).heapVector = update q.heapVector i e := rfl

theorem index_setIth (hidx : cl.indexed = true) (q : Prq α) (i : Nat) (e : α) :
    (q.setIth cl i e).index = update q.index e i := by
  simp [Prq.setIth, hidx]

theorem Held.move (h : Held cl q hole e m) (hm : cl.indexed = true → m.Nodup) {p : Nat}
    (hp : 1 ≤ p) (hps : p ≤ q.size) (hne : p ≠ hole) :
    Held cl (q.setIth cl hole (q.ith p)) p e m := by
  refine ⟨hp, hps, ?_, fun hidx i hi his hip => ?_⟩
  · exact (contents_move h.pos h.le_size hp hps hne).trans h.elements
  · rw [index_setIth hidx]
    simp only [Prq.ith, heapVector_setIth]
    by_cases hih : i = hole
    · rw [hih, update_self, update_self]
    · -- another element than the one that moves
      have hother : q.heapVector i ≠ q.heapVector p := by
        intro heq
        have hnodup := hm hidx
        rw [← h.elements] at hnodup
        refine hip (eq_of_nodup hnodup hi his hp hps ?_)
        rw [update_of_ne hih, update_of_ne hne, heq]
      rw [update_of_ne hih, update_of_ne hother]
      exact h.indices hidx i hi his hih

theorem Held.fill (h : Held cl q hole e m) (hm : cl.indexed = true → m.Nodup) :
    Holds cl (q.setIth cl hole e) m := by
  refine ⟨h.elements, fun hidx i hi his => ?_⟩
  rw [index_setIth hidx]
  simp only [Prq.ith, heapVector_setIth]
  by_cases hih : i = hole
  · rw [hih, update_self, update_self]
  · have hother : q.heapVector i ≠ e := by
      intro heq
      have hnodup := hm hidx
      rw [← h.elements] at hnodup
      refine hih (eq_of_nodup hnodup hi his h.pos h.le_size ?_)
      rw [update_of_ne hih, update_self, heq]
    rw [update_of_ne hih, update_of_ne hother]
    exact h.indices hidx i hi his hih

/-! ## The sifts -/

/-- The order that the comparison function gives. -/
def before (cl : Client α) (a b : α) : Prop := cl.comparison a b = true

section

variable [IsStrictWeakOrder α (before cl)] (hm : cl.indexed = true → m.Nodup)
include hm

/-- The sift up, by induction on the fuel: the hole moves to the parent while the element is
less. -/
theorem upheapLoop_spec :
    ∀ (fuel : Nat) (q : Prq α) (hole : Nat), hole ≤ fuel → Held cl q hole e m →
      UpHole (before cl) q.heapVector q.size hole e →
      ∃ q' i, Prq.upheapLoop cl e fuel q hole = (q', i) ∧ q'.size = q.size ∧
        q'.allocatedSize = q.allocatedSize ∧ i ≤ hole ∧
        (1 < hole → before cl e (q.ith (hole / 2)) → i < hole) ∧ Holds cl (q'.setIth cl i e) m ∧
        Ordered (before cl) (q'.setIth cl i e).heapVector q.size := by
  intro fuel
  induction fuel with
  | zero =>
    intro q hole hf h _
    have := h.pos
    omega
  | succ fuel ih =>
    intro q hole hf h hup
    have hpos := h.pos
    have hle := h.le_size
    unfold Prq.upheapLoop
    by_cases h1 : 1 < hole
    · rw [if_pos h1]
      by_cases hlt : cl.comparison e (q.ith (hole / 2)) = true
      · simp only [hlt, if_true]
        have hmove := h.move hm (by omega : 1 ≤ hole / 2) (by omega) (by omega)
        obtain ⟨q', i, heq, hsize, halloc, hi, -, hholds, hord⟩ :=
          ih _ _ (by omega) hmove (hup.move h1 hle hlt)
        exact ⟨q', i, heq, hsize, halloc, by omega, fun _ _ => by omega, hholds, hord⟩
      · simp only [hlt]
        exact ⟨q, hole, rfl, rfl, rfl, Nat.le_refl _, fun _ hlt' => absurd hlt' hlt, h.fill hm,
          hup.fill fun _ => hlt⟩
    · rw [if_neg h1]
      exact ⟨q, hole, rfl, rfl, rfl, Nat.le_refl _, fun h1' _ => absurd h1' h1, h.fill hm,
        hup.fill fun h2 => absurd h2 h1⟩

theorem upheap_spec (he : q.ith hole = e) (h : Held cl q hole e m)
    (hup : UpHole (before cl) q.heapVector q.size hole e) :
    ∃ q' i, q.upheap cl hole = some (q', i) ∧ q'.size = q.size ∧
      q'.allocatedSize = q.allocatedSize ∧
      (1 < hole → before cl e (q.ith (hole / 2)) → i < hole) ∧ Holds cl q' m ∧
      Ordered (before cl) q'.heapVector q'.size := by
  obtain ⟨q', i, heq, hsize, halloc, -, hmoved, hholds, hord⟩ :=
    upheapLoop_spec hm hole q hole (Nat.le_refl _) h hup
  refine ⟨q'.setIth cl i e, i, ?_, hsize, halloc, hmoved, hholds, ?_⟩
  · unfold Prq.upheap
    rw [if_pos ⟨h.le_size, h.pos⟩, he]
    simp only [heq]
  · rw [size_setIth, hsize]
    exact hord

end

theorem upheap_stays (hpos : 1 ≤ hole) (hle : hole ≤ q.size)
    (hstop : 1 < hole → ¬ before cl (q.ith hole) (q.ith (hole / 2))) :
    q.upheap cl hole = some (q.setIth cl hole (q.ith hole), hole) := by
  have hloop : Prq.upheapLoop cl (q.ith hole) hole q hole = (q, hole) := by
    obtain ⟨fuel, hfuel⟩ : ∃ fuel, hole = fuel + 1 := ⟨hole - 1, by omega⟩
    conv_lhs => arg 3; rw [hfuel]
    unfold Prq.upheapLoop
    by_cases h1 : 1 < hole
    · rw [if_pos h1]
      exact if_neg (hstop h1)
    · rw [if_neg h1]
  unfold Prq.upheap
  rw [if_pos ⟨hle, hpos⟩]
  simp only [hloop]

section

variable [IsStrictWeakOrder α (before cl)] (hm : cl.indexed = true → m.Nodup)
include hm

/-- The sift down: the lesser child moves up while it is less than the element. -/
theorem downheapLoop_spec :
    ∀ (fuel : Nat) (q : Prq α) (hole : Nat), q.size < fuel + hole → Held cl q hole e m →
      DownHole (before cl) q.heapVector q.size hole e →
      ∃ q' i, Prq.downheapLoop cl e fuel q hole = (q', i) ∧ q'.size = q.size ∧
        q'.allocatedSize = q.allocatedSize ∧ Holds cl (q'.setIth cl i e) m ∧
        Ordered (before cl) (q'.setIth cl i e).heapVector q.size := by
  intro fuel
  induction fuel with
  | zero =>
    intro q hole hf h _
    have := h.le_size
    omega
  | succ fuel ih =>
    intro q hole hf h hdown
    have hpos := h.pos
    unfold Prq.downheapLoop
    simp only
    have hstay (hstop : ∀ c ≤ q.size, c / 2 = hole → ¬ before cl (q.ith c) e) :
        ∃ q' i, (q, hole) = (q', i) ∧ q'.size = q.size ∧ q'.allocatedSize = q.allocatedSize ∧
          Holds cl (q'.setIth cl i e) m ∧
          Ordered (before cl) (q'.setIth cl i e).heapVector q.size :=
      ⟨q, hole, rfl, rfl, rfl, h.fill hm, hdown.fill hstop⟩
    -- the child that moves up is one that the other does not precede
    have hmove (c : Nat) (hc : c ≤ q.size) (hpc : c / 2 = hole) (hlt : before cl (q.ith c) e)
        (hbest : ∀ c' ≤ q.size, c' / 2 = hole → ¬ before cl (q.ith c') (q.ith c)) :
        ∃ q' i, Prq.downheapLoop cl e fuel (q.setIth cl hole (q.ith c)) c = (q', i) ∧
          q'.size = q.size ∧ q'.allocatedSize = q.allocatedSize ∧
          Holds cl (q'.setIth cl i e) m ∧
          Ordered (before cl) (q'.setIth cl i e).heapVector q.size := by
      have hfuel : (q.setIth cl hole (q.ith c)).size < fuel + c := by
        rw [size_setIth]
        omega
      exact ih _ c hfuel (h.move hm (by omega) hc (by omega))
        (hdown.move hpos hc hpc hlt hbest)
    by_cases hleaf : q.size < hole * 2
    · rw [if_pos hleaf]
      exact hstay fun c hc hpc => by omega
    · rw [if_neg hleaf]
      by_cases hright : hole * 2 + 1 ≤ q.size ∧
          cl.comparison (q.ith (hole * 2 + 1)) (q.ith (hole * 2)) = true
      · rw [if_pos hright]
        have hbest : ∀ c ≤ q.size, c / 2 = hole → ¬ before cl (q.ith c) (q.ith (hole * 2 + 1)) := by
          intro c hc hpc
          rcases (by omega : c = hole * 2 ∨ c = hole * 2 + 1) with rfl | rfl
          · exact not_lt_of_lt hright.2
          · exact irrefl (r := before cl) _
        by_cases hlt : cl.comparison (q.ith (hole * 2 + 1)) e = true
        · rw [if_pos hlt]
          exact hmove (hole * 2 + 1) hright.1 (by omega) hlt hbest
        · rw [if_neg hlt]
          exact hstay fun c hc hpc => not_lt_trans (hbest c hc hpc) hlt
      · rw [if_neg hright]
        have hbest : ∀ c ≤ q.size, c / 2 = hole → ¬ before cl (q.ith c) (q.ith (hole * 2)) := by
          intro c hc hpc
          rcases (by omega : c = hole * 2 ∨ c = hole * 2 + 1) with rfl | rfl
          · exact irrefl (r := before cl) _
          · exact fun hlt => hright ⟨hc, hlt⟩
        by_cases hlt : cl.comparison (q.ith (hole * 2)) e = true
        · rw [if_pos hlt]
          exact hmove (hole * 2) (by omega) (by omega) hlt hbest
        · rw [if_neg hlt]
          exact hstay fun c hc hpc => not_lt_trans (hbest c hc hpc) hlt

theorem downheap_spec (he : q.ith hole = e) (h : Held cl q hole e m)
    (hdown : DownHole (before cl) q.heapVector q.size hole e) :
    ∃ q' i, q.downheap cl hole = some (q', i) ∧ q'.size = q.size ∧
      q'.allocatedSize = q.allocatedSize ∧ Holds cl q' m ∧
      Ordered (before cl) q'.heapVector q'.size := by
  have hfuel : q.size < q.size + hole := by
    have := h.pos
    omega
  obtain ⟨q', i, heq, hsize, halloc, hholds, hord⟩ :=
    downheapLoop_spec hm q.size q hole hfuel h hdown
  refine ⟨q'.setIth cl i e, i, ?_, hsize, halloc, hholds, ?_⟩
  · unfold Prq.downheap
    rw [if_pos ⟨h.le_size, h.pos⟩, he]
    simp only [heq]
  · rw [size_setIth, hsize]
    exact hord

end

end Held

/-! ## The operations -/

section Operations

variable {α : Type} {cl : Client α}

/-- A queue of the elements `m`. -/
structure Inv (cl : Client α) (q : Prq α) (m : Multiset α) : Prop where
  holds : Holds cl q m
  ordered : Ordered (before cl) q.heapVector q.size
  room : q.size ≤ q.allocatedSize

variable [DecidableEq α] {q : Prq α} {m : Multiset α}

omit [DecidableEq α] in
theorem init_inv (heapVector : Nat → α) (index : α → Nat) (initialSize expansionFactor : Int) :
    Inv cl (.init heapVector index initialSize expansionFactor) 0 :=
  ⟨⟨contents_zero _, fun _ i (h1 : 1 ≤ i) (h0 : i ≤ 0) => absurd h0 (by omega)⟩,
    fun i (h2 : 2 ≤ i) (h0 : i ≤ 0) => absurd h0 (by omega), Nat.zero_le _⟩

omit [DecidableEq α] in
theorem grow_inv (h : Inv cl q m) : Inv cl q.grow m ∧ q.grow.size = q.size ∧
    q.size < q.grow.allocatedSize := by
  have hroom := h.room
  unfold Prq.grow
  by_cases hfull : q.size = q.allocatedSize
  · rw [if_pos hfull]
    have hnew : q.size < if q.size * q.expansionFactor / 100 ≤ q.size then q.size + 10
        else q.size * q.expansionFactor / 100 := by
      split <;> omega
    exact ⟨⟨⟨h.holds.elements, h.holds.indices⟩, h.ordered, hnew.le⟩, rfl, hnew⟩
  · rw [if_neg hfull]
    exact ⟨h, rfl, by omega⟩

theorem insert_spec [IsStrictWeakOrder α (before cl)] (h : Inv cl q m) (x : α)
    (hm : cl.indexed = true → (x ::ₘ m).Nodup) :
    ∃ q', q.insert cl x = some q' ∧ Inv cl q' (x ::ₘ m) := by
  obtain ⟨hgrow, hsize, hroom⟩ := grow_inv h
  let q1 : Prq α := { q.grow with size := q.grow.size + 1 }
  have hheld : Held cl (q1.setIth cl q1.size x) q1.size x (x ::ₘ m) := by
    refine ⟨Nat.succ_pos _, Nat.le_refl _, ?_, fun hidx i hi his hne => ?_⟩
    · have hlast : contents (update q.grow.heapVector (q.grow.size + 1) x) q.grow.size = m := by
        rw [← hgrow.holds.elements]
        exact contents_congr fun i _ hi => update_of_ne (by omega) _ _
      rw [heapVector_setIth, update_idem, size_setIth]
      simp only [q1]
      rw [contents_succ, update_self, hlast]
    · have his' : i ≤ q.grow.size := by
        have : i ≤ q.grow.size + 1 := his
        have : i ≠ q.grow.size + 1 := hne
        omega
      -- the new element was not in the queue, so no other index changed
      have hother : q.grow.heapVector i ≠ x := by
        intro heq
        refine (Multiset.nodup_cons.mp (hm hidx)).1 ?_
        rw [← hgrow.holds.elements]
        exact mem_contents.mpr ⟨i, hi, his', heq⟩
      rw [index_setIth hidx]
      simp only [Prq.ith, heapVector_setIth]
      rw [update_of_ne hne]
      show update q.grow.index x _ (q.grow.heapVector i) = i
      rw [update_of_ne hother]
      exact hgrow.holds.indices hidx i hi his'
  have hith : (q1.setIth cl q1.size x).ith q1.size = x := update_self _ _ _
  have hup : UpHole (before cl) (q1.setIth cl q1.size x).heapVector (q1.setIth cl q1.size x).size
      q1.size x := by
    have hsz : q1.size = q.grow.size + 1 := rfl
    refine ⟨fun i h2 hi hne _ => ?_, fun _ c hc hpc => ?_, fun c hc hpc => ?_⟩
    · rw [size_setIth] at hi
      rw [heapVector_setIth, update_of_ne hne, update_of_ne (by omega)]
      exact hgrow.ordered i h2 (by omega)
    · rw [size_setIth] at hc
      omega
    · rw [size_setIth] at hc
      omega
  obtain ⟨q', i, heq, hsz, halloc, _, hholds, hord⟩ := upheap_spec hm hith hheld hup
  refine ⟨q', ?_, hholds, hord, ?_⟩
  · unfold Prq.insert
    exact Option.bind_eq_some_iff.mpr ⟨(q', i), heq, rfl⟩
  · rw [hsz, halloc]
    show q.grow.size + 1 ≤ q.grow.allocatedSize
    omega

theorem held_bottom (h : Inv cl q m) (hm : cl.indexed = true → m.Nodup) {i : Nat} (hi : 1 ≤ i)
    (his : i < q.size) :
    Held cl (({ q with size := q.size - 1 } : Prq α).setIth cl i (q.ith q.size)) i (q.ith q.size)
      (m.erase (q.ith i)) := by
  have hsize : q.size - 1 + 1 = q.size := by omega
  refine ⟨hi, Nat.le_sub_one_of_lt his, ?_, fun hidx j hj hjs hne => ?_⟩
  · rw [heapVector_setIth, update_idem, size_setIth]
    have hcons := contents_update (v := q.heapVector) hi (Nat.le_sub_one_of_lt his) (q.ith q.size)
    have hall := contents_succ q.heapVector (q.size - 1)
    rw [hsize, h.holds.elements] at hall
    have : m = q.ith i ::ₘ contents (update q.heapVector i (q.ith q.size)) (q.size - 1) :=
      hall.trans hcons.symm
    rw [this, Multiset.erase_cons_head]
  · have hjs' : j ≤ q.size - 1 := hjs
    have hother : q.heapVector j ≠ q.heapVector q.size := by
      intro heq
      have hnodup := hm hidx
      rw [← h.holds.elements] at hnodup
      have := eq_of_nodup hnodup hj (by omega) (by omega) (Nat.le_refl _) heq
      omega
    rw [index_setIth hidx]
    simp only [Prq.ith, heapVector_setIth]
    rw [update_of_ne hne, update_of_ne hother]
    exact h.holds.indices hidx j hj (by omega)

omit [DecidableEq α] in
theorem order_bottom [IsStrictWeakOrder α (before cl)] (h : Inv cl q m) {i : Nat} (e : α) :
    OrderedExcept (before cl) (update q.heapVector i e) (q.size - 1) i ∧
      Bridged (before cl) (update q.heapVector i e) (q.size - 1) i := by
  constructor
  · intro j h2 hj hne hpne
    rw [update_of_ne hne, update_of_ne hpne]
    exact h.ordered j h2 (by omega)
  · intro h2 c hc hpc
    rw [update_of_ne (by omega : c ≠ i), update_of_ne (by omega : i / 2 ≠ i)]
    have hchild := h.ordered c (by omega) (by omega)
    rw [hpc] at hchild
    exact not_lt_trans hchild (h.ordered i h2 (by omega))

theorem inv_drop_last (h : Inv cl q m) (hpos : 0 < q.size) :
    Inv cl { q with size := q.size - 1 } (m.erase (q.ith q.size)) := by
  have hall := contents_succ q.heapVector (q.size - 1)
  rw [show q.size - 1 + 1 = q.size by omega, h.holds.elements] at hall
  refine ⟨⟨?_, fun hidx i hi his => ?_⟩, fun i h2 hi => ?_, ?_⟩
  · rw [hall]
    exact (Multiset.erase_cons_head _ _).symm
  · have : i ≤ q.size - 1 := his
    exact h.holds.indices hidx i hi (by omega)
  · have : i ≤ q.size - 1 := hi
    exact h.ordered i h2 (by omega)
  · have := h.room
    show q.size - 1 ≤ q.allocatedSize
    omega

theorem deleteTop_spec [IsStrictWeakOrder α (before cl)] (h : Inv cl q m)
    (hm : cl.indexed = true → m.Nodup) (hpos : 0 < q.size) :
    ∃ q', q.deleteTop cl = some (q.ith 1, q') ∧ Inv cl q' (m.erase (q.ith 1)) := by
  unfold Prq.deleteTop
  rw [if_pos hpos]
  simp only
  by_cases h1 : q.size = 1
  · rw [if_pos h1]
    have hlast := inv_drop_last h hpos
    rw [h1] at hlast
    exact ⟨_, rfl, hlast⟩
  · rw [if_neg h1]
    let q1 : Prq α := ({ q with size := q.size - 1 } : Prq α).setIth cl 1 (q.ith q.size)
    have hith : q1.ith 1 = q.ith q.size := update_self 1 _ q.heapVector
    have hheld : Held cl q1 1 (q.ith q.size) (m.erase (q.ith 1)) :=
      held_bottom h hm (Nat.le_refl 1) (by omega)
    obtain ⟨hexcept, hbridged⟩ := order_bottom h (i := 1) (q.ith q.size)
    have hdown : DownHole (before cl) q1.heapVector q1.size 1 (q.ith q.size) :=
      ⟨hexcept, hbridged, fun h2 => absurd h2 (by decide)⟩
    have hm' : cl.indexed = true → (m.erase (q.ith 1)).Nodup := fun hidx =>
      (hm hidx).erase _
    obtain ⟨q', i, heq, hsz, halloc, hholds, hord⟩ := downheap_spec hm' hith hheld hdown
    refine ⟨q', Option.bind_eq_some_iff.mpr ⟨(q', i), heq, rfl⟩, hholds, hord, ?_⟩
    have hroom := h.room
    rw [hsz, halloc]
    show q.size - 1 ≤ q.allocatedSize
    omega

theorem find_spec (h : Inv cl q m) {x : α} (hx : x ∈ m) :
    ∃ i, q.find cl x = some i ∧ 1 ≤ i ∧ i ≤ q.size ∧ q.ith i = x := by
  rw [← h.holds.elements] at hx
  obtain ⟨i, hi, his, hix⟩ := mem_contents.mp hx
  unfold Prq.find
  by_cases hidx : cl.indexed = true
  · rw [if_pos hidx]
    have hindex := h.holds.indices hidx i hi his
    rw [show q.ith i = x from hix] at hindex
    rw [hindex]
    exact ⟨i, if_pos hix, hi, his, hix⟩
  · rw [if_neg hidx]
    cases hfind : (List.range' 1 q.size).find? fun i => q.ith i = x with
    | none =>
      have := List.find?_eq_none.mp hfind i (List.mem_range'_1.mpr ⟨hi, by omega⟩)
      simp only [decide_eq_true_eq] at this
      exact absurd hix this
    | some j =>
      have hj := List.mem_range'_1.mp (List.mem_of_find?_eq_some hfind)
      have hjx : q.ith j = x := by simpa using List.find?_some hfind
      exact ⟨j, rfl, hj.1, by omega, hjx⟩

/-- The last element takes the place of the one removed and is sifted both ways. -/
theorem remove_spec [IsStrictWeakOrder α (before cl)] (h : Inv cl q m)
    (hm : cl.indexed = true → m.Nodup) {x : α} (hx : x ∈ m) :
    ∃ q', q.remove cl x = some q' ∧ Inv cl q' (m.erase x) := by
  obtain ⟨i, hfind, hi, his, hix⟩ := find_spec h hx
  unfold Prq.remove
  rw [if_pos (by omega), hfind]
  simp only [Option.bind_eq_bind, Option.bind_some]
  by_cases hlast : i = q.size
  · rw [if_pos hlast]
    have hinv := inv_drop_last h (by omega)
    rw [← hlast, hix] at hinv
    rw [← hlast]
    exact ⟨_, rfl, hinv⟩
  · rw [if_neg hlast]
    let q1 : Prq α := ({ q with size := q.size - 1 } : Prq α).setIth cl i (q.ith q.size)
    have hroom : q.size - 1 ≤ q.allocatedSize := by
      have := h.room
      omega
    have hith : q1.ith i = q.ith q.size := update_self i _ q.heapVector
    have hheld : Held cl q1 i (q.ith q.size) (m.erase x) := hix ▸ held_bottom h hm hi (by omega)
    obtain ⟨hexcept, hbridged⟩ := order_bottom h (i := i) (q.ith q.size)
    have hm' : cl.indexed = true → (m.erase x).Nodup := fun hidx => (hm hidx).erase _
    by_cases hup : 1 < i ∧ before cl (q.ith q.size) (q1.ith (i / 2))
    · -- it moves up: what is below the hole does not precede the parent either
      have huphole : UpHole (before cl) q1.heapVector q1.size i (q.ith q.size) :=
        ⟨hexcept, hbridged, fun c hc hpc =>
          not_lt_trans (hbridged hup.1 c hc hpc) (not_lt_of_lt hup.2)⟩
      obtain ⟨q', i', heq, hsz, halloc, hmoved, hholds, hord⟩ := upheap_spec hm' hith hheld huphole
      refine ⟨q', ?_, hholds, hord, by rw [hsz, halloc]; exact hroom⟩
      exact Option.bind_eq_some_iff.mpr
        ⟨(q', i'), heq, if_neg (Nat.ne_of_lt (hmoved hup.1 hup.2))⟩
    · have habove : 1 < i → ¬ before cl (q.ith q.size) (q1.ith (i / 2)) :=
        fun h2 hlt => hup ⟨h2, hlt⟩
      have hstays := upheap_stays (q := q1) hheld.pos hheld.le_size (by rw [hith]; exact habove)
      -- putting it there again changes nothing
      have hagain : q1.setIth cl i (q1.ith i) = q1 := by
        rw [hith]
        simp only [q1, Prq.setIth, update_idem]
        by_cases hidx : cl.indexed = true
        · simp [hidx]
        · simp [hidx]
      rw [hagain] at hstays
      obtain ⟨q', i', heq, hsz, halloc, hholds, hord⟩ :=
        downheap_spec hm' hith hheld ⟨hexcept, hbridged, habove⟩
      refine ⟨q', ?_, hholds, hord, by rw [hsz, halloc]; exact hroom⟩
      refine Option.bind_eq_some_iff.mpr ⟨(q1, i), hstays, ?_⟩
      simp only [if_true, heq, Option.map_some]

theorem remove_none (h : Inv cl q m) {x : α} (hx : x ∉ m) : q.remove cl x = none := by
  have hpos : ∀ i, 1 ≤ i → i ≤ q.size → q.ith i ≠ x := by
    intro i hi his hix
    rw [← h.holds.elements] at hx
    exact hx (mem_contents.mpr ⟨i, hi, his, hix⟩)
  unfold Prq.remove
  by_cases hsize : 0 < q.size
  · rw [if_pos hsize]
    unfold Prq.find
    by_cases hidx : cl.indexed = true
    · rw [if_pos hidx]
      by_cases hith : q.ith (q.index x) = x
      · -- the index is stale, and past the end of the heap
        rw [if_pos hith]
        have hout : ¬ (q.index x ≤ q.size ∧ 0 < q.index x) :=
          fun hin => hpos _ hin.2 hin.1 hith
        simp only [Option.bind_eq_bind, Option.bind_some]
        rw [if_neg (by omega)]
        refine Option.bind_eq_none_iff.mpr fun r hr => ?_
        unfold Prq.upheap at hr
        rw [if_neg (by rw [size_setIth]; simp only; omega)] at hr
        cases hr
      · rw [if_neg hith]
        rfl
    · rw [if_neg hidx]
      have hnone : ((List.range' 1 q.size).find? fun i => q.ith i = x) = none := by
        refine List.find?_eq_none.mpr fun i hi => ?_
        have hi' := List.mem_range'_1.mp hi
        simpa using hpos i hi'.1 (by omega)
      rw [hnone]
      rfl
  · rw [if_neg hsize]

end Operations

/-! ## Runs -/

section Runs

variable {α : Type} {cl : Client α} [DecidableEq α]

/-- An element with an index is in the queue once at most. -/
def insertedOnce (cl : Client α) (m : Multiset α) (x : α) : Prop := cl.indexed = true → x ∉ m

section

variable [IsStrictWeakOrder α (before cl)] {q : Prq α} {m : Multiset α}
  (h : Run cl (insertedOnce cl) q m)
include h

theorem Run.inv : Inv cl q m ∧ (cl.indexed = true → m.Nodup) := by
  induction h with
  | init heapVector index initialSize expansionFactor =>
    exact ⟨init_inv heapVector index initialSize expansionFactor, fun _ => Multiset.nodup_zero⟩
  | @insert q q' m x _ hallowed heq ih =>
    have hm : cl.indexed = true → (x ::ₘ m).Nodup := fun hidx =>
      Multiset.nodup_cons.mpr ⟨hallowed hidx, ih.2 hidx⟩
    obtain ⟨q1, h1, hinv⟩ := insert_spec ih.1 x hm
    obtain rfl := Option.some.inj (h1.symm.trans heq)
    exact ⟨hinv, hm⟩
  | @deleteTop q q' m x _ heq ih =>
    have hpos : 0 < q.size := by
      by_contra hzero
      unfold Prq.deleteTop at heq
      rw [if_neg hzero] at heq
      cases heq
    obtain ⟨q1, h1, hinv⟩ := deleteTop_spec ih.1 ih.2 hpos
    obtain ⟨rfl, rfl⟩ := Prod.mk.inj (Option.some.inj (h1.symm.trans heq))
    exact ⟨hinv, fun hidx => (ih.2 hidx).erase _⟩
  | @remove q q' m x _ heq ih =>
    have hx : x ∈ m := by
      by_contra hx
      rw [remove_none ih.1 hx] at heq
      cases heq
    obtain ⟨q1, h1, hinv⟩ := remove_spec ih.1 ih.2 hx
    obtain rfl := Option.some.inj (h1.symm.trans heq)
    exact ⟨hinv, fun hidx => (ih.2 hidx).erase _⟩

/-- In every run the queue holds what was inserted and not removed, no element precedes its parent,
every element knows its position, and `Delete_Top` returns one that nothing in the queue precedes.
-/
theorem run_correct : contents q.heapVector q.size = m ∧
      (∀ i, 2 ≤ i → i ≤ q.size → cl.comparison (q.ith i) (q.ith (i / 2)) = false) ∧
      (cl.indexed = true → ∀ i, 1 ≤ i → i ≤ q.size → q.index (q.ith i) = i) ∧
      q.size ≤ q.allocatedSize ∧ (∀ x, insertedOnce cl m x → ∃ q', q.insert cl x = some q') ∧
      (m ≠ 0 → ∃ x q', q.deleteTop cl = some (x, q') ∧ x ∈ m ∧ ∀ y ∈ m, cl.comparison y x = false) ∧
      ∀ x, (∃ q', q.remove cl x = some q') ↔ x ∈ m := by
  obtain ⟨hinv, hnodup⟩ := h.inv
  refine ⟨hinv.holds.elements, fun i h2 hi => ?_, hinv.holds.indices, hinv.room, fun x hx => ?_,
    fun hne => ?_, fun x => ⟨fun ⟨q', hq'⟩ => ?_, fun hx => ?_⟩⟩
  · exact Bool.eq_false_iff.mpr (hinv.ordered i h2 hi)
  · obtain ⟨q', hq', -⟩ := insert_spec hinv x fun hidx =>
      Multiset.nodup_cons.mpr ⟨hx hidx, hnodup hidx⟩
    exact ⟨q', hq'⟩
  · have hpos : 0 < q.size := by
      by_contra hzero
      refine hne ?_
      rw [← hinv.holds.elements, show q.size = 0 by omega, contents_zero]
    obtain ⟨q', hq', -⟩ := deleteTop_spec hinv hnodup hpos
    refine ⟨q.ith 1, q', hq', ?_, fun y hy => ?_⟩
    · rw [← hinv.holds.elements]
      exact mem_contents.mpr ⟨1, Nat.le_refl 1, hpos, rfl⟩
    · rw [← hinv.holds.elements] at hy
      obtain ⟨i, hi, his, rfl⟩ := mem_contents.mp hy
      exact Bool.eq_false_iff.mpr (hinv.ordered.top i hi his)
  · by_contra hx
    rw [remove_none hinv hx] at hq'
    cases hq'
  · obtain ⟨q', hq', -⟩ := remove_spec hinv hnodup hx
    exact ⟨q', hq'⟩

end

end Runs

/-- Elements that are their own keys. -/
def natClient : Client Nat := ⟨fun a b => decide (a < b), true⟩

instance : IsStrictWeakOrder Nat (before natClient) where
  irrefl a := by simp [before, natClient]
  trans a b c := by simp only [before, natClient, decide_eq_true_eq]; omega
  incomp_trans a b c := by simp only [before, natClient, decide_eq_true_eq]; omega

/-- Two elements, of which the worse was inserted first. -/
def twoElements : Prq Nat :=
  (((Prq.init (fun _ => 0) (fun _ => 0) 0 0).insert natClient 7).bind
    fun q => q.insert natClient 3).getD (Prq.init (fun _ => 0) (fun _ => 0) 0 0)

/-- Four elements go in; the best one and then another one leave. -/
def afterRemovals : Prq Nat :=
  ((twoElements.insert natClient 9).bind fun q => (q.insert natClient 5).bind fun q =>
    (q.deleteTop natClient).bind fun r => r.2.remove natClient 7).getD twoElements

theorem run_correct_two : Run natClient (insertedOnce natClient) afterRemovals {5, 9} ∧
    contents afterRemovals.heapVector afterRemovals.size = {5, 9} ∧
    ∃ x q, afterRemovals.deleteTop natClient = some (x, q) ∧ x = 5 := by
  have hrun : Run natClient (insertedOnce natClient) afterRemovals {5, 9} :=
    Run.remove (x := 7) (Run.deleteTop (x := 3) (Run.insert (x := 5) (Run.insert (x := 9)
      (Run.insert (x := 3) (Run.insert (x := 7) (Run.init (fun _ => 0) (fun _ => 0) 0 0)
        (fun _ => by simp) rfl) (fun _ => by simp) rfl) (fun _ => by simp) rfl)
          (fun _ => by simp) rfl) rfl) rfl
  obtain ⟨hcontents, -, -, -, -, htop, -⟩ := run_correct hrun
  obtain ⟨x, q, hq, hmem, hbest⟩ := htop (by decide)
  refine ⟨hrun, hcontents, x, q, hq, ?_⟩
  have h5 := hbest 5 (by decide)
  have hx : x = 5 ∨ x = 9 := by simpa using hmem
  simp only [natClient, decide_eq_false_iff_not] at h5
  omega

/-- One element, inserted twice. -/
def insertedTwice : Prq Nat :=
  (((Prq.init (fun _ => 0) (fun _ => 0) 0 0).insert natClient 7).bind
    fun q => q.insert natClient 7).getD (Prq.init (fun _ => 0) (fun _ => 0) 0 0)

/-- And removed once. -/
def removedOnce : Prq Nat := (insertedTwice.remove natClient 7).getD insertedTwice

/-- An element that is in the queue twice has one index, and it can be the one that was removed. -/
theorem run_stale_index : ¬ ∀ (q : Prq Nat) (m : Multiset Nat),
    Run natClient (fun _ _ => True) q m → ∀ i, 1 ≤ i → i ≤ q.size → q.index (q.ith i) = i := by
  intro h
  have htwice : Run natClient (fun _ _ => True) insertedTwice {7, 7} :=
    Run.insert (Run.insert (Run.init (fun _ => 0) (fun _ => 0) 0 0) trivial rfl) trivial rfl
  have honce : Run natClient (fun _ _ => True) removedOnce (Multiset.erase {7, 7} 7) :=
    Run.remove htwice rfl
  exact absurd (h removedOnce _ honce 1 (by decide) (by decide)) (by decide)

section Drain

variable {α : Type} {cl : Client α} [DecidableEq α] [IsStrictWeakOrder α (before cl)] {q : Prq α}
  {m : Multiset α}

/-- `PRQ_Delete_Top`, `n` times. -/
def Prq.drain (cl : Client α) : Nat → Prq α → Option (List α)
  | 0, _ => some []
  | n + 1, q => (q.deleteTop cl).bind fun p => (p.2.drain cl n).map (p.1 :: ·)

omit [DecidableEq α] [IsStrictWeakOrder α (before cl)] in
theorem Inv.card (h : Inv cl q m) : m.card = q.size := by
  rw [← h.holds.elements, contents_eq_map, Multiset.card_map, Finset.card_val, Nat.card_Icc,
    Nat.add_sub_cancel]

theorem drain_spec (n : Nat) : ∀ {q : Prq α} {m : Multiset α}, Inv cl q m →
    (cl.indexed = true → m.Nodup) → q.size = n → ∃ l, q.drain cl n = some l ∧
      (l : Multiset α) = m ∧ l.Pairwise fun a b => cl.comparison b a = false := by
  induction n with
  | zero =>
    intro q m h _ hsize
    refine ⟨[], rfl, ?_, List.Pairwise.nil⟩
    rw [← h.holds.elements, hsize, contents_zero]
    rfl
  | succ n ih =>
    intro q m h hm hsize
    obtain ⟨q', hq', hinv⟩ := deleteTop_spec h hm (by omega)
    have htop : q.ith 1 ∈ m := by
      rw [← h.holds.elements]
      exact mem_contents.mpr ⟨1, Nat.le_refl 1, by omega, rfl⟩
    have hcard : q'.size = n := by
      rw [← hinv.card, Multiset.card_erase_of_mem htop, h.card, hsize, Nat.pred_succ]
    obtain ⟨l, hl, hmem, hsorted⟩ := ih hinv (fun hidx => (hm hidx).erase _) hcard
    refine ⟨q.ith 1 :: l, ?_, ?_, List.pairwise_cons.mpr ⟨fun b hb => ?_, hsorted⟩⟩
    · unfold Prq.drain
      rw [hq', Option.bind_some, hl]
      rfl
    · rw [← Multiset.cons_coe, hmem, Multiset.cons_erase htop]
    · have hb : b ∈ m := Multiset.mem_of_mem_erase (hmem ▸ Multiset.mem_coe.mpr hb)
      rw [← h.holds.elements] at hb
      obtain ⟨i, hi, his, rfl⟩ := mem_contents.mp hb
      exact Bool.eq_false_iff.mpr (h.ordered.top i hi his)

/-- After any run, deleting until the queue is empty returns what it holds, best first. -/
theorem drain_sorted (h : Run cl (insertedOnce cl) q m) : ∃ l, q.drain cl q.size = some l ∧
    (l : Multiset α) = m ∧ l.Pairwise fun a b => cl.comparison b a = false :=
  drain_spec q.size h.inv.1 h.inv.2 rfl

end Drain

theorem drain_sorted_two : ∃ l, twoElements.drain natClient 2 = some l ∧
    (l : Multiset Nat) = {3, 7} ∧ l.Pairwise fun a b => natClient.comparison b a = false :=
  drain_sorted
    (Run.insert (Run.insert (Run.init (fun _ => 0) (fun _ => 0) 0 0) (fun _ => by simp) rfl)
      (fun _ => by simp) rfl : Run natClient (insertedOnce natClient) twoElements {3, 7})

end PriorityQueue
