import Path64.Util.IdMap

/-! # Rehashing in place

`Enlarge` marks the entries that will be occupied, as many as there are
pairs; moves the pairs to the others, which a link field with three
encodings keeps in a list; and inserts them again one by one. -/

namespace Idmap

open Option List Function Segments

variable {K V : Type} {hash : K → Nat → Nat} {m m₀ m' : IdMap K V} {f g : K → Option V}
  {M : Finset Int} {U : List Int} {n : Nat}

/-! ## Pairs wherever they are -/

/-- The entries at `S` hold the pairs of `f`. -/
structure Holds (m : IdMap K V) (S : Int → Prop) (f : K → Option V) : Prop where
  keyed : ∀ i, S i → (m.table i).node ≠ m.notFoundValue →
    ∃ k, (m.table i).link = .key k ∧ f k = some (m.table i).node
  found : ∀ k v, f k = some v → v ≠ m.notFoundValue ∧ ∃ i, S i ∧ m.cell i = stored (k, v)
  distinct : ∀ i j, S i → S j → (m.table i).node ≠ m.notFoundValue →
    (m.table j).node ≠ m.notFoundValue → (m.table i).link = (m.table j).link → i = j

theorem Rep.holds [DecidableEq K] {free : List Int} {chain : Int → List Int} {b : Int → List (K × V)}
    (h : Rep hash m [] free chain b f) : Holds m m.InTable f := by
  have hchain : ∀ i, m.InTable i → (m.table i).node ≠ m.notFoundValue → ∃ t, i ∈ chain t := by
    intro i hi hnode
    rcases h.cover i hi with hp | hf | hc
    · cases hp
    · exact absurd (h.freeOk.slots i hf).2 hnode
    · exact hc
  refine ⟨fun i hi hnode => ?_, fun k v hv => ?_, fun i j hi hj hnodei hnodej hlink => ?_⟩
  · obtain ⟨t, ht⟩ := hchain i hi hnode
    obtain ⟨k, node, hcell, -, -, -, hf⟩ := h.used ht
    exact ⟨k, (cell_eq hcell).1, by rw [(cell_eq hcell).2, hf]⟩
  · obtain ⟨i, hi, hcell⟩ := h.chains.exists_slot ((h.buckets.lookup k v).mp hv)
    refine ⟨?_, i, h.chains.inTable _ i hi, hcell⟩
    rw [← (cell_eq hcell).2]
    exact h.node_ne hi
  · obtain ⟨t, ht⟩ := hchain i hi hnodei
    obtain ⟨t', ht'⟩ := hchain j hj hnodej
    exact h.distinct ht ht' hlink

variable {S S' : Int → Prop} {is : List Nat} {saveNumEntries fuel : Nat} {j : Int}

theorem Holds.transport (h : Holds m S f) (φ : Int → Int)
    (hnf : m'.notFoundValue = m.notFoundValue)
    (hback : ∀ i, S' i → (m'.table i).node ≠ m.notFoundValue → S (φ i) ∧ m'.cell i = m.cell (φ i))
    (hforth : ∀ i, S i → (m.table i).node ≠ m.notFoundValue → ∃ j, S' j ∧ m'.cell j = m.cell i)
    (hinj : ∀ i j, S' i → S' j → (m'.table i).node ≠ m.notFoundValue →
      (m'.table j).node ≠ m.notFoundValue → φ i = φ j → i = j) : Holds m' S' f := by
  refine ⟨fun i hi hnode => ?_, fun k v hv => ?_, fun i j hi hj hnodei hnodej hlink => ?_⟩
  · rw [hnf] at hnode
    obtain ⟨hSi, hcell⟩ := hback i hi hnode
    have hlink' : (m'.table i).link = (m.table (φ i)).link := congrArg Prod.fst hcell
    have hnode' : (m'.table i).node = (m.table (φ i)).node := congrArg Prod.snd hcell
    rw [hlink', hnode']
    rw [hnode'] at hnode
    exact h.keyed (φ i) hSi hnode
  · obtain ⟨hv, i, hi, hc⟩ := h.found k v hv
    have hnode : (m.table i).node ≠ m.notFoundValue := by
      rw [(cell_eq hc).2]
      exact hv
    obtain ⟨j, hj, hcell⟩ := hforth i hi hnode
    rw [hnf]
    exact ⟨hv, j, hj, hcell.trans hc⟩
  · rw [hnf] at hnodei hnodej
    obtain ⟨hSi, hcelli⟩ := hback i hi hnodei
    obtain ⟨hSj, hcellj⟩ := hback j hj hnodej
    refine hinj i j hi hj hnodei hnodej (h.distinct _ _ hSi hSj ?_ ?_ ?_)
    · rw [← show (m'.table i).node = (m.table (φ i)).node from congrArg Prod.snd hcelli]
      exact hnodei
    · rw [← show (m'.table j).node = (m.table (φ j)).node from congrArg Prod.snd hcellj]
      exact hnodej
    · rw [← show (m'.table i).link = (m.table (φ i)).link from congrArg Prod.fst hcelli,
        ← show (m'.table j).link = (m.table (φ j)).link from congrArg Prod.fst hcellj]
      exact hlink

theorem Holds.congr (h : Holds m S f) (hnf : m'.notFoundValue = m.notFoundValue)
    (hback : ∀ i, S' i → (m'.table i).node ≠ m.notFoundValue → S i ∧ m'.cell i = m.cell i)
    (hforth : ∀ i, S i → (m.table i).node ≠ m.notFoundValue → S' i ∧ m'.cell i = m.cell i) :
    Holds m' S' f :=
  h.transport id hnf hback (fun i hi hnode => ⟨i, hforth i hi hnode⟩) fun _ _ _ _ _ _ heq => heq

theorem Holds.length_le (h : Holds m S f) {D : Finset K} (hD : ∀ k, f k ≠ none → k ∈ D)
    {l : List Int} (hnd : l.Nodup) (hl : ∀ i ∈ l, S i ∧ (m.table i).node ≠ m.notFoundValue) :
    l.length ≤ D.card := by
  refine used_length_le (m := m) hnd (fun i hi => ?_) fun i hi j hj hlink =>
    h.distinct i j (hl i hi).1 (hl j hj).1 (hl i hi).2 (hl j hj).2 hlink
  obtain ⟨k, hlink, hf⟩ := h.keyed i (hl i hi).1 (hl i hi).2
  exact ⟨k, hD k (by rw [hf]; exact some_ne_none _), hlink⟩

/-! ## Marking -/

theorem clearNew_spec (first n : Nat) (m : IdMap K V) (hn : first + n ≤ m.tableSize) :
    ∃ m', IdMap.clearNew first n m = some m' ∧
      SameBut (fun i => (first : Int) ≤ i ∧ i < first + n) m m' ∧
      ∀ i : Int, first ≤ i → i < first + n → (m'.table i).node = m.notFoundValue ∧ (m'.table i).next = -1 := by
  induction n generalizing m with
  | zero => exact ⟨m, rfl, ⟨rfl, rfl, rfl, rfl, fun i _ => rfl⟩, fun i h0 h1 => by omega⟩
  | succ n ih =>
    have hin : m.InTable ((first + n : Nat) : Int) := ⟨by omega, by omega⟩
    let m1 := m.upd ((first + n : Nat) : Int) ⟨m.notFoundValue, (m.table ((first + n : Nat) : Int)).link, -1⟩
    obtain ⟨m', hm', hsame, hnew⟩ := ih m1 (Nat.le_of_succ_le hn)
    refine ⟨m', ?_, ⟨hsame.notFoundValue, hsame.isAllocated, hsame.tableSize, hsame.numEntries,
      fun i hi => ?_⟩, fun i h0 h1 => ?_⟩
    · unfold IdMap.clearNew
      simp only [bind_eq_bind, IdMap.setNext_eq hin, bind_some,
        IdMap.setNode_eq (IdMap.inTable_upd.mpr hin), IdMap.upd_upd, IdMap.upd_table_self,
        IdMap.upd_notFoundValue]
      exact hm'
    · have hne : i ≠ ((first + n : Nat) : Int) := fun heq => hi (by omega)
      rw [hsame.table i fun hlt => hi (by omega)]
      exact IdMap.upd_table_of_ne hne
    · by_cases hi : i = ((first + n : Nat) : Int)
      · rw [hsame.table i (by omega), hi]
        exact ⟨congrArg HashEntry.node IdMap.upd_table_self, congrArg HashEntry.next IdMap.upd_table_self⟩
      · exact hnew i h0 (by omega)

theorem clearOld_spec (n : Nat) (m : IdMap K V) (hn : n ≤ m.tableSize) :
    ∃ m', IdMap.clearOld n m = some m' ∧ SameBut (fun i => 0 ≤ i ∧ i < (n : Int)) m m' ∧
      ∀ i : Int, 0 ≤ i → i < n → m'.table i = { m.table i with next := -1 } := by
  induction n generalizing m with
  | zero => exact ⟨m, rfl, ⟨rfl, rfl, rfl, rfl, fun i _ => rfl⟩, fun i h0 h1 => by omega⟩
  | succ n ih =>
    have hin : m.InTable n := ⟨by omega, by omega⟩
    obtain ⟨m', hm', hsame, hold⟩ := ih (m.upd n { m.table n with next := -1 }) (Nat.le_of_succ_le hn)
    refine ⟨m', ?_, ⟨hsame.notFoundValue, hsame.isAllocated, hsame.tableSize, hsame.numEntries,
      fun i hi => ?_⟩, fun i h0 h1 => ?_⟩
    · unfold IdMap.clearOld
      rw [IdMap.setNext_eq hin, bind_some]
      exact hm'
    · have hne : i ≠ n := fun heq => hi (by omega)
      rw [hsame.table i fun hlt => hi (by omega)]
      exact IdMap.upd_table_of_ne hne
    · by_cases hi : i = n
      · rw [hsame.table i (by omega), hi]
        exact IdMap.upd_table_self
      · rw [hold i h0 (by omega), IdMap.upd_table_of_ne hi]

/-- The entries of `M` are marked; the rest is as in `m₀`. -/
structure Marks (m₀ : IdMap K V) (M : Finset Int) (m : IdMap K V) : Prop where
  notFoundValue : m.notFoundValue = m₀.notFoundValue
  isAllocated : m.isAllocated = m₀.isAllocated
  tableSize : m.tableSize = m₀.tableSize
  numEntries : m.numEntries = m₀.numEntries
  cell : ∀ i, m.cell i = m₀.cell i
  next : ∀ i, m₀.InTable i → (m.table i).next = if i ∈ M then 0 else -1
  inTable : ∀ i ∈ M, m₀.InTable i

section

variable (h : Marks m₀ M m) {i : Int} (hi : m₀.InTable i)
include h hi

theorem Marks.mark : Marks m₀ (insert i M) (m.upd i { m.table i with next := 0 }) := by
  refine ⟨h.notFoundValue, h.isAllocated, h.tableSize, h.numEntries, fun j => ?_, fun j hj => ?_,
    fun j hj => ?_⟩
  · rw [← h.cell j]
    unfold IdMap.cell
    by_cases hji : j = i
    · subst hji
      rw [IdMap.upd_table_self]
    · rw [IdMap.upd_table_of_ne hji]
  · by_cases hji : j = i
    · subst hji
      rw [IdMap.upd_table_self, if_pos (Finset.mem_insert_self j M)]
    · rw [IdMap.upd_table_of_ne hji, h.next j hj]
      simp [hji]
  · rcases Finset.mem_insert.mp hj with rfl | hj
    · exact hi
    · exact h.inTable j hj

theorem Marks.next_eq_neg : (m.table i).next = -1 ↔ i ∉ M:= by
  rw [h.next i hi]
  by_cases hM : i ∈ M <;> simp [hM]

theorem Marks.mem : m.InTable i := by
  unfold IdMap.InTable
  rw [h.tableSize]
  exact hi

end

/-- The first pass marks the cells that the keys hash to in the doubled table. -/
theorem markHashes_spec [DecidableEq V] (h : Marks m₀ M m)
    (his : ∀ i ∈ is, m₀.InTable i)
    (hkeyed : ∀ i ∈ is, (m₀.table i).node ≠ m₀.notFoundValue → ∃ k, (m₀.table i).link = .key k)
    (hhash : ∀ k, m₀.InTable (hash k m₀.tableSize))
    (hcount : (is.filter fun i : Nat => decide ((m₀.table i).node ≠ m₀.notFoundValue)).length ≤ saveNumEntries) :
    ∃ saveNumEntries' m' M', IdMap.markHashes hash is saveNumEntries m = some (saveNumEntries', m') ∧
      Marks m₀ M' m' ∧ M ⊆ M' ∧ M'.card + saveNumEntries' = M.card + saveNumEntries ∧
      ∀ i ∈ is, (m₀.table i).node ≠ m₀.notFoundValue → ∀ k, (m₀.table i).link = .key k →
        (hash k m₀.tableSize : Int) ∈ M' := by
  induction is generalizing M m saveNumEntries with
  | nil => exact ⟨_, m, M, rfl, h, subset_rfl, rfl, fun i hi => by cases hi⟩
  | cons i is ih =>
    have hi := his i mem_cons_self
    have his' : ∀ j ∈ is, m₀.InTable j := fun j hj => his j (mem_cons_of_mem _ hj)
    have hkeyed' : ∀ j ∈ is, (m₀.table j).node ≠ m₀.notFoundValue → ∃ k, (m₀.table j).link = .key k :=
      fun j hj => hkeyed j (mem_cons_of_mem _ hj)
    have hnode : (m.table i).node = (m₀.table i).node := congrArg Prod.snd (h.cell i)
    have hlink : (m.table i).link = (m₀.table i).link := congrArg Prod.fst (h.cell i)
    unfold IdMap.markHashes
    simp only [bind_eq_bind, IdMap.entry_eq (h.mem hi), bind_some]
    rw [hnode, h.notFoundValue]
    by_cases hused : (m₀.table i).node ≠ m₀.notFoundValue
    · obtain ⟨k, hk⟩ := hkeyed i mem_cons_self hused
      have hkey : (m.table i).key = some k := by
        unfold HashEntry.key
        rw [hlink, hk]
      have hh := hhash k
      rw [filter_cons, if_pos (by simpa using hused), length_cons] at hcount
      rw [if_pos hused, hkey, bind_some, h.tableSize, IdMap.entry_eq (h.mem hh), bind_some]
      have hown : ∀ {M' : Finset Int}, (hash k m₀.tableSize : Int) ∈ M' → ∀ k', (m₀.table i).link = .key k' →
          (hash k' m₀.tableSize : Int) ∈ M' := by
        intro M' hmem k' hk'
        rw [hk, KeyOrPrev.key.injEq] at hk'
        exact hk' ▸ hmem
      -- two keys with one place
      by_cases hM : (hash k m₀.tableSize : Int) ∈ M
      · rw [if_neg fun heq => (h.next_eq_neg hh).mp heq hM]
        obtain ⟨s', m', M', hm', h', hsub, hsum, hall⟩ := ih h his' hkeyed' (Nat.le_of_succ_le hcount)
        refine ⟨s', m', M', hm', h', hsub, hsum, fun j hj hne => ?_⟩
        rcases mem_cons.mp hj with rfl | hj
        · exact hown (hsub hM)
        · exact hall j hj hne
      · obtain ⟨s, rfl⟩ : ∃ s, saveNumEntries = s + 1 := ⟨saveNumEntries - 1, by omega⟩
        rw [if_pos ((h.next_eq_neg hh).mpr hM), isTrue_of (Nat.succ_ne_zero s), bind_some,
          IdMap.setNext_eq (h.mem hh), bind_some, Nat.add_sub_cancel]
        obtain ⟨s', m', M', hm', h', hsub, hsum, hall⟩ := ih (h.mark hh) his' hkeyed'
          (Nat.le_of_succ_le_succ hcount)
        have hsub' : M ⊆ M' := fun j hj => hsub (Finset.mem_insert_of_mem hj)
        rw [Finset.card_insert_of_notMem hM] at hsum
        refine ⟨s', m', M', hm', h', hsub', by omega, fun j hj hne => ?_⟩
        rcases mem_cons.mp hj with rfl | hj
        · exact hown (hsub (Finset.mem_insert_self _ _))
        · exact hall j hj hne
    · -- an empty cell
      rw [if_neg hused]
      rw [filter_cons, if_neg (by simpa using hused)] at hcount
      obtain ⟨s', m', M', hm', h', hsub, hsum, hall⟩ := ih h his' hkeyed' hcount
      refine ⟨s', m', M', hm', h', hsub, hsum, fun j hj hne => ?_⟩
      rcases mem_cons.mp hj with rfl | hj
      · exact absurd hne hused
      · exact hall j hj hne

theorem markCollisions_spec (h : Marks m₀ M m)
    (his : ∀ i ∈ is, m₀.InTable i) (hall : ∀ i, m₀.InTable i → i ∈ M ∨ ∃ j ∈ is, i = Nat.cast j)
    (hsize : M.card + saveNumEntries ≤ m₀.tableSize) :
    ∃ m' M', IdMap.markCollisions is saveNumEntries m = some m' ∧ Marks m₀ M' m' ∧ M ⊆ M' ∧
      M'.card = M.card + saveNumEntries := by
  induction is generalizing M m saveNumEntries with
  | nil =>
    cases saveNumEntries with
    | zero => exact ⟨m, M, by unfold IdMap.markCollisions; rfl, h, subset_rfl, rfl⟩
    | succ s =>
      have hsub : (slots m₀.tableSize).toFinset ⊆ M := by
        intro i hi
        rcases hall i (mem_slots.mp (mem_toFinset.mp hi)) with hM | ⟨j, hj, -⟩
        · exact hM
        · cases hj
      have hle := Finset.card_le_card hsub
      rw [toFinset_card_of_nodup (slots_nodup _), length_slots] at hle
      omega
  | cons i is ih =>
    have hi := his i mem_cons_self
    have his' : ∀ j ∈ is, m₀.InTable j := fun j hj => his j (mem_cons_of_mem _ hj)
    cases saveNumEntries with
    | zero => exact ⟨m, M, by unfold IdMap.markCollisions; rfl, h, subset_rfl, rfl⟩
    | succ s =>
      unfold IdMap.markCollisions
      simp only [bind_eq_bind, IdMap.entry_eq (h.mem hi), bind_some]
      by_cases hM : (i : Int) ∈ M
      · rw [if_neg fun heq => (h.next_eq_neg hi).mp heq hM]
        refine ih h his' (fun j hj => ?_) hsize
        rcases hall j hj with hjM | ⟨j', hj', rfl⟩
        · exact .inl hjM
        · rcases mem_cons.mp hj' with rfl | hj'
          · exact .inl hM
          · exact .inr ⟨j', hj', rfl⟩
      · rw [if_pos ((h.next_eq_neg hi).mpr hM), IdMap.setNext_eq (h.mem hi), bind_some]
        have hcard := Finset.card_insert_of_notMem hM
        have hall' : ∀ j, m₀.InTable j → j ∈ insert (i : Int) M ∨ ∃ j' ∈ is, j = Nat.cast j' := by
          intro j hj
          rcases hall j hj with hjM | ⟨j', hj', rfl⟩
          · exact .inl (Finset.mem_insert_of_mem hjM)
          · rcases mem_cons.mp hj' with rfl | hj'
            · exact .inl (Finset.mem_insert_self _ _)
            · exact .inr ⟨j', hj', rfl⟩
        have hsize' : (insert (i : Int) M).card + s ≤ m₀.tableSize := by omega
        obtain ⟨m', M', hm', h', hsub, hsum⟩ := ih (h.mark hi) his' hall' hsize'
        exact ⟨m', M', hm', h', fun j hj => hsub (Finset.mem_insert_of_mem hj), by omega⟩

/-! ## The unoccupied list -/

theorem findUnoccHead_spec (h : Marks m₀ M m) {i : Nat} (hi : i ≤ m₀.tableSize)
    (hex : ∃ j : Int, 0 ≤ j ∧ j < i ∧ j ∉ M) :
    ∃ j, m.findUnoccHead i = some j ∧ j < i ∧ (j : Int) ∉ M ∧ ∀ k : Int, j < k → k < i → k ∈ M := by
  induction i with
  | zero =>
    obtain ⟨j, h0, h1, -⟩ := hex
    omega
  | succ i ih =>
    have hin : m₀.InTable i := ⟨by omega, by omega⟩
    unfold IdMap.findUnoccHead
    simp only [bind_eq_bind, IdMap.entry_eq (h.mem hin), bind_some]
    by_cases hM : (i : Int) ∈ M
    · rw [if_neg fun heq => (h.next_eq_neg hin).mp heq hM]
      obtain ⟨j, h0, h1, hj⟩ := hex
      have hji : j ≠ i := fun heq => hj (heq ▸ hM)
      have hpos : i > 0 := by omega
      rw [isTrue_of hpos, bind_some]
      obtain ⟨j', hj', hlt, hM', hlast⟩ := ih (by omega) ⟨j, h0, by omega, hj⟩
      refine ⟨j', hj', by omega, hM', fun k hk hk' => ?_⟩
      by_cases hki : k = i
      · rw [hki]
        exact hM
      · exact hlast k hk (by omega)
    · rw [if_pos ((h.next_eq_neg hin).mpr hM)]
      exact ⟨i, rfl, by omega, hM, fun k hk hk' => by omega⟩

/-- The next entry of the unoccupied list. -/
def IdMap.unoccNext (m : IdMap K V) (i : Int) : Int := -(m.table i).next - 2

/-- The entries of `M` are marked, the others form the list `U`. -/
structure Unocc (m₀ : IdMap K V) (M : Finset Int) (U : List Int) (head : Int) (m : IdMap K V) : Prop where
  notFoundValue : m.notFoundValue = m₀.notFoundValue
  isAllocated : m.isAllocated = m₀.isAllocated
  tableSize : m.tableSize = m₀.tableSize
  numEntries : m.numEntries = m₀.numEntries
  cell : ∀ i, m.cell i = m₀.cell i
  marked : ∀ i ∈ M, (m.table i).next = 0
  seg : Seg m.unoccNext head U (-1)
  mem : ∀ i, i ∈ U ↔ m₀.InTable i ∧ i ∉ M

/-- The cells not marked are linked into a list of their own. -/
theorem linkUnocc_spec {i : Nat} {head : Int} {L : List Int} (hi : i ≤ m₀.tableSize)
    (hnf : m.notFoundValue = m₀.notFoundValue)
    (halloc : m.isAllocated = m₀.isAllocated) (hsize : m.tableSize = m₀.tableSize)
    (hnum : m.numEntries = m₀.numEntries) (hcell : ∀ i, m.cell i = m₀.cell i)
    (hmarked : ∀ j ∈ M, (m.table j).next = 0)
    (hrest : ∀ j : Int, 0 ≤ j → j < i → j ∉ M → (m.table j).next = -1)
    (hseg : Seg m.unoccNext head L (-1)) (hL : ∀ j, j ∈ L ↔ m₀.InTable j ∧ (i : Int) ≤ j ∧ j ∉ M) :
    ∃ head' m' U, IdMap.linkUnocc i head m = some (head', m') ∧ Unocc m₀ M U head' m' := by
  induction i generalizing m head L with
  | zero =>
    refine ⟨head, m, L, rfl, hnf, halloc, hsize, hnum, hcell, hmarked, hseg, fun j => (hL j).trans ?_⟩
    constructor
    · exact fun hj => ⟨hj.1, hj.2.2⟩
    · exact fun hj => ⟨hj.1, by exact_mod_cast hj.1.1, hj.2⟩
  | succ i ih =>
    have hin : m.InTable i := ⟨by omega, by omega⟩
    unfold IdMap.linkUnocc
    simp only [bind_eq_bind, IdMap.entry_eq hin, bind_some]
    -- a marked cell is passed over
    by_cases hiM : (i : Int) ∈ M
    · rw [hmarked i hiM, if_neg (by decide)]
      refine ih (by omega) hnf halloc hsize hnum hcell hmarked (fun j h0 h1 hj => hrest j h0 (by omega) hj)
        hseg fun j => (hL j).trans ?_
      have hne : j ∉ M → j ≠ i := fun hj heq => hj (heq ▸ hiM)
      constructor
      · rintro ⟨hj, hlt, hjM⟩
        exact ⟨hj, by omega, hjM⟩
      · rintro ⟨hj, hlt, hjM⟩
        have := hne hjM
        exact ⟨hj, by omega, hjM⟩
    · rw [hrest i (by omega) (by omega) hiM, if_pos rfl, IdMap.setNext_eq hin, bind_some]
      have hneL : ∀ j ∈ L, j ≠ i := by
        rintro j hj rfl
        have := ((hL _).mp hj).2.1
        omega
      refine ih (by omega) (L := i :: L) hnf halloc hsize hnum (fun j => ?_) (fun j hj => ?_)
        (fun j h0 h1 hj => ?_) ⟨rfl, ?_⟩ fun j => ?_
      · rw [← hcell j]
        unfold IdMap.cell
        by_cases hji : j = i
        · rw [hji, IdMap.upd_table_self]
        · rw [IdMap.upd_table_of_ne hji]
      · have hji : j ≠ i := fun heq => hiM (heq ▸ hj)
        rw [IdMap.upd_table_of_ne hji]
        exact hmarked j hj
      · rw [IdMap.upd_table_of_ne (by omega)]
        exact hrest j h0 (by omega) hj
      · have hnext : (m.upd i { m.table i with next := -head - 2 }).unoccNext i = head := by
          unfold IdMap.unoccNext
          rw [IdMap.upd_table_self]
          simp only
          omega
        rw [hnext]
        refine hseg.congr fun j hj => ?_
        unfold IdMap.unoccNext
        rw [IdMap.upd_table_of_ne (hneL j hj)]
      · rw [mem_cons, hL]
        constructor
        · rintro (rfl | ⟨hj, hlt, hjM⟩)
          · exact ⟨⟨by omega, by omega⟩, by omega, hiM⟩
          · exact ⟨hj, by omega, hjM⟩
        · rintro ⟨hj, hlt, hjM⟩
          by_cases hji : j = i
          · exact .inl hji
          · exact .inr ⟨hj, by omega, hjM⟩

theorem skipOccupied_spec [DecidableEq V] {L : List Int} {u : Int}
    (hseg : Seg m.unoccNext u L (-1)) (hL : ∀ i ∈ L, m.InTable i)
    (hex : ∃ i ∈ L, (m.table i).node = m.notFoundValue) (hfuel : L.length ≤ fuel) :
    ∃ L1 u' L2, L = L1 ++ u' :: L2 ∧ m.skipOccupied fuel u = some u' ∧
      (m.table u').node = m.notFoundValue ∧ ∀ i ∈ L1, (m.table i).node ≠ m.notFoundValue := by
  induction L generalizing u fuel with
  | nil =>
    obtain ⟨i, hi, -⟩ := hex
    cases hi
  | cons a L ih =>
    obtain ⟨rfl, hseg⟩ := hseg
    have hin := hL u mem_cons_self
    cases fuel with
    | zero => cases hfuel
    | succ fuel =>
      unfold IdMap.skipOccupied
      simp only [bind_eq_bind, IdMap.entry_eq hin, bind_some]
      by_cases hused : (m.table u).node = m.notFoundValue
      · rw [if_neg (not_not.mpr hused)]
        exact ⟨[], u, L, rfl, rfl, hused, fun i hi => by cases hi⟩
      · rw [if_pos hused]
        have hex' : ∃ i ∈ L, (m.table i).node = m.notFoundValue := by
          obtain ⟨i, hi, hnode⟩ := hex
          rcases mem_cons.mp hi with rfl | hi
          · exact absurd hnode hused
          · exact ⟨i, hi, hnode⟩
        obtain ⟨L1, u', L2, rfl, hskip, hnode, hall⟩ := ih hseg
          (fun i hi => hL i (mem_cons_of_mem _ hi)) hex' (Nat.le_of_succ_le_succ hfuel)
        refine ⟨u :: L1, u', L2, rfl, hskip, hnode, fun i hi => ?_⟩
        rcases mem_cons.mp hi with rfl | hi
        · exact hused
        · exact hall i hi

/-! ## Moving the pairs -/

/-- In `moveNodes` entries below `i` are to be moved, and those from `k` on are free. -/
structure Moving (m₀ : IdMap K V) (f : K → Option V) (M : Finset Int) (U : List Int) (head : Int)
    (i k : Nat) (unocc : Int) (free : List Int) (m : IdMap K V) : Prop where
  notFoundValue : m.notFoundValue = m₀.notFoundValue
  isAllocated : m.isAllocated = m₀.isAllocated
  tableSize : m.tableSize = m₀.tableSize
  numEntries : m.numEntries = m₀.numEntries
  marked : ∀ j ∈ M, j < k → (m.table j).next = 0
  seg : Seg m.unoccNext head U (-1)
  freeOk : FreeOk m free
  free : ∀ j, j ∈ free ↔ j ∈ M ∧ (k : Int) ≤ j
  holds : Holds m (fun j => j ∈ U ∨ j ∈ M ∧ j < i) f
  next : ∃ U₁ U₂, U = U₁ ++ unocc :: U₂ ∧ (m.table unocc).node = m.notFoundValue ∧
    ∀ j ∈ U₁, (m.table j).node ≠ m.notFoundValue

variable {head unocc : Int} {free : List Int} {i k : Nat}

theorem Moving.inTable (h : Moving m₀ f M U head i k unocc free m) (hj : m₀.InTable j) :
    m.InTable j := by
  unfold IdMap.InTable
  rw [h.tableSize]
  exact hj

theorem Moving.skip (h : Moving m₀ f M U head (i + 1) (i + 1) unocc free m) (hi : (i : Int) ∉ M) :
    Moving m₀ f M U head i i unocc free m := by
  have hlt : ∀ j ∈ M, (j < (i + 1 : Nat) ↔ j < i) := by
    intro j hj
    have hne : j ≠ i := fun heq => hi (heq ▸ hj)
    omega
  refine ⟨h.notFoundValue, h.isAllocated, h.tableSize, h.numEntries, fun j hj hji => ?_, h.seg,
    h.freeOk, fun j => ?_, ?_, h.next⟩
  · exact h.marked j hj ((hlt j hj).mpr hji)
  · rw [h.free]
    constructor
    · exact fun hj => ⟨hj.1, by omega⟩
    · rintro ⟨hj, hle⟩
      have := hlt j hj
      exact ⟨hj, by omega⟩
  · refine h.holds.congr rfl (fun j hj _ => ⟨?_, rfl⟩) fun j hj _ => ⟨?_, rfl⟩
    · exact hj.imp_right fun hj => ⟨hj.1, (hlt j hj.1).mpr hj.2⟩
    · exact hj.imp_right fun hj => ⟨hj.1, (hlt j hj.1).mp hj.2⟩

theorem Moving.drop (h : Moving m₀ f M U head (i + 1) k unocc free m)
    (hnode : (m.table i).node = m.notFoundValue) : Moving m₀ f M U head i k unocc free m := by
  refine ⟨h.notFoundValue, h.isAllocated, h.tableSize, h.numEntries, h.marked, h.seg, h.freeOk, h.free,
    ?_, h.next⟩
  refine h.holds.congr rfl (fun j hj _ => ⟨?_, rfl⟩) fun j hj hused => ⟨?_, rfl⟩
  · exact hj.imp_right fun hj => ⟨hj.1, by omega⟩
  · refine hj.imp_right fun hj => ⟨hj.1, ?_⟩
    have hne : j ≠ i := fun heq => hused (heq ▸ hnode)
    omega

theorem Moving.add (h : Moving m₀ f M U head i (i + 1) unocc free m) (hi : (i : Int) ∈ M)
    (hin : m₀.InTable i) (hU : ∀ j ∈ U, j ∉ M) :
    ∃ m', m.addToFreeList i = some m' ∧ Moving m₀ f M U head i i unocc (i :: free) m' := by
  have hnew : (i : Int) ∉ free := fun hmem => by
    have := ((h.free i).mp hmem).2
    omega
  obtain ⟨m', hm', hfree, hsame⟩ := h.freeOk.addToFreeList (h.inTable hin) hnew
  have hkeepU : ∀ j ∈ U, m'.table j = m.table j := by
    intro j hj
    refine hsame.table j ?_
    rintro (rfl | hmem)
    · exact hU _ hj hi
    · exact hU j hj ((h.free j).mp hmem).1
  have hkeepM : ∀ j ∈ M, j < i → m'.table j = m.table j := by
    intro j hj hji
    refine hsame.table j ?_
    rintro (rfl | hmem)
    · exact Int.lt_irrefl _ hji
    · have := ((h.free j).mp hmem).2
      omega
  have hcell : ∀ j, (j ∈ U ∨ j ∈ M ∧ j < i) → m'.cell j = m.cell j := by
    rintro j (hj | ⟨hj, hji⟩) <;> unfold IdMap.cell
    · rw [hkeepU j hj]
    · rw [hkeepM j hj hji]
  refine ⟨m', hm', hsame.notFoundValue.trans h.notFoundValue, hsame.isAllocated.trans h.isAllocated,
    hsame.tableSize.trans h.tableSize, hsame.numEntries.trans h.numEntries, fun j hj hji => ?_, ?_, hfree,
    fun j => ?_, ?_, ?_⟩
  · rw [hkeepM j hj hji]
    exact h.marked j hj (by omega)
  · refine h.seg.congr fun j hj => ?_
    unfold IdMap.unoccNext
    rw [hkeepU j hj]
  · rw [mem_cons, h.free]
    constructor
    · rintro (rfl | ⟨hj, hle⟩)
      · exact ⟨hi, le_refl _⟩
      · exact ⟨hj, by omega⟩
    · rintro ⟨hj, hle⟩
      by_cases heq : j = i
      · exact .inl heq
      · exact .inr ⟨hj, by omega⟩
  · exact h.holds.congr hsame.notFoundValue (fun j hj _ => ⟨hj, hcell j hj⟩) fun j hj _ => ⟨hj, hcell j hj⟩
  · obtain ⟨U1, U2, rfl, hunocc, hall⟩ := h.next
    refine ⟨U1, U2, rfl, ?_, fun j hj => ?_⟩
    · rw [hkeepU unocc (by simp), hsame.notFoundValue]
      exact hunocc
    · rw [hkeepU j (by simp [hj]), hsame.notFoundValue]
      exact hall j hj

/-- The map when the pair at `i` has been copied to `unocc`. -/
def copyPair (m : IdMap K V) (unocc i : Int) : IdMap K V :=
  m.upd unocc { m.table unocc with node := (m.table i).node, link := (m.table i).link }

/-- An entry that stands on a marked cell is moved to one that is not. -/
theorem Moving.move [DecidableEq V] (h : Moving m₀ f M U head (i + 1) (i + 1) unocc free m)
    (hi : (i : Int) ∈ M) (hU : ∀ j ∈ U, m₀.InTable j ∧ j ∉ M)
    (hnode : (m.table i).node ≠ m.notFoundValue) {D : Finset K} (hD : ∀ k, f k ≠ none → k ∈ D)
    (hroom : D.card < U.length) :
    ∃ unocc', (copyPair m unocc i).skipOccupied m.tableSize (m.unoccNext unocc) = some unocc' ∧
      Moving m₀ f M U head i (i + 1) unocc' free (copyPair m unocc i) := by
  obtain ⟨U1, U2, hUeq, hunocc, hall⟩ := h.next
  have hmem : unocc ∈ U := by simp [hUeq]
  have htable : ∀ j, j ≠ unocc → (copyPair m unocc i).table j = m.table j := fun j hj =>
    IdMap.upd_table_of_ne hj
  have hself : (copyPair m unocc i).cell unocc = m.cell i := by
    simp [copyPair, IdMap.cell]
  have hcell : ∀ j, j ≠ unocc → (copyPair m unocc i).cell j = m.cell j := by
    intro j hj
    unfold IdMap.cell
    rw [htable j hj]
  have hnext : ∀ j, (copyPair m unocc i).unoccNext j = m.unoccNext j := by
    intro j
    unfold IdMap.unoccNext
    by_cases hj : j = unocc
    · subst hj
      simp [copyPair]
    · rw [htable j hj]
  have hseg : Seg (copyPair m unocc i).unoccNext head U (-1) := h.seg.congr fun j _ => hnext j
  have hneM : ∀ j ∈ M, j ≠ unocc := fun j hj heq => (hU unocc hmem).2 (heq ▸ hj)
  have hholds : Holds (copyPair m unocc i) (fun j => j ∈ U ∨ j ∈ M ∧ j < i) f := by
    refine h.holds.transport (fun j => if j = unocc then i else j) rfl (fun j hj _ => ?_)
      (fun j hj hused => ?_) fun a b ha hb _ _ heq => ?_
    · by_cases hju : j = unocc
      · rw [if_pos hju, hju]
        exact ⟨.inr ⟨hi, by omega⟩, hself⟩
      · rw [if_neg hju]
        exact ⟨hj.imp_right fun hj => ⟨hj.1, by omega⟩, hcell j hju⟩
    · by_cases hji : j = i
      · exact ⟨unocc, .inl hmem, by rw [hji]; exact hself⟩
      · have hju : j ≠ unocc := fun heq => hused (heq ▸ hunocc)
        exact ⟨j, hj.imp_right fun hj => ⟨hj.1, by omega⟩, hcell j hju⟩
    · have hnot : ∀ j : Int, (j ∈ U ∨ j ∈ M ∧ j < i) → j ≠ i := by
        rintro j (hj | hj) rfl
        · exact (hU _ hj).2 hi
        · exact Int.lt_irrefl _ hj.2
      by_cases hau : a = unocc <;> by_cases hbu : b = unocc
      · rw [hau, hbu]
      · rw [if_pos hau, if_neg hbu] at heq
        exact absurd heq.symm (hnot b hb)
      · rw [if_neg hau, if_pos hbu] at heq
        exact absurd heq (hnot a ha)
      · rwa [if_neg hau, if_neg hbu] at heq
  have hinU : ∀ j ∈ U, (copyPair m unocc i).InTable j := fun j hj => h.inTable (hU j hj).1
  have hnd : U.Nodup := h.seg.nodup fun hmem => (hinU _ hmem).ne rfl
  have hused1 : ∀ j ∈ U1 ++ [unocc], ((copyPair m unocc i).table j).node ≠ (copyPair m unocc i).notFoundValue := by
    intro j hj
    by_cases hju : j = unocc
    · have hn : ((copyPair m unocc i).table unocc).node = (m.table i).node := congrArg Prod.snd hself
      rw [hju, hn]
      exact hnode
    · rw [htable j hju]
      refine hall j ?_
      rcases mem_append.mp hj with hj | hj
      · exact hj
      · exact absurd (mem_singleton.mp hj) hju
  have hsplit := hUeq ▸ hseg
  obtain ⟨-, hseg2⟩ := seg_split.mp hsplit
  -- otherwise all the unoccupied entries would hold pairs
  have hex : ∃ j ∈ U2, ((copyPair m unocc i).table j).node = (copyPair m unocc i).notFoundValue := by
    by_contra hno
    have hle := hholds.length_le hD hnd fun j hj => ⟨.inl hj, ?_⟩
    · omega
    · rw [hUeq] at hj
      rcases mem_append.mp hj with hj | hj
      · exact hused1 j (mem_append_left _ hj)
      · rcases mem_cons.mp hj with rfl | hj
        · exact hused1 j (by simp)
        · exact fun hn => hno ⟨j, hj, hn⟩
  have hlen := IdMap.length_le_tableSize hnd hinU
  obtain ⟨L1, u', L2, rfl, hskip, hnode', hall'⟩ := skipOccupied_spec hseg2
    (fun j hj => hinU j (by simp [hUeq, hj])) hex (show U2.length ≤ m.tableSize by
      rw [hUeq, length_append, length_cons] at hlen
      exact le_trans (by omega) hlen)
  refine ⟨u', by rw [← hnext]; exact hskip, h.notFoundValue, h.isAllocated, h.tableSize, h.numEntries,
    fun j hj hji => ?_, hseg, ?_, h.free, hholds, U1 ++ unocc :: L1, L2, by simp [hUeq], hnode',
    fun j hj => ?_⟩
  · rw [htable j (hneM j hj)]
    exact h.marked j hj hji
  · refine h.freeOk.congr (S := (· = unocc)) ⟨rfl, rfl, rfl, rfl, fun j hj => htable j hj⟩ rfl fun j hj => ?_
    exact hneM j ((h.free j).mp hj).1
  · rcases mem_append.mp hj with hj | hj
    · exact hused1 j (mem_append_left _ hj)
    · rcases mem_cons.mp hj with rfl | hj
      · exact hused1 j (by simp)
      · exact hall' j hj

theorem Moving.next_ne (h : Moving m₀ f M U head i k unocc free m) (hU : ∀ j ∈ U, m₀.InTable j)
    (hj : j ∈ U) : (m.table j).next ≠ 0 := by
  have hnext : -1 ≤ m.unoccNext j := by
    rcases h.seg.next_mem hj with hmem | hstop
    · have := (hU _ hmem).1
      omega
    · exact hstop.ge
  unfold IdMap.unoccNext at hnext
  omega

theorem moveNodes_spec [DecidableEq V] (h : Moving m₀ f M U head i i unocc free m)
    (hi : i ≤ m₀.tableSize) (hU : ∀ j, j ∈ U ↔ m₀.InTable j ∧ j ∉ M) {D : Finset K}
    (hD : ∀ k, f k ≠ none → k ∈ D) (hroom : D.card < U.length) :
    ∃ m' unocc' free', m.moveNodes i unocc = some m' ∧ Moving m₀ f M U head 0 0 unocc' free' m' := by
  induction i generalizing m unocc free with
  | zero => exact ⟨m, unocc, free, rfl, h⟩
  | succ i ih =>
    have hin : m₀.InTable i := ⟨by omega, by omega⟩
    unfold IdMap.moveNodes
    simp only [bind_eq_bind, IdMap.entry_eq (h.inTable hin), bind_some]
    by_cases hM : (i : Int) ∈ M
    · rw [if_pos (h.marked i hM (by omega))]
      have hUM : ∀ j ∈ U, j ∉ M := fun j hj => ((hU j).mp hj).2
      by_cases hnode : (m.table i).node = m.notFoundValue
      · rw [if_neg (not_not.mpr hnode)]
        obtain ⟨m1, hm1, h1⟩ := (h.drop hnode).add hM hin hUM
        rw [hm1, bind_some]
        exact ih h1 (by omega)
      · rw [if_pos hnode]
        obtain ⟨unocc', hskip, h1⟩ := h.move hM (fun j hj => (hU j).mp hj) hnode hD hroom
        obtain ⟨m2, hm2, h2⟩ := h1.add hM hin hUM
        obtain ⟨U1, U2, hUeq, hunocc, -⟩ := h.next
        have hunin : m.InTable unocc := h.inTable ((hU unocc).mp (by simp [hUeq])).1
        have hin' : (m.upd unocc { m.table unocc with node := (m.table i).node }).InTable unocc := hunin
        rw [isTrue_of hunin.ne, bind_some, IdMap.entry_eq hunin, bind_some,
          isTrue_of hunocc, bind_some, IdMap.setNode_eq hunin, bind_some,
          IdMap.setLink_eq hin', bind_some, IdMap.upd_upd]
        simp only [IdMap.upd_table_self]
        rw [show m.upd unocc ⟨(m.table i).node, (m.table i).link, (m.table unocc).next⟩ =
          copyPair m unocc i from rfl, show (copyPair m unocc i).tableSize = m.tableSize from rfl,
          show -(m.table unocc).next - 2 = m.unoccNext unocc from rfl, hskip, bind_some, hm2,
          bind_some]
        exact ih h2 (by omega)
    · rw [if_neg (h.next_ne (fun j hj => ((hU j).mp hj).1) ((hU i).mpr ⟨hin, hM⟩))]
      exact ih (h.skip hM) (by omega)

/-! ## Inserting the pairs again -/

section Reinsert

variable [DecidableEq K] [DecidableEq V] {free : List Int} {chain : Int → List Int}
  {b : Int → List (K × V)} {L : List Int} {i : Int}

/-- In `reinsert` the chains hold `g`, and the entries of `L` the rest of `f`. -/
structure Reinserting (hash : K → Nat → Nat) (f g : K → Option V) (L : List Int) (i : Int)
    (m : IdMap K V) : Prop where
  seg : Seg m.unoccNext i L (-1)
  keyed : ∀ j ∈ L, (m.table j).node ≠ m.notFoundValue → ∃ k, (m.table j).link = .key k ∧ g k = none
  split : ∀ k v, f k = some v ↔
    g k = some v ∨ v ≠ m.notFoundValue ∧ ∃ j ∈ L, m.cell j = stored (k, v)
  distinct : ∀ j ∈ L, ∀ j' ∈ L, (m.table j).node ≠ m.notFoundValue →
    (m.table j').node ≠ m.notFoundValue → (m.table j).link = (m.table j').link → j = j'

omit [DecidableEq K] [DecidableEq V] in
theorem Reinserting.pass (h : Reinserting hash f g (i :: L) i m) (hnode : (m.table i).node = m.notFoundValue)
    (hnf : m'.notFoundValue = m.notFoundValue) (htable : ∀ j ∈ L, m'.table j = m.table j) :
    Reinserting hash f g L (m.unoccNext i) m' := by
  have hcell : ∀ j ∈ L, m'.cell j = m.cell j := by
    intro j hj
    unfold IdMap.cell
    rw [htable j hj]
  refine ⟨?_, fun j hj hused => ?_, fun k v => (h.split k v).trans ?_, fun j hj j' hj' => ?_⟩
  · refine h.seg.2.congr fun j hj => ?_
    unfold IdMap.unoccNext
    rw [htable j hj]
  · rw [htable j hj] at hused ⊢
    rw [hnf] at hused
    exact h.keyed j (mem_cons_of_mem _ hj) hused
  · rw [hnf]
    refine or_congr_right (and_congr_right fun hv => ?_)
    constructor
    · rintro ⟨j, hj, hc⟩
      rcases mem_cons.mp hj with rfl | hj
      · exact absurd ((cell_eq hc).2.symm.trans hnode) hv
      · exact ⟨j, hj, (hcell j hj).trans hc⟩
    · rintro ⟨j, hj, hc⟩
      exact ⟨j, mem_cons_of_mem _ hj, (hcell j hj).symm.trans hc⟩
  · rw [htable j hj, htable j' hj', hnf]
    exact h.distinct j (mem_cons_of_mem _ hj) j' (mem_cons_of_mem _ hj')

omit [DecidableEq V] in
theorem Reinserting.insert {key : K} {node : V} (h : Reinserting hash f g (i :: L) i m)
    (hnd : (i :: L).Nodup) (hcell : m.cell i = stored (key, node)) (hnode : node ≠ m.notFoundValue)
    (hnf : m'.notFoundValue = m.notFoundValue) (htable : ∀ j ∈ L, m'.table j = m.table j) :
    Reinserting hash f (update g key (some node)) L (m.unoccNext i) m' := by
  obtain ⟨hlinki, hnodei⟩ := cell_eq hcell
  have hused : (m.table i).node ≠ m.notFoundValue := by
    rw [hnodei]
    exact hnode
  have hg : g key = none := by
    obtain ⟨k, hk, hnone⟩ := h.keyed i mem_cons_self hused
    rw [hlinki, KeyOrPrev.key.injEq] at hk
    rw [hk]
    exact hnone
  have hcellL : ∀ j ∈ L, m'.cell j = m.cell j := by
    intro j hj
    unfold IdMap.cell
    rw [htable j hj]
  -- no other entry has the key
  have hother : ∀ j ∈ L, (m.table j).node ≠ m.notFoundValue → (m.table j).link ≠ .key key := by
    intro j hj husedj hlink
    have heq := h.distinct j (mem_cons_of_mem _ hj) i mem_cons_self husedj hused
      (hlink.trans hlinki.symm)
    exact (nodup_cons.mp hnd).1 (heq ▸ hj)
  refine ⟨?_, fun j hj husedj => ?_, fun k v => (h.split k v).trans ?_, fun j hj j' hj' => ?_⟩
  · refine h.seg.2.congr fun j hj => ?_
    unfold IdMap.unoccNext
    rw [htable j hj]
  · rw [htable j hj] at husedj ⊢
    rw [hnf] at husedj
    obtain ⟨k, hk, hnone⟩ := h.keyed j (mem_cons_of_mem _ hj) husedj
    have hkne : k ≠ key := fun heq => hother j hj husedj (heq ▸ hk)
    exact ⟨k, hk, by rw [update_of_ne hkne]; exact hnone⟩
  · rw [hnf]
    by_cases hk : k = key
    · subst hk
      rw [update_self, hg]
      constructor
      · rintro (hv | ⟨hv, j, hj, hc⟩)
        · cases hv
        · rcases mem_cons.mp hj with rfl | hj
          · exact .inl (congrArg some (hnodei.symm.trans (cell_eq hc).2))
          · exact absurd (cell_eq hc).1 (hother j hj (by rw [(cell_eq hc).2]; exact hv))
      · rintro (hv | ⟨hv, j, hj, hc⟩)
        · rw [some.inj hv] at hnode hcell
          exact .inr ⟨hnode, i, mem_cons_self, hcell⟩
        · exact .inr ⟨hv, j, mem_cons_of_mem _ hj, (hcellL j hj).symm.trans hc⟩
    · rw [update_of_ne hk]
      refine or_congr_right (and_congr_right fun hv => ?_)
      constructor
      · rintro ⟨j, hj, hc⟩
        rcases mem_cons.mp hj with rfl | hj
        · have heq := hlinki.symm.trans (cell_eq hc).1
          rw [KeyOrPrev.key.injEq] at heq
          exact absurd heq.symm hk
        · exact ⟨j, hj, (hcellL j hj).trans hc⟩
      · rintro ⟨j, hj, hc⟩
        exact ⟨j, mem_cons_of_mem _ hj, (hcellL j hj).symm.trans hc⟩
  · rw [htable j hj, htable j' hj', hnf]
    exact h.distinct j (mem_cons_of_mem _ hj) j' (mem_cons_of_mem _ hj')

/-- The last pass inserts the moved entries again, each at the place its key hashes to in the
doubled table. -/
theorem reinsert_spec {bits : K → Int} {insert : K → V → IdMap K V → Option (IdMap K V)}
    (hinsert : ∀ key node (m : IdMap K V), m.numEntries = 0 → minTableSize ≤ m.tableSize →
      insert key node m = m.place hash bits key node)
    (hhash : ∀ k s, 0 < s → hash k s < s) (hrep : Rep hash m L free chain b g)
    (h : Reinserting hash f g L i m) (hsize : minTableSize ≤ m.tableSize) {D : Finset K}
    (hD : ∀ k, f k ≠ none → k ∈ D) (hcount : L.length + D.card ≤ m.tableSize)
    (hhome : ∀ k, f k ≠ none → (hash k m.tableSize : Int) ∉ L) (hfuel : L.length < fuel) :
    ∃ m' free' chain' b', IdMap.reinsert insert fuel i m = some m' ∧ Rep hash m' [] free' chain' b' f ∧
      m'.tableSize = m.tableSize ∧ m'.isAllocated = m.isAllocated ∧
      m'.notFoundValue = m.notFoundValue := by
  induction L generalizing m g free chain b i fuel with
  | nil =>
    -- all have been inserted
    obtain rfl : i = -1 := h.seg
    have hfg : f = g := by
      funext k
      refine ext fun v => (h.split k v).trans ?_
      simp
    cases fuel with
    | zero => cases hfuel
    | succ fuel =>
      unfold IdMap.reinsert
      rw [if_pos rfl]
      exact ⟨m, free, chain, b, rfl, hfg ▸ hrep, rfl, rfl, rfl⟩
  | cons a L ih =>
    obtain rfl : i = a := h.seg.1
    -- the entry goes to the free list, then its pair is inserted again
    have hin := hrep.pendingIn i mem_cons_self
    have hnd : (i :: L).Nodup := h.seg.nodup fun hmem => (hrep.pendingIn _ hmem).ne rfl
    have hiL := (nodup_cons.mp hnd).1
    cases fuel with
    | zero => cases hfuel
    | succ fuel =>
      have hrest : ∀ j, j ∈ L ↔ j ∈ i :: L ∧ j ≠ i := by
        intro j
        rw [mem_cons]
        constructor
        · exact fun hj => ⟨.inr hj, fun heq => hiL (heq ▸ hj)⟩
        · exact fun hj => hj.1.resolve_left hj.2
      obtain ⟨m1, hm1, hrep1, hsame⟩ := hrep.addToFreeList mem_cons_self hrest
      have htable1 : ∀ j ∈ L, m1.table j = m.table j := by
        intro j hj
        refine hsame.table j ?_
        rintro (rfl | hmem)
        · exact hiL hj
        · exact (hrep.apart j (mem_cons_of_mem _ hj)).1 hmem
      unfold IdMap.reinsert
      simp only [if_neg hin.ne, bind_eq_bind, IdMap.entry_eq hin, bind_some, hm1]
      by_cases hnode : (m.table i).node = m.notFoundValue
      · rw [if_neg (by rw [hsame.notFoundValue]; exact not_not.mpr hnode)]
        obtain ⟨m', free', chain', b', hm', hrep', hts, hal, hnf⟩ := ih hrep1
          (h.pass hnode hsame.notFoundValue htable1) (by rw [hsame.tableSize]; exact hsize)
          (by rw [hsame.tableSize]; rw [length_cons] at hcount; omega)
          (by rw [hsame.tableSize]; exact fun k hk hmem => hhome k hk (mem_cons_of_mem _ hmem))
          (Nat.lt_of_succ_lt_succ hfuel)
        exact ⟨m', free', chain', b', hm', hrep', hts.trans hsame.tableSize, hal.trans hsame.isAllocated,
          hnf.trans hsame.notFoundValue⟩
      · obtain ⟨key, hlink, hg⟩ := h.keyed i mem_cons_self hnode
        have hcell : m.cell i = stored (key, (m.table i).node) := Prod.ext hlink rfl
        have hkey : (m.table i).key = some key := by
          unfold HashEntry.key
          rw [hlink]
        have hf : f key = some (m.table i).node :=
          (h.split key _).mpr (.inr ⟨hnode, i, mem_cons_self, hcell⟩)
        have hfne : f key ≠ none := by
          rw [hf]
          exact some_ne_none _
        have hts1 := hsame.tableSize
        -- the slot that has just become free is not the only one
        have hroom := hrep1.room (D := D.erase key) fun k hk => by
          refine Finset.mem_erase.mpr ⟨fun heq => hk (heq ▸ hg), hD k ?_⟩
          obtain ⟨v, hv⟩ := ne_none_iff_exists'.mp hk
          rw [(h.split k v).mpr (.inl hv)]
          exact some_ne_none v
        have hcard := Finset.card_erase_add_one (hD key hfne)
        rw [length_cons] at hcount
        have hpos : 0 < m.tableSize := Nat.lt_of_lt_of_le (by decide) hsize
        have hin1 : ({ m1 with numEntries := 0 } : IdMap K V).InTable (hash key m1.tableSize) := by
          refine ⟨Int.natCast_nonneg _, ?_⟩
          simp only [hts1]
          exact_mod_cast hhash key m.tableSize hpos
        have hnew : (hash key m1.tableSize : Int) ∉ L := by
          rw [hts1]
          exact fun hmem => hhome key hfne (mem_cons_of_mem _ hmem)
        have hnode1 : (m.table i).node ≠ m1.notFoundValue := by
          rw [hsame.notFoundValue]
          exact hnode
        have htwo : 2 ≤ (i :: free).length := by omega
        obtain ⟨m2, free2, chain2, b2, hm2, hrep2, -, -, hkept⟩ :=
          (hrep1.withNumEntries 0).place hin1 hnew hg hnode1 htwo bits
        rw [if_pos (by rw [hsame.notFoundValue]; exact hnode), hkey, bind_some, hinsert key _ _ rfl (by simp only [hts1]; exact hsize), hm2,
          bind_some]
        have hts2 : m2.tableSize = m.tableSize := hkept.tableSize.trans hts1
        have hnf2 : m2.notFoundValue = m.notFoundValue := hkept.notFoundValue.trans hsame.notFoundValue
        have htable2 : ∀ j ∈ L, m2.table j = m.table j := fun j hj =>
          (hkept.table j hj).trans (htable1 j hj)
        obtain ⟨m', free', chain', b', hm', hrep', hts, hal, hnf⟩ := ih hrep2
          (h.insert hnd hcell hnode hnf2 htable2) (by rw [hts2]; exact hsize) (by rw [hts2]; omega)
          (by rw [hts2]; exact fun k hk hmem => hhome k hk (mem_cons_of_mem _ hmem))
          (Nat.lt_of_succ_lt_succ hfuel)
        exact ⟨m', free', chain', b', hm', hrep', hts.trans hts2,
          hal.trans (hkept.isAllocated.trans hsame.isAllocated), hnf.trans hnf2⟩

end Reinsert

/-! ## `Enlarge` -/

section Enlarge

variable [DecidableEq K] [DecidableEq V] {D : Finset K} {free : List Int} {chain : Int → List Int}
  {b : Int → List (K × V)}

/-- The table after the links have been cleared. -/
structure Cleared (m : IdMap K V) (f : K → Option V) (m₀ : IdMap K V) : Prop where
  notFoundValue : m₀.notFoundValue = m.notFoundValue
  isAllocated : m₀.isAllocated = m.isAllocated
  tableSize : m₀.tableSize = 2 * m.tableSize
  numEntries : m₀.numEntries = m.numEntries
  marks : Marks m₀ ∅ m₀
  holds : Holds m₀ m₀.InTable f
  used : ∀ i, m₀.InTable i → (m₀.table i).node ≠ m₀.notFoundValue → i < m.tableSize

omit [DecidableEq V] in
theorem cleared_spec (hrep : Rep hash m [] free chain b f) :
    ∃ m1 m₀, IdMap.clearNew m.tableSize m.tableSize { m with tableSize := 2 * m.tableSize } = some m1 ∧
      IdMap.clearOld m.tableSize m1 = some m₀ ∧ Cleared m f m₀ := by
  obtain ⟨m1, hm1, hsame1, hnew⟩ := clearNew_spec m.tableSize m.tableSize
    { m with tableSize := 2 * m.tableSize } (by simp only; omega)
  have hts1 : m1.tableSize = 2 * m.tableSize := hsame1.tableSize
  obtain ⟨m₀, hm0, hsame0, hold⟩ := clearOld_spec m.tableSize m1 (by omega)
  have hts0 : m₀.tableSize = 2 * m.tableSize := hsame0.tableSize.trans hts1
  have hnf : m₀.notFoundValue = m.notFoundValue := hsame0.notFoundValue.trans hsame1.notFoundValue
  have hlow : ∀ i : Int, 0 ≤ i → i < m.tableSize → m₀.table i = { m.table i with next := -1 } := by
    intro i h0 h1
    rw [hold i h0 h1, hsame1.table i (by omega)]
  have hhigh : ∀ i : Int, m.tableSize ≤ i → i < 2 * m.tableSize →
      (m₀.table i).node = m.notFoundValue ∧ (m₀.table i).next = -1 := by
    intro i h0 h1
    rw [hsame0.table i (by omega)]
    exact hnew i h0 (by omega)
  have hused : ∀ i, m₀.InTable i → (m₀.table i).node ≠ m₀.notFoundValue → i < m.tableSize := by
    intro i hi hne
    by_contra hge
    have h1 := hi.2
    rw [hts0] at h1
    exact hne (by rw [(hhigh i (by omega) (by omega)).1, hnf])
  refine ⟨m1, m₀, hm1, hm0, hnf, hsame0.isAllocated.trans hsame1.isAllocated, hts0,
    hsame0.numEntries.trans hsame1.numEntries, ⟨rfl, rfl, rfl, rfl, fun _ => rfl, fun i hi => ?_,
    fun i hi => by simp at hi⟩, ?_, hused⟩
  · obtain ⟨h0, h1⟩ := hi
    rw [hts0] at h1
    simp only [Finset.notMem_empty, if_false]
    by_cases hlt : i < m.tableSize
    · rw [hlow i h0 hlt]
    · exact (hhigh i (by omega) (by omega)).2
  · have hcell : ∀ i : Int, 0 ≤ i → i < m.tableSize → m₀.cell i = m.cell i := by
      intro i h0 h1
      unfold IdMap.cell
      rw [hlow i h0 h1]
    refine hrep.holds.congr hnf (fun i hi hne => ?_) fun i hi _ => ?_
    · have hlt := hused i hi (by rw [hnf]; exact hne)
      exact ⟨⟨hi.1, hlt⟩, hcell i hi.1 hlt⟩
    · refine ⟨⟨hi.1, ?_⟩, hcell i hi.1 hi.2⟩
      have := hi.2
      rw [hts0]
      omega

omit [DecidableEq K] in
theorem marked_spec (h : Cleared m f m₀) (hhash : ∀ k s, 0 < s → hash k s < s)
    (hsize : minTableSize ≤ m.tableSize) (hD : ∀ k, f k ≠ none → k ∈ D) (hnum : D.card ≤ m.numEntries)
    (hcap : m.numEntries ≤ capacity m.tableSize) :
    ∃ saveNumEntries m1 m2 M, IdMap.markHashes hash (range m.tableSize) m₀.numEntries m₀ =
        some (saveNumEntries, m1) ∧
      IdMap.markCollisions (range m1.tableSize) saveNumEntries m1 = some m2 ∧ Marks m₀ M m2 ∧
      M.card = m.numEntries ∧ ∀ k, f k ≠ none → (hash k m₀.tableSize : Int) ∈ M := by
  have hts := h.tableSize
  have hpos : 0 < m₀.tableSize := by
    unfold minTableSize at hsize
    omega
  have hin : ∀ i ∈ range m.tableSize, m₀.InTable (i : Int) := by
    intro i hi
    have := mem_range.mp hi
    exact ⟨by omega, by omega⟩
  have hcount : ((range m.tableSize).filter
      fun i : Nat => decide ((m₀.table i).node ≠ m₀.notFoundValue)).length ≤ m₀.numEntries := by
    have hle := h.holds.length_le hD (l := ((range m.tableSize).filter
      fun i : Nat => decide ((m₀.table i).node ≠ m₀.notFoundValue)).map Nat.cast)
      ((nodup_range.filter _).map fun _ _ heq => Int.ofNat.inj heq) fun i hi => by
        obtain ⟨j, hj, rfl⟩ := mem_map.mp hi
        obtain ⟨hj, hused⟩ := mem_filter.mp hj
        exact ⟨hin j hj, by simpa using hused⟩
    rw [length_map] at hle
    rw [h.numEntries]
    exact hle.trans hnum
  obtain ⟨s, m1, M1, hm1, hmarks1, -, hsum1, hall1⟩ := markHashes_spec h.marks hin
    (fun i hi hne => by
      obtain ⟨k, hk, -⟩ := h.holds.keyed i (hin i hi) hne
      exact ⟨k, hk⟩)
    (fun k => ⟨Int.natCast_nonneg _, by exact_mod_cast hhash k _ hpos⟩) hcount
  rw [Finset.card_empty, Nat.zero_add, h.numEntries] at hsum1
  have hts1 := hmarks1.tableSize
  obtain ⟨m2, M, hm2, hmarks, hsub, hcard⟩ := markCollisions_spec hmarks1
    (fun i (hi : i ∈ range m1.tableSize) => by
      have := mem_range.mp hi
      exact ⟨by omega, by omega⟩)
    (fun i hi => .inr ⟨i.toNat, mem_range.mpr (by have := hi.1; have := hi.2; omega), by
      have := hi.1
      omega⟩)
    (by
      rw [hsum1, hts]
      unfold capacity at hcap
      omega)
  refine ⟨s, m1, m2, M, hm1, hm2, hmarks, hcard.trans hsum1, fun k hk => ?_⟩
  obtain ⟨v, hv⟩ := ne_none_iff_exists'.mp hk
  obtain ⟨hvne, i, hi, hcell⟩ := h.holds.found k v hv
  have hused : (m₀.table i).node ≠ m₀.notFoundValue := by
    rw [(cell_eq hcell).2]
    exact hvne
  have hlt := h.used i hi hused
  obtain ⟨j, rfl⟩ := Int.eq_ofNat_of_zero_le hi.1
  exact hsub (hall1 j (mem_range.mpr (by exact_mod_cast hlt)) hused k (cell_eq hcell).1)

omit [DecidableEq K] [DecidableEq V] in
theorem unocc_spec {m2 : IdMap K V} (h : Marks m₀ M m2) (hcard : M.card < m₀.tableSize) :
    ∃ i head m3 U, m2.findUnoccHead m2.tableSize = some i ∧
      IdMap.linkUnocc i i m2 = some (head, m3) ∧ Unocc m₀ M U head m3 ∧
      U.length + M.card = m₀.tableSize ∧ U.Nodup := by
  have hts := h.tableSize
  have hex : ∃ j : Int, 0 ≤ j ∧ j < m₀.tableSize ∧ j ∉ M := by
    by_contra hno
    have hsub : (slots m₀.tableSize).toFinset ⊆ M := by
      intro j hj
      obtain ⟨h0, h1⟩ := mem_slots.mp (mem_toFinset.mp hj)
      by_contra hjM
      exact hno ⟨j, h0, h1, hjM⟩
    have hle := Finset.card_le_card hsub
    rw [toFinset_card_of_nodup (slots_nodup _), length_slots] at hle
    omega
  obtain ⟨i, hi, hlt, hiM, hlast⟩ := findUnoccHead_spec h (le_of_eq hts) (by rw [hts]; exact hex)
  rw [hts] at hlt hlast
  have hin : m₀.InTable (i : Int) := ⟨by omega, by omega⟩
  obtain ⟨head, m3, U, hm3, hU⟩ := linkUnocc_spec (L := [(i : Int)]) (i := i) (by omega)
    h.notFoundValue h.isAllocated h.tableSize h.numEntries h.cell
    (fun j hj => by rw [h.next j (h.inTable j hj), if_pos hj])
    (fun j h0 h1 hj => by rw [h.next j ⟨h0, by omega⟩, if_neg hj])
    ⟨rfl, by
      unfold IdMap.unoccNext
      rw [h.next i hin, if_neg hiM]
      rfl⟩
    (fun j => by
      rw [mem_singleton]
      constructor
      · rintro rfl
        exact ⟨hin, le_refl _, hiM⟩
      · rintro ⟨hj, hle, hjM⟩
        by_contra hne
        exact hjM (hlast j (by omega) hj.2))
  have hnd : U.Nodup := hU.seg.nodup fun hmem => (((hU.mem _).mp hmem).1.ne) rfl
  refine ⟨i, head, m3, U, hi, hm3, hU, ?_, hnd⟩
  have hset : U.toFinset = (slots m₀.tableSize).toFinset \ M := by
    ext j
    rw [List.mem_toFinset, hU.mem, Finset.mem_sdiff, List.mem_toFinset, mem_slots]
    rfl
  have hsub : M ⊆ (slots m₀.tableSize).toFinset := fun j hj =>
    mem_toFinset.mpr (mem_slots.mpr (h.inTable j hj))
  rw [← toFinset_card_of_nodup hnd, hset, Finset.card_sdiff_add_card_eq_card hsub,
    toFinset_card_of_nodup (slots_nodup _), length_slots]

omit [DecidableEq K] in
theorem moved_spec {m3 : IdMap K V} {U : List Int} {head : Int} (h : Unocc m₀ M U head m3)
    (hM : ∀ j ∈ M, m₀.InTable j) (hholds : Holds m₀ m₀.InTable f) (hnd : U.Nodup)
    (hD : ∀ k, f k ≠ none → k ∈ D) (hroom : D.card < U.length) :
    ∃ unocc m4 unocc' free', m3.skipOccupied m3.tableSize head = some unocc ∧
      IdMap.moveNodes m3.tableSize unocc { m3 with freeList := -1 } = some m4 ∧
      Moving m₀ f M U head 0 0 unocc' free' m4 := by
  have hinU : ∀ j ∈ U, m3.InTable j := by
    intro j hj
    unfold IdMap.InTable
    rw [h.tableSize]
    exact ((h.mem j).mp hj).1
  have hholds3 : Holds m3 (fun j => j ∈ U ∨ j ∈ M ∧ j < m3.tableSize) f := by
    refine hholds.congr h.notFoundValue (fun j hj _ => ⟨?_, h.cell j⟩) fun j hj _ => ⟨?_, h.cell j⟩
    · rcases hj with hj | hj
      · exact ((h.mem j).mp hj).1
      · exact hM j hj.1
    · by_cases hjM : j ∈ M
      · exact .inr ⟨hjM, by rw [h.tableSize]; exact hj.2⟩
      · exact .inl ((h.mem j).mpr ⟨hj, hjM⟩)
  have hex : ∃ j ∈ U, (m3.table j).node = m3.notFoundValue := by
    by_contra hno
    have hle := hholds3.length_le hD hnd fun j hj => ⟨.inl hj, fun hn => hno ⟨j, hj, hn⟩⟩
    omega
  obtain ⟨U1, unocc, U2, hUeq, hskip, hnode, hall⟩ := skipOccupied_spec h.seg hinU hex
    (IdMap.length_le_tableSize hnd hinU)
  have hmoving : Moving m₀ f M U head m3.tableSize m3.tableSize unocc [] { m3 with freeList := -1 } := by
    refine ⟨h.notFoundValue, h.isAllocated, h.tableSize, h.numEntries, fun j hj _ => h.marked j hj, h.seg,
      ⟨rfl, isChain_nil, fun j hj => by cases hj⟩, fun j => ?_, ?_, U1, U2, hUeq, hnode, hall⟩
    · refine iff_of_false not_mem_nil ?_
      rintro ⟨hj, hle⟩
      have hlt := (hM j hj).2
      rw [h.tableSize] at hle
      omega
    · exact ⟨hholds3.keyed, hholds3.found, hholds3.distinct⟩
  obtain ⟨m4, unocc', free', hm4, h4⟩ := moveNodes_spec hmoving (le_of_eq h.tableSize) h.mem hD hroom
  exact ⟨unocc, m4, unocc', free', hskip, hm4, h4⟩

omit [DecidableEq V] in
theorem Moving.start (hash : K → Nat → Nat) {head unocc : Int} {U : List Int} (h : Moving m₀ f M U head 0 0 unocc free m)
    (hU : ∀ j, j ∈ U ↔ m₀.InTable j ∧ j ∉ M) (hM : ∀ j ∈ M, m₀.InTable j) :
    Rep hash m U free (fun _ => []) (fun _ => []) (fun _ => none) ∧
      Reinserting hash f (fun _ => none) U head m := by
  have hin : ∀ j, m.InTable j ↔ m₀.InTable j := fun j => by
    unfold IdMap.InTable
    rw [h.tableSize]
  have hS : ∀ j, (j ∈ U ∨ j ∈ M ∧ j < (0 : Nat)) ↔ j ∈ U := by
    intro j
    refine ⟨fun hj => hj.resolve_right fun hj => ?_, .inl⟩
    have := (hM j hj.1).1
    have := hj.2
    omega
  refine ⟨⟨h.freeOk, ⟨fun t i hi => (by cases hi), fun t ht => absurd rfl ht, fun t => rfl⟩,
    ⟨fun t p hp => (by cases hp), fun t p hp => (by cases hp), fun t => nodup_nil,
      fun k v => ⟨fun hv => (by cases hv), fun hv => (by cases hv)⟩⟩, fun i hi => ?_, fun i hi => ?_,
    fun i hi => (hin i).mpr ((hU i).mp hi).1⟩, h.seg, fun j hj hne => ?_, fun k v => ?_,
    fun j hj j' hj' => h.holds.distinct j j' (.inl hj) (.inl hj')⟩
  · by_cases hiM : i ∈ M
    · exact .inr (.inl ((h.free i).mpr ⟨hiM, hi.1⟩))
    · exact .inl ((hU i).mpr ⟨(hin i).mp hi, hiM⟩)
  · exact ⟨fun hmem => ((hU i).mp hi).2 ((h.free i).mp hmem).1, fun t => not_mem_nil⟩
  · obtain ⟨k, hk, -⟩ := h.holds.keyed j (.inl hj) hne
    exact ⟨k, hk, rfl⟩
  · constructor
    · intro hv
      obtain ⟨hvne, j, hj, hc⟩ := h.holds.found k v hv
      exact .inr ⟨hvne, j, (hS j).mp hj, hc⟩
    · rintro (hv | ⟨hvne, j, hj, hc⟩)
      · cases hv
      · obtain ⟨hlink, hnode⟩ := cell_eq hc
        obtain ⟨k', hk', hf⟩ := h.holds.keyed j (.inl hj) (by rw [hnode]; exact hvne)
        rw [hlink, KeyOrPrev.key.injEq] at hk'
        rw [hk', hf, hnode]

/-- The doubled table holds the same pairs. -/
theorem Rep.enlarge (hrep : Rep hash m [] free chain b f) {bits : K → Int}
    {insert : K → V → IdMap K V → Option (IdMap K V)}
    (hinsert : ∀ key node (m : IdMap K V), m.numEntries = 0 → minTableSize ≤ m.tableSize →
      insert key node m = m.place hash bits key node)
    (hhash : ∀ k s, 0 < s → hash k s < s) (hsize : minTableSize ≤ m.tableSize)
    (hD : ∀ k, f k ≠ none → k ∈ D) (hnum : D.card ≤ m.numEntries)
    (hcap : m.numEntries ≤ capacity m.tableSize) :
    ∃ m' free' chain' b', m.enlarge hash insert = some m' ∧ Rep hash m' [] free' chain' b' f ∧
      m'.tableSize = 2 * m.tableSize ∧ m'.isAllocated = m.isAllocated ∧
      m'.notFoundValue = m.notFoundValue ∧ m'.numEntries = m.numEntries := by
  obtain ⟨m1, m₀, hm1, hm0, hcleared⟩ := cleared_spec hrep
  have hts0 := hcleared.tableSize
  have hmin : 16 ≤ m.tableSize := hsize
  have hcap' : 4 * m.numEntries ≤ 3 * m.tableSize := by
    unfold capacity at hcap
    omega
  obtain ⟨s, m2, m3, M, hm2, hm3, hmarks, hcard, hhome⟩ := marked_spec hcleared hhash hsize hD hnum hcap
  have hM := hmarks.inTable
  obtain ⟨i, head, m4, U, hi, hm4, hU, hlen, hnd⟩ := unocc_spec hmarks (by omega)
  obtain ⟨unocc, m5, unocc', free', hskip, hm5, hmoving⟩ :=
    moved_spec hU hM hcleared.holds hnd hD (by omega)
  obtain ⟨hrep5, hreins⟩ := hmoving.start hash hU.mem hM
  have hts5 := hmoving.tableSize
  have hmin5 : minTableSize ≤ m5.tableSize := by
    unfold minTableSize
    omega
  have hhome5 : ∀ k, f k ≠ none → (hash k m5.tableSize : Int) ∉ U := by
    intro k hk hmem
    rw [hts5] at hmem
    exact ((hU.mem _).mp hmem).2 (hhome k hk)
  have hcount : U.length + D.card ≤ m5.tableSize := by omega
  obtain ⟨m6, free6, chain6, b6, hm6, hrep6, hts6, hal6, hnf6⟩ := reinsert_spec hinsert hhash hrep5 hreins
    hmin5 hD hcount hhome5 (show U.length < m5.tableSize + 1 by omega)
  have hnum5 : m5.numEntries = m.numEntries := hmoving.numEntries.trans hcleared.numEntries
  refine ⟨{ m6 with numEntries := m5.numEntries }, free6, chain6, b6, ?_, hrep6.withNumEntries _,
    (hts6.trans hts5).trans hts0, (hal6.trans hmoving.isAllocated).trans hcleared.isAllocated,
    (hnf6.trans hmoving.notFoundValue).trans hcleared.notFoundValue, hnum5⟩
  unfold IdMap.enlarge
  simp only [bind_eq_bind, hm1, bind_some, hm0, hm2, hm3, hi, hm4, hskip, hm5, hm6]

end Enlarge

/-! ## Runs -/

section Runs

variable [DecidableEq K] [DecidableEq V] {bits : K → Int} {nf : V}

/-- The map holds the entries of `f`; `numEntries` counts at least these. -/
structure MapOk (hash : K → Nat → Nat) (nf : V) (m : IdMap K V) (f : K → Option V) : Prop where
  notFoundValue : m.notFoundValue = nf
  isAllocated : m.isAllocated = true
  size : minTableSize ≤ m.tableSize
  rep : ∃ free chain b, Rep hash m [] free chain b f
  entries : ∃ D : Finset K, (∀ k, f k ≠ none → k ∈ D) ∧ D.card ≤ m.numEntries
  room : m.numEntries ≤ capacity m.tableSize

omit [DecidableEq V] in
theorem MapOk.init (hash : K → Nat → Nat) (capacity' : Option Nat) (hnf : m.notFoundValue = nf)
    (hsize : m.isAllocated = true → minTableSize ≤ m.tableSize)
    (hnum : m.numEntries = 0 ∨ m.isAllocated = true ∧ m.numEntries ≤ capacity m.tableSize) :
    ∃ m', m.init capacity' = some m' ∧ MapOk hash nf m' fun _ => none := by
  obtain ⟨m', hm', hrep, halloc, hmin, hnf', hnum', hgrow⟩ := init_spec hash capacity' m hsize
  refine ⟨m', hm', hnf'.trans hnf, halloc, hmin, ⟨_, _, _, hrep⟩,
    ⟨∅, fun k hk => absurd rfl hk, Nat.zero_le _⟩, ?_⟩
  rw [hnum']
  rcases hnum with h0 | ⟨ha, hle⟩
  · rw [h0]
    exact Nat.zero_le _
  · have hts := hgrow ha
    unfold capacity at hle ⊢
    omega

omit [DecidableEq V] in
theorem MapOk.two_le {free : List Int} {chain : Int → List Int} {b : Int → List (K × V)}
    (hrep : Rep hash m [] free chain b f) (hsize : minTableSize ≤ m.tableSize) {D : Finset K}
    (hD : ∀ k, f k ≠ none → k ∈ D) (hcard : D.card ≤ m.numEntries)
    (hroom : m.numEntries ≤ capacity m.tableSize) : 2 ≤ free.length := by
  have hle := hrep.room hD
  rw [length_nil] at hle
  unfold capacity at hroom
  unfold minTableSize at hsize
  omega

theorem MapOk.place {key : K} {node : V} (h : MapOk hash nf m f) (hhash : ∀ k s, 0 < s → hash k s < s)
    (hroom : m.numEntries + 1 ≤ capacity m.tableSize) (hkey : f key = none) (hnode : node ≠ nf)
    (bits : K → Int) :
    ∃ m', m.place hash bits key node = some m' ∧ MapOk hash nf m' (update f key (some node)) := by
  obtain ⟨free, chain, b, hrep⟩ := h.rep
  obtain ⟨D, hD, hcard⟩ := h.entries
  have hpos : 0 < m.tableSize := Nat.lt_of_lt_of_le (by decide) h.size
  have hin : m.InTable (hash key m.tableSize) :=
    ⟨Int.natCast_nonneg _, by exact_mod_cast hhash key m.tableSize hpos⟩
  obtain ⟨m', free', chain', b', hm', hrep', -, hnum, hkept⟩ := hrep.place hin not_mem_nil hkey
    (by rw [h.notFoundValue]; exact hnode) (MapOk.two_le hrep h.size hD hcard h.room) bits
  refine ⟨m', hm', hkept.notFoundValue.trans h.notFoundValue, hkept.isAllocated.trans h.isAllocated,
    by rw [hkept.tableSize]; exact h.size, ⟨free', chain', b', hrep'⟩, ⟨insert key D, fun k hk => ?_, ?_⟩,
    by rw [hnum, hkept.tableSize]; exact hroom⟩
  · by_cases hk' : k = key
    · rw [hk']
      exact Finset.mem_insert_self _ _
    · rw [update_of_ne hk'] at hk
      exact Finset.mem_insert_of_mem (hD k hk)
  · rw [hnum]
    exact (Finset.card_insert_le _ _).trans (Nat.succ_le_succ hcard)

omit [DecidableEq K] in
theorem insert_eq_place (bits : K → Int) (depth : Nat) (key : K) (node : V) (m : IdMap K V)
    (hnum : m.numEntries = 0) (hsize : minTableSize ≤ m.tableSize) :
    m.insert hash bits (depth + 1) key node = m.place hash bits key node := by
  have hle : ¬ m.numEntries + 1 > capacity m.tableSize := by
    unfold capacity
    unfold minTableSize at hsize
    omega
  unfold IdMap.insert
  rw [if_neg hle]
  rfl

theorem MapOk.insert {key : K} {node : V} (h : MapOk hash nf m f) (hhash : ∀ k s, 0 < s → hash k s < s)
    (hkey : f key = none) (hnode : node ≠ nf) (bits : K → Int) :
    ∃ m', m.insert hash bits 2 key node = some m' ∧ MapOk hash nf m' (update f key (some node)):= by
  unfold IdMap.insert
  simp only [bind_eq_bind]
  by_cases hfull : m.numEntries + 1 > capacity m.tableSize
  · obtain ⟨free, chain, b, hrep⟩ := h.rep
    obtain ⟨D, hD, hcard⟩ := h.entries
    obtain ⟨m1, free1, chain1, b1, hm1, hrep1, hts, hal, hnf, hnum⟩ :=
      hrep.enlarge (insert_eq_place bits 0) hhash h.size hD hcard h.room
    have hsize := h.size
    have hroom := h.room
    have hroom1 : m1.numEntries + 1 ≤ capacity m1.tableSize := by
      rw [hnum, hts]
      unfold capacity at hroom ⊢
      unfold minTableSize at hsize
      omega
    have h1 : MapOk hash nf m1 f := ⟨hnf.trans h.notFoundValue, hal.trans h.isAllocated, by omega,
      ⟨free1, chain1, b1, hrep1⟩, ⟨D, hD, by rw [hnum]; exact hcard⟩, Nat.le_of_succ_le hroom1⟩
    rw [if_pos hfull, hm1, bind_some, isTrue_of (Nat.le_of_succ_le hroom1), bind_some,
      bind_some]
    exact h1.place hhash hroom1 hkey hnode bits
  · rw [if_neg hfull, bind_some]
    exact h.place hhash (Nat.le_of_not_gt hfull) hkey hnode bits

theorem MapOk.delete {key : K} (h : MapOk hash nf m f) (hkey : f key ≠ none) :
    ∃ m', m.delete hash key = some m' ∧ MapOk hash nf m' (update f key none) := by
  obtain ⟨free, chain, b, hrep⟩ := h.rep
  obtain ⟨D, hD, hcard⟩ := h.entries
  obtain ⟨m', idx, chain', b', hm', hrep', hnum, hkept⟩ := hrep.delete hkey
  refine ⟨m', hm', hkept.notFoundValue.trans h.notFoundValue, hkept.isAllocated.trans h.isAllocated,
    by rw [hkept.tableSize]; exact h.size, ⟨_, chain', b', hrep'⟩, ⟨D.erase key, fun k hk => ?_, ?_⟩, ?_⟩
  · have hk' : k ≠ key := by
      rintro rfl
      rw [update_self] at hk
      exact hk rfl
    rw [update_of_ne hk'] at hk
    exact Finset.mem_erase.mpr ⟨hk', hD k hk⟩
  · rw [hnum, Finset.card_erase_of_mem (hD key hkey)]
    exact Nat.sub_le_sub_right hcard 1
  · rw [hnum, hkept.tableSize]
    exact (Nat.sub_le _ _).trans h.room

theorem Run.ok (hhash : ∀ k s, 0 < s → hash k s < s) (h : Run hash bits nf m f) : MapOk hash nf m f := by
  induction h with
  | init initCapacity memory freeList capacity' hinit =>
    obtain ⟨m', hm', hok⟩ := MapOk.init hash
      (m := IdMap.construct initCapacity nf memory freeList) capacity' rfl (fun h => by cases h)
      (.inl rfl)
    rw [hinit] at hm'
    obtain rfl := some.inj hm'
    exact hok
  | initAgain capacity' _ hinit ih =>
    obtain ⟨m', hm', hok⟩ := MapOk.init hash capacity' ih.notFoundValue (fun _ => ih.size)
      (.inr ⟨ih.isAllocated, ih.room⟩)
    rw [hinit] at hm'
    obtain rfl := some.inj hm'
    exact hok
  | insert _ hkey hnode hinsert ih =>
    obtain ⟨m', hm', hok⟩ := ih.insert hhash hkey hnode bits
    rw [hinsert] at hm'
    obtain rfl := some.inj hm'
    exact hok
  | delete _ hkey hdelete ih =>
    obtain ⟨m', hm', hok⟩ := ih.delete hkey
    rw [hdelete] at hm'
    obtain rfl := some.inj hm'
    exact hok

/-- In every run the operations return, `Lookup` finds what was inserted last, and the free list has
the slots that are not in use. -/
theorem run_refines (hash : K → Nat → Nat) (hhash : ∀ k s, 0 < s → hash k s < s) (bits : K → Int) (nf : V) :
    (∀ (initCapacity : Nat) (memory : Int → HashEntry K V) (freeList : Int) (capacity : Option Nat), ∃ m,
      (IdMap.construct initCapacity nf memory freeList).init capacity = some m) ∧
    ∀ m f, Run hash bits nf m f → (∀ key, m.lookup hash key = some ((f key).getD nf)) ∧
      (∀ capacity, ∃ m', m.init capacity = some m') ∧
      (∀ key node, f key = none → node ≠ nf → ∃ m', m.insert hash bits 2 key node = some m') ∧
      (∀ key, f key ≠ none → ∃ m', m.delete hash key = some m') ∧
      (∃ free, Seg (fun i => (m.table i).next) m.freeList free (-1) ∧ free.Nodup ∧
        ∀ i, i ∈ free ↔ m.InTable i ∧ (m.table i).node = nf) ∧ m.freeList ≠ -1:= by
  refine ⟨fun initCapacity memory freeList capacity' => ?_, fun m f hrun => ?_⟩
  · obtain ⟨m, hm, -⟩ := MapOk.init hash
      (m := IdMap.construct initCapacity nf memory freeList) capacity' rfl (fun h => by cases h)
      (.inl rfl)
    exact ⟨m, hm⟩
  have hok := hrun.ok hhash
  obtain ⟨free, chain, b, hrep⟩ := hok.rep
  obtain ⟨D, hD, hcard⟩ := hok.entries
  have hpos : 0 < m.tableSize := Nat.lt_of_lt_of_le (by decide) hok.size
  refine ⟨fun key => ?_, fun capacity' => ?_, fun key node hkey hnode => ?_, fun key hkey => ?_,
    ⟨free, hrep.freeOk.seg, hrep.freeOk.nodup, fun i => ?_⟩, ?_⟩
  · rw [← hok.notFoundValue]
    exact hrep.lookup key ⟨Int.natCast_nonneg _, by exact_mod_cast hhash key m.tableSize hpos⟩
  · obtain ⟨m', hm', -⟩ := MapOk.init hash capacity' hok.notFoundValue (fun _ => hok.size)
      (.inr ⟨hok.isAllocated, hok.room⟩)
    exact ⟨m', hm'⟩
  · obtain ⟨m', hm', -⟩ := hok.insert hhash hkey hnode bits
    exact ⟨m', hm'⟩
  · obtain ⟨m', hm', -⟩ := hok.delete hkey
    exact ⟨m', hm'⟩
  · rw [← hok.notFoundValue]
    refine ⟨hrep.freeOk.slots i, fun hi => ?_⟩
    rcases hrep.cover i hi.1 with hmem | hmem | ⟨t, hmem⟩
    · cases hmem
    · exact hmem
    · exact absurd hi.2 (hrep.node_ne hmem)
  · have htwo := MapOk.two_le hrep hok.size hD hcard hok.room
    intro heq
    cases free with
    | nil => exact absurd htwo (by decide)
    | cons a l => exact (hrep.freeOk.slots a mem_cons_self).1.ne (hrep.freeOk.seg.1.symm.trans heq)

theorem run_refines_two : ∃ m, Run (fun _ _ => 0) (fun _ : Bool => 0) 0 m
        (update (update (update (fun _ => none) false (some 7)) true (some 8)) true none) ∧
      m.lookup (fun _ _ => 0) false = some 7 := by
  have hhash : ∀ (k : Bool) (s : Nat), 0 < s → (fun _ _ => 0 : Bool → Nat → Nat) k s < s := fun _ _ h => h
  have hall := run_refines (fun _ _ => 0) hhash (fun _ : Bool => 0) 0
  obtain ⟨m₀, hm0⟩ := hall.1 4 (fun _ => ⟨0, .prev 0, 0⟩) 0 none
  have h0 : Run (fun _ _ => 0) (fun _ : Bool => 0) 0 m₀ fun _ => none := .init 4 _ 0 none hm0
  obtain ⟨m1, hm1⟩ := (hall.2 _ _ h0).2.2.1 false 7 rfl (by decide)
  have h1 := h0.insert rfl (by decide) hm1
  obtain ⟨m2, hm2⟩ := (hall.2 _ _ h1).2.2.1 true 8 rfl (by decide)
  have h2 := h1.insert rfl (by decide) hm2
  obtain ⟨m3, hm3⟩ := (hall.2 _ _ h2).2.2.2.1 true (by decide)
  have h3 := h2.delete (by decide) hm3
  exact ⟨m3, h3, (hall.2 _ _ h3).1 false⟩

end Runs

end Idmap
