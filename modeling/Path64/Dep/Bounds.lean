import Path64.Dep.Compute

/-! # Which variables and bounds of a dependence problem are used

The equations of two references and the bounds of their loops are in work
arrays. `Find_Init_Distance_Used` marks variables as used,
`Bounds_Set_Is_Used` goes on from there and marks the bounds that are
worth keeping, and `Copy_To_Soe` copies the used columns of all
equations and of those bounds. -/

namespace Dep

open List Function LinearRow

/-! ## The work arrays -/

/-- The work arrays of `DEPV_COMPUTE`, `eq x = eqConst` and `le x <= leConst`, and the columns. -/
structure WorkArrays where
  eqRows : Nat
  leRows : Nat
  workCols : Nat
  eq : Nat → Nat → Int
  le : Nat → Nat → Int
  eqConst : Nat → Int
  leConst : Nat → Int
  dvDim : Nat
  firstDv1 : Nat
  firstDv2 : Nat
  firstSymbol : Nat
  dv1_le : firstDv1 + dvDim ≤ firstDv2
  dv2_le : firstDv2 + dvDim ≤ firstSymbol
  symbol_le : firstSymbol ≤ workCols

/-- The point `x` satisfies all equations and all bounds. -/
structure WorkArrays.Solves (w : WorkArrays) (x : Nat → Int) : Prop where
  eq : ∀ i < w.eqRows, dot w.workCols (w.eq i) x = w.eqConst i
  le : ∀ i < w.leRows, dot w.workCols (w.le i) x ≤ w.leConst i

variable {u isUsed : Nat → Bool} {j : Nat} {x : Nat → Int}

namespace WorkArrays

variable (w : WorkArrays)

/-- The first column that is no distance vector variable of the first reference any more. -/
def firstNonCom1 : Nat := w.firstDv1 + w.dvDim
def firstNonCom2 : Nat := w.firstDv2 + w.dvDim

/-- A variable is marked as used, a distance vector variable with its conjugate. -/
def markUsed (j : Nat) (isUsed : Nat → Bool) : Nat → Bool :=
  let isUsed := update isUsed j true
  if w.firstDv1 ≤ j ∧ j < w.firstNonCom1 then
    update isUsed (w.firstDv2 + j - w.firstDv1) true
  else if w.firstDv2 ≤ j ∧ j < w.firstNonCom2 then
    update isUsed (w.firstDv1 + j - w.firstDv2) true
  else isUsed

/-- The variables of a row are marked. -/
def markRow (row : Nat → Int) (isUsed : Nat → Bool) : Nat → Bool :=
  (range w.workCols).foldl
    (fun isUsed j => if row j ≠ 0 then w.markUsed j isUsed else isUsed) isUsed

/-- The marks of `Find_Init_Distance_Used`: the variables of the equations, and those in `_work_le`
at the call. -/
def initUsed : Nat → Bool :=
  let isUsed := (range w.eqRows).foldl (fun isUsed i => w.markRow (w.eq i) isUsed)
    fun _ => false
  (range w.leRows).foldl (fun isUsed i => w.markRow (w.le i) isUsed) isUsed

/-- The columns of the symbols. -/
def symbols : List Nat := range' w.firstSymbol (w.workCols - w.firstSymbol)

/-- A symbol that bounds from above and from below is used. -/
def symbolsUsed (isUsed : Nat → Bool) : Nat → Bool :=
  w.symbols.foldl (fun isUsed j =>
    if !isUsed j then
      let seenNeg := (range w.leRows).any fun i => decide (w.le i j < 0)
      let seenPos := (range w.leRows).any fun i => decide (w.le i j > 0)
      if seenPos && seenNeg then update isUsed j true else isUsed
    else isUsed) isUsed

def usesZappedSymbol (isUsed : Nat → Bool) (i : Nat) : Bool :=
  w.symbols.any fun j => !isUsed j && decide (w.le i j ≠ 0)

/-- `while (row[j] == 0) j--`, from below `n` on; `none` where it finds nothing. -/
def lastNonzero (row : Nat → Int) : Nat → Option Nat
  | 0 => none
  | n + 1 => if row n ≠ 0 then some n else lastNonzero row n

/-- The bound of a used variable makes its other variables used. -/
def propagateRow (row : Nat → Int) (isUsed : Nat → Bool) : Nat → Bool :=
  match lastNonzero row w.firstSymbol with
  | none => isUsed
  | some j =>
    if isUsed j then
      (range j).reverse.foldl
        (fun isUsed j => if !isUsed j && decide (row j ≠ 0) then w.markUsed j isUsed else isUsed)
        isUsed
    else isUsed

/-- The marks of `Bounds_Set_Is_Used` on the variables. -/
def boundsSetIsUsed (isUsed : Nat → Bool) : Nat → Bool :=
  let isUsed := w.symbolsUsed isUsed
  (range w.leRows).reverse.foldl
    (fun used i => if w.usesZappedSymbol isUsed i then used else w.propagateRow (w.le i) used)
    isUsed

/-- `stray i` is what `is_used[j]` reads where the loop ran out of row `i`. -/
def boundsUsed (stray : Nat → Bool) (isUsed : Nat → Bool) (i : Nat) : Bool :=
  !w.usesZappedSymbol (w.symbolsUsed isUsed) i &&
    match lastNonzero (w.le i) w.firstSymbol with
    | none => stray i
    | some j => w.boundsSetIsUsed isUsed j

/-- The used columns in order: `map_used` is the place in this list. -/
def usedColumns (isUsed : Nat → Bool) : List Nat := (range w.workCols).filter isUsed

/-- A row without the columns that are not used. -/
def mapRow (isUsed : Nat → Bool) (row : Nat → Int) (c : Nat) : Int :=
  ((w.usedColumns isUsed).map row).getD c 0

def copyToSoe (isUsed boundsUsed : Nat → Bool) : System :=
  let bounds := (range w.leRows).filter boundsUsed
  { vars := (w.usedColumns isUsed).length
    aeq := fun i => w.mapRow isUsed (w.eq i)
    beq := w.eqConst
    eqnsEq := w.eqRows
    ale := fun i => w.mapRow isUsed (w.le (bounds.getD i 0))
    ble := fun i => w.leConst (bounds.getD i 0)
    eqnsLe := bounds.length }

/-! ## Marks -/

/-- A distance vector variable is used if its conjugate is. -/
def Conjugate (isUsed : Nat → Bool) : Prop :=
  ∀ i < w.dvDim, isUsed (w.firstDv1 + i) = isUsed (w.firstDv2 + i)

/-- Marks are added, and stay conjugate. -/
structure Marks (isUsed isUsed' : Nat → Bool) : Prop where
  grows : ∀ j, isUsed j = true → isUsed' j = true
  conjugate : w.Conjugate isUsed → w.Conjugate isUsed'

variable {w}

theorem Marks.refl (isUsed : Nat → Bool) : w.Marks isUsed isUsed := ⟨fun _ h => h, fun h => h⟩

theorem Marks.trans {u1 u2 u3 : Nat → Bool} (h : w.Marks u1 u2) (h' : w.Marks u2 u3) :
    w.Marks u1 u3 :=
  ⟨fun j hj => h'.grows j (h.grows j hj), fun hc => h'.conjugate (h.conjugate hc)⟩

theorem Marks.foldl {α : Type} {f : (Nat → Bool) → α → Nat → Bool}
    (hf : ∀ u a, w.Marks u (f u a)) (l : List α) : ∀ u, w.Marks u (l.foldl f u) := by
  induction l with
  | nil => exact fun u => Marks.refl u
  | cons a l ih => exact fun u => (hf u a).trans (ih (f u a))

theorem update_grows {k : Nat} (h : u j = true) : update u k true j = true:= by
  rw [update_apply]
  split
  · rfl
  · exact h

theorem markUsed_marks (j : Nat) (isUsed : Nat → Bool) : w.Marks isUsed (w.markUsed j isUsed) := by
  have h1 := w.dv1_le
  unfold markUsed firstNonCom1 firstNonCom2
  dsimp only
  split_ifs with hdv1 hdv2
  · refine ⟨fun k hk => update_grows (update_grows hk), fun hc i hi => ?_⟩
    simp only [update_apply]
    have hci := hc i hi
    split_ifs <;> first | rfl | omega
  · refine ⟨fun k hk => update_grows (update_grows hk), fun hc i hi => ?_⟩
    simp only [update_apply]
    have hci := hc i hi
    split_ifs <;> first | rfl | omega
  · refine ⟨fun k hk => update_grows hk, fun hc i hi => ?_⟩
    rw [update_of_ne (by omega), update_of_ne (by omega)]
    exact hc i hi

theorem markUsed_self (j : Nat) (isUsed : Nat → Bool) : w.markUsed j isUsed j = true := by
  unfold markUsed
  split_ifs
  · exact update_grows (update_self ..)
  · exact update_grows (update_self ..)
  · exact update_self ..

theorem markRow_marks (row : Nat → Int) (isUsed : Nat → Bool) :
    w.Marks isUsed (w.markRow row isUsed) := by
  refine Marks.foldl (fun u j => ?_) _ isUsed
  split
  · exact markUsed_marks j u
  · exact Marks.refl u

theorem markRow_used (row : Nat → Int) (isUsed : Nat → Bool) (hj : j < w.workCols)
    (h : row j ≠ 0) : w.markRow row isUsed j = true := by
  have hmem : j ∈ range w.workCols := mem_range.mpr hj
  obtain ⟨l1, l2, hl⟩ := append_of_mem hmem
  -- the turn for column `j` marks it, those behind it keep the mark
  unfold markRow
  rw [hl, foldl_append, foldl_cons, if_pos h]
  refine (Marks.foldl (w := w) (fun u k => ?_) l2 _).grows j (markUsed_self j _)
  split
  · exact markUsed_marks k u
  · exact Marks.refl u

theorem foldl_markRow_used (rows : Nat → Nat → Int) (n : Nat) (isUsed : Nat → Bool) {i : Nat}
    (hi : i < n) (hj : j < w.workCols) (h : rows i j ≠ 0) :
    (range n).foldl (fun isUsed i => w.markRow (rows i) isUsed) isUsed j = true := by
  obtain ⟨l1, l2, hl⟩ := append_of_mem (mem_range.mpr hi)
  rw [hl, foldl_append, foldl_cons]
  exact (Marks.foldl (fun u k => markRow_marks (rows k) u) l2 _).grows j
    (markRow_used (rows i) _ hj h)

theorem initUsed_spec : (∀ i < w.eqRows, ∀ j < w.workCols, w.eq i j ≠ 0 → w.initUsed j = true) ∧
    (∀ i < w.leRows, ∀ j < w.workCols, w.le i j ≠ 0 → w.initUsed j = true) ∧
    w.Conjugate w.initUsed := by
  unfold initUsed
  dsimp only
  refine ⟨fun i hi j hj h => ?_, fun i hi j hj h => foldl_markRow_used w.le w.leRows _ hi hj h, ?_⟩
  · exact (Marks.foldl (fun u k => markRow_marks (w.le k) u) _ _).grows j
      (foldl_markRow_used w.eq w.eqRows _ hi hj h)
  · refine (Marks.foldl (fun u k => markRow_marks (w.le k) u) _ _).conjugate ?_
    exact (Marks.foldl (fun u k => markRow_marks (w.eq k) u) _ _).conjugate fun _ _ => rfl

theorem symbolsUsed_marks (isUsed : Nat → Bool) : w.Marks isUsed (w.symbolsUsed isUsed) := by
  have hstep : ∀ l : List Nat, (∀ j ∈ l, w.firstSymbol ≤ j) → ∀ u, w.Marks u (l.foldl (fun isUsed j =>
      if !isUsed j then
        let seenNeg := (range w.leRows).any fun i => decide (w.le i j < 0)
        let seenPos := (range w.leRows).any fun i => decide (w.le i j > 0)
        if seenPos && seenNeg then update isUsed j true else isUsed
      else isUsed) u) := by
    intro l
    induction l with
    | nil => exact fun _ u => Marks.refl u
    | cons j l ih =>
      intro hl u
      refine Marks.trans ?_ (ih (fun k hk => hl k (mem_cons_of_mem j hk)) _)
      have hj := hl j mem_cons_self
      have h1 := w.dv1_le
      have h2 := w.dv2_le
      dsimp only
      split_ifs
      · refine ⟨fun k hk => update_grows hk, fun hc i hi => ?_⟩
        rw [update_of_ne (by omega), update_of_ne (by omega)]
        exact hc i hi
      · exact Marks.refl u
      · exact Marks.refl u
  exact hstep _ (fun j hj => (mem_range'_1.mp hj).1) isUsed

theorem propagateRow_marks (row : Nat → Int) (isUsed : Nat → Bool) :
    w.Marks isUsed (w.propagateRow row isUsed) := by
  unfold propagateRow
  split
  · exact Marks.refl isUsed
  · split
    · refine Marks.foldl (fun u j => ?_) _ isUsed
      split
      · exact markUsed_marks j u
      · exact Marks.refl u
    · exact Marks.refl isUsed

theorem boundsSetIsUsed_marks (isUsed : Nat → Bool) : w.Marks isUsed (w.boundsSetIsUsed isUsed):= by
  refine (symbolsUsed_marks isUsed).trans (Marks.foldl (fun u i => ?_) _ _)
  split
  · exact Marks.refl u
  · exact propagateRow_marks (w.le i) u

/-! ## The columns of the system -/

/-- The columns as `Compute_Dep_Vectors` gets them, for any marks that are conjugate. -/
def columnsOf (w : WorkArrays) (isUsed : Nat → Bool) (h : w.Conjugate isUsed) : Columns where
  dvDim := w.dvDim
  firstDv1 := w.firstDv1
  firstDv2 := w.firstDv2
  workCols := w.workCols
  isUsed := isUsed
  dv1_le := w.dv1_le
  dv2_le := w.dv2_le.trans w.symbol_le
  conjugate := h

theorem getD_filter_range {n : Nat} (hj : u j = true) (hn : j < n) :
    ((range n).filter u).getD ((range j).filter u).length 0 = j := by
  obtain ⟨k, rfl⟩ := Nat.exists_eq_add_of_lt hn
  have hrange : range (j + k + 1) = range j ++ j :: (range k).map (j + 1 + ·) := by
    rw [show j + k + 1 = j + (k + 1) by omega, range_add, range_succ_eq_map,
      map_cons, map_map, Nat.add_zero]
    congr 2
    apply map_congr_left
    intro i _
    show j + (i + 1) = j + 1 + i
    omega
  rw [hrange, filter_append, filter_cons_of_pos hj,
    getD_append_right _ _ _ _ (le_refl _), Nat.sub_self]
  rfl

theorem dot_getD (l : List Nat) (row x : Nat → Int) :
    dot l.length (fun c => (l.map row).getD c 0) (fun c => x (l.getD c 0))
      = (l.map fun j => row j * x j).sum := by
  induction l with
  | nil => rfl
  | cons j l ih =>
    rw [length_cons, map_cons, map_cons, sum_cons, ← ih]
    unfold dot
    rw [Finset.sum_range_succ', add_comm]
    rfl

theorem sum_filter_range {row : Nat → Int} (x : Nat → Int) :
    ∀ n, (∀ j < n, row j ≠ 0 → u j = true) →
      (((range n).filter u).map fun j => row j * x j).sum = dot n row x := by
  intro n
  induction n with
  | zero => exact fun _ => rfl
  | succ n ih =>
    intro hu
    rw [range_succ, filter_append, map_append, sum_append,
      ih fun j hj => hu j (by omega), dot_succ]
    congr 1
    by_cases h : u n = true
    · rw [filter_cons_of_pos h]
      exact sum_singleton
    · have hzero : row n = 0 := by
        by_contra hne
        exact h (hu n (Nat.lt_succ_self n) hne)
      rw [filter_cons_of_neg h, hzero, zero_mul]
      rfl

theorem dot_mapRow {row : Nat → Int} (x : Nat → Int)
    (hrow : ∀ j < w.workCols, row j ≠ 0 → isUsed j = true) :
    dot (w.usedColumns isUsed).length (w.mapRow isUsed row)
      (fun c => x ((w.usedColumns isUsed).getD c 0)) = dot w.workCols row x := by
  rw [← sum_filter_range x w.workCols hrow]
  exact dot_getD (w.usedColumns isUsed) row x

theorem copyToSoe_solves {boundsUsed : Nat → Bool}
    (heq : ∀ i < w.eqRows, ∀ j < w.workCols, w.eq i j ≠ 0 → isUsed j = true)
    (hle : ∀ i < w.leRows, boundsUsed i = true →
      ∀ j < w.workCols, w.le i j ≠ 0 → isUsed j = true) (hx : w.Solves x) :
    (w.copyToSoe isUsed boundsUsed).Solves fun c => x ((w.usedColumns isUsed).getD c 0) where
  eq r hr := (dot_mapRow x (heq r hr)).trans (hx.eq r hr)
  le r hr := by
    have hr : r < ((range w.leRows).filter boundsUsed).length := hr
    have hmem := getElem_mem hr
    rw [mem_filter, mem_range] at hmem
    have hrow : (w.copyToSoe isUsed boundsUsed).ale r
        = w.mapRow isUsed (w.le (((range w.leRows).filter boundsUsed)[r])) := by
      show w.mapRow isUsed (w.le (((range w.leRows).filter boundsUsed).getD r 0)) = _
      rw [getD_eq_getElem _ _ hr]
    have hconst : (w.copyToSoe isUsed boundsUsed).ble r
        = w.leConst (((range w.leRows).filter boundsUsed)[r]) := by
      show w.leConst (((range w.leRows).filter boundsUsed).getD r 0) = _
      rw [getD_eq_getElem _ _ hr]
    rw [hrow, hconst]
    exact (dot_mapRow x (hle _ hmem.1 hmem.2)).trans_le (hx.le _ hmem.1)

end WorkArrays

/-! ## Added constraints -/

/-- A constraint on the distance of the two references in one dimension. -/
inductive Added (dvDim : Nat) where
  | direction (i : Fin dvDim) (dir : Direction)
  | distance (i : Fin dvDim) (d : Int)

/-- What the constraint says about the loop indices. -/
def Added.Holds (w : WorkArrays) (x : Nat → Int) : Added w.dvDim → Prop
  | .direction i dir => dir.Holds (x (w.firstDv2 + i) - x (w.firstDv1 + i))
  | .distance i d => x (w.firstDv2 + i) - x (w.firstDv1 + i) = d

/-- The constraint is added to the system, if its variables are in it. -/
def Columns.add (K : Columns) (soe : System) : Added K.dvDim → System
  | .direction i dir =>
    if K.isUsed (K.firstDv1 + i) then K.addDirection soe i dir else soe
  | .distance i d =>
    if K.isUsed (K.firstDv1 + i) then soe.addEq (K.directionRow i 1 (-1)) (-d) else soe

namespace WorkArrays

variable (w : WorkArrays)

/-- The marks that the two routines leave. -/
def used : Nat → Bool := w.boundsSetIsUsed w.initUsed

theorem used_conjugate : w.Conjugate w.used :=
  (boundsSetIsUsed_marks w.initUsed).conjugate initUsed_spec.2.2

/-- The columns of the dependence problem. -/
def columns : Columns := w.columnsOf w.used w.used_conjugate

/-- The system of the dependence problem. -/
def soe (stray : Nat → Bool) : System := w.copyToSoe w.used (w.boundsUsed stray w.initUsed)

variable {w}

/-- A direction constraint that holds at a point is a row that the point solves. -/
theorem add_solves {soe : System} (hvars : soe.vars = w.columns.numVarsUsed) (c : Added w.dvDim)
    (hx : soe.Solves fun c => x ((w.usedColumns w.used).getD c 0))
    (hc : c.Holds w x) :
    (w.columns.add soe c).Solves (fun c => x ((w.usedColumns w.used).getD c 0)) ∧
      (w.columns.add soe c).vars = soe.vars := by
  have hat : ∀ j < w.workCols, w.used j = true →
      x ((w.usedColumns w.used).getD (w.columns.mapUsed j) 0) = x j := by
    intro j hj hu
    exact congrArg x (getD_filter_range hu hj)
  have hd : ∀ i : Fin w.dvDim, w.used (w.firstDv1 + i) = true → ∀ a b : Int,
      dot w.columns.numVarsUsed (w.columns.directionRow i a b)
        (fun c => x ((w.usedColumns w.used).getD c 0))
        = a * x (w.firstDv1 + i) + b * x (w.firstDv2 + i) := by
    intro i hu a b
    have h1 := w.dv1_le
    have h2 := w.dv2_le
    have h3 := w.symbol_le
    have hi := i.isLt
    have hu2 : w.used (w.firstDv2 + i) = true := by
      rw [← w.used_conjugate i i.isLt]
      exact hu
    rw [w.columns.dot_directionRow i.isLt hu]
    show a * x ((w.usedColumns w.used).getD (w.columns.mapUsed (w.firstDv1 + i)) 0)
      + b * x ((w.usedColumns w.used).getD (w.columns.mapUsed (w.firstDv2 + i)) 0) = _
    rw [hat _ (by omega) hu, hat _ (by omega) hu2]
  cases c with
  | direction i dir =>
    unfold Columns.add
    dsimp only
    split
    · next hu =>
      have hrow := hd i hu
      cases dir with
      | pos =>
        have hc : 0 < x (w.firstDv2 + i) - x (w.firstDv1 + i) := hc
        exact ⟨hx.addLe (by rw [hvars, hrow]; omega), rfl⟩
      | neg =>
        have hc : x (w.firstDv2 + i) - x (w.firstDv1 + i) < 0 := hc
        exact ⟨hx.addLe (by rw [hvars, hrow]; omega), rfl⟩
      | eq =>
        have hc : x (w.firstDv2 + i) - x (w.firstDv1 + i) = 0 := hc
        exact ⟨hx.addEq (by rw [hvars, hrow]; omega), rfl⟩
      | posneg => exact ⟨hx, rfl⟩
      | poseq => exact ⟨hx, rfl⟩
      | negeq => exact ⟨hx, rfl⟩
      | star => exact ⟨hx, rfl⟩
    · exact ⟨hx, rfl⟩
  | distance i d =>
    unfold Columns.add
    dsimp only
    split
    · next hu =>
      have hc : x (w.firstDv2 + i) - x (w.firstDv1 + i) = d := hc
      exact ⟨hx.addEq (by rw [hvars, hd i hu]; omega), rfl⟩
    · exact ⟨hx, rfl⟩

theorem foldl_add_solves (added : List (Added w.dvDim)) :
    ∀ {soe : System}, soe.vars = w.columns.numVarsUsed →
      soe.Solves (fun c => x ((w.usedColumns w.used).getD c 0)) → (∀ c ∈ added, c.Holds w x) →
      (added.foldl w.columns.add soe).Solves fun c => x ((w.usedColumns w.used).getD c 0) := by
  induction added with
  | nil => exact fun _ hx _ => hx
  | cons c added ih =>
    intro soe hvars hx hall
    obtain ⟨hsolves, hvars'⟩ := add_solves hvars c hx (hall c mem_cons_self)
    exact ih (hvars'.trans hvars) hsolves fun e he => hall e (mem_cons_of_mem c he)

/-- **Dropping unused bounds**: whatever is read beside a row, the copied system has a solution
together with any constraints if the work arrays have one. -/
theorem soe_consistent (w : WorkArrays) (stray : Nat → Bool) (added : List (Added w.dvDim)) :
    (∃ x, w.Solves x ∧ ∀ c ∈ added, c.Holds w x) →
      ∃ y, (added.foldl w.columns.add (w.soe stray)).Solves y := by
  rintro ⟨x, hx, hall⟩
  -- the marks on entry have the variables of all rows, and none is taken back
  obtain ⟨heq, hle, -⟩ := w.initUsed_spec
  have hgrows := (boundsSetIsUsed_marks (w := w) w.initUsed).grows
  refine ⟨_, foldl_add_solves added rfl ?_ hall⟩
  exact copyToSoe_solves (fun i hi j hj h => hgrows j (heq i hi j hj h))
    (fun i hi _ j hj h => hgrows j (hle i hi j hj h)) hx

/-- `a(i)` and `a(j)` in a loop from 0 to `n`, with the distance 0. -/
def oneLoop : WorkArrays where
  eqRows := 1
  leRows := 4
  workCols := 3
  eq := fun _ j => if j = 0 then 1 else if j = 1 then -1 else 0
  le := fun i j =>
    if i = 0 then (if j = 0 then -1 else 0)
    else if i = 1 then (if j = 0 then 1 else if j = 2 then -1 else 0)
    else if i = 2 then (if j = 1 then -1 else 0)
    else (if j = 1 then 1 else if j = 2 then -1 else 0)
  eqConst := fun _ => 0
  leConst := fun _ => 0
  dvDim := 1
  firstDv1 := 0
  firstDv2 := 1
  firstSymbol := 2
  dv1_le := le_refl 1
  dv2_le := le_refl 2
  symbol_le := Nat.le_succ 2

theorem soe_consistent_oneLoop : ∃ y, ([Added.distance ⟨0, Nat.one_pos⟩ 0].foldl oneLoop.columns.add
      (oneLoop.soe fun _ => false)).Solves y := by
  have hzero : ∀ row, dot 3 row (fun _ => 0) = 0 := fun row =>
    Finset.sum_eq_zero fun j _ => mul_zero (row j)
  refine soe_consistent oneLoop (fun _ => false) [Added.distance ⟨0, Nat.one_pos⟩ 0]
    ⟨fun _ => 0, ⟨fun i _ => hzero _, fun i _ => (hzero _).le⟩, fun c hc => ?_⟩
  · rw [mem_singleton.mp hc]
    rfl

end WorkArrays

end Dep
