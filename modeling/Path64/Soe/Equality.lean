import Path64.Soe.Consistent

/-! # Eliminating the equalities

`Sub_In_Equal` substitutes the equality rows, last one first, into the
other equalities and into the inequalities. A row with a coefficient
`1` or `-1` is solved for that variable. Otherwise Pugh's step adds a
fresh variable and the row reduced modulo `m`, which has a unit
coefficient where the old row had its smallest one. -/

namespace Soe

open Function LinearRow Loop

/-! ## Model -/

def Fits32 (z : Int) : Prop := int32Min ≤ z ∧ z ≤ int32Max
def Fits64 (z : Int) : Prop := -9223372036854775808 ≤ z ∧ z ≤ 9223372036854775807

instance (z : Int) : Decidable (Fits32 z) := inferInstanceAs (Decidable (_ ∧ _))
instance (z : Int) : Decidable (Fits64 z) := inferInstanceAs (Decidable (_ ∧ _))

theorem fits32_zero (_ _ : Nat) : Fits32 0 := by decide

theorem fits64_zero (_ : Nat) : Fits64 0 := by decide

theorem fits64_five (_ : Nat) : Fits64 5 := by decide

/-- `SYSTEM_OF_EQUATIONS`, with `mINT32` coefficients and `mINT64` right-hand sides. -/
structure System where
  ale : Nat → Nat → Int
  ble : Nat → Int
  eqnsLe : Nat
  aeq : Nat → Nat → Int
  beq : Nat → Int
  eqnsEq : Nat
  vars : Nat
  aleFits : ∀ r c, Fits32 (ale r c)
  bleFits : ∀ r, Fits64 (ble r)
  aeqFits : ∀ r c, Fits32 (aeq r c)
  beqFits : ∀ r, Fits64 (beq r)

/-- `Copy_To_Work`; `none` when the work array is too small. -/
def copyToWork (sys : System) (st : WorkState) : Option WorkState :=
  if sys.vars > maxWorkCols then none
  else if sys.eqnsLe > maxWorkRows then none
  else some { st with
    workCols := sys.vars
    workRows := sys.eqnsLe
    work := fun r c => if r < sys.eqnsLe ∧ c < sys.vars then sys.ale r c else st.work r c
    workConst := fun r => if r < sys.eqnsLe then sys.ble r else st.workConst r }

/-- `Copy_To_Work_Eq`, which asserts the columns of rows that are there. -/
def copyToWorkEq (sys : System) (st : WorkState) : Option WorkState :=
  if sys.eqnsEq > maxWorkRowsEq then none
  else if st.workRows = 0 ∧ sys.vars > maxWorkCols then none
  else
    let cols := if st.workRows = 0 then sys.vars else st.workCols
    some { st with
      workCols := cols
      workRowsEq := sys.eqnsEq
      workEq := fun r c => if r < sys.eqnsEq ∧ c < cols then sys.aeq r c else st.workEq r c
      workConstEq := fun r => if r < sys.eqnsEq then sys.beq r else st.workConstEq r }

/-- One column of `row - mult * pivot`; `prod` is the type of the product. -/
def subTmp (ar : Arith) (prod : Int → Int) (mult a p : Int) : Int :=
  if mult = 1 then ar.i64 (a - p)
  else if mult = -1 then ar.i64 (a + p)
  else ar.i64 (a - prod (mult * p))

def subConst (ar : Arith) (mult c pc : Int) : Int :=
  if mult = 1 then ar.i64 (c - pc)
  else if mult = -1 then ar.i64 (c + pc)
  else ar.i64 (c - ar.i64 (mult * pc))

/-- Substitute the pivot row into one row; `none` on 32-bit overflow. -/
def substRow (ar : Arith) (prod : Int → Int) (i minvar cols : Nat) (pivot : Nat → Int)
    (pc : Int) (row : Nat → Int) (c : Int) : Option ((Nat → Int) × Int) :=
  let mult := row i
  if mult = 0 then some (row, c)
  else if anyCol minvar cols
      (fun j => decide (abs64 ar (subTmp ar prod mult (row j) (pivot j)) > int32Max)) then none
  else some
    (fun j => if j = i then 0
      else if minvar ≤ j ∧ j < cols then ar.i32 (subTmp ar prod mult (row j) (pivot j))
      else row j,
     subConst ar mult c pc)

/-- Substitution into equality row `eq`: the product is 64 bits wide. -/
def substEqRow (ar : Arith) (i minvar eqnum eq : Nat) (st : WorkState) : Except Unit WorkState:=
  match substRow ar ar.i64 i minvar st.workCols (st.workEq eqnum) (st.workConstEq eqnum)
      (st.workEq eq) (st.workConstEq eq) with
  | none => .error ()
  | some (row, c) => .ok { st with
      workEq := update st.workEq eq row, workConstEq := update st.workConstEq eq c }

/-- Substitution into inequality row `le`, with a product of 32 bits. -/
def substLeRow (ar : Arith) (i minvar eqnum le : Nat) (st : WorkState) : Except Unit WorkState:=
  match substRow ar ar.i32 i minvar st.workCols (st.workEq eqnum) (st.workConstEq eqnum)
      (st.work le) (st.workConst le) with
  | none => .error ()
  | some (row, c) => .ok { st with
      work := update st.work le row, workConst := update st.workConst le c }

/-- Multiply equality row `eqnum` by -1. -/
def negateEq (ar : Arith) (eqnum minvar : Nat) (st : WorkState) : WorkState :=
  { st with
    workEq := fun r j =>
      if r = eqnum ∧ minvar ≤ j ∧ j < st.workCols then ar.i32 (-st.workEq r j)
      else st.workEq r j
    workConstEq := update st.workConstEq eqnum (ar.i64 (-st.workConstEq eqnum)) }

def subLastEqualUnary (ar : Arith) (i minvar : Nat) (st : WorkState) : Except Unit WorkState:=
  let eqnum := st.workRowsEq - 1
  let st₁ := if st.workEq eqnum i = -1 then negateEq ar eqnum minvar st else st
  match forFrom (substEqRow ar i minvar eqnum) eqnum 0 st₁ with
  | .error _ => .error ()
  | .ok st₂ => forFrom (substLeRow ar i minvar eqnum) st₂.workRows 0 st₂

/-- The local variables of `Normalize_Eq_and_Find_Smallest`. -/
structure Smallest where
  g : Int
  smallest : Int
  smallestPos : Nat

def smallestStep (ar : Arith) (row : Nat → Int) (i : Nat) (s : Smallest) : Smallest :=
  let tmp := abs32 ar (row i)
  if tmp ≠ 0 then
    { g := gcd32 ar s.g tmp
      smallest := if tmp < s.smallest then tmp else s.smallest
      smallestPos := if tmp < s.smallest then i else s.smallestPos }
  else s

/-- The gcd of the row and the position of its smallest coefficient. -/
def findSmallest (ar : Arith) (row : Nat → Int) (minvar cols : Nat) : Smallest :=
  forEach (smallestStep ar row) (cols - (minvar + 1)) (minvar + 1)
    { g := abs32 ar (row minvar), smallest := abs32 ar (row minvar), smallestPos := minvar }

/-- Divide equality row `eqnum` by `g`. -/
def divideEq (eqnum minvar : Nat) (g : Int) (st : WorkState) : WorkState :=
  { st with
    workEq := fun r j =>
      if r = eqnum ∧ minvar ≤ j ∧ j < st.workCols then (st.workEq r j).tdiv g
      else st.workEq r j
    workConstEq := update st.workConstEq eqnum ((st.workConstEq eqnum).tdiv g) }

/-- `Mod_Hat`: `a - b * floor(a/b + 1/2)`. -/
def modHat (ar : Arith) (a b : Int) : Int :=
  let num := ar.i32 (ar.i32 (2 * a) + b)
  let den := ar.i32 (2 * b)
  let floor :=
    if (num ≥ 0 ∧ den > 0) ∨ (num ≤ 0 ∧ den < 0) then num.tdiv den
    else if num.tmod den = 0 then num.tdiv den
    else num.tdiv den - 1
  ar.i32 (a - ar.i32 (b * floor))

/-- An extra zero column. -/
def addZeroCol (st : WorkState) : WorkState :=
  { st with
    work := fun r c => if r < st.workRows ∧ c = st.workCols then 0 else st.work r c
    workEq := fun r c => if r < st.workRowsEq ∧ c = st.workCols then 0 else st.workEq r c
    workCols := st.workCols + 1 }

/-- `Add_Work_Var`: the flag is its result. -/
def addWorkVar (st : WorkState) : Bool × WorkState :=
  if st.workCols ≥ maxWorkCols then (false, st) else (true, addZeroCol st)

/-- Pugh's extra constraint, in a new last row; `Mod_Hat` gets 32 bits of the constant. -/
def addModRow (ar : Arith) (eqnum : Nat) (m : Int) (st : WorkState) : WorkState :=
  { st with
    workRowsEq := st.workRowsEq + 1
    workEq := fun r j =>
      if r = eqnum + 1 then
        if j = st.workCols - 1 then m
        else if j < st.workCols - 1 then ar.i32 (-modHat ar (st.workEq eqnum j) m)
        else st.workEq r j
      else st.workEq r j
    workConstEq := update st.workConstEq (eqnum + 1)
      (ar.i32 (-modHat ar (ar.i32 (st.workConstEq eqnum)) m)) }

/-- Solve the last row for variable `i` and drop it. -/
def solveLast (ar : Arith) (i minvar : Nat) (st : WorkState) : Option (Bool × WorkState) :=
  match subLastEqualUnary ar i minvar st with
  | .error _ => none
  | .ok st' => some (false, { st' with workRowsEq := st'.workRowsEq - 1 })

/-- `Sub_Last_Equal`: `none` on failure, or `proved_inconsistent` and the work arrays. -/
def subLastEqual (ar : Arith) (st : WorkState) : Option (Bool × WorkState) :=
  let eqnum := st.workRowsEq - 1
  let i := skipZeros (st.workEq eqnum) st.workCols st.workCols 0
  if i = st.workCols then
    -- no variables constraint
    some (decide (st.workConstEq eqnum ≠ 0), { st with workRowsEq := st.workRowsEq - 1 })
  else if abs32 ar (st.workEq eqnum i) = 1 then solveLast ar i i st
  else
    let s := findSmallest ar (st.workEq eqnum) i st.workCols
    if (abs64 ar (st.workConstEq eqnum)).tmod s.g ≠ 0 then some (true, st)
    else
      let st₁ := divideEq eqnum i s.g st
      if abs32 ar (st₁.workEq eqnum s.smallestPos) = 1 then
        solveLast ar s.smallestPos i st₁
      else
        let m := ar.i32 (abs32 ar (st₁.workEq eqnum s.smallestPos) + 1)
        some (false, addModRow ar eqnum m (addWorkVar st₁).2)

/-- The loop of `Sub_In_Equal`; `none` is lack of fuel, inside it `return FALSE`. -/
def subLoop (ar : Arith) : Nat → WorkState → Option (Option (Bool × WorkState))
  | 0, _ => none
  | fuel + 1, st =>
    if st.workRowsEq > 0 then
      match subLastEqual ar st with
      | none => some none
      | some (true, st') => some (some (true, st'))
      | some (false, st') => subLoop ar fuel st'
    else some (some (false, st))

def subInEqual (ar : Arith) (fuel : Nat) (sys : System) (st : WorkState) :
    Option (Option (Bool × WorkState)) :=
  if sys.eqnsEq = 0 then some (some (false, st))
  else
    match copyToWorkEq sys st with
    | none => some (some (false, st))
    | some st' => subLoop ar fuel st'

/-! ## Meaning -/

/-- The point `x` satisfies every equality in use. -/
def SolvesEq (st : WorkState) (x : Nat → Int) : Prop :=
  ∀ r < st.workRowsEq, dot st.workCols (st.workEq r) x = st.workConstEq r

def Satisfiable (st : WorkState) : Prop :=
  ∃ x, Solves st x ∧ SolvesEq st x

/-- The integer solutions of the system itself. -/
def System.Solves (sys : System) (x : Nat → Int) : Prop :=
  (∀ r < sys.eqnsLe, dot sys.vars (sys.ale r) x ≤ sys.ble r) ∧
  (∀ r < sys.eqnsEq, dot sys.vars (sys.aeq r) x = sys.beq r)

/-! ## Solving a row for one variable -/

/-- Row `row'`, `c'` is row `row`, `c` less its multiple of the pivot. -/
def RowSub (cols i : Nat) (p : Nat → Int) (pc : Int) (row : Nat → Int) (c : Int)
    (row' : Nat → Int) (c' : Int) : Prop :=
  (∀ j < cols, row' j = row j - row i * p j) ∧ c' = c - row i * pc

section

variable {cols i : Nat} {p row row' : Nat → Int} {pc c c' : Int}
  (h : RowSub cols i p pc row c row' c')
include h

theorem RowSub.dot_eq (x : Nat → Int) : dot cols row' x = dot cols row x - row i * dot cols p x:= by
  have hcomb := dot_comb cols 1 (-row i) row p x
  rw [dot_congr_left x (b := fun j => 1 * row j + -row i * p j)
    (fun j hj => by rw [h.1 j hj]; ring), hcomb]
  ring

theorem RowSub.shift {x : Nat → Int} (hx : dot cols p x = pc) :
    dot cols row' x - c' = dot cols row x - c := by
  rw [h.dot_eq x, h.2, hx]
  ring

end

theorem subTmp_exact (mult a p : Int) : subTmp .exact (fun z => z) mult a p = a - mult * p:= by
  unfold subTmp
  split_ifs with h1 h2
  · rw [h1, exact_i64, one_mul]
  · rw [h2, exact_i64]; ring
  · rfl

theorem subConst_exact (mult c pc : Int) : subConst .exact mult c pc = c - mult * pc := by
  unfold subConst
  split_ifs with h1 h2
  · rw [h1, exact_i64, one_mul]
  · rw [h2, exact_i64]; ring
  · rfl

theorem RowSub.kept {cols i : Nat} {p row : Nat → Int} {pc c : Int} (hm : row i = 0) :
    RowSub cols i p pc row c row c :=
  ⟨fun j _ => by rw [hm, zero_mul, sub_zero], by rw [hm, zero_mul, sub_zero]⟩

theorem substRow_exact {i minvar cols : Nat} {p row row' : Nat → Int} {pc c c' : Int}
    (hpi : p i = 1) (hzero : ∀ j < minvar, p j = 0)
    (h : substRow .exact (fun z => z) i minvar cols p pc row c = some (row', c')) :
    RowSub cols i p pc row c row' c' := by
  unfold substRow at h
  dsimp only at h
  split at h
  · next hm =>
    cases h
    exact .kept hm
  · split at h
    · cases h
    · simp only [Option.some.injEq, Prod.mk.injEq] at h
      obtain ⟨rfl, rfl⟩ := h
      refine ⟨fun j hj => ?_, subConst_exact _ _ _⟩
      dsimp only
      -- the pivot's column is cleared, and below `minvar` the pivot is zero
      split_ifs with hji hrange
      · rw [hji, hpi, mul_one, sub_self]
      · rw [exact_i32, subTmp_exact]
      · rw [hzero j (by omega), mul_zero, sub_zero]

/-- The equality part after the pivot `p`, `pc` has been put into the rows below `k`. -/
structure EqSubbed (i : Nat) (p : Nat → Int) (pc : Int) (st : WorkState) (k : Nat)
    (st' : WorkState) : Prop where
  frame : st' = { st with workEq := st'.workEq, workConstEq := st'.workConstEq }
  done : ∀ r < k, RowSub st.workCols i p pc (st.workEq r) (st.workConstEq r)
    (st'.workEq r) (st'.workConstEq r)
  same : ∀ r, k ≤ r → st'.workEq r = st.workEq r ∧ st'.workConstEq r = st.workConstEq r

/-- The same for the inequality part. -/
structure LeSubbed (i : Nat) (p : Nat → Int) (pc : Int) (st : WorkState) (k : Nat)
    (st' : WorkState) : Prop where
  frame : st' = { st with work := st'.work, workConst := st'.workConst }
  done : ∀ r < k, RowSub st.workCols i p pc (st.work r) (st.workConst r)
    (st'.work r) (st'.workConst r)
  same : ∀ r, k ≤ r → st'.work r = st.work r ∧ st'.workConst r = st.workConst r

section

variable {i k : Nat} {p row : Nat → Int} {pc c : Int} {st t : WorkState}

theorem EqSubbed.next (ht : EqSubbed i p pc st k t)
    (hsub : RowSub st.workCols i p pc (st.workEq k) (st.workConstEq k) row c) :
    EqSubbed i p pc st (k + 1)
      { t with
        workEq := update t.workEq k row
        workConstEq := update t.workConstEq k c } := by
  refine ⟨by conv_lhs => rw [ht.frame], fun r hr => ?_, fun r hr => ?_⟩
  · rcases Nat.lt_succ_iff_lt_or_eq.mp hr with hlt | rfl
    · simp only [update_of_ne (Nat.ne_of_lt hlt)]
      exact ht.done r hlt
    · simp only [update_self]
      exact hsub
  · have hne : r ≠ k := by omega
    simp only [update_of_ne hne]
    exact ht.same r (by omega)

theorem LeSubbed.next (ht : LeSubbed i p pc st k t)
    (hsub : RowSub st.workCols i p pc (st.work k) (st.workConst k) row c) :
    LeSubbed i p pc st (k + 1)
      { t with
        work := update t.work k row
        workConst := update t.workConst k c } := by
  refine ⟨by conv_lhs => rw [ht.frame], fun r hr => ?_, fun r hr => ?_⟩
  · rcases Nat.lt_succ_iff_lt_or_eq.mp hr with hlt | rfl
    · simp only [update_of_ne (Nat.ne_of_lt hlt)]
      exact ht.done r hlt
    · simp only [update_self]
      exact hsub
  · have hne : r ≠ k := by omega
    simp only [update_of_ne hne]
    exact ht.same r (by omega)

end

section

variable {i minvar eqnum k : Nat} {st t : WorkState} (hpi : st.workEq eqnum i = 1)
  (hzero : ∀ j < minvar, st.workEq eqnum j = 0)
include hpi hzero

theorem substEqRow_subbed (hk : k < eqnum)
    (ht : EqSubbed i (st.workEq eqnum) (st.workConstEq eqnum) st k t) : Outcome (fun _ => True)
      (EqSubbed i (st.workEq eqnum) (st.workConstEq eqnum) st (k + 1))
      (substEqRow .exact i minvar eqnum k t) := by
  have hcols : t.workCols = st.workCols := by rw [ht.frame]
  unfold substEqRow
  split
  · trivial
  · next row c hres =>
    rw [(ht.same eqnum hk.le).1, (ht.same eqnum hk.le).2, (ht.same k (Nat.le_refl k)).1,
      (ht.same k (Nat.le_refl k)).2, hcols] at hres
    exact ht.next (substRow_exact hpi hzero hres)

theorem substLeRow_subbed (ht : LeSubbed i (st.workEq eqnum) (st.workConstEq eqnum) st k t) :
    Outcome (fun _ => True) (LeSubbed i (st.workEq eqnum) (st.workConstEq eqnum) st (k + 1))
      (substLeRow .exact i minvar eqnum k t) := by
  have hcols : t.workCols = st.workCols := by rw [ht.frame]
  have heq : t.workEq = st.workEq ∧ t.workConstEq = st.workConstEq := by
    constructor <;> rw [ht.frame]
  unfold substLeRow
  split
  · trivial
  · next row c hres =>
    rw [heq.1, heq.2, (ht.same k (Nat.le_refl k)).1, (ht.same k (Nat.le_refl k)).2, hcols]
      at hres
    exact ht.next (substRow_exact hpi hzero hres)

end

/-- All rows but the pivot after the pivot has been put into them. -/
structure Subbed (i : Nat) (p : Nat → Int) (pc : Int) (eqnum : Nat) (st st' : WorkState) :
    Prop where
  dims : st'.workRows = st.workRows ∧ st'.workCols = st.workCols ∧
    st'.workRowsEq = st.workRowsEq
  eqs : ∀ r < eqnum, RowSub st.workCols i p pc (st.workEq r) (st.workConstEq r)
    (st'.workEq r) (st'.workConstEq r)
  les : ∀ r < st.workRows, RowSub st.workCols i p pc (st.work r) (st.workConst r)
    (st'.work r) (st'.workConst r)

theorem substLoops_subbed {i minvar eqnum : Nat} {st st2 st3 : WorkState}
    (hpi : st.workEq eqnum i = 1) (hzero : ∀ j < minvar, st.workEq eqnum j = 0)
    (h2 : forFrom (substEqRow .exact i minvar eqnum) eqnum 0 st = .ok st2)
    (h3 : forFrom (substLeRow .exact i minvar eqnum) st2.workRows 0 st2 = .ok st3) :
    Subbed i (st.workEq eqnum) (st.workConstEq eqnum) eqnum st st3 := by
  have hloop2 := forFrom_outcome (f := substEqRow .exact i minvar eqnum)
    (Q := fun _ => True)
    (fun k t => EqSubbed i (st.workEq eqnum) (st.workConstEq eqnum) st k t) eqnum 0 st
    (fun k t _ hk ht => substEqRow_subbed hpi hzero (by omega) ht)
    ⟨rfl, fun r hr => absurd hr (Nat.not_lt_zero r), fun _ _ => ⟨rfl, rfl⟩⟩
  rw [h2, Nat.zero_add] at hloop2
  have hpiv := hloop2.same eqnum (Nat.le_refl _)
  have hloop3 := forFrom_outcome (f := substLeRow .exact i minvar eqnum)
    (Q := fun _ => True)
    (fun k t => LeSubbed i (st2.workEq eqnum) (st2.workConstEq eqnum) st2 k t)
    st2.workRows 0 st2
    (fun k t _ _ ht => substLeRow_subbed (by rw [hpiv.1]; exact hpi)
      (by rw [hpiv.1]; exact hzero) ht)
    ⟨rfl, fun r hr => absurd hr (Nat.not_lt_zero r), fun _ _ => ⟨rfl, rfl⟩⟩
  rw [h3, Nat.zero_add, hpiv.1, hpiv.2] at hloop3
  have hf2 := hloop2.frame
  have hf3 := hloop3.frame
  have hrows2 : st2.workRows = st.workRows := by rw [hf2]
  have hcols2 : st2.workCols = st.workCols := by rw [hf2]
  have hwork2 : st2.work = st.work ∧ st2.workConst = st.workConst := by
    constructor <;> rw [hf2]
  have heq3 : st3.workEq = st2.workEq ∧ st3.workConstEq = st2.workConstEq := by
    constructor <;> rw [hf3]
  refine ⟨⟨?_, ?_, ?_⟩, fun r hr => ?_, fun r hr => ?_⟩
  · rw [hf3]; exact hrows2
  · rw [hf3]; exact hcols2
  · rw [hf3, hf2]
  · rw [heq3.1, heq3.2]
    exact hloop2.done r hr
  · have hdone := hloop3.done r (by omega)
    rwa [hwork2.1, hwork2.2, hcols2] at hdone

/-- Solving the last row for a variable with coefficient 1 loses and gains no solution: a solution
of the rest is moved along `i` onto the pivot. -/
theorem Subbed.equisat {i eqnum : Nat} {p : Nat → Int} {pc : Int} {st st' : WorkState}
    (h : Subbed i p pc eqnum st st') (hi : i < st.workCols) (hpi : p i = 1)
    (hrowsEq : st.workRowsEq = eqnum + 1)
    (hpiv : ∀ x, dot st.workCols (st.workEq eqnum) x = st.workConstEq eqnum ↔
      dot st.workCols p x = pc) :
    Satisfiable st ↔ Satisfiable { st' with workRowsEq := st'.workRowsEq - 1 } := by
  obtain ⟨⟨hrows, hcols, hrowsEq'⟩, heqs, hles⟩ := h
  constructor
  · rintro ⟨x, hle, heq⟩
    have hx := (hpiv x).mp (heq eqnum (by omega))
    refine ⟨x, fun r hr => ?_, fun r hr => ?_⟩
    · have hr' : r < st.workRows := by dsimp only at hr; omega
      have hshift := (hles r hr').shift hx
      have hold : dot st.workCols (st.work r) x ≤ st.workConst r := hle r hr'
      show dot st'.workCols (st'.work r) x ≤ st'.workConst r
      rw [hcols]; omega
    · have hr' : r < eqnum := by dsimp only at hr; omega
      have hshift := (heqs r hr').shift hx
      have hold := heq r (by omega)
      show dot st'.workCols (st'.workEq r) x = st'.workConstEq r
      rw [hcols]; omega
  · rintro ⟨y, hle, heq⟩
    -- the column of `i` is zero in every row that is left
    have hmove : ∀ (row c row' c'), RowSub st.workCols i p pc row c row' c' →
        dot st.workCols row' (update y i (y i + (pc - dot st.workCols p y)))
          = dot st.workCols row' y := by
      intro row c row' c' hsub
      rw [dot_update_point _ _ _ hi]
      have hzero : row' i = 0 := by rw [hsub.1 i hi, hpi]; ring
      rw [hzero]; ring
    have hx : dot st.workCols p (update y i (y i + (pc - dot st.workCols p y))) = pc := by
      rw [dot_update_point _ _ _ hi, hpi]; ring
    refine ⟨update y i (y i + (pc - dot st.workCols p y)), fun r hr => ?_,
      fun r hr => ?_⟩
    · have hshift := (hles r hr).shift hx
      rw [hmove _ _ _ _ (hles r hr)] at hshift
      have hnew : dot st'.workCols (st'.work r) y ≤ st'.workConst r :=
        hle r (show r < st'.workRows by omega)
      rw [hcols] at hnew
      show dot st.workCols (st.work r) _ ≤ st.workConst r
      omega
    · by_cases hre : r = eqnum
      · rw [hre]; exact (hpiv _).mpr hx
      · have hr' : r < eqnum := by omega
        have hshift := (heqs r hr').shift hx
        rw [hmove _ _ _ _ (heqs r hr')] at hshift
        have hnew : dot st'.workCols (st'.workEq r) y = st'.workConstEq r :=
          heq r (show r < st'.workRowsEq - 1 by omega)
        rw [hcols] at hnew
        omega

/-- The last equality is usable as a pivot for variable `i`. -/
structure Pivot (i minvar : Nat) (st : WorkState) : Prop where
  rows : 0 < st.workRowsEq
  col : i < st.workCols
  above : minvar ≤ i
  zero : ∀ j < minvar, st.workEq (st.workRowsEq - 1) j = 0
  unit : |st.workEq (st.workRowsEq - 1) i| = 1

theorem negateEq_row {eqnum minvar : Nat} {st : WorkState}
    (hzero : ∀ j < minvar, st.workEq eqnum j = 0) (j : Nat) (hj : j < st.workCols) :
    (negateEq .exact eqnum minvar st).workEq eqnum j = -st.workEq eqnum j := by
  simp only [negateEq, true_and, exact_i32]
  split_ifs with h
  · rfl
  · rw [hzero j (by omega), neg_zero]

/-- The last equation has a unit coefficient: it is solved for that variable and put into the other
rows. -/
theorem solveLast_equisat {i minvar : Nat} {st st' : WorkState} {b : Bool}
    (hp : Pivot i minvar st) (h : solveLast .exact i minvar st = some (b, st')) :
    b = false ∧ (Satisfiable st ↔ Satisfiable st') := by
  obtain ⟨hrows, hcol, habove, hzero, hunit⟩ := hp
  unfold solveLast at h
  split at h
  · cases h
  · next st3 hres =>
    simp only [Option.some.injEq, Prod.mk.injEq] at h
    obtain ⟨rfl, rfl⟩ := h
    refine ⟨rfl, ?_⟩
    unfold subLastEqualUnary at hres
    dsimp only at hres
    generalize heq : st.workRowsEq - 1 = eqnum at *
    split at hres
    · cases hres
    · next st2 hres2 =>
      by_cases hneg : st.workEq eqnum i = -1
      · -- multiply both sides by -1 first
        rw [if_pos hneg] at hres2
        have hrow := negateEq_row hzero
        have hpi : (negateEq .exact eqnum minvar st).workEq eqnum i = 1 := by
          rw [hrow i hcol, hneg]; ring
        have hsub := substLoops_subbed hpi
          (by
            intro j hj
            rw [hrow j (by omega), hzero j hj, neg_zero]) hres2 hres
        have hother : ∀ r, r ≠ eqnum → (negateEq .exact eqnum minvar st).workEq r = st.workEq r ∧
            (negateEq .exact eqnum minvar st).workConstEq r = st.workConstEq r := by
          intro r hr
          refine ⟨?_, by simp [negateEq, update_of_ne hr]⟩
          funext j
          simp [negateEq, hr]
        have hsub' : Subbed i ((negateEq .exact eqnum minvar st).workEq eqnum)
            ((negateEq .exact eqnum minvar st).workConstEq eqnum) eqnum st st3 := by
          refine ⟨hsub.dims, fun r hr => ?_, hsub.les⟩
          have := hsub.eqs r hr
          rwa [(hother r (by omega)).1, (hother r (by omega)).2] at this
        refine hsub'.equisat hcol hpi (by omega) (fun x => ?_)
        have hdot := dot_mul_left (n := st.workCols) x (-1)
          (a := (negateEq .exact eqnum minvar st).workEq eqnum) (b := st.workEq eqnum)
          (fun j hj => by rw [hrow j hj]; ring)
        have hconst : (negateEq .exact eqnum minvar st).workConstEq eqnum
            = -st.workConstEq eqnum := by simp [negateEq]
        rw [hdot, hconst]
        constructor <;> intro hx <;> omega
      · rw [if_neg hneg] at hres2
        have hpi : st.workEq eqnum i = 1 := by
          rcases abs_eq (show (0 : Int) ≤ 1 by omega) |>.mp hunit with h1 | h1
          · exact h1
          · exact absurd h1 hneg
        exact (substLoops_subbed hpi hzero hres2 hres).equisat hcol hpi (by omega)
          (fun x => Iff.rfl)

/-! ## Dividing by the gcd -/

theorem skipZeros_le (row : Nat → Int) (cols : Nat) (fuel : Nat) : ∀ j, j ≤ cols → cols ≤ j + fuel →
      skipZeros row cols fuel j ≤ cols ∧
      (skipZeros row cols fuel j ≠ cols → row (skipZeros row cols fuel j) ≠ 0) := by
  induction fuel with
  | zero =>
    intro j hj hf
    exact ⟨hj, fun hne => absurd (show j = cols by omega) hne⟩
  | succ fuel ih =>
    intro j hj hf
    unfold skipZeros
    split
    · next hc => exact ih (j + 1) (by omega) (by omega)
    · next hc => exact ⟨hj, fun hne h0 => hc ⟨by omega, h0⟩⟩

/-- What `Normalize_Eq_and_Find_Smallest` finds, in exact arithmetic. -/
structure SmallestOk (row : Nat → Int) (minvar k : Nat) (s : Smallest) : Prop where
  pos : 0 < s.g
  dvd : ∀ j, minvar ≤ j → j < k → s.g ∣ row j
  above : minvar ≤ s.smallestPos
  below : s.smallestPos < k
  nz : row s.smallestPos ≠ 0

theorem findSmallest_ok {row : Nat → Int} {minvar cols : Nat} (hm : minvar < cols)
    (hnz : row minvar ≠ 0) : SmallestOk row minvar cols (findSmallest .exact row minvar cols):= by
  have hloop := forEach_inv (f := smallestStep .exact row)
    (fun k s => SmallestOk row minvar k s) (cols - (minvar + 1)) (minvar + 1)
    { g := abs32 .exact (row minvar), smallest := abs32 .exact (row minvar),
      smallestPos := minvar }
    (by
      intro k s hk _ hs
      obtain ⟨hpos, hdvd, habove, hbelow, hsnz⟩ := hs
      unfold smallestStep
      dsimp only
      split
      · next htmp =>
        rw [abs32_exact] at htmp ⊢
        rw [gcd32_exact]
        refine ⟨?_, fun j hj hjk => ?_, ?_, ?_, ?_⟩
        · have hg := Int.gcd_pos_of_ne_zero_left (a := s.g) |row k| (by omega)
          dsimp only
          exact_mod_cast hg
        · rcases Nat.lt_succ_iff_lt_or_eq.mp hjk with hlt | rfl
          · exact (Int.gcd_dvd_left _ _).trans (hdvd j hj hlt)
          · exact (dvd_abs _ _).mp (Int.gcd_dvd_right _ _)
        · dsimp only; split <;> omega
        · dsimp only; split <;> omega
        · dsimp only
          split
          · exact fun h0 => htmp (by rw [h0, abs_zero])
          · exact hsnz
      · next htmp =>
        rw [abs32_exact, not_not, abs_eq_zero] at htmp
        refine ⟨hpos, fun j hj hjk => ?_, habove, by omega, hsnz⟩
        rcases Nat.lt_succ_iff_lt_or_eq.mp hjk with hlt | rfl
        · exact hdvd j hj hlt
        · rw [htmp]; exact dvd_zero _)
    ⟨by rw [abs32_exact]; exact abs_pos.mpr hnz,
      fun j hj hjk => by
        rw [abs32_exact, show j = minvar by omega]; exact (abs_dvd _ _).mpr (dvd_refl _),
      Nat.le_refl _, Nat.lt_succ_self _, hnz⟩
  rwa [show minvar + 1 + (cols - (minvar + 1)) = cols by omega] at hloop

section Divide

variable {st : WorkState} {eqnum minvar : Nat} {g : Int}

theorem divideEq_row (hzero : ∀ j < minvar, st.workEq eqnum j = 0)
    (hdvd : ∀ j, minvar ≤ j → j < st.workCols → g ∣ st.workEq eqnum j)
    (j : Nat) (hj : j < st.workCols) :
    st.workEq eqnum j = g * (divideEq eqnum minvar g st).workEq eqnum j := by
  simp only [divideEq, true_and]
  split_ifs with h
  · rw [Int.tdiv_eq_ediv_of_dvd (hdvd j h.1 hj), Int.mul_ediv_cancel' (hdvd j h.1 hj)]
  · rw [hzero j (by omega), mul_zero]

theorem not_satisfiable_of_gcd (hrows : eqnum < st.workRowsEq)
    (hzero : ∀ j < minvar, st.workEq eqnum j = 0)
    (hdvd : ∀ j, minvar ≤ j → j < st.workCols → g ∣ st.workEq eqnum j)
    (hc : ¬ g ∣ st.workConstEq eqnum) : ¬ Satisfiable st := by
  rintro ⟨x, _, heq⟩
  apply hc
  rw [← heq eqnum hrows, dot_mul_left x g (divideEq_row hzero hdvd)]
  exact dvd_mul_right _ _

theorem divideEq_equisat (hg : 0 < g) (hzero : ∀ j < minvar, st.workEq eqnum j = 0)
    (hdvd : ∀ j, minvar ≤ j → j < st.workCols → g ∣ st.workEq eqnum j)
    (hc : g ∣ st.workConstEq eqnum) : Satisfiable st ↔ Satisfiable (divideEq eqnum minvar g st):= by
  have hrow : ∀ x, dot st.workCols ((divideEq eqnum minvar g st).workEq eqnum) x
        = (divideEq eqnum minvar g st).workConstEq eqnum ↔
      dot st.workCols (st.workEq eqnum) x = st.workConstEq eqnum := by
    intro x
    have hconst : st.workConstEq eqnum = g * (divideEq eqnum minvar g st).workConstEq eqnum := by
      simp only [divideEq, update_self]
      rw [Int.tdiv_eq_ediv_of_dvd hc, Int.mul_ediv_cancel' hc]
    rw [dot_mul_left x g (divideEq_row hzero hdvd), hconst]
    exact (mul_right_inj' (by omega)).symm
  have hother : ∀ r, r ≠ eqnum → (divideEq eqnum minvar g st).workEq r = st.workEq r ∧
      (divideEq eqnum minvar g st).workConstEq r = st.workConstEq r := by
    intro r hr
    refine ⟨?_, by simp [divideEq, update_of_ne hr]⟩
    funext j
    simp [divideEq, hr]
  have heqs : ∀ x, SolvesEq (divideEq eqnum minvar g st) x ↔ SolvesEq st x := by
    intro x
    refine forall_congr' (fun r => forall_congr' (fun _ => ?_))
    by_cases hr : r = eqnum
    · subst hr; exact hrow x
    · rw [(hother r hr).1, (hother r hr).2]; exact Iff.rfl
  exact exists_congr (fun x => and_congr Iff.rfl (heqs x).symm)

end Divide

/-! ## Pugh's extra variable -/

theorem modHat_exact (a b : Int) : ∃ f, a = modHat .exact a b + b * f := by
  unfold modHat
  simp only [exact_i32]
  exact ⟨_, (sub_add_cancel _ _).symm⟩

theorem addZeroCol_solves (st : WorkState) (x : Nat → Int) :
    (Solves (addZeroCol st) x ↔ Solves st x) ∧ (SolvesEq (addZeroCol st) x ↔ SolvesEq st x) := by
  have hdot : ∀ (p : Prop) [Decidable p] (row : Nat → Int), p →
      dot (st.workCols + 1) (fun c => if p ∧ c = st.workCols then 0 else row c) x
        = dot st.workCols row x := by
    intro p _ row hp
    rw [dot_succ, if_pos ⟨hp, rfl⟩, zero_mul, add_zero]
    exact dot_congr_left x (fun j hj => if_neg (by omega))
  constructor
  · refine forall_congr' (fun r => forall_congr' (fun hr => ?_))
    unfold RowHolds addZeroCol
    dsimp only
    rw [hdot (r < st.workRows) (st.work r) hr]
  · refine forall_congr' (fun r => forall_congr' (fun hr => ?_))
    unfold addZeroCol
    dsimp only
    rw [hdot (r < st.workRowsEq) (st.workEq r) hr]

theorem addModRow_solvesEq {st : WorkState} {eqnum n : Nat} (m : Int) (x : Nat → Int)
    (hrows : st.workRowsEq = eqnum + 1) (hcols : st.workCols = n + 1) :
    SolvesEq (addModRow .exact eqnum m st) x ↔
      SolvesEq st x ∧ m * x n = dot n (fun j => modHat .exact (st.workEq eqnum j) m) x
        - modHat .exact (st.workConstEq eqnum) m := by
  have hold : ∀ r, r ≠ eqnum + 1 → (addModRow .exact eqnum m st).workEq r = st.workEq r ∧
      (addModRow .exact eqnum m st).workConstEq r = st.workConstEq r := by
    intro r hr
    refine ⟨?_, by simp [addModRow, update_of_ne hr]⟩
    funext j
    simp [addModRow, hr]
  have hrow : dot (n + 1) ((addModRow .exact eqnum m st).workEq (eqnum + 1)) x
      = -dot n (fun j => modHat .exact (st.workEq eqnum j) m) x + m * x n := by
    rw [dot_succ]
    congr 1
    · rw [← neg_one_mul]
      refine dot_mul_left x (-1) (fun j hj => ?_)
      have hne : j ≠ n := Nat.ne_of_lt hj
      simp [addModRow, hcols, hne, hj]
    · simp [addModRow, hcols]
  have hconst : (addModRow .exact eqnum m st).workConstEq (eqnum + 1)
      = -modHat .exact (st.workConstEq eqnum) m := by
    simp [addModRow]
  have hnew : dot (addModRow .exact eqnum m st).workCols
        ((addModRow .exact eqnum m st).workEq (eqnum + 1)) x
        = (addModRow .exact eqnum m st).workConstEq (eqnum + 1) ↔
      m * x n = dot n (fun j => modHat .exact (st.workEq eqnum j) m) x
        - modHat .exact (st.workConstEq eqnum) m := by
    rw [show (addModRow .exact eqnum m st).workCols = n + 1 from hcols, hrow, hconst]
    constructor <;> intro h <;> omega
  constructor
  · intro h
    refine ⟨fun r hr => ?_, hnew.mp (h (eqnum + 1) (show _ < st.workRowsEq + 1 by omega))⟩
    have hr' := h r (show r < st.workRowsEq + 1 by omega)
    rwa [(hold r (by omega)).1, (hold r (by omega)).2] at hr'
  · rintro ⟨h, hlast⟩ r hr
    have hr' : r < st.workRowsEq + 1 := hr
    by_cases hre : r = eqnum + 1
    · subst hre; exact hnew.mpr hlast
    · rw [(hold r hre).1, (hold r hre).2]
      exact h r (by omega)

/-- The row of remainders and its new variable: solvable after just when solvable before. -/
theorem addModRow_equisat {st : WorkState} {eqnum : Nat} {m : Int}
    (hrows : st.workRowsEq = eqnum + 1) :
    Satisfiable st ↔ Satisfiable (addModRow .exact eqnum m (addZeroCol st)) := by
  have hspec := fun x => @addModRow_solvesEq (addZeroCol st) eqnum st.workCols m x hrows rfl
  constructor
  · rintro ⟨x, hle, heq⟩
    choose f hf using fun a => modHat_exact a m
    let q := f (st.workConstEq eqnum) - dot st.workCols (fun j => f (st.workEq eqnum j)) x
    have hsame : ∀ a, dot st.workCols a (update x st.workCols q) = dot st.workCols a x := fun a =>
      dot_congr (fun _ _ => rfl) (fun j hj _ => update_of_ne (Nat.ne_of_lt hj) _ _)
    refine ⟨update x st.workCols q, ?_, (hspec _).mpr ⟨?_, ?_⟩⟩
    · refine (addZeroCol_solves st _).1.mpr (fun r hr => ?_)
      unfold RowHolds
      rw [hsame]
      exact hle r hr
    · refine (addZeroCol_solves st _).2.mpr (fun r hr => ?_)
      rw [hsame]
      exact heq r hr
    · -- `row = modHat row + m * f row`, summed over the columns
      have hsum : dot st.workCols (fun j => modHat .exact (st.workEq eqnum j) m) x
          + m * dot st.workCols (fun j => f (st.workEq eqnum j)) x = st.workConstEq eqnum := by
        have hcomb := dot_comb st.workCols 1 m (fun j => modHat .exact (st.workEq eqnum j) m)
          (fun j => f (st.workEq eqnum j)) x
        rw [one_mul] at hcomb
        rw [← hcomb, ← heq eqnum (by omega)]
        exact dot_congr_left x (fun j _ => by rw [one_mul]; exact (hf _).symm)
      have hrow : dot st.workCols (fun j => modHat .exact ((addZeroCol st).workEq eqnum j) m)
          (update x st.workCols q)
          = dot st.workCols (fun j => modHat .exact (st.workEq eqnum j) m) x := by
        rw [hsame]
        refine dot_congr_left x (fun j hj => ?_)
        have hne : j ≠ st.workCols := Nat.ne_of_lt hj
        simp [addZeroCol, hne]
      have hfc := hf (st.workConstEq eqnum)
      rw [hrow, update_self]
      show m * (_ - _) = _ - modHat .exact (st.workConstEq eqnum) m
      rw [mul_sub]
      omega
  · rintro ⟨x, hle, heq⟩
    exact ⟨x, (addZeroCol_solves st x).1.mp hle, (addZeroCol_solves st x).2.mp ((hspec x).mp heq).1⟩

/-! ## One step -/

/-- The first variable of the last equality, `workCols` if there is none. -/
def firstVar (st : WorkState) : Nat :=
  skipZeros (st.workEq (st.workRowsEq - 1)) st.workCols st.workCols 0

theorem firstVar_zero (st : WorkState) : ∀ j < firstVar st, st.workEq (st.workRowsEq - 1) j = 0:=
  skipZeros_spec _ _ _ 0 (fun k hk => absurd hk (Nat.not_lt_zero k))

theorem firstVar_lt {st : WorkState} (h : firstVar st ≠ st.workCols) :
    firstVar st < st.workCols ∧ st.workEq (st.workRowsEq - 1) (firstVar st) ≠ 0 := by
  have hspec := skipZeros_le (st.workEq (st.workRowsEq - 1)) st.workCols st.workCols 0
    (by omega) (by omega)
  exact ⟨lt_of_le_of_ne hspec.1 h, hspec.2 h⟩

/-- The gcd and the smallest coefficient of the last equality. -/
def lastSmallest (st : WorkState) : Smallest :=
  findSmallest .exact (st.workEq (st.workRowsEq - 1)) (firstVar st) st.workCols

/-- The last equality divided by its gcd. -/
def lastDivided (st : WorkState) : WorkState :=
  divideEq (st.workRowsEq - 1) (firstVar st) (lastSmallest st).g st

/-- The coefficient of the divided row that has the least absolute value. -/
def lastPivot (st : WorkState) : Int :=
  (lastDivided st).workEq (st.workRowsEq - 1) (lastSmallest st).smallestPos

/-- The step needs Pugh's extra variable. -/
def NeedsVar (st : WorkState) : Prop :=
  firstVar st ≠ st.workCols ∧ |st.workEq (st.workRowsEq - 1) (firstVar st)| ≠ 1 ∧
  (lastSmallest st).g ∣ st.workConstEq (st.workRowsEq - 1) ∧ |lastPivot st| ≠ 1

theorem dvd_of_abs_tmod {g c : Int} (h : ¬ |c|.tmod g ≠ 0) : g ∣ c :=
  (dvd_abs _ _).mp (Int.dvd_iff_tmod_eq_zero.mpr (not_not.mp h))

theorem not_dvd_of_abs_tmod {g c : Int} (h : |c|.tmod g ≠ 0) : ¬ g ∣ c :=
  fun hd => h (Int.dvd_iff_tmod_eq_zero.mp ((dvd_abs _ _).mpr hd))

/-- One call keeps solvability: by a division, by a unit coefficient, or by a new variable. -/
theorem subLastEqual_equisat {st st' : WorkState} {b : Bool} (hrows : 0 < st.workRowsEq)
    (hfree : NeedsVar st → st.workCols < maxWorkCols) (h : subLastEqual .exact st = some (b, st')) :
    Satisfiable st ↔ b = false ∧ Satisfiable st' := by
  have hzero := firstVar_zero st
  have hdef : skipZeros (st.workEq (st.workRowsEq - 1)) st.workCols st.workCols 0
    = firstVar st := rfl
  unfold subLastEqual at h
  simp only [hdef, abs32_exact, abs64_exact] at h
  split at h
  · next hnone =>
    -- no variables constraint
    simp only [Option.some.injEq, Prod.mk.injEq] at h
    obtain ⟨rfl, rfl⟩ := h
    have hnull : ∀ x, dot st.workCols (st.workEq (st.workRowsEq - 1)) x = 0 := fun x =>
      dot_eq_zero x (fun j hj => hzero j (by omega))
    constructor
    · rintro ⟨x, hle, heq⟩
      have hlast := heq (st.workRowsEq - 1) (by omega)
      rw [hnull x] at hlast
      exact ⟨by simp [← hlast], x, hle, fun r hr => heq r (show r < st.workRowsEq by
        have hr' : r < st.workRowsEq - 1 := hr; omega)⟩
    · rintro ⟨hc, x, hle, heq⟩
      simp only [decide_eq_false_iff_not, not_not] at hc
      refine ⟨x, hle, fun r hr => ?_⟩
      by_cases hr' : r = st.workRowsEq - 1
      · rw [hr', hnull x, hc]
      · exact heq r (show r < st.workRowsEq - 1 by omega)
  · next hsome =>
    obtain ⟨hlt, hnz⟩ := firstVar_lt hsome
    split at h
    · next hunit =>
      obtain ⟨rfl, hsat⟩ := solveLast_equisat ⟨hrows, hlt, Nat.le_refl _, hzero, hunit⟩ h
      rw [hsat]; simp
    · next hunit =>
      have hs := findSmallest_ok hlt hnz
      change SmallestOk _ _ _ (lastSmallest st) at hs
      have hsdef : findSmallest .exact (st.workEq (st.workRowsEq - 1)) (firstVar st)
        st.workCols = lastSmallest st := rfl
      simp only [hsdef] at h
      split at h
      · next hmod =>
        simp only [Option.some.injEq, Prod.mk.injEq] at h
        obtain ⟨rfl, rfl⟩ := h
        have hunsat := not_satisfiable_of_gcd (show st.workRowsEq - 1 < st.workRowsEq by omega)
          hzero hs.dvd (not_dvd_of_abs_tmod hmod)
        simp [hunsat]
      · next hmod =>
        have hdvd := dvd_of_abs_tmod hmod
        rw [divideEq_equisat hs.pos hzero hs.dvd hdvd]
        change Satisfiable (lastDivided st) ↔ _
        have hpdef : (divideEq (st.workRowsEq - 1) (firstVar st) (lastSmallest st).g st).workEq
          (st.workRowsEq - 1) (lastSmallest st).smallestPos = lastPivot st := rfl
        simp only [hpdef] at h
        split at h
        · next hone =>
          have hpiv : Pivot (lastSmallest st).smallestPos (firstVar st) (lastDivided st) := by
            refine ⟨hrows, hs.below, hs.above, fun j hj => ?_, hone⟩
            show (if _ then _ else st.workEq (st.workRowsEq - 1) j) = 0
            rw [if_neg (by omega)]
            exact hzero j hj
          obtain ⟨rfl, hsat⟩ := solveLast_equisat hpiv h
          rw [hsat]; simp
        · next hone =>
          have hcols := hfree ⟨hsome, hunit, hdvd, hone⟩
          simp only [Option.some.injEq, Prod.mk.injEq] at h
          obtain ⟨rfl, rfl⟩ := h
          have hadd : addWorkVar (lastDivided st) = (true, addZeroCol (lastDivided st)) := by
            exact if_neg (show ¬ st.workCols ≥ maxWorkCols by omega)
          change _ ↔ _ ∧ Satisfiable (addModRow _ _ _ (addWorkVar (lastDivided st)).2)
          rw [hadd, ← addModRow_equisat (show (lastDivided st).workRowsEq = _ by
            show st.workRowsEq = _; omega)]
          simp

end Soe
