import Path64.Soe.TakeGcds

/-! # Marking redundant inequalities

`Mark_Redundant` puts the other unmarked inequalities and the negation
of the one under test into the work array and marks the row when the
consistency test finds no solution. The negation is `-a x <= -b - 1`,
formed in the types of the row. -/

namespace Soe

open Function LinearRow Loop

/-! ## Model -/

/-- The two tests; for `Sub_In_Equal` `none` is FALSE, the flag `proved_inconsistent`. -/
structure Tester where
  subInEqual : System → WorkState → Option (Bool × WorkState)
  isConsistentWork : WorkState → Bool × WorkState

/-- Put one more row into the work array; `none` when there is no space. -/
def pushRow (vars : Nat) (row : Nat → Int) (c : Int) (st : WorkState) : Option WorkState :=
  if st.workRows + 1 > maxWorkRows then none
  else if st.workRows = 0 ∧ vars > maxWorkCols then none
  else
    let cols := if st.workRows = 0 then vars else st.workCols
    some { st with
      workCols := cols
      workRows := st.workRows + 1
      work := fun r j => if r = st.workRows ∧ j < cols then row j else st.work r j
      workConst := update st.workConst st.workRows c }

/-- `Copy_To_Work(j, j)`. -/
def copyLeToWork (sys : System) (j : Nat) (st : WorkState) : Option WorkState :=
  pushRow sys.vars (sys.ale j) (sys.ble j) st

/-- The row `-a x <= -b - 1` in the types of the row. -/
def inverseRow (p : (Nat → Int) × Int) : (Nat → Int) × Int :=
  storedRow (fun c => -p.1 c, Arith.machine.i64 (-p.2) - 1)

def copyInverseToWork (sys : System) (i : Nat) (st : WorkState) : Option WorkState :=
  pushRow sys.vars (inverseRow (sys.leRow i)).1 (inverseRow (sys.leRow i)).2 st

/-- The loops that copy the rows other than the one under test. -/
def copyWanted (sys : System) (want : Nat → Bool) (n lo : Nat) (st : WorkState) :
    Except Unit WorkState :=
  forFrom (fun j st =>
    if want j then
      match copyLeToWork sys j st with
      | none => .error ()
      | some st' => .ok st'
    else .ok st) n lo st

/-- The work array for the test of row `i`: the rows wanted, then the negation of row `i`. -/
def underTest (sys : System) (want : Nat → Bool) (i : Nat) (st : WorkState) :
    Except Unit WorkState :=
  match copyWanted sys want i 0 { st with workRows := 0 } with
  | .error _ => .error ()
  | .ok st₁ =>
    match copyWanted sys want (sys.eqnsLe - (i + 1)) (i + 1) st₁ with
    | .error _ => .error ()
    | .ok st₂ =>
      match copyInverseToWork sys i st₂ with
      | none => .error ()
      | some st₃ => .ok st₃

/-- The test of row `i`: `error` returns early, the flag says that no solution was found. -/
def testRow (T : Tester) (sys : System) (want : Nat → Bool) (i : Nat) (st : WorkState) :
    Except Unit (Bool × WorkState) :=
  match underTest sys want i st with
  | .error _ => .error ()
  | .ok st₃ =>
    match T.subInEqual sys st₃ with
    | none => .error ()
    | some (true, st₄) => .ok (true, st₄)
    | some (false, st₄) =>
      .ok (!(T.isConsistentWork st₄).1, (T.isConsistentWork st₄).2)

/-- The marks and the number of them set, with the work array. -/
structure MarkState where
  isRedundant : Nat → Bool
  counter : Nat
  st : WorkState

/-- One round; the early return leaves the marks as they are. -/
def markRound (T : Tester) (sys : System) (want : MarkState → Nat → Nat → Bool) (i : Nat)
    (s : MarkState) : Except MarkState MarkState :=
  match testRow T sys (want s i) i s.st with
  | .error _ => .error s
  | .ok (true, st') => .ok ⟨update s.isRedundant i true, s.counter + 1, st'⟩
  | .ok (false, st') => .ok { s with st := st' }

/-- The marks when the loop is left, early or not. -/
def marksOf : Except MarkState MarkState → MarkState
  | .error s => s
  | .ok s => s

/-- The rows `Mark_Redundant` copies: those above `i` are not marked yet. -/
def wantRedundant (s : MarkState) (i j : Nat) : Bool := decide (j > i) || !s.isRedundant j

def startRedundant (sys : System) (isRedundant : Nat → Bool) (st : WorkState) : MarkState :=
  ⟨fun r => if r < sys.eqnsLe then false else isRedundant r, 0, st⟩

/-- `Mark_Redundant` -/
def markRedundant (T : Tester) (sys : System) (isRedundant : Nat → Bool) (st : WorkState) :
    Nat → Bool :=
  if sys.eqnsLe < 1 then isRedundant
  else (marksOf (forFrom (markRound T sys wantRedundant) sys.eqnsLe 0
    (startRedundant sys isRedundant st))).isRedundant

/-- The rows `Mark_New_Redundant` copies. -/
def wantNew (s : MarkState) (_ j : Nat) : Bool := !s.isRedundant j

/-- `Mark_New_Redundant`: the number of marks set, and the marks. -/
def markNewRedundant (T : Tester) (sys : System) (isRedundant : Nat → Bool) (st : WorkState) :
    Nat × (Nat → Bool) :=
  if sys.eqnsLe < 1 then (0, isRedundant)
  else
    let s := marksOf (forFrom (markRound T sys wantNew) sys.eqnsLe 0 ⟨isRedundant, 0, st⟩)
    (s.counter, s.isRedundant)

/-- `Add_Le(row, b)`; only the columns in use are copied. -/
def System.addLe (sys : System) (row : Nat → Int) (b : Int) : System :=
  { sys.storeLe sys.eqnsLe (fun c => if c < sys.vars then row c else sys.ale sys.eqnsLe c, b) with
    eqnsLe := sys.eqnsLe + 1 }

def System.complementLe (sys : System) (r : Nat) : System :=
  sys.storeLe r (fun c => if c < sys.vars then -sys.ale r c else sys.ale r c,
    Arith.machine.i64 (-sys.ble r) - 1)

def System.removeLastLe (sys : System) : System := { sys with eqnsLe := sys.eqnsLe - 1 }

def isConsistent (T : Tester) (sys : System) (st : WorkState) : Bool :=
  match copyToWork sys st with
  | none => true
  | some st₁ =>
    match T.subInEqual sys st₁ with
    | none => true
    | some (true, _) => false
    | some (false, st₂) => (T.isConsistentWork st₂).1

/-- `Add_Le_Non_Redundant`: its answer and the system. -/
def addLeNonRedundant (T : Tester) (sys : System) (row : Nat → Int) (b : Int) (st : WorkState) :
    Bool × System :=
  let newrow := sys.eqnsLe
  let sys₁ := (sys.addLe row b).complementLe newrow
  if isConsistent T sys₁ st then (true, sys₁.complementLe newrow)
  else (false, sys₁.removeLastLe)

/-! ## Meaning -/

/-- The point satisfies inequality `r` of the system. -/
def LeHolds (sys : System) (x : Nat → Int) (r : Nat) : Prop :=
  dot sys.vars (sys.ale r) x ≤ sys.ble r

instance (sys : System) (x : Nat → Int) (r : Nat) : Decidable (LeHolds sys x r) :=
  inferInstanceAs (Decidable (_ ≤ _))

/-- The point satisfies the equalities of the system. -/
def EqsHold (sys : System) (x : Nat → Int) : Prop :=
  ∀ r < sys.eqnsEq, dot sys.vars (sys.aeq r) x = sys.beq r

/-- The tests never declare a satisfiable system inconsistent. -/
structure Tester.Sound (T : Tester) : Prop where
  sub : ∀ sys st p st', T.subInEqual sys st = some (p, st') → st.workCols = sys.vars →
    (∃ x, Solves st x ∧ EqsHold sys x) → p = false ∧ ∃ y, Solves st' y
  work : ∀ st, (∃ x, Solves st x) → (T.isConsistentWork st).1 = true

/-- Without the marked inequalities the system has the same solutions. -/
def SafeMarks (sys : System) (isRedundant : Nat → Bool) : Prop :=
  ∀ x, EqsHold sys x → (∀ r < sys.eqnsLe, isRedundant r = false → LeHolds sys x r) →
    ∀ r < sys.eqnsLe, LeHolds sys x r

/-- Every coefficient of the row has its negative in 32 bits. -/
def Negatable (vars : Nat) (row : Nat → Int) : Prop := ∀ c < vars, row c ≠ int32Min

instance (vars : Nat) (row : Nat → Int) : Decidable (Negatable vars row) :=
  inferInstanceAs (Decidable (∀ _ < _, _))

/-- The point satisfies the equalities and the rows with which row `i` is tested. -/
def OthersHold (sys : System) (want : Nat → Bool) (i : Nat) (x : Nat → Int) : Prop :=
  EqsHold sys x ∧ ∀ r < sys.eqnsLe, r ≠ i → want r = true → LeHolds sys x r

/-- Where row `i` is negated: if no point satisfies the other rows and what is stored for the
negation, row `i` follows from the other rows. -/
def RoundOk (sys : System) (want : Nat → Bool) (i : Nat) (st : WorkState) : Prop :=
  ∀ st', underTest sys want i st = .ok st' →
    (∃ x, OthersHold sys want i x ∧
      dot sys.vars (inverseRow (sys.leRow i)).1 x ≤ (inverseRow (sys.leRow i)).2) ∨
    ∀ x, OthersHold sys want i x → LeHolds sys x i

/-- Every round that the loop reaches is right. -/
def RoundsOk (T : Tester) (sys : System) (want : MarkState → Nat → Nat → Bool)
    (s₀ : MarkState) : Prop :=
  ∀ i s, i < sys.eqnsLe → forFrom (markRound T sys want) i 0 s₀ = .ok s →
    RoundOk sys (want s i) i s.st

/-- Where the complemented system is tested: if it has no solution, the row added is implied. -/
def AddOk (sys : System) (row : Nat → Int) (b : Int) (st : WorkState) : Prop :=
  copyToWork ((sys.addLe row b).complementLe sys.eqnsLe) st ≠ none →
    (∃ x, ((sys.addLe row b).complementLe sys.eqnsLe).Solves x) ∨
    ∀ x, sys.Solves x → dot sys.vars row x ≤ b

/-! ## The negated row -/

theorem dot_neg (n : Nat) (a x : Nat → Int) : dot n (fun j => -a j) x = -dot n a x := by
  have h := dot_mul_left (a := fun j => -a j) (b := a) (n := n) x (-1) fun j _ => by ring
  rw [h]
  ring

theorem inverseConst {b : Int} (hb : Fits64 b) :
    Arith.machine.i64 (Arith.machine.i64 (-b) - 1) = -b - 1 := by
  have hfit : Fits64 (-b - 1) := by
    obtain ⟨hlo, hhi⟩ := hb
    exact ⟨by omega, by omega⟩
  show Int.bmod (Int.bmod (-b) _ - 1) _ = _
  rw [Int.bmod_sub_bmod]
  exact machine_i64 hfit

variable {vars : Nat} {st st' : WorkState}

theorem inverseRow_holds {row : Nat → Int} {b : Int} (hrow : ∀ c, Fits32 (row c))
    (hb : Fits64 b) (hneg : Negatable vars row) (x : Nat → Int) :
    dot vars (inverseRow (row, b)).1 x ≤ (inverseRow (row, b)).2 ↔ ¬ dot vars row x ≤ b := by
  have hcoefs : ∀ c < vars, (inverseRow (row, b)).1 c = -row c := by
    intro c hc
    have hfits := hrow c
    have hne := hneg c hc
    show Arith.machine.i32 (-row c) = -row c
    unfold Fits32 int32Min int32Max at *
    exact machine_i32 ⟨by unfold int32Min; omega, by unfold int32Max; omega⟩
  rw [dot_congr_left x hcoefs, dot_neg]
  show -dot vars row x ≤ Arith.machine.i64 (Arith.machine.i64 (-b) - 1) ↔ _
  rw [inverseConst hb]
  omega

/-! ## The rows under test -/

/-- The work rows are the rows of the system for which `S` holds. -/
structure Holding (sys : System) (S : Nat → Prop) (st : WorkState) : Prop where
  cols : st.workRows = 0 ∨ st.workCols = sys.vars
  rows : ∀ x, Solves st x ↔ ∀ r, S r → LeHolds sys x r

theorem pushRow_spec {row : Nat → Int} {c : Int}
    (hcols : st.workRows = 0 ∨ st.workCols = vars) (h : pushRow vars row c st = some st') :
    st'.workCols = vars ∧ ∀ x, Solves st' x ↔ Solves st x ∧ dot vars row x ≤ c := by
  unfold pushRow at h
  split at h
  · cases h
  split at h
  · cases h
  have hvars : (if st.workRows = 0 then vars else st.workCols) = vars := by
    split
    · rfl
    · next h0 => exact hcols.resolve_left h0
  simp only [Option.some.injEq] at h
  subst h
  refine ⟨hvars, fun x => ?_⟩
  unfold Solves RowHolds
  dsimp only
  rw [hvars]
  have hlast : dot vars (fun j => if st.workRows = st.workRows ∧ j < vars then row j
      else st.work st.workRows j) x = dot vars row x :=
    dot_congr_left x fun j hj => if_pos ⟨rfl, hj⟩
  have hold : ∀ r < st.workRows, (dot vars (fun j => if r = st.workRows ∧ j < vars then row j
      else st.work r j) x ≤ update st.workConst st.workRows c r ↔
      dot st.workCols (st.work r) x ≤ st.workConst r) := by
    intro r hr
    have hcols' : st.workCols = vars := hcols.resolve_left (by omega)
    rw [update_of_ne (by omega), hcols',
      dot_congr_left x (b := st.work r) fun j _ => if_neg fun h => by omega]
  constructor
  · intro h
    refine ⟨fun r hr => (hold r hr).mp (h r (by omega)), ?_⟩
    have hrow := h st.workRows (by omega)
    rw [hlast, update_self] at hrow
    exact hrow
  · rintro ⟨h1, h2⟩ r hr
    rcases Nat.lt_succ_iff_lt_or_eq.mp hr with hlt | rfl
    · exact (hold r hlt).mpr (h1 r hlt)
    · rw [hlast, update_self]
      exact h2

/-- The copy takes the wanted rows in order, or stops where the work array is full. -/
theorem copyWanted_spec {sys : System} {S : Nat → Prop} (want : Nat → Bool) (n lo : Nat)
    (h : Holding sys S st) : Outcome (fun _ => True)
      (Holding sys fun r => S r ∨ (lo ≤ r ∧ r < lo + n ∧ want r = true))
      (copyWanted sys want n lo st) := by
  have hloop := forFrom_outcome
    (f := fun j st => if want j then
        match copyLeToWork sys j st with
        | none => .error ()
        | some st' => .ok st'
      else .ok st)
    (Q := fun _ : Unit => True)
    (fun j t => Holding sys (fun r => S r ∨ (lo ≤ r ∧ r < j ∧ want r = true)) t) n lo st
    (by
      intro j t hlo _ ht
      by_cases hw : want j = true
      · rw [if_pos hw]
        cases hcopy : copyLeToWork sys j t with
        | none => trivial
        | some t' =>
          obtain ⟨hcols, hrows⟩ := pushRow_spec ht.cols hcopy
          refine ⟨.inr hcols, fun x => ?_⟩
          rw [hrows x, ht.rows x]
          constructor
          · rintro ⟨h1, h2⟩ r hr
            rcases hr with hr | ⟨hr1, hr2, hr3⟩
            · exact h1 r (.inl hr)
            · rcases Nat.lt_succ_iff_lt_or_eq.mp hr2 with hlt | rfl
              · exact h1 r (.inr ⟨hr1, hlt, hr3⟩)
              · exact h2
          · intro hall
            exact ⟨fun r hr => hall r (hr.imp_right fun hr => ⟨hr.1, by omega, hr.2.2⟩),
              hall j (.inr ⟨hlo, by omega, hw⟩)⟩
      · rw [if_neg hw]
        refine ⟨ht.cols, fun x => ?_⟩
        rw [ht.rows x]
        refine forall_congr' fun r => imp_congr_left (or_congr_right ?_)
        constructor
        · exact fun hr => ⟨hr.1, by omega, hr.2.2⟩
        · rintro ⟨hr1, hr2, hr3⟩
          rcases Nat.lt_succ_iff_lt_or_eq.mp hr2 with hlt | rfl
          · exact ⟨hr1, hlt, hr3⟩
          · exact absurd hr3 hw)
    ⟨h.cols, fun x => by
      rw [h.rows x]
      refine forall_congr' fun r => imp_congr_left ⟨.inl, fun hr => ?_⟩
      rcases hr with hr | ⟨h1, h2, _⟩
      · exact hr
      · omega⟩
  exact hloop

/-- The work array under test holds the wanted rows and the negation, and nothing else. -/
theorem underTest_spec {sys : System} {want : Nat → Bool} {i : Nat} (hi : i < sys.eqnsLe)
    (h : underTest sys want i st = .ok st') : st'.workCols = sys.vars ∧ ∀ x, EqsHold sys x →
      (Solves st' x ↔ OthersHold sys want i x ∧
        dot sys.vars (inverseRow (sys.leRow i)).1 x ≤ (inverseRow (sys.leRow i)).2) := by
  have hinit : Holding sys (fun _ => False) { st with workRows := 0 } :=
    ⟨.inl rfl, fun x => ⟨fun _ r hr => hr.elim, fun _ r hr => absurd hr (Nat.not_lt_zero r)⟩⟩
  have hcopy1 := copyWanted_spec want i 0 hinit
  unfold underTest at h
  split at h
  · cases h
  next st1 hres1 =>
  rw [hres1] at hcopy1
  have hcopy2 := copyWanted_spec want (sys.eqnsLe - (i + 1)) (i + 1) hcopy1
  split at h
  · cases h
  next st2 hres2 =>
  rw [hres2] at hcopy2
  split at h
  · cases h
  next st3 hinv =>
  cases h
  obtain ⟨hcols, hsolves⟩ := pushRow_spec hcopy2.cols hinv
  refine ⟨hcols, fun x heqs => (hsolves x).trans (and_congr_left' ?_)⟩
  rw [hcopy2.rows x]
  constructor
  · intro hall
    refine ⟨heqs, fun r hr hne hw => hall r ?_⟩
    rcases Nat.lt_or_gt_of_ne hne with hlt | hgt
    · exact .inl (.inr ⟨Nat.zero_le _, by omega, hw⟩)
    · exact .inr ⟨hgt, by omega, hw⟩
  · rintro ⟨_, hall⟩ r hr
    rcases hr with (hr | ⟨_, hr, hw⟩) | ⟨hr1, hr2, hw⟩
    · exact hr.elim
    · exact hall r (by omega) (by omega) hw
    · exact hall r (by omega) (by omega) hw

/-- A row whose coefficients all have negatives is tested rightly. -/
theorem RoundOk.of_negatable {sys : System} {want : Nat → Bool} {i : Nat}
    (hneg : Negatable sys.vars (sys.ale i)) : RoundOk sys want i st := by
  intro st' _
  by_cases himp : ∀ x, OthersHold sys want i x → LeHolds sys x i
  · exact .inr himp
  · push Not at himp
    obtain ⟨x, hx, hnot⟩ := himp
    exact .inl ⟨x, hx, (inverseRow_holds (sys.aleFits i) (sys.bleFits i) hneg x).mpr hnot⟩

theorem testRow_implied {T : Tester} (hT : T.Sound) {sys : System} {want : Nat → Bool} {i : Nat}
    (hi : i < sys.eqnsLe) (hok : RoundOk sys want i st)
    (h : testRow T sys want i st = .ok (true, st')) (x : Nat → Int)
    (hx : OthersHold sys want i x) : LeHolds sys x i := by
  unfold testRow at h
  split at h
  · cases h
  next st3 hunder =>
  obtain ⟨hcols, hsolves⟩ := underTest_spec hi hunder
  rcases hok st3 hunder with ⟨y, hy, hinv⟩ | himp
  · -- the tests see that the work rows have a solution
    have hsat : ∃ y, Solves st3 y ∧ EqsHold sys y := ⟨y, (hsolves y hy.1).mpr ⟨hy, hinv⟩, hy.1⟩
    split at h
    · cases h
    · next st4 hres => exact absurd (hT.sub _ _ _ _ hres hcols hsat).1 (by decide)
    · next st4 hres =>
      rw [hT.work st4 (hT.sub _ _ _ _ hres hcols hsat).2] at h
      cases h
  · exact himp x hx

/-! ## The marking loops -/

theorem SafeMarks.update {sys : System} {isRedundant : Nat → Bool} {i : Nat}
    (h : SafeMarks sys isRedundant) (himp : ∀ x, EqsHold sys x →
      (∀ r < sys.eqnsLe, r ≠ i → isRedundant r = false → LeHolds sys x r) → LeHolds sys x i) :
    SafeMarks sys (update isRedundant i true) := by
  intro x heqs hrows
  have hothers : ∀ r < sys.eqnsLe, r ≠ i → isRedundant r = false → LeHolds sys x r := by
    intro r hr hne hmark
    exact hrows r hr (by rw [update_of_ne hne]; exact hmark)
  refine h x heqs fun r hr hmark => ?_
  by_cases hri : r = i
  · rw [hri]
    exact himp x heqs hothers
  · exact hothers r hr hri hmark

/-- The rows that are copied are those not marked. -/
def WantsUnmarked (sys : System) (want : MarkState → Nat → Nat → Bool) (i : Nat) (s : MarkState) :
    Prop :=
  ∀ r < sys.eqnsLe, r ≠ i → (want s i r = true ↔ s.isRedundant r = false)

theorem WantsUnmarked.othersHold {sys : System} {want : MarkState → Nat → Nat → Bool} {i : Nat}
    {s : MarkState} (h : WantsUnmarked sys want i s) {x : Nat → Int} (heqs : EqsHold sys x) :
    OthersHold sys (want s i) i x ↔
      ∀ r < sys.eqnsLe, r ≠ i → s.isRedundant r = false → LeHolds sys x r :=
  ⟨fun hx r hr hne hm => hx.2 r hr hne ((h r hr hne).mpr hm),
    fun hx => ⟨heqs, fun r hr hne hw => hx r hr hne ((h r hr hne).mp hw)⟩⟩

/-- One round keeps the marks safe. -/
theorem markRound_safe {T : Tester} (hT : T.Sound) {sys : System}
    {want : MarkState → Nat → Nat → Bool} {i : Nat} {s : MarkState} (hi : i < sys.eqnsLe)
    (hwant : WantsUnmarked sys want i s) (hsafe : SafeMarks sys s.isRedundant)
    (hok : RoundOk sys (want s i) i s.st) :
    SafeMarks sys (marksOf (markRound T sys want i s)).isRedundant := by
  unfold markRound
  split
  · exact hsafe
  · next st' hres =>
    exact hsafe.update fun x heqs hrows =>
      testRow_implied hT hi hok hres x ((hwant.othersHold heqs).mpr hrows)
  · exact hsafe

theorem markLoop_safe {T : Tester} (hT : T.Sound) {sys : System}
    {want : MarkState → Nat → Nat → Bool} {I : Nat → MarkState → Prop}
    (hwant : ∀ i s, i < sys.eqnsLe → I i s → WantsUnmarked sys want i s)
    (hmark : ∀ i s st' n, i < sys.eqnsLe → I i s →
      I (i + 1) ⟨update s.isRedundant i true, n, st'⟩)
    (hskip : ∀ i s st', i < sys.eqnsLe → I i s → I (i + 1) { s with st := st' })
    {s0 : MarkState} (hinit : I 0 s0) (hsafe : SafeMarks sys s0.isRedundant)
    (hok : RoundsOk T sys want s0) :
    SafeMarks sys (marksOf (forFrom (markRound T sys want) sys.eqnsLe 0 s0)).isRedundant := by
  have hloop := forFrom_reached (f := markRound T sys want)
    (Q := fun s => SafeMarks sys s.isRedundant)
    (fun i s => I i s ∧ SafeMarks sys s.isRedundant) sys.eqnsLe s0
    (by
      rintro i s hi hreached ⟨hinv, hs⟩
      have hround := markRound_safe hT hi (hwant i s hi hinv) hs (hok i s hi hreached)
      unfold markRound at hround ⊢
      split
      · exact hs
      · next st' hres =>
        rw [hres] at hround
        exact ⟨hmark i s st' _ hi hinv, hround⟩
      · exact ⟨hskip i s _ hi hinv, hs⟩)
    ⟨hinit, hsafe⟩
  cases hres : forFrom (markRound T sys want) sys.eqnsLe 0 s0 with
  | error s => rw [hres] at hloop; exact hloop
  | ok s => rw [hres] at hloop; exact hloop.2

theorem safeMarks_none {sys : System} (h : sys.eqnsLe < 1) (isRedundant : Nat → Bool) :
    SafeMarks sys isRedundant := fun _ _ _ r hr => absurd hr (by omega)

section

variable {T : Tester} (hT : T.Sound) {sys : System}
include hT

theorem markRedundant_safe (isRedundant : Nat → Bool) (st : WorkState)
    (hok : RoundsOk T sys wantRedundant (startRedundant sys isRedundant st)) :
    SafeMarks sys (markRedundant T sys isRedundant st) := by
  unfold markRedundant
  split
  · next h => exact safeMarks_none h _
  · refine markLoop_safe hT (I := fun i s => ∀ r < sys.eqnsLe, i ≤ r → s.isRedundant r = false)
      ?_ ?_ ?_ ?_ ?_ hok
    · intro i s hi hinv r hr hne
      unfold wantRedundant
      rcases Nat.lt_or_gt_of_ne hne with hlt | hgt
      · rw [decide_eq_false (by omega), Bool.false_or, Bool.not_eq_true']
      · rw [decide_eq_true (by omega), Bool.true_or]
        exact iff_of_true rfl (hinv r hr hgt.le)
    · intro i s st' n _ hinv r hr hle
      show update s.isRedundant i true r = false
      rw [update_of_ne (by omega)]
      exact hinv r hr (by omega)
    · exact fun i s st' _ hinv r hr hle => hinv r hr (by omega)
    · exact fun r hr _ => if_pos hr
    · exact fun x _ hrows r hr => hrows r hr (if_pos hr)

theorem markNewRedundant_safe {isRedundant : Nat → Bool} (hsafe : SafeMarks sys isRedundant)
    (st : WorkState) (hok : RoundsOk T sys wantNew ⟨isRedundant, 0, st⟩) :
    SafeMarks sys (markNewRedundant T sys isRedundant st).2 := by
  unfold markNewRedundant
  split
  · exact hsafe
  · refine markLoop_safe hT (I := fun _ _ => True) ?_ (fun _ _ _ _ _ _ => trivial)
      (fun _ _ _ _ _ => trivial) trivial hsafe hok
    intro i s _ _ r _ _
    unfold wantNew
    rw [Bool.not_eq_true']

end

/-! ## The strongest tests -/

section complete
open Classical

/-- Tests that find every contradiction. -/
noncomputable def completeTester : Tester where
  subInEqual := fun sys st => some (decide ¬ ∃ x, Solves st x ∧ EqsHold sys x, st)
  isConsistentWork := fun st => (true, st)

theorem completeTester_sound : completeTester.Sound := by
  refine ⟨fun sys st p st' h _ hsat => ?_, fun _ _ => rfl⟩
  cases h
  refine ⟨decide_eq_false (not_not.mpr hsat), ?_⟩
  obtain ⟨x, hx, _⟩ := hsat
  exact ⟨x, hx⟩

end complete

/-- The condition on a round is exact: where it fails, some sound tests mark a row wrongly. -/
theorem markRound_safe_iff {sys : System} {want : MarkState → Nat → Nat → Bool} {i : Nat}
    {s : MarkState} (hi : i < sys.eqnsLe) (hwant : WantsUnmarked sys want i s)
    (hsafe : SafeMarks sys s.isRedundant) :
    (∀ T : Tester, T.Sound → SafeMarks sys (marksOf (markRound T sys want i s)).isRedundant) ↔
      RoundOk sys (want s i) i s.st := by
  refine ⟨fun hall st' hunder => ?_, fun hok T hT => markRound_safe hT hi hwant hsafe hok⟩
  by_contra hbad
  push Not at hbad
  obtain ⟨hnone, x, hx, hnot⟩ := hbad
  obtain ⟨_, hsolves⟩ := underTest_spec hi hunder
  have hunsat : ¬ ∃ y, Solves st' y ∧ EqsHold sys y := fun ⟨y, hy, heqs⟩ =>
    absurd ((hsolves y heqs).mp hy).2 (not_le.mpr (hnone y ((hsolves y heqs).mp hy).1))
  have hround := hall completeTester completeTester_sound
  have hres : testRow completeTester sys (want s i) i s.st = .ok (true, st') := by
    unfold testRow completeTester
    rw [hunder]
    simp only [hunsat, not_false_eq_true, decide_true]
  unfold markRound at hround
  rw [hres] at hround
  -- without row `i` the point satisfies what is left of the system
  refine hnot (hround x hx.1 (fun r hr hm => ?_) i hi)
  have hne : r ≠ i := fun heq => by
    rw [heq] at hm
    change update s.isRedundant i true i = false at hm
    rw [update_self] at hm
    cases hm
  change update s.isRedundant i true r = false at hm
  rw [update_of_ne hne] at hm
  exact (hwant.othersHold hx.1).mp hx r hr hne hm

/-! ## Adding a row -/

section add
variable {sys : System} {row : Nat → Int} {b : Int}

theorem addLe_leRow (sys : System) (hrow : ∀ c, Fits32 (row c)) (hb : Fits64 b) :
    (∀ r, r ≠ sys.eqnsLe → (sys.addLe row b).leRow r = sys.leRow r) ∧
    (∀ c < sys.vars, (sys.addLe row b).ale sys.eqnsLe c = row c) ∧
    (sys.addLe row b).ble sys.eqnsLe = b := by
  have hview := leRow_storeLe sys sys.eqnsLe
    (fun c => if c < sys.vars then row c else sys.ale sys.eqnsLe c, b)
  have hlast : (sys.addLe row b).leRow sys.eqnsLe
      = (fun c => if c < sys.vars then row c else sys.ale sys.eqnsLe c, b) := by
    show (sys.storeLe sys.eqnsLe _).leRow sys.eqnsLe = _
    rw [hview, update_self]
    refine storedRow_eq (fun c => ?_) hb
    dsimp only
    split
    · exact hrow c
    · exact sys.aleFits _ c
  refine ⟨fun r hr => ?_, fun c hc => ?_, congrArg Prod.snd hlast⟩
  · show (sys.storeLe sys.eqnsLe _).leRow r = _
    rw [hview, update_of_ne hr]
  · have h := congrFun (congrArg Prod.fst hlast) c
    rw [show ((sys.addLe row b).leRow sys.eqnsLe).1 c = (sys.addLe row b).ale sys.eqnsLe c from rfl]
      at h
    rw [h]
    exact if_pos hc

theorem complementLe_leRow (sys : System) (r : Nat) :
    (∀ s, s ≠ r → (sys.complementLe r).leRow s = sys.leRow s) ∧
    (∀ c < sys.vars, (sys.complementLe r).ale r c = Arith.machine.i32 (-sys.ale r c)) ∧
    (sys.complementLe r).ble r = -sys.ble r - 1 := by
  have hview := leRow_storeLe sys r (fun c => if c < sys.vars then -sys.ale r c else sys.ale r c,
    Arith.machine.i64 (-sys.ble r) - 1)
  refine ⟨fun s hs => ?_, fun c hc => ?_, ?_⟩
  · show (sys.storeLe r _).leRow s = _
    rw [hview, update_of_ne hs]
  · have h := congrFun (congrArg Prod.fst (congrFun hview r)) c
    rw [update_self] at h
    show ((sys.storeLe r _).leRow r).1 c = _
    rw [h]
    show Arith.machine.i32 (if c < sys.vars then -sys.ale r c else sys.ale r c) = _
    rw [if_pos hc]
  · have h := congrArg Prod.snd (congrFun hview r)
    rw [update_self] at h
    show ((sys.storeLe r _).leRow r).2 = _
    rw [h]
    exact inverseConst (sys.bleFits r)

/-- Two sign changes give the coefficient back, even `INT32_MIN`. -/
theorem i32_neg_neg {z : Int} (h : Fits32 z) : Arith.machine.i32 (-Arith.machine.i32 (-z)) = z:= by
  show Int.bmod (-Int.bmod (-z) _) _ = z
  rw [← zero_sub, Int.sub_bmod_bmod, zero_sub, neg_neg]
  exact machine_i32 h

theorem solves_extended (sys sys' : System) (hvars : sys'.vars = sys.vars)
    (hles : sys'.eqnsLe = sys.eqnsLe + 1) (heqs : sys'.eqnsEq = sys.eqnsEq)
    (heqRow : sys'.eqRow = sys.eqRow) (hrows : ∀ r < sys.eqnsLe, sys'.leRow r = sys.leRow r)
    (x : Nat → Int) : sys'.Solves x ↔ sys.Solves x ∧ LeHolds sys' x sys.eqnsLe:= by
  have hrow : ∀ r < sys.eqnsLe, (LeHolds sys' x r ↔ LeHolds sys x r) := by
    intro r hr
    unfold LeHolds
    rw [hvars, show sys'.ale r = sys.ale r from congrArg Prod.fst (hrows r hr),
      show sys'.ble r = sys.ble r from congrArg Prod.snd (hrows r hr)]
  have heq : (EqsHold sys' x ↔ EqsHold sys x) := by
    unfold EqsHold
    rw [heqs, hvars]
    refine forall₂_congr fun r _ => ?_
    rw [show sys'.aeq r = sys.aeq r from congrArg Prod.fst (congrFun heqRow r),
      show sys'.beq r = sys.beq r from congrArg Prod.snd (congrFun heqRow r)]
  constructor
  · rintro ⟨h1, h2⟩
    rw [hles] at h1
    exact ⟨⟨fun r hr => (hrow r hr).mp (h1 r (by omega)), heq.mp h2⟩, h1 sys.eqnsLe (by omega)⟩
  · rintro ⟨⟨h1, h2⟩, h3⟩
    refine ⟨fun r hr => ?_, heq.mpr h2⟩
    rw [hles] at hr
    rcases Nat.lt_succ_iff_lt_or_eq.mp hr with hlt | rfl
    · exact (hrow r hlt).mpr (h1 r hlt)
    · exact h3

section

variable (hrow : ∀ c, Fits32 (row c)) (hb : Fits64 b)
include hrow hb

theorem complemented_solves (hneg : Negatable sys.vars row) (x : Nat → Int) :
    ((sys.addLe row b).complementLe sys.eqnsLe).Solves x ↔
      sys.Solves x ∧ ¬ dot sys.vars row x ≤ b := by
  obtain ⟨hsame, hcoef, hconst⟩ := addLe_leRow sys hrow hb
  obtain ⟨hsame', hcoef', hconst'⟩ := complementLe_leRow (sys.addLe row b) sys.eqnsLe
  rw [solves_extended sys ((sys.addLe row b).complementLe sys.eqnsLe) rfl rfl rfl rfl
    fun r hr => (hsame' r (by omega)).trans (hsame r (by omega))]
  refine and_congr_right fun _ => ?_
  rw [← inverseRow_holds hrow hb hneg x]
  unfold LeHolds
  rw [hconst', hconst]
  show dot sys.vars _ x ≤ -b - 1 ↔ dot sys.vars _ x ≤ Arith.machine.i64 (Arith.machine.i64 (-b) - 1)
  rw [inverseConst hb, dot_congr_left x (b := (inverseRow (row, b)).1) fun c hc => by
    rw [hcoef' c hc, hcoef c hc]
    rfl]

theorem restored_solves (x : Nat → Int) :
    (((sys.addLe row b).complementLe sys.eqnsLe).complementLe sys.eqnsLe).Solves x ↔
      sys.Solves x ∧ dot sys.vars row x ≤ b := by
  obtain ⟨hsame, hcoef, hconst⟩ := addLe_leRow sys hrow hb
  obtain ⟨hsame1, hcoef1, hconst1⟩ := complementLe_leRow (sys.addLe row b) sys.eqnsLe
  obtain ⟨hsame2, hcoef2, hconst2⟩ :=
    complementLe_leRow ((sys.addLe row b).complementLe sys.eqnsLe) sys.eqnsLe
  rw [solves_extended sys (((sys.addLe row b).complementLe sys.eqnsLe).complementLe sys.eqnsLe)
    rfl rfl rfl rfl fun r hr => ((hsame2 r (by omega)).trans (hsame1 r (by omega))).trans (hsame r (by omega))]
  refine and_congr_right fun _ => ?_
  unfold LeHolds
  rw [hconst2, hconst1, hconst, show -(-b - 1) - 1 = b by ring]
  show dot sys.vars _ x ≤ b ↔ _
  rw [dot_congr_left x (b := row) fun c hc => by
    rw [hcoef2 c hc, hcoef1 c hc, hcoef c hc, i32_neg_neg (hrow c)]]

theorem removed_solves (x : Nat → Int) :
    ((sys.addLe row b).complementLe sys.eqnsLe).removeLastLe.Solves x ↔ sys.Solves x := by
  obtain ⟨hsame, _⟩ := addLe_leRow sys hrow hb
  obtain ⟨hsame1, _⟩ := complementLe_leRow (sys.addLe row b) sys.eqnsLe
  refine and_congr ?_ Iff.rfl
  show (∀ r < sys.eqnsLe + 1 - 1, _) ↔ ∀ r < sys.eqnsLe, _
  rw [Nat.add_sub_cancel]
  refine forall₂_congr fun r hr => ?_
  have hview := (hsame1 r (by omega)).trans (hsame r (by omega))
  rw [show ((sys.addLe row b).complementLe sys.eqnsLe).removeLastLe.ale r = sys.ale r
      from congrArg Prod.fst hview,
    show ((sys.addLe row b).complementLe sys.eqnsLe).removeLastLe.ble r = sys.ble r
      from congrArg Prod.snd hview]
  rfl

end

end add

theorem copyToWork_solves {sys : System} (h : copyToWork sys st = some st') :
    st'.workCols = sys.vars ∧ ∀ x, Solves st' x ↔ ∀ r < sys.eqnsLe, LeHolds sys x r := by
  unfold copyToWork at h
  split at h
  · cases h
  split at h
  · cases h
  simp only [Option.some.injEq] at h
  subst h
  refine ⟨rfl, fun x => forall₂_congr fun r hr => ?_⟩
  unfold RowHolds LeHolds
  dsimp only
  rw [if_pos hr, dot_congr_left x (b := sys.ale r) fun j hj => if_pos ⟨hr, hj⟩]

theorem isConsistent_sound {T : Tester} (hT : T.Sound) {sys : System}
    (h : isConsistent T sys st = false) :
    copyToWork sys st ≠ none ∧ ¬ ∃ x, sys.Solves x := by
  unfold isConsistent at h
  split at h
  · cases h
  next st1 hcopy =>
  obtain ⟨hcols, hsolves⟩ := copyToWork_solves hcopy
  refine ⟨by rw [hcopy]; exact Option.some_ne_none st1, ?_⟩
  rintro ⟨x, hles, heqs⟩
  have hsat : ∃ y, Solves st1 y ∧ EqsHold sys y := ⟨x, (hsolves x).mpr hles, heqs⟩
  split at h
  · cases h
  · next st2 hres => exact absurd (hT.sub _ _ _ _ hres hcols hsat).1 (by decide)
  · next st2 hres =>
    rw [hT.work st2 (hT.sub _ _ _ _ hres hcols hsat).2] at h
    cases h

/-- A row whose coefficients all have negatives is complemented rightly. -/
theorem AddOk.of_negatable {sys : System} {row : Nat → Int} {b : Int} (hrow : ∀ c, Fits32 (row c))
    (hb : Fits64 b) (hneg : Negatable sys.vars row) : AddOk sys row b st := by
  intro _
  by_cases himp : ∀ x, sys.Solves x → dot sys.vars row x ≤ b
  · exact .inr himp
  · push Not at himp
    obtain ⟨x, hx, hnot⟩ := himp
    exact .inl ⟨x, (complemented_solves hrow hb hneg x).mpr ⟨hx, not_le.mpr hnot⟩⟩

theorem isConsistent_complete {sys : System} (hcopy : copyToWork sys st ≠ none)
    (hnone : ¬ ∃ x, sys.Solves x) : isConsistent completeTester sys st = false := by
  unfold isConsistent
  cases hst : copyToWork sys st with
  | none => exact absurd hst hcopy
  | some st1 =>
    have hsolves := (copyToWork_solves hst).2
    have hunsat : ¬ ∃ x, Solves st1 x ∧ EqsHold sys x := fun ⟨x, hx, heqs⟩ =>
      hnone ⟨x, fun r hr => (hsolves x).mp hx r hr, heqs⟩
    unfold completeTester
    simp only [hunsat, not_false_eq_true, decide_true]

/-- What `Add_Le_Non_Redundant` promises: the row holds afterwards, and is dropped only if implied.
-/
def AddRight (T : Tester) (sys : System) (row : Nat → Int) (b : Int) (st : WorkState) : Prop :=
  ∀ x, ((addLeNonRedundant T sys row b st).2.Solves x ↔ sys.Solves x ∧ dot sys.vars row x ≤ b) ∧
    ((addLeNonRedundant T sys row b st).1 = false → sys.Solves x → dot sys.vars row x ≤ b)

theorem addLeNonRedundant_right_iff (sys : System) {row : Nat → Int} {b : Int}
    (hrow : ∀ c, Fits32 (row c)) (hb : Fits64 b) (st : WorkState) :
    (∀ T : Tester, T.Sound → AddRight T sys row b st) ↔ AddOk sys row b st := by
  constructor
  · intro hall hcopy
    by_contra hbad
    push Not at hbad
    obtain ⟨hnone, x, hx, hnot⟩ := hbad
    have hfalse := isConsistent_complete hcopy fun ⟨y, hy⟩ => hnone y hy
    refine absurd ((hall completeTester completeTester_sound x).2 ?_ hx) (not_le.mpr hnot)
    unfold addLeNonRedundant
    dsimp only
    rw [if_neg (by rw [hfalse]; exact Bool.false_ne_true)]
  · intro hok T hT x
    unfold addLeNonRedundant
    dsimp only
    split
    · exact ⟨restored_solves hrow hb x, fun h => absurd h.symm Bool.false_ne_true⟩
    · next hcons =>
      rw [Bool.not_eq_true] at hcons
      obtain ⟨hcopy, hnone⟩ := isConsistent_sound hT hcons
      have himp := (hok hcopy).resolve_left hnone
      exact ⟨(removed_solves hrow hb x).trans ⟨fun hx => ⟨hx, himp x hx⟩, fun hx => hx.1⟩,
        fun _ hx => himp x hx⟩

/-! ## The result -/

/-- The tests on a system without equalities. -/
def plainTester : Tester where
  subInEqual := fun sys st => if sys.eqnsEq = 0 then some (false, st) else none
  isConsistentWork := fun st => ((isConsistentWork .exact true st).getD true, st)

theorem plainTester_sound : plainTester.Sound := by
  refine ⟨fun sys st p st' h _ hsat => ?_, fun st hsat => ?_⟩
  · obtain ⟨x, hx, _⟩ := hsat
    unfold plainTester at h
    dsimp only at h
    split at h
    · cases h
      exact ⟨rfl, x, hx⟩
    · cases h
  · have hsound := isConsistentWork_sound true st
    show (isConsistentWork .exact true st).getD true = true
    cases hres : isConsistentWork .exact true st with
    | none => rfl
    | some answer =>
      cases answer with
      | true => rfl
      | false => exact absurd hsat (hsound hres)

/-- `x <= 4` and `2 x <= 12`. -/
def looseSystem : System where
  ale := fun r _ => if r = 0 then 1 else 2
  ble := fun r => if r = 0 then 4 else 12
  eqnsLe := 2
  aeq := fun _ _ => 0
  beq := fun _ => 0
  eqnsEq := 0
  vars := 1
  aleFits := fun r _ => by split <;> decide
  bleFits := fun r => by split <;> decide
  aeqFits := fits32_zero
  beqFits := fits64_zero

/-- Nothing in the work array yet. -/
def emptyWork : WorkState := .ofRows 1 []

/-- `-2^31 x <= 0` and `x <= 0`. -/
def leastSystem : System where
  ale := fun r _ => if r = 0 then -2147483648 else 1
  ble := fun _ => 0
  eqnsLe := 2
  aeq := fun _ _ => 0
  beq := fun _ => 0
  eqnsEq := 0
  vars := 1
  aleFits := fun r _ => by split <;> decide
  bleFits := fits64_zero
  aeqFits := fits32_zero
  beqFits := fits64_zero

end Soe
