import Path64.Lib.CDiv
import Path64.Soe.Work

/-! # The single-variable-per-constraint test

`SVPC` turns every row with one variable into a bound on that variable
and answers INCONSISTENT as soon as two bounds cross. Rows with more
variables are left for the tests that follow; the bounds stay behind
in `_lower_bound` and `_upper_bound`. -/

namespace Soe

open Function LinearRow Loop

/-! ## Model -/

/-- The upper bound `c / a` of `a * v <= c`, rounded towards negative infinity. -/
def svpcUpper (ar : Arith) (a c : Int) : Int :=
  ar.i32 (if 0 ≤ c ∨ c.tmod a = 0 then c.tdiv a else -((-c).tdiv a) - 1)

/-- The lower bound `c / a` of `a * v <= c` for negative `a`, rounded up. -/
def svpcLower (ar : Arith) (a c : Int) : Int :=
  ar.i32 (if 0 ≤ c ∨ c.tmod a = 0 then -(c.tdiv (ar.i32 (-a)))
    else (-c).tdiv (ar.i32 (-a)) + 1)

/-- `SVPC_Set_Bound`: row `i` only uses variable `var`; take the bound it puts on it. -/
def svpcSetBound (ar : Arith) (i var : Nat) (st : WorkState) : WorkState :=
  let a := st.work i var
  let c := st.workConst i
  if a > 0 then
    if svpcUpper ar a c < (st.upperBound var).val then
      { st with upperBound := update st.upperBound var ⟨svpcUpper ar a c⟩ }
    else st
  else if a < 0 then
    if svpcLower ar a c > (st.lowerBound var).val then
      { st with lowerBound := update st.lowerBound var ⟨svpcLower ar a c⟩ }
    else st
  else if c < 0 then
    -- inconsistent, so set the lower bound above the upper one
    { st with
      lowerBound := update st.lowerBound var ⟨1⟩
      upperBound := update st.upperBound var ⟨0⟩ }
  else st

/-- One turn of the loop of `One_Var_Consistent`. -/
def oneVarStep (ar : Arith) (var i : Nat) (st : WorkState) : Except (Bool × WorkState) WorkState:=
  if st.workConst i ≥ int32Max - 1 ∨ st.workConst i ≤ int32Min + 1 then
    .error (true, st)
  else
    let st' := svpcSetBound ar i var st
    if (st'.lowerBound var).val > (st'.upperBound var).val then .error (false, st')
    else .ok st'

/-- `One_Var_Consistent(var, from, from + count - 1)`. -/
def oneVarConsistent (ar : Arith) (allowWrapAroundOpt : Bool) (var start count : Nat)
    (st : WorkState) : Bool × WorkState :=
  if !allowWrapAroundOpt then (true, st)
  else
    match forFrom (oneVarStep ar var) count start st with
    | .error r => r
    | .ok st' => (true, st')

inductive SvpcResult where
  | consistent
  | inconsistent
  | inapplicable
  deriving DecidableEq

/-- What the column loop of `SVPC` finds out about one row. -/
structure RowScan where
  numVars : Nat
  varPos : Nat
  applicable : Bool
  deriving DecidableEq

def svpcScanStep (row : Nat → Int) (j : Nat) (sc : RowScan) : RowScan :=
  if row j ≠ 0 then
    { numVars := 1, varPos := j,
      applicable := if sc.numVars ≠ 0 then false else sc.applicable }
  else sc

def svpcScan (row : Nat → Int) (cols : Nat) : RowScan :=
  forEach (svpcScanStep row) cols 0 { numVars := 0, varPos := 0, applicable := true }

/-- One turn of the row loop of `SVPC`. The `Bool` is `applicable`. -/
def svpcStep (ar : Arith) (allowWrapAroundOpt : Bool) (i : Nat) (s : Bool × WorkState) :
    Except (SvpcResult × WorkState) (Bool × WorkState) :=
  let st := s.2
  let sc := svpcScan (st.work i) st.workCols
  let applicable := s.1 && sc.applicable
  if sc.numVars = 0 then
    if st.workConst i < 0 then .error (.inconsistent, st)
    else .ok (applicable, { st with isSvpc := update st.isSvpc i sc.applicable })
  else if sc.applicable then
    match oneVarConsistent ar allowWrapAroundOpt sc.varPos i 1 st with
    | (false, st') => .error (.inconsistent, st')
    | (true, st') =>
      .ok (applicable, { st' with isSvpc := update st'.isSvpc i sc.applicable })
  else .ok (applicable, { st with isSvpc := update st.isSvpc i sc.applicable })

/-- The bounds `SVPC` starts from. -/
def resetBounds (st : WorkState) : WorkState :=
  { st with
    lowerBound := fun v => if v < st.workCols then .negInfinite else st.lowerBound v
    upperBound := fun v => if v < st.workCols then .infinite else st.upperBound v }

def svpc (ar : Arith) (allowWrapAroundOpt : Bool) (st : WorkState) : SvpcResult × WorkState:=
  match forFrom (svpcStep ar allowWrapAroundOpt) st.workRows 0 (true, resetBounds st) with
  | .error r => r
  | .ok (applicable, st') => (if applicable then .consistent else .inapplicable, st')

/-! ## One bound -/

/-- The state differs from `st` in its bounds only. -/
def BoundsOnly (st st' : WorkState) : Prop :=
  ∃ lb ub, st' = { st with lowerBound := lb, upperBound := ub }

theorem BoundsOnly.refl (st : WorkState) : BoundsOnly st st :=
  ⟨st.lowerBound, st.upperBound, rfl⟩

theorem BoundsOnly.trans {s1 s2 s3 : WorkState} (h1 : BoundsOnly s1 s2)
    (h2 : BoundsOnly s2 s3) : BoundsOnly s1 s3 := by
  obtain ⟨lb, ub, rfl⟩ := h1
  obtain ⟨lb', ub', rfl⟩ := h2
  exact ⟨lb', ub', rfl⟩

theorem svpcSetBound_boundsOnly (ar : Arith) (i var : Nat) (st : WorkState) :
    BoundsOnly st (svpcSetBound ar i var st) := by
  unfold svpcSetBound
  dsimp only
  split_ifs
  · exact ⟨st.lowerBound, _, rfl⟩
  · exact BoundsOnly.refl st
  · exact ⟨_, st.upperBound, rfl⟩
  · exact BoundsOnly.refl st
  · exact ⟨_, _, rfl⟩
  · exact BoundsOnly.refl st

/-- Row `r` mentions no variable but `v`. -/
def OnlyVar (st : WorkState) (r v : Nat) : Prop :=
  ∀ j < st.workCols, j ≠ v → st.work r j = 0

variable {st st' : WorkState} {x : Nat → Int} {r v i var : Nat} {a : Int}

theorem rowHolds_onlyVar (hv : v < st.workCols) (honly : OnlyVar st r v) :
    RowHolds st x r ↔ st.work r v * x v ≤ st.workConst r := by
  unfold RowHolds
  rw [dot_single x hv honly]

/-- The range that `One_Var_Consistent` lets through. -/
def InRange (c : Int) : Prop := int32Min + 1 < c ∧ c < int32Max - 1

theorem svpcUpper_exact (c : Int) (ha : 0 < a) : svpcUpper .exact a c = c / a:=
  CDiv.floor_neg_tdiv ha

theorem svpcLower_exact (c : Int) (ha : a < 0) : svpcLower .exact a c = -(c / -a):= by
  have hfloor := CDiv.floor_neg_tdiv (c := c) (show 0 < -a by omega)
  rw [Int.tmod_neg] at hfloor
  unfold svpcLower
  simp only [exact_i32]
  split_ifs at hfloor ⊢ <;> omega

theorem inRange_ediv {c : Int} (ha : 0 < a) (hc : InRange c) :
    int32Min < c / a ∧ c / a < int32Max := by
  obtain ⟨hlo, hhi⟩ := hc
  unfold int32Min int32Max at *
  constructor
  · have : -2147483647 ≤ c / a := by rw [Int.le_ediv_iff_mul_le ha]; nlinarith
    omega
  · rw [Int.ediv_lt_iff_lt_mul ha]; nlinarith

theorem svpcSetBound_inside
    (hin : Inside st x) (hvar : var < st.workCols) (honly : OnlyVar st i var)
    (hi : i < st.workRows) (hc : InRange (st.workConst i)) :
    Inside (svpcSetBound .exact i var st) x := by
  have hrow := (rowHolds_onlyVar hvar honly).mp (hin.rows i hi)
  obtain ⟨hrows, hlower, hupper⟩ := hin
  unfold svpcSetBound
  dsimp only
  split_ifs with hpos hbetter hneg hbetter hnull
  · -- an upper bound
    have hle : x var ≤ st.workConst i / st.work i var := by
      rw [Int.le_ediv_iff_mul_le hpos, mul_comm]; exact hrow
    refine ⟨hrows, hlower, ?_⟩
    intro v hv
    by_cases hvv : v = var
    · subst hvv
      simp only [update_self, svpcUpper_exact _ hpos]
      exact ⟨(inRange_ediv hpos hc).1.le, .inr hle⟩
    · simp only [update_of_ne hvv]; exact hupper v hv
  · exact ⟨hrows, hlower, hupper⟩
  · -- a lower bound
    have hpos' : 0 < -st.work i var := by omega
    have hle : -x var ≤ st.workConst i / -st.work i var := by
      rw [Int.le_ediv_iff_mul_le hpos']; linarith
    have hrange := inRange_ediv hpos' hc
    refine ⟨hrows, ?_, hupper⟩
    intro v hv
    by_cases hvv : v = var
    · subst hvv
      simp only [update_self, svpcLower_exact _ hneg]
      refine ⟨?_, .inr ?_⟩
      · unfold int32Min int32Max at *; dsimp only; omega
      · dsimp only; omega
    · simp only [update_of_ne hvv]; exact hlower v hv
  · exact ⟨hrows, hlower, hupper⟩
  · -- a null row with a negative constant cannot hold
    have hzero : st.work i var = 0 := by omega
    rw [hzero, zero_mul] at hrow
    omega
  · exact ⟨hrows, hlower, hupper⟩

/-! ## Several rows in one variable -/

theorem BoundsOnly.onlyVar (h : BoundsOnly st st')
    (honly : OnlyVar st r v) : OnlyVar st' r v := by
  obtain ⟨lb, ub, rfl⟩ := h
  exact honly

theorem oneVarConsistent_boundsOnly (ar : Arith) (allowWrapAroundOpt : Bool)
    (var start count : Nat) (st : WorkState) :
    BoundsOnly st (oneVarConsistent ar allowWrapAroundOpt var start count st).2 := by
  unfold oneVarConsistent
  split
  · exact BoundsOnly.refl st
  · have hloop := forFrom_outcome (f := oneVarStep ar var)
      (Q := fun r : Bool × WorkState => BoundsOnly st r.2)
      (fun _ t => BoundsOnly st t) count start st
      (by
        intro i t _ _ ht
        have ht' := ht.trans (svpcSetBound_boundsOnly ar i var t)
        unfold oneVarStep
        dsimp only
        split_ifs
        · exact ht
        · exact ht'
        · exact ht')
      (BoundsOnly.refl st)
    split
    · next r hres => rw [hres] at hloop; exact hloop
    · next st' hres => rw [hres] at hloop; exact hloop

/-- All rows with one variable turned into bounds lose no integer point. -/
theorem oneVarConsistent_inside (allowWrapAroundOpt : Bool) {start count : Nat}
    (hin : Inside st x) (hvar : var < st.workCols)
    (honly : ∀ r, start ≤ r → r < start + count → OnlyVar st r var)
    (hrows : start + count ≤ st.workRows) :
    (oneVarConsistent .exact allowWrapAroundOpt var start count st).1 = true ∧
    Inside (oneVarConsistent .exact allowWrapAroundOpt var start count st).2 x := by
  unfold oneVarConsistent
  split
  · exact ⟨rfl, hin⟩
  · have hloop := forFrom_outcome
      (f := oneVarStep .exact var)
      (Q := fun r : Bool × WorkState => r.1 = true ∧ Inside r.2 x)
      (fun _ t => BoundsOnly st t ∧ Inside t x) count start st
      (by
        intro i t hlo hhi ht
        obtain ⟨hbo, hint⟩ := ht
        unfold oneVarStep
        split
        · exact ⟨rfl, hint⟩
        · next hrange =>
          have honlyt := hbo.onlyVar (honly i hlo hhi)
          have hbo' := hbo.trans (svpcSetBound_boundsOnly .exact i var t)
          obtain ⟨lb, ub, rfl⟩ := hbo
          have hnext := svpcSetBound_inside hint hvar honlyt
            (show i < st.workRows by omega)
            ⟨by dsimp only at *; omega, by dsimp only at *; omega⟩
          have hcols : var < (svpcSetBound .exact i var
              { st with lowerBound := lb, upperBound := ub }).workCols := by
            obtain ⟨lb', ub', heq⟩ := hbo'
            rw [heq]; exact hvar
          have hcross := lowerOk_le_upperOk (hnext.lower var hcols) (hnext.upper var hcols)
          dsimp only
          rw [if_neg (by omega)]
          exact ⟨hbo', hnext⟩)
      ⟨BoundsOnly.refl st, hin⟩
    split
    · next r hres => rw [hres] at hloop; exact hloop
    · next st' hres => rw [hres] at hloop; exact ⟨rfl, hloop.2⟩

/-! ## The test -/

/-- What the column scan knows after the columns below `j`. -/
def ScanInv (row : Nat → Int) (j : Nat) (sc : RowScan) : Prop :=
  (sc.numVars = 0 → sc.applicable = true ∧ ∀ k < j, row k = 0) ∧
  (sc.numVars ≠ 0 → sc.varPos < j ∧
    (sc.applicable = true → ∀ k < j, k ≠ sc.varPos → row k = 0))

theorem svpcScanStep_inv {row : Nat → Int} {j : Nat} {sc : RowScan}
    (h : ScanInv row j sc) : ScanInv row (j + 1) (svpcScanStep row j sc) := by
  obtain ⟨hzero, hone⟩ := h
  unfold svpcScanStep
  split
  · next hj =>
    refine ⟨fun h => absurd h (by simp), fun _ => ⟨by simp, ?_⟩⟩
    intro happ k hk hne
    dsimp only at happ hne
    by_cases hn : sc.numVars = 0
    · exact (hzero hn).2 k (by omega)
    · rw [if_pos hn] at happ; cases happ
  · next hj =>
    have hj0 : row j = 0 := not_not.mp hj
    refine ⟨fun h => ⟨(hzero h).1, ?_⟩, fun h => ⟨by have := (hone h).1; omega, ?_⟩⟩
    · intro k hk
      rcases Nat.lt_succ_iff_lt_or_eq.mp hk with hlt | rfl
      · exact (hzero h).2 k hlt
      · exact hj0
    · intro happ k hk hne
      rcases Nat.lt_succ_iff_lt_or_eq.mp hk with hlt | rfl
      · exact (hone h).2 happ k hlt hne
      · exact hj0

theorem svpcScan_inv (row : Nat → Int) (cols : Nat) : ScanInv row cols (svpcScan row cols):= by
  have h := forEach_inv (f := svpcScanStep row) (ScanInv row) cols 0
    { numVars := 0, varPos := 0, applicable := true }
    (fun j sc _ _ hsc => svpcScanStep_inv hsc)
    ⟨fun _ => ⟨rfl, fun k hk => absurd hk (Nat.not_lt_zero k)⟩, fun h => absurd rfl h⟩
  rwa [Nat.zero_add] at h

theorem resetBounds_inside (h : Solves st x) : Inside (resetBounds st) x := by
  refine ⟨h, ?_, ?_⟩
  · intro v hv
    have hv' : v < st.workCols := hv
    simp only [resetBounds, if_pos hv']
    exact ⟨by decide, .inl rfl⟩
  · intro v hv
    have hv' : v < st.workCols := hv
    simp only [resetBounds, if_pos hv']
    exact ⟨by decide, .inl rfl⟩

theorem Inside.setSvpc (h : Inside st x)
    (flags : Nat → Bool) : Inside { st with isSvpc := flags } x :=
  ⟨h.rows, h.lower, h.upper⟩

/-- The dimensions of the work array do not change. -/
def SameDims (st st' : WorkState) : Prop :=
  st'.workRows = st.workRows ∧ st'.workCols = st.workCols

theorem BoundsOnly.sameDims (h : BoundsOnly st st') : SameDims st st':= by
  obtain ⟨lb, ub, rfl⟩ := h
  exact ⟨rfl, rfl⟩

/-- The row loop of `SVPC`; a row can only be set aside when there are columns at all. -/
structure SvpcInv (st₀ : WorkState) (x : Nat → Int) (s : Bool × WorkState) : Prop where
  dims : SameDims st₀ s.2
  inside : Inside s.2 x
  cols : s.1 = false → 0 < st₀.workCols

/-- One row of the SVPC test: it holds inside the bounds, becomes a bound, or is left. -/
theorem svpcStep_inside {allowWrapAroundOpt : Bool} {st0 : WorkState}
    {s : Bool × WorkState} (hi : i < st0.workRows) (h : SvpcInv st0 x s) :
    Outcome (fun _ => False) (SvpcInv st0 x) (svpcStep .exact allowWrapAroundOpt i s) := by
  obtain ⟨⟨hrows, hcols⟩, hin, happ⟩ := h
  obtain ⟨applicable, st⟩ := s
  dsimp only at hrows hcols hin happ
  have hscan := svpcScan_inv (st.work i) st.workCols
  unfold svpcStep
  dsimp only
  generalize svpcScan (st.work i) st.workCols = sc at *
  have happ' : (applicable && sc.applicable) = false → 0 < st0.workCols := by
    intro hand
    by_cases hzero : sc.numVars = 0
    · rw [(hscan.1 hzero).1, Bool.and_true] at hand
      exact happ hand
    · have := (hscan.2 hzero).1
      omega
  split
  · next hzero =>
    have hrow : dot st.workCols (st.work i) x ≤ st.workConst i := hin.rows i (by omega)
    rw [dot_eq_zero x (hscan.1 hzero).2] at hrow
    rw [if_neg (by omega)]
    exact ⟨⟨hrows, hcols⟩, hin.setSvpc _, happ'⟩
  · next hone =>
    split
    · next hsc =>
      obtain ⟨htrue, hin'⟩ := oneVarConsistent_inside allowWrapAroundOpt
        hin (hscan.2 hone).1
        (show ∀ r, i ≤ r → r < i + 1 → OnlyVar st r _ by intro r h1 h2; rw [show r = i by omega]; exact (hscan.2 hone).2 hsc) (by omega)
      have hdims := (oneVarConsistent_boundsOnly .exact allowWrapAroundOpt
        sc.varPos i 1 st).sameDims
      split
      · next hfalse => rw [hfalse] at htrue; cases htrue
      · next st' hres =>
        rw [hres] at hin' hdims
        exact ⟨⟨hdims.1.trans hrows, hdims.2.trans hcols⟩, hin'.setSvpc _, happ'⟩
    · exact ⟨⟨hrows, hcols⟩, hin.setSvpc _, happ'⟩

theorem svpc_inside (allowWrapAroundOpt : Bool) (h : Solves st x) :
    (svpc .exact allowWrapAroundOpt st).1 ≠ .inconsistent ∧
    Inside (svpc .exact allowWrapAroundOpt st).2 x ∧
    ((svpc .exact allowWrapAroundOpt st).1 = .inapplicable →
      0 < (svpc .exact allowWrapAroundOpt st).2.workCols) := by
  have hloop := forFrom_outcome
    (f := svpcStep .exact allowWrapAroundOpt) (Q := fun _ => False)
    (fun _ t => SvpcInv st x t) st.workRows 0 (true, resetBounds st)
    (fun i t _ hi ht => svpcStep_inside (by omega) ht)
    ⟨⟨rfl, rfl⟩, resetBounds_inside h, fun hc => absurd hc (by simp)⟩
  unfold svpc
  split
  · next r hres => rw [hres] at hloop; exact hloop.elim
  · next applicable st' hres =>
    rw [hres] at hloop
    have hcols : st'.workCols = st.workCols := hloop.dims.2
    cases applicable with
    | true => exact ⟨by simp, hloop.inside, fun hc => absurd hc (by simp)⟩
    | false => exact ⟨by simp, hloop.inside, fun _ => by rw [hcols]; exact hloop.cols rfl⟩

end Soe
