import Path64.Soe.TakeGcds

/-! # Which 32-bit overflows are noticed

`Sub_Last_Equal_Unary` and `Elim_One` compute a coefficient in 64 bits
and mean to give up when its absolute value is too large. But `abs` is
the function of C: it sees the low 32 bits, and they are never too
large. What is stored is the exact value modulo `2 ^ 32`. `Acy_Set_Var`
forms its products in 32 bits and has no check. -/

namespace Soe

open Function LinearRow Loop

/-! ## One row of a substitution -/

theorem machine_i32_eq_iff {z : Int} : Arith.machine.i32 z = z ↔ Fits32 z :=
  ⟨fun h => h ▸ machine_i32_fits z, machine_i32⟩

section row
variable {i minvar cols : Nat} {p row row' : Nat → Int} {pc c c' : Int} {prod : Int → Int}

/-- A substituted row is stored as it is computed just when each coefficient fits. -/
theorem substRow_machine_iff (hprod : ∀ z, Arith.machine.i32 (prod z) = Arith.machine.i32 z)
    (hpi : p i = 1) (hzero : ∀ j < minvar, p j = 0) (hrow : ∀ j < cols, Fits32 (row j))
    (hc : Fits64 (c - row i * pc))
    (h : substRow .machine prod i minvar cols p pc row c = some (row', c')) :
    RowSub cols i p pc row c row' c' ↔
      ∀ j < cols, minvar ≤ j → Fits32 (row j - row i * p j) := by
  unfold substRow at h
  dsimp only at h
  by_cases h0 : row i = 0
  · rw [if_pos h0] at h
    cases h
    refine iff_of_true ⟨fun j _ => by rw [h0, zero_mul, sub_zero], by rw [h0, zero_mul, sub_zero]⟩
      fun j hj _ => ?_
    rw [h0, zero_mul, sub_zero]
    exact hrow j hj
  -- the range check never fires
  rw [if_neg h0, anyCol_abs64, if_neg Bool.false_ne_true] at h
  simp only [Option.some.injEq, Prod.mk.injEq] at h
  obtain ⟨rfl, rfl⟩ := h
  constructor
  · intro hsub j hj hlo
    have hval := hsub.1 j hj
    dsimp only at hval
    by_cases hji : j = i
    · rw [hji, hpi, mul_one, sub_self]
      decide
    · rwa [if_neg hji, if_pos ⟨hlo, hj⟩, i32_subTmp hprod, machine_i32_eq_iff] at hval
  · intro hall
    refine ⟨fun j hj => ?_, subConst_machine hc⟩
    dsimp only
    split_ifs with hji hrange
    · rw [hji, hpi, mul_one, sub_self]
    · rw [i32_subTmp hprod]
      exact machine_i32 (hall j hj hrange.1)
    · rw [hzero j (by omega), mul_zero, sub_zero]

end row

/-! ## `Sub_Last_Equal_Unary` -/

/-- A row of a table. -/
abbrev Row : Type := (Nat → Int) × Int

/-- What the substitution makes of one row. -/
def substPart (prod : Int → Int) (i minvar cols : Nat) (p : Row) (row : Row) : Except Unit Row :=
  match substRow .machine prod i minvar cols p.1 p.2 row.1 row.2 with
  | none => .error ()
  | some q => .ok q

def eqView (st : WorkState) (r : Nat) : Row := (st.workEq r, st.workConstEq r)
def leView (st : WorkState) (r : Nat) : Row := (st.work r, st.workConst r)

def setEq (st : WorkState) (r : Nat) (q : Row) : WorkState :=
  { st with
    workEq := update st.workEq r q.1
    workConstEq := update st.workConstEq r q.2 }

def setLe (st : WorkState) (r : Nat) (q : Row) : WorkState :=
  { st with
    work := update st.work r q.1
    workConst := update st.workConst r q.2 }

theorem eqView_setEq (st : WorkState) (r : Nat) (q : Row) :
    eqView (setEq st r q) = update (eqView st) r q := by
  funext s
  show (update st.workEq r q.1 s, update st.workConstEq r q.2 s) = _
  by_cases hs : s = r
  · rw [hs, update_self, update_self, update_self]
  · rw [update_of_ne hs, update_of_ne hs, update_of_ne hs]
    rfl

theorem leView_setLe (st : WorkState) (r : Nat) (q : Row) :
    leView (setLe st r q) = update (leView st) r q := by
  funext s
  show (update st.work r q.1 s, update st.workConst r q.2 s) = _
  by_cases hs : s = r
  · rw [hs, update_self, update_self, update_self]
  · rw [update_of_ne hs, update_of_ne hs, update_of_ne hs]
    rfl

theorem substEqRow_part (i minvar eqnum r : Nat) (st : WorkState) :
    substEqRow .machine i minvar eqnum r st
      = (substPart Arith.machine.i64 i minvar st.workCols (eqView st eqnum) (eqView st r)).map
          (setEq st r) := by
  unfold substEqRow substPart eqView
  dsimp only
  cases substRow .machine Arith.machine.i64 i minvar st.workCols (st.workEq eqnum)
    (st.workConstEq eqnum) (st.workEq r) (st.workConstEq r) <;> rfl

theorem substLeRow_part (i minvar eqnum r : Nat) (st : WorkState) :
    substLeRow .machine i minvar eqnum r st
      = (substPart Arith.machine.i32 i minvar st.workCols (eqView st eqnum) (leView st r)).map
          (setLe st r) := by
  unfold substLeRow substPart eqView leView
  dsimp only
  cases substRow .machine Arith.machine.i32 i minvar st.workCols (st.workEq eqnum)
    (st.workConstEq eqnum) (st.work r) (st.workConst r) <;> rfl

theorem substEq_loop (i minvar eqnum : Nat) (st : WorkState) : Outcome (fun _ => True)
      (fun t => t = { st with workEq := t.workEq, workConstEq := t.workConstEq } ∧
        eqView t eqnum = eqView st eqnum ∧
        ∀ r < eqnum, substPart Arith.machine.i64 i minvar st.workCols (eqView st eqnum)
          (eqView st r) = .ok (eqView t r))
      (forFrom (substEqRow .machine i minvar eqnum) eqnum 0 st) := by
  have hloop := forFrom_parts (f := substEqRow .machine i minvar eqnum)
    (I := fun t => t = { st with workEq := t.workEq, workConstEq := t.workConstEq } ∧
      eqView t eqnum = eqView st eqnum) (v := eqView)
    (p := fun _ => substPart Arith.machine.i64 i minvar st.workCols (eqView st eqnum))
    (n := eqnum)
    (by
      rintro r t e _ ⟨hframe, hpiv⟩ he
      rw [substEqRow_part, hpiv, show t.workCols = st.workCols by rw [hframe], he]
      rfl)
    (by
      rintro r t q hr ⟨hframe, hpiv⟩ hq
      rw [substEqRow_part, hpiv, show t.workCols = st.workCols by rw [hframe], hq]
      refine ⟨_, rfl, eqView_setEq t r q, ?_, ?_⟩
      · rw [hframe]
        rfl
      · rw [eqView_setEq, update_of_ne (by omega), hpiv])
    eqnum 0 st (by omega) ⟨rfl, rfl⟩
  cases hres : forFrom (substEqRow .machine i minvar eqnum) eqnum 0 st with
  | error _ => trivial
  | ok t =>
    rw [hres] at hloop
    exact ⟨hloop.1.1, hloop.1.2, fun r hr => hloop.2.1 r (Nat.zero_le r) (by omega)⟩

theorem substLe_loop (i minvar eqnum : Nat) (st : WorkState) : Outcome (fun _ => True)
      (fun t => t = { st with work := t.work, workConst := t.workConst } ∧
        ∀ r < st.workRows, substPart Arith.machine.i32 i minvar st.workCols (eqView st eqnum)
          (leView st r) = .ok (leView t r))
      (forFrom (substLeRow .machine i minvar eqnum) st.workRows 0 st) := by
  have hloop := forFrom_parts (f := substLeRow .machine i minvar eqnum)
    (I := fun t => t = { st with work := t.work, workConst := t.workConst }) (v := leView)
    (p := fun _ => substPart Arith.machine.i32 i minvar st.workCols (eqView st eqnum))
    (n := st.workRows)
    (by
      intro r t e _ hframe he
      rw [substLeRow_part, show t.workCols = st.workCols by rw [hframe],
        show eqView t eqnum = eqView st eqnum by rw [hframe]; rfl, he]
      rfl)
    (by
      intro r t q _ hframe hq
      rw [substLeRow_part, show t.workCols = st.workCols by rw [hframe],
        show eqView t eqnum = eqView st eqnum by rw [hframe]; rfl, hq]
      refine ⟨_, rfl, leView_setLe t r q, ?_⟩
      rw [hframe]
      rfl)
    st.workRows 0 st (by omega) rfl
  cases hres : forFrom (substLeRow .machine i minvar eqnum) st.workRows 0 st with
  | error _ => trivial
  | ok t =>
    rw [hres] at hloop
    exact ⟨hloop.1, fun r hr => hloop.2.1 r (Nat.zero_le r) (by omega)⟩

/-- The constants that `Sub_Last_Equal_Unary` computes fit in 64 bits. -/
structure UnaryConstsFit (i : Nat) (st : WorkState) : Prop where
  pivot : Fits64 (pivotConst i st)
  eqs : ∀ r < st.workRowsEq - 1, Fits64 (st.workConstEq r - st.workEq r i * pivotConst i st)
  les : ∀ r < st.workRows, Fits64 (st.workConst r - st.work r i * pivotConst i st)

/-- The pivot with its sign changed and every combined coefficient stay in 32 bits. -/
structure UnaryCoefsFit (i minvar : Nat) (st : WorkState) : Prop where
  row : ∀ j < st.workCols, minvar ≤ j → Fits32 (pivotRow i st j)
  eqs : ∀ r < st.workRowsEq - 1, ∀ j < st.workCols, minvar ≤ j →
    Fits32 (st.workEq r j - st.workEq r i * pivotRow i st j)
  les : ∀ r < st.workRows, ∀ j < st.workCols, minvar ≤ j →
    Fits32 (st.work r j - st.work r i * pivotRow i st j)

/-- What `Sub_Last_Equal_Unary` stores, computed in unbounded integers. -/
structure UnaryExact (i : Nat) (st st' : WorkState) : Prop where
  pivot : ∀ j < st.workCols, st'.workEq (st.workRowsEq - 1) j = pivotRow i st j
  const : st'.workConstEq (st.workRowsEq - 1) = pivotConst i st
  eqs : ∀ r < st.workRowsEq - 1, RowSub st.workCols i (pivotRow i st) (pivotConst i st)
    (st.workEq r) (st.workConstEq r) (st'.workEq r) (st'.workConstEq r)
  les : ∀ r < st.workRows, RowSub st.workCols i (pivotRow i st) (pivotConst i st)
    (st.work r) (st.workConst r) (st'.work r) (st'.workConst r)

theorem pivot_stored {i minvar : Nat} {st : WorkState} (ht : Typed st) (hp : Pivot i minvar st)
    (hc : Fits64 (pivotConst i st)) :
    let t := if st.workEq (st.workRowsEq - 1) i = -1 then
        negateEq .machine (st.workRowsEq - 1) minvar st else st
    t = { st with workEq := t.workEq, workConstEq := t.workConstEq } ∧
    (∀ r < st.workRowsEq - 1, eqView t r = eqView st r) ∧
    t.workConstEq (st.workRowsEq - 1) = pivotConst i st ∧
    (∀ j < st.workCols, Fits32 (t.workEq (st.workRowsEq - 1) j)) ∧
    t.workEq (st.workRowsEq - 1) i = 1 ∧
    (∀ j < minvar, t.workEq (st.workRowsEq - 1) j = 0) ∧
    ∀ j < st.workCols, t.workEq (st.workRowsEq - 1) j
      = if minvar ≤ j then Arith.machine.i32 (pivotRow i st j) else pivotRow i st j := by
  have hlast : st.workRowsEq - 1 < st.workRowsEq := by have := hp.rows; omega
  have hrow := (ht.eq _ hlast).1
  unfold pivotConst at hc
  unfold pivotConst pivotRow
  dsimp only
  by_cases hneg : st.workEq (st.workRowsEq - 1) i = -1
  · simp only [if_pos hneg] at hc ⊢
    have hval : ∀ j < st.workCols, (negateEq .machine (st.workRowsEq - 1) minvar st).workEq
        (st.workRowsEq - 1) j = if minvar ≤ j then
          Arith.machine.i32 (-st.workEq (st.workRowsEq - 1) j) else -st.workEq (st.workRowsEq - 1) j := by
      intro j hj
      unfold negateEq
      dsimp only
      by_cases hlo : minvar ≤ j
      · rw [if_pos ⟨rfl, hlo, hj⟩, if_pos hlo]
      · rw [if_neg (fun h => hlo h.2.1), if_neg hlo, hp.zero j (by omega), neg_zero]
    refine ⟨rfl, fun r hr => ?_, ?_, fun j hj => ?_, ?_, fun j hj => ?_, hval⟩
    · unfold eqView negateEq
      dsimp only
      rw [update_of_ne (by omega)]
      congr 1
      funext j
      exact if_neg (fun h => by omega)
    · unfold negateEq
      dsimp only
      rw [update_self, machine_i64 hc]
    · rw [hval j hj]
      split
      · exact machine_i32_fits _
      · rw [hp.zero j (by omega)]
        decide
    · rw [hval i hp.col, if_pos hp.above, hneg]
      decide
    · have hpos := hp.above
      have hcol := hp.col
      rw [hval j (by omega), if_neg (by omega), hp.zero j hj, neg_zero]
  · simp only [if_neg hneg] at hc ⊢
    refine ⟨trivial, fun r _ => trivial, trivial, hrow, ?_, hp.zero, fun j hj => ?_⟩
    · rcases (abs_eq (by omega)).mp hp.unit with h | h
      · exact h
      · exact absurd h hneg
    · split
      · exact (machine_i32 (hrow j hj)).symm
      · rfl

theorem substPart_ok {prod : Int → Int} {i minvar cols : Nat} {p row q : Row}
    (h : substPart prod i minvar cols p row = .ok q) :
    substRow .machine prod i minvar cols p.1 p.2 row.1 row.2 = some (q.1, q.2) := by
  unfold substPart at h
  split at h
  · cases h
  · next res hres =>
    cases h
    exact hres

theorem machine_i32_abs (z : Int) : |Arith.machine.i32 z| ≤ 4611686018427387904 := by
  obtain ⟨hlo, hhi⟩ := machine_i32_fits z
  unfold int32Min int32Max at *
  rw [abs_le]
  omega

theorem product_abs {a b : Int} (ha : Fits32 a) (hb : Fits32 b) : |a * b| ≤ 4611686018427387904 := by
  rw [abs_mul]
  exact mul_le_mul (fits32_abs_le ha) (fits32_abs_le hb) (abs_nonneg _) (by decide)

theorem RowSub.congr_pivot {cols i : Nat} {p q row row' : Nat → Int} {pc c c' : Int}
    (h : ∀ j < cols, p j = q j) : RowSub cols i p pc row c row' c' ↔ RowSub cols i q pc row c row' c' :=
  and_congr_left fun _ => forall₂_congr fun j hj => by rw [h j hj]

/-- Where the constants fit, the machine is exact just when the coefficients fit as well. -/
theorem subLastEqualUnary_exact_iff {i minvar : Nat} {st st' : WorkState} (ht : Typed st)
    (hp : Pivot i minvar st) (hc : UnaryConstsFit i st)
    (h : subLastEqualUnary .machine i minvar st = .ok st') :
    UnaryExact i st st' ↔ UnaryCoefsFit i minvar st := by
  have hlast : st.workRowsEq - 1 < st.workRowsEq := by have := hp.rows; omega
  obtain ⟨hframe, heqs, hconst, hfits, hunit, hzero, hval⟩ := pivot_stored ht hp hc.pivot
  unfold subLastEqualUnary at h
  dsimp only at h hframe heqs hconst hfits hunit hzero hval
  generalize (if st.workEq (st.workRowsEq - 1) i = -1 then
    negateEq .machine (st.workRowsEq - 1) minvar st else st) = t at *
  have hcols : t.workCols = st.workCols := by rw [hframe]
  have hles : leView t = leView st := by rw [hframe]; rfl
  have hloop1 := substEq_loop i minvar (st.workRowsEq - 1) t
  split at h
  · cases h
  next t2 hres1 =>
  rw [hres1] at hloop1
  obtain ⟨hframe2, hpiv2, hpart1⟩ := hloop1
  have hloop2 := substLe_loop i minvar (st.workRowsEq - 1) t2
  rw [h] at hloop2
  obtain ⟨hframe3, hpart2⟩ := hloop2
  have hrows2 : t2.workRows = st.workRows := by rw [hframe2, hframe]
  have hcols2 : t2.workCols = st.workCols := by rw [hframe2, hframe]
  have hles2 : leView t2 = leView st := by rw [hframe2]; exact hles
  have heq3 : eqView st' = eqView t2 := by rw [hframe3]; rfl
  rw [hrows2, hcols2, hles2, hpiv2] at hpart2
  rw [hcols] at hpart1
  have hpivRow : st'.workEq (st.workRowsEq - 1) = t.workEq (st.workRowsEq - 1) ∧
      st'.workConstEq (st.workRowsEq - 1) = t.workConstEq (st.workRowsEq - 1) := by
    have hpair : eqView st' (st.workRowsEq - 1) = eqView t (st.workRowsEq - 1) := by
      rw [heq3, hpiv2]
    exact ⟨congrArg Prod.fst hpair, congrArg Prod.snd hpair⟩
  -- the pivot is stored right just if its sign change fits
  have hpivot : (∀ j < st.workCols, t.workEq (st.workRowsEq - 1) j = pivotRow i st j) ↔
      ∀ j < st.workCols, minvar ≤ j → Fits32 (pivotRow i st j) := by
    refine forall₂_congr fun j hj => ?_
    rw [hval j hj]
    split
    · next hlo => exact machine_i32_eq_iff.trans ⟨fun h _ => h, fun h => h hlo⟩
    · next hlo => exact iff_of_true rfl fun h => absurd h hlo
  -- the rows, with the pivot as it is stored
  have heqRows : ∀ r < st.workRowsEq - 1,
      (RowSub st.workCols i (t.workEq (st.workRowsEq - 1)) (pivotConst i st) (st.workEq r)
        (st.workConstEq r) (st'.workEq r) (st'.workConstEq r) ↔
      ∀ j < st.workCols, minvar ≤ j →
        Fits32 (st.workEq r j - st.workEq r i * t.workEq (st.workRowsEq - 1) j)) := by
    intro r hr
    have hpart := hpart1 r hr
    rw [heqs r hr, ← heq3] at hpart
    rw [← hconst]
    refine substRow_machine_iff i32_i64 hunit hzero (ht.eq r (by omega)).1 ?_ (substPart_ok hpart)
    show Fits64 (st.workConstEq r - st.workEq r i * t.workConstEq (st.workRowsEq - 1))
    rw [hconst]
    exact hc.eqs r hr
  have hleRows : ∀ r < st.workRows,
      (RowSub st.workCols i (t.workEq (st.workRowsEq - 1)) (pivotConst i st) (st.work r)
        (st.workConst r) (st'.work r) (st'.workConst r) ↔
      ∀ j < st.workCols, minvar ≤ j →
        Fits32 (st.work r j - st.work r i * t.workEq (st.workRowsEq - 1) j)) := by
    intro r hr
    rw [← hconst]
    refine substRow_machine_iff (fun z => machine_i32 (machine_i32_fits z)) hunit hzero (ht.le r hr).1
      ?_ (substPart_ok (hpart2 r hr))
    show Fits64 (st.workConst r - st.work r i * t.workConstEq (st.workRowsEq - 1))
    rw [hconst]
    exact hc.les r hr
  constructor
  · intro hex
    have hpiv := hex.pivot
    rw [hpivRow.1] at hpiv
    refine ⟨hpivot.mp hpiv, fun r hr j hj hlo => ?_, fun r hr j hj hlo => ?_⟩
    · rw [← hpiv j hj]
      exact (heqRows r hr).mp ((RowSub.congr_pivot hpiv).mpr (hex.eqs r hr)) j hj hlo
    · rw [← hpiv j hj]
      exact (hleRows r hr).mp ((RowSub.congr_pivot hpiv).mpr (hex.les r hr)) j hj hlo
  · intro hfit
    have hpiv := hpivot.mpr hfit.row
    refine ⟨?_, ?_, fun r hr => ?_, fun r hr => ?_⟩
    · rw [hpivRow.1]
      exact hpiv
    · rw [hpivRow.2, hconst]
    · refine (RowSub.congr_pivot hpiv).mp ((heqRows r hr).mpr fun j hj hlo => ?_)
      rw [hpiv j hj]
      exact hfit.eqs r hr j hj hlo
    · refine (RowSub.congr_pivot hpiv).mp ((hleRows r hr).mpr fun j hj hlo => ?_)
      rw [hpiv j hj]
      exact hfit.les r hr j hj hlo

/-! ## `Elim_One` -/

section elim
variable {st : WorkState} {i plus minus minVar : Nat}

/-- The combination of the rows `plus` and `minus` that has no `x_i`. -/
def elimCoef (st : WorkState) (i plus minus j : Nat) : Int :=
  minusMult .exact st i plus minus * st.work plus j + plusMult .exact st i plus minus * st.work minus j

def elimRhs (st : WorkState) (i plus minus : Nat) : Int :=
  minusMult .exact st i plus minus * st.workConst plus
    + plusMult .exact st i plus minus * st.workConst minus

/-- The new row is the combination. -/
structure ElimExact (st : WorkState) (i plus minus minVar : Nat) (st' : WorkState) : Prop where
  coefs : ∀ j < st.workCols, minVar ≤ j → st'.work st.workRows j = elimCoef st i plus minus j
  const : st'.workConst st.workRows = elimRhs st i plus minus

/-- Within the 32-bit bounds the machine computes the multipliers and the combined coefficient
exactly. -/
theorem elimTmp_machine (hp : 0 < st.work plus i) (hm : st.work minus i < 0)
    (hpfit : Fits32 (st.work plus i)) (hmfit : Fits32 (st.work minus i))
    (hmin : st.work minus i ≠ int32Min) :
    plusMult .machine st i plus minus = plusMult .exact st i plus minus ∧
    minusMult .machine st i plus minus = minusMult .exact st i plus minus ∧
    ∀ j, Fits32 (st.work plus j) → Fits32 (st.work minus j) →
      elimTmp .machine st i plus minus j = elimCoef st i plus minus j := by
  have hgcd : gcd32 .machine (abs32 .machine (st.work plus i)) (abs32 .machine (st.work minus i))
      = gcd32 .exact (abs32 .exact (st.work plus i)) (abs32 .exact (st.work minus i)) := by
    rw [abs32_machine hpfit (by unfold int32Min; omega), abs32_machine hmfit hmin,
      gcd32_machine (abs_nonneg _) (abs_nonneg _), abs32_exact, abs32_exact]
  have hneg : Arith.machine.i32 (-st.work minus i) = -st.work minus i := by
    unfold Fits32 int32Min int32Max at *
    exact machine_i32 ⟨by unfold int32Min; omega, by unfold int32Max; omega⟩
  have hpm : plusMult .machine st i plus minus = plusMult .exact st i plus minus := by
    unfold plusMult
    rw [hgcd]
  have hmm : minusMult .machine st i plus minus = minusMult .exact st i plus minus := by
    unfold minusMult
    rw [hgcd, hneg]
    rfl
  refine ⟨hpm, hmm, fun j hpj hmj => ?_⟩
  -- the multipliers are positive and below `2^31`
  have hbound : ∀ {z g : Int}, 0 < z → z ≤ 2147483647 → |z.tdiv g| ≤ 2147483647 := by
    intro z g h0 h1
    have hnat : (z.tdiv g).natAbs ≤ z.natAbs := by
      rw [Int.natAbs_tdiv]
      exact Nat.div_le_self _ _
    rw [abs_le]
    omega
  unfold Fits32 int32Min int32Max at *
  have hpb : |plusMult .exact st i plus minus| ≤ 2147483647 := hbound hp hpfit.2
  have hmb : |minusMult .exact st i plus minus| ≤ 2147483647 := by
    unfold minusMult
    rw [exact_i32]
    exact hbound (by omega) (by omega)
  have hprod : ∀ {u z : Int}, |u| ≤ 2147483647 → -2147483648 ≤ z ∧ z ≤ 2147483647 →
      |u * z| ≤ 2147483647 * 2147483648 := by
    intro u z hu hz
    rw [abs_mul]
    exact mul_le_mul hu (abs_le.mpr ⟨by omega, by omega⟩) (abs_nonneg _) (by decide)
  obtain ⟨h1, h2⟩ := abs_le.mp (hprod hmb hpj)
  obtain ⟨h3, h4⟩ := abs_le.mp (hprod hpb hmj)
  unfold elimTmp elimCoef
  dsimp only
  rw [hpm, hmm]
  split
  · next h => rw [h.1, h.2, one_mul, one_mul]
  · have hplus := machine_i64 (z := minusMult .exact st i plus minus * st.work plus j)
      ⟨by omega, by omega⟩
    have hminus := machine_i64 (z := plusMult .exact st i plus minus * st.work minus j)
      ⟨by omega, by omega⟩
    rw [hplus, hminus, machine_i64 ⟨by omega, by omega⟩]

section

variable {res : Except (Option WorkState) WorkState} {st' : WorkState}

theorem elimOne_stored (hres : elimOne .machine i plus minus minVar st = res)
    (hdone : res = .ok st' ∨ res = .error (some st')) : (∀ j < st.workCols, minVar ≤ j →
      st'.work st.workRows j = Arith.machine.i32 (elimTmp .machine st i plus minus j)) ∧
    st'.workConst st.workRows = elimConst .machine st i plus minus := by
  unfold elimOne at hres
  rw [anyCol_abs64] at hres
  split at hres
  · subst hres
    rcases hdone with h | h <;> cases h
  rw [if_neg Bool.false_ne_true] at hres
  have hrow : st'.work st.workRows = (storeElim .machine i plus minus minVar st).work st.workRows ∧
      st'.workConst st.workRows
        = (storeElim .machine i plus minus minVar st).workConst st.workRows := by
    dsimp only at hres
    split at hres
    · split at hres
      · subst hres
        rcases hdone with h | h <;> cases h
        exact ⟨rfl, rfl⟩
      · subst hres
        rcases hdone with h | h <;> cases h
        exact ⟨rfl, rfl⟩
    · subst hres
      rcases hdone with h | h <;> cases h
      exact ⟨rfl, rfl⟩
  rw [hrow.1, hrow.2]
  refine ⟨fun j hj hlo => ?_, update_self _ _ _⟩
  unfold storeElim
  dsimp only
  rw [if_pos rfl, if_neg (by omega), if_pos hj]

theorem elimOne_exact_iff (ht : Typed st)
    (hplus : plus < st.workRows) (hminus : minus < st.workRows) (hcol : i < st.workCols)
    (hp : 0 < st.work plus i) (hm : st.work minus i < 0) (hmin : st.work minus i ≠ int32Min)
    (hc : Fits64 (elimRhs st i plus minus)) (hres : elimOne .machine i plus minus minVar st = res)
    (hdone : res = .ok st' ∨ res = .error (some st')) : ElimExact st i plus minus minVar st' ↔
      ∀ j < st.workCols, minVar ≤ j → Fits32 (elimCoef st i plus minus j) := by
  obtain ⟨hcoefs, hconst⟩ := elimOne_stored hres hdone
  have hpfit := (ht.le plus hplus).1
  have hmfit := (ht.le minus hminus).1
  obtain ⟨hpm, hmm, htmp⟩ := elimTmp_machine hp hm (hpfit i hcol) (hmfit i hcol) hmin
  have hstored : ∀ j < st.workCols, minVar ≤ j →
      (st'.work st.workRows j = elimCoef st i plus minus j ↔
        Fits32 (elimCoef st i plus minus j)) := by
    intro j hj hlo
    rw [hcoefs j hj hlo, htmp j (hpfit j hj) (hmfit j hj), machine_i32_eq_iff]
  have hrhs : st'.workConst st.workRows = elimRhs st i plus minus := by
    rw [hconst]
    unfold elimConst
    rw [hpm, hmm]
    show Int.bmod (Int.bmod _ _ + Int.bmod _ _) _ = _
    rw [Int.bmod_add_bmod, Int.add_bmod_bmod]
    exact machine_i64 hc
  exact ⟨fun hex j hj hlo => (hstored j hj hlo).mp (hex.coefs j hj hlo),
    fun hfit => ⟨fun j hj hlo => (hstored j hj hlo).mpr (hfit j hj hlo), hrhs⟩⟩

end

end elim

/-! ## `Acy_Set_Var` -/

section acyclic
variable {allowWrapAroundOpt : Bool} {i : Nat} {val : Int32Infin} {st : WorkState}

/-- The row is not absorbed yet and has the variable. -/
def Open (st : WorkState) (i r : Nat) : Prop := st.isSvpc r = false ∧ st.work r i ≠ 0

instance (st : WorkState) (i r : Nat) : Decidable (Open st i r) := inferInstanceAs (Decidable (_ ∧ _))

/-- `Acy_Set_Var` has a value to put in, no bound at infinity. -/
def Finite (val : Int32Infin) : Prop := ¬ (val.isInfinite || val.isNegInfinite) = true

instance (val : Int32Infin) : Decidable (Finite val) := inferInstanceAs (Decidable (¬ _))

/-- Row `r` as `Acy_Set_Var` stores it. -/
def acyRow (ar : Arith) (i : Nat) (val : Int32Infin) (st : WorkState) (r : Nat) : Row :=
  if Finite val then
    ((setRow ar i val.val r st).work r, (setRow ar i val.val r st).workConst r)
  else ((zeroRow r st).work r, (zeroRow r st).workConst r)

/-- Row `r` as it should be: the value put in, or no condition. -/
def acyRowExact (i : Nat) (val : Int32Infin) (st : WorkState) (r : Nat) (row : Row) : Prop :=
  if Finite val then
    row.2 = st.workConst r - st.work r i * val.val ∧
      ∀ j < st.workCols, row.1 j = if j = i then 0 else st.work r j
  else row.2 = 0 ∧ ∀ j < st.workCols, row.1 j = 0

theorem acySetVarRow_stored (ar : Arith) (r : Nat) (t : WorkState) : Outcome
      (fun t' => t'.workCols = t.workCols ∧ t'.isSvpc = t.isSvpc ∧ leView t'
        = if Open t i r then update (leView t) r (acyRow ar i val t r) else leView t)
      (fun t' => t'.workCols = t.workCols ∧ (∀ s, s ≠ r → t'.isSvpc s = t.isSvpc s) ∧ leView t'
        = if Open t i r then update (leView t) r (acyRow ar i val t r) else leView t)
      (acySetVarRow ar allowWrapAroundOpt i val r t) := by
  have hview : ∀ t' : WorkState, (∀ s c, s ≠ r → t'.work s c = t.work s c) →
      (∀ s, s ≠ r → t'.workConst s = t.workConst s) →
      leView t' = update (leView t) r (t'.work r, t'.workConst r) := by
    intro t' h1 h2
    funext s
    by_cases hs : s = r
    · rw [hs, update_self]
      rfl
    · rw [update_of_ne hs]
      unfold leView
      rw [h2 s hs, show t'.work s = t.work s from funext fun c => h1 s c hs]
  have hzero : leView (zeroRow r t) = update (leView t) r
      ((zeroRow r t).work r, (zeroRow r t).workConst r) :=
    hview _ (fun s c hs => if_neg fun h => hs h.1) (fun s hs => update_of_ne hs _ _)
  have hset : leView (setRow ar i val.val r t) = update (leView t) r
      ((setRow ar i val.val r t).work r, (setRow ar i val.val r t).workConst r) :=
    hview _ (fun s c hs => if_neg fun h => hs h.1) (fun s hs => update_of_ne hs _ _)
  unfold acySetVarRow
  by_cases hopen : Open t i r
  · have hupd : (if Open t i r then update (leView t) r (acyRow ar i val t r) else leView t)
        = update (leView t) r (acyRow ar i val t r) := if_pos hopen
    rw [hupd, if_pos (show t.isSvpc r = false ∧ t.work r i ≠ 0 from hopen)]
    by_cases hinf : (val.isInfinite || val.isNegInfinite) = true
    · have hrow : acyRow ar i val t r = ((zeroRow r t).work r, (zeroRow r t).workConst r) :=
        if_neg (not_not.mpr hinf)
      rw [if_pos hinf, hrow]
      exact ⟨rfl, fun s hs => update_of_ne hs _ _, hzero⟩
    · have hrow : acyRow ar i val t r
          = ((setRow ar i val.val r t).work r, (setRow ar i val.val r t).workConst r) := if_pos hinf
      rw [if_neg hinf, hrow]
      dsimp only
      split
      · have hbounds := oneVarConsistent_boundsOnly ar allowWrapAroundOpt
          (acyScan ((setRow ar i val.val r t).work r) (setRow ar i val.val r t).workCols).2 r 1
          (setRow ar i val.val r t)
        obtain ⟨lb, ub, hb⟩ := hbounds
        split
        · next st2 hres =>
          rw [hres] at hb
          dsimp only at hb
          subst hb
          exact ⟨rfl, rfl, hset⟩
        · next st2 hres =>
          rw [hres] at hb
          dsimp only at hb
          subst hb
          exact ⟨rfl, fun s hs => update_of_ne hs _ _, hset⟩
      · exact ⟨rfl, fun s _ => rfl, hset⟩
  · have hupd : (if Open t i r then update (leView t) r (acyRow ar i val t r) else leView t)
        = leView t := if_neg hopen
    rw [hupd, if_neg (show ¬ (t.isSvpc r = false ∧ t.work r i ≠ 0) from hopen)]
    exact ⟨rfl, fun s _ => rfl, rfl⟩

/-- Every row of `Acy_Set_Var` up to `k` is stored, the others are as they were. -/
def AcyStored (ar : Arith) (i : Nat) (val : Int32Infin) (st : WorkState) (k : Nat) (t : WorkState) :
    Prop :=
  ∀ r, leView t r = if r < k ∧ Open st i r then acyRow ar i val st r else leView st r

/-- The loop over the rows of one variable: those below the counter are stored, the others are as
they were. -/
theorem acySetVar_stored (ar : Arith) :
    Outcome (fun t => ∃ k ≤ st.workRows, AcyStored ar i val st k t)
      (fun t => AcyStored ar i val st st.workRows t) (acySetVar ar allowWrapAroundOpt i val st):= by
  have hloop := forFrom_outcome (f := acySetVarRow ar allowWrapAroundOpt i val)
    (Q := fun t => ∃ k ≤ st.workRows, AcyStored ar i val st k t)
    (fun k t => t.workCols = st.workCols ∧ (∀ r, k ≤ r → t.isSvpc r = st.isSvpc r) ∧
      AcyStored ar i val st k t) st.workRows 0 st
    (by
      rintro k t - hk ⟨hcols, hsvpc, hstored⟩
      have hrow := @acySetVarRow_stored allowWrapAroundOpt i val ar k t
      -- row `k` is still the one of `st`
      have hview : leView t k = leView st k := by
        rw [hstored k, if_neg (by omega)]
      have hwork : t.work k = st.work k := congrArg Prod.fst hview
      have hconst : t.workConst k = st.workConst k := congrArg Prod.snd hview
      have hopen : Open t i k ↔ Open st i k := by
        unfold Open
        rw [hwork, hsvpc k (le_refl k)]
      have hacy : acyRow ar i val t k = acyRow ar i val st k := by
        unfold acyRow setRow zeroRow
        dsimp only
        rw [hwork, hconst, hcols, update_self, update_self,
          update_self, update_self]
      have hnext : ∀ t' : WorkState, leView t'
          = (if Open t i k then update (leView t) k (acyRow ar i val t k) else leView t) →
          AcyStored ar i val st (k + 1) t' := by
        intro t' ht' r
        rw [ht', hacy]
        by_cases hr : r = k
        · subst hr
          by_cases ho : Open st i r
          · rw [if_pos (hopen.mpr ho), update_self, if_pos ⟨by omega, ho⟩]
          · rw [if_neg (fun h => ho (hopen.mp h)), hview, if_neg (fun h => ho h.2)]
        · have hsame : (if Open t i k then update (leView t) k (acyRow ar i val st k)
              else leView t) r = leView t r := by
            split
            · exact update_of_ne hr _ _
            · rfl
          rw [hsame, hstored r]
          have hiff : (r < k ∧ Open st i r) ↔ (r < k + 1 ∧ Open st i r) :=
            and_congr_left fun _ => by omega
          exact if_congr hiff rfl rfl
      cases hres : acySetVarRow ar allowWrapAroundOpt i val k t with
      | error t' =>
        rw [hres] at hrow
        exact ⟨k + 1, by omega, hnext t' hrow.2.2⟩
      | ok t' =>
        rw [hres] at hrow
        refine ⟨hrow.1.trans hcols, fun r hr => ?_, hnext t' hrow.2.2⟩
        rw [hrow.2.1 r (by omega), hsvpc r (by omega)])
    ⟨rfl, fun _ _ => rfl, fun r => (if_neg (by omega)).symm⟩
  unfold acySetVar
  cases hres : forFrom (acySetVarRow ar allowWrapAroundOpt i val) st.workRows 0 st with
  | error t => rw [hres] at hloop; exact hloop
  | ok t =>
    rw [hres, Nat.zero_add] at hloop
    exact hloop.2.2

/-- The constants that `Acy_Set_Var` computes fit in 64 bits. -/
def AcyConstsFit (i : Nat) (val : Int32Infin) (st : WorkState) : Prop :=
  ∀ r < st.workRows, Open st i r → Fits64 (st.workConst r - st.work r i * val.val)

/-- Every product of `Acy_Set_Var` stays in 32 bits. -/
def AcyProductsFit (i : Nat) (val : Int32Infin) (st : WorkState) : Prop :=
  Finite val → ∀ r < st.workRows, Open st i r → 1 < |st.work r i| → Fits32 (st.work r i * val.val)

theorem acyRow_exact_iff {r : Nat} (hcoef : Fits32 (st.work r i)) (hval32 : Fits32 val.val)
    (hc : Fits64 (st.workConst r - st.work r i * val.val)) (hopen : Open st i r) :
    acyRowExact i val st r (acyRow .machine i val st r) ↔
      (Finite val → 1 < |st.work r i| → Fits32 (st.work r i * val.val)) := by
  unfold acyRowExact acyRow
  by_cases hfin : Finite val
  · rw [if_pos hfin, if_pos hfin]
    have hcoefs : ∀ j < st.workCols, (setRow .machine i val.val r st).work r j
        = if j = i then 0 else st.work r j := by
      intro j _
      unfold setRow
      dsimp only
      exact if_congr (by simp) rfl rfl
    have hconst : (setRow .machine i val.val r st).workConst r
        = if st.work r i = 1 then Arith.machine.i64 (st.workConst r - val.val)
          else if st.work r i = -1 then Arith.machine.i64 (st.workConst r + val.val)
          else Arith.machine.i64 (st.workConst r - Arith.machine.i32 (st.work r i * val.val)) :=
      update_self _ _ _
    dsimp only
    rw [hconst]
    by_cases h1 : st.work r i = 1
    · rw [if_pos h1]
      rw [h1, one_mul] at hc ⊢
      exact iff_of_true ⟨machine_i64 hc, hcoefs⟩ fun _ habs => absurd habs (by decide)
    by_cases h2 : st.work r i = -1
    · rw [if_neg h1, if_pos h2]
      rw [h2, neg_one_mul, sub_neg_eq_add] at hc
      rw [h2, neg_one_mul, sub_neg_eq_add]
      exact iff_of_true ⟨machine_i64 hc, hcoefs⟩ fun _ habs => absurd habs (by decide)
    rw [if_neg h1, if_neg h2]
    have habs : 1 < |st.work r i| := by
      have h0 := hopen.2
      rcases abs_cases (st.work r i) with ⟨h, _⟩ | ⟨h, _⟩ <;> rw [h] <;> omega
    constructor
    · rintro ⟨hval, _⟩ _ _
      rw [← machine_i32_eq_iff]
      -- equal modulo `2^64` and not that far apart
      obtain ⟨k, hk⟩ := Int.dvd_bmod_sub_self (m := 2 ^ 64)
        (x := st.workConst r - Arith.machine.i32 (st.work r i * val.val))
      rw [show Int.bmod (st.workConst r - Arith.machine.i32 (st.work r i * val.val)) (2 ^ 64) = _
        from hval, show ((2 ^ 64 : Nat) : Int) = 18446744073709551616 by norm_num] at hk
      have h1 := abs_le.mp (machine_i32_abs (st.work r i * val.val))
      have h2 := abs_le.mp (product_abs hcoef hval32)
      omega
    · intro h
      rw [machine_i32 (h hfin habs)]
      exact ⟨machine_i64 hc, hcoefs⟩
  · rw [if_neg hfin, if_neg hfin]
    refine iff_of_true ⟨update_self _ _ _, fun j hj => ?_⟩ fun h => absurd h hfin
    unfold zeroRow
    dsimp only
    exact if_pos ⟨rfl, hj⟩

/-- Row `r` was open and is stored now. -/
def Absorbed (i : Nat) (st st' : WorkState) (r : Nat) : Prop := Open st i r ∧ st'.work r i = 0

section

variable {st' : WorkState} (ht : Typed st) (hval32 : Fits32 val.val) (hcol : i < st.workCols)
  (hc : AcyConstsFit i val st)
include ht hval32 hcol hc

theorem acySetVar_exact_iff (h : acySetVar .machine allowWrapAroundOpt i val st = .ok st') :
    (∀ r < st.workRows, Open st i r → acyRowExact i val st r (leView st' r)) ↔
      AcyProductsFit i val st := by
  have hloop := @acySetVar_stored allowWrapAroundOpt i val st .machine
  rw [h] at hloop
  have hrow : ∀ r < st.workRows, Open st i r → (acyRowExact i val st r (leView st' r) ↔
        (Finite val → 1 < |st.work r i| → Fits32 (st.work r i * val.val))) := by
    intro r hr hopen
    rw [hloop r, if_pos ⟨hr, hopen⟩]
    exact acyRow_exact_iff ((ht.le r hr).1 i hcol) hval32 (hc r hr hopen) hopen
  constructor
  · intro hex hfin r hr hopen habs
    exact (hrow r hr hopen).mp (hex r hr hopen) hfin habs
  · intro hfit r hr hopen
    exact (hrow r hr hopen).mpr fun hfin habs => hfit hfin r hr hopen habs

theorem acySetVar_stopped (h : acySetVar .machine allowWrapAroundOpt i val st = .error st') :
    (∀ r < st.workRows, Absorbed i st st' r → acyRowExact i val st r (leView st' r)) ↔
      (Finite val → ∀ r < st.workRows, Absorbed i st st' r → 1 < |st.work r i| →
        Fits32 (st.work r i * val.val)) := by
  have hloop := @acySetVar_stored allowWrapAroundOpt i val st .machine
  rw [h] at hloop
  obtain ⟨k, _, hstored⟩ := hloop
  have hrow : ∀ r < st.workRows, Absorbed i st st' r → (acyRowExact i val st r (leView st' r) ↔
        (Finite val → 1 < |st.work r i| → Fits32 (st.work r i * val.val))) := by
    rintro r hr ⟨hopen, hzero⟩
    have hview := hstored r
    by_cases hk : r < k
    · rw [hview, if_pos ⟨hk, hopen⟩]
      exact acyRow_exact_iff ((ht.le r hr).1 i hcol) hval32 (hc r hr hopen) hopen
    · -- a row that was not reached still has its coefficient
      rw [if_neg (fun h => hk h.1)] at hview
      have hsame : st'.work r = st.work r := congrArg Prod.fst hview
      rw [hsame] at hzero
      exact absurd hzero hopen.2
  constructor
  · intro hex hfin r hr habsorbed habs
    exact (hrow r hr habsorbed).mp (hex r hr habsorbed) hfin habs
  · intro hfit r hr habsorbed
    exact (hrow r hr habsorbed).mpr fun hfin habs => hfit hfin r hr habsorbed habs

end

end acyclic

/-! ## The result -/

/-- **Overflow detection.** On rows with 32-bit coefficients whose new constants fit in 64 bits, what
the three functions have stored when they come to their end is exact just if the coefficients that
they combine, or the products of `Acy_Set_Var`, fit in 32 bits. -/
theorem overflow_detected_iff (st : WorkState) (ht : Typed st) :
    (∀ i plus minus minVar res st', plus < st.workRows → minus < st.workRows → i < st.workCols →
      0 < st.work plus i → st.work minus i < 0 → st.work minus i ≠ int32Min →
      Fits64 (elimRhs st i plus minus) →
      elimOne .machine i plus minus minVar st = res → res = .ok st' ∨ res = .error (some st') →
      (ElimExact st i plus minus minVar st' ↔
        ∀ j < st.workCols, minVar ≤ j → Fits32 (elimCoef st i plus minus j))) ∧
    (∀ i minvar st', Pivot i minvar st → UnaryConstsFit i st →
      subLastEqualUnary .machine i minvar st = .ok st' →
      (UnaryExact i st st' ↔ UnaryCoefsFit i minvar st)) ∧
    (∀ allowWrapAroundOpt i val st', Fits32 val.val → i < st.workCols → AcyConstsFit i val st →
      acySetVar .machine allowWrapAroundOpt i val st = .ok st' →
      ((∀ r < st.workRows, Open st i r → acyRowExact i val st r (leView st' r)) ↔
        AcyProductsFit i val st)) ∧
    ∀ allowWrapAroundOpt i val st', Fits32 val.val → i < st.workCols → AcyConstsFit i val st →
      acySetVar .machine allowWrapAroundOpt i val st = .error st' →
      ((∀ r < st.workRows, Absorbed i st st' r → acyRowExact i val st r (leView st' r)) ↔
        (Finite val → ∀ r < st.workRows, Absorbed i st st' r → 1 < |st.work r i| →
          Fits32 (st.work r i * val.val))) :=
  ⟨fun _ _ _ _ _ _ h1 h2 h3 h4 h5 h6 h7 h8 h9 => elimOne_exact_iff ht h1 h2 h3 h4 h5 h6 h7 h8 h9,
    fun _ _ _ hp hc h => subLastEqualUnary_exact_iff ht hp hc h,
    fun _ _ _ _ hval hcol hc h => acySetVar_exact_iff ht hval hcol hc h,
    fun _ _ _ _ hval hcol hc h => acySetVar_stopped ht hval hcol hc h⟩

/-- `x + 3 y = 5` with `2 x + y <= 7` and `-3 x + y <= 2`. -/
def smallRows : WorkState :=
  { WorkState.ofRows 2 [([2, 1], 7), ([-3, 1], 2)] with
    workEq := fun _ c => if c = 0 then 1 else 3
    workConstEq := fun _ => 5
    workRowsEq := 1 }

theorem smallRows_typed : Typed smallRows := by
  refine ⟨?_, ?_⟩
  · show ∀ r < 2, (∀ j < 2, Fits32 (smallRows.work r j)) ∧ Fits64 (smallRows.workConst r)
    decide
  · show ∀ r < 1, (∀ j < 2, Fits32 (smallRows.workEq r j)) ∧ Fits64 (smallRows.workConstEq r)
    decide

theorem overflow_detected_iff_small :
    (∃ st', elimOne .machine 0 0 1 0 smallRows = .ok st' ∧ ElimExact smallRows 0 0 1 0 st') ∧
    (∃ st', subLastEqualUnary .machine 0 0 smallRows = .ok st' ∧ UnaryExact 0 smallRows st') ∧
    ∃ st', acySetVar .machine true 0 ⟨3⟩ smallRows = .ok st' ∧
      ∀ r < 2, Open smallRows 0 r → acyRowExact 0 ⟨3⟩ smallRows r (leView st' r) := by
  obtain ⟨helim, hunary, hacy, _⟩ := overflow_detected_iff smallRows smallRows_typed
  refine ⟨⟨_, rfl, ?_⟩, ⟨_, rfl, ?_⟩, ⟨_, rfl, ?_⟩⟩
  · refine (helim 0 0 1 0 _ _ (by decide) (by decide) (by decide) (by decide) (by decide) (by decide)
      (by decide) rfl (.inl rfl)).mpr ?_
    show ∀ j < 2, 0 ≤ j → Fits32 (elimCoef smallRows 0 0 1 j)
    decide
  · refine (hunary 0 0 _ ⟨by decide, by decide, by decide, by decide, by decide⟩
      ⟨by decide, by decide, by decide⟩ rfl).mpr ⟨?_, ?_, ?_⟩
    · show ∀ j < 2, 0 ≤ j → Fits32 (pivotRow 0 smallRows j)
      decide
    · show ∀ r < 0, ∀ j < 2, 0 ≤ j →
        Fits32 (smallRows.workEq r j - smallRows.workEq r 0 * pivotRow 0 smallRows j)
      decide
    · show ∀ r < 2, ∀ j < 2, 0 ≤ j →
        Fits32 (smallRows.work r j - smallRows.work r 0 * pivotRow 0 smallRows j)
      decide
  · refine (hacy true 0 ⟨3⟩ _ (by decide) (by decide) ?_ rfl).mpr fun _ => ?_
    · show ∀ r < 2, Open smallRows 0 r →
        Fits64 (smallRows.workConst r - smallRows.work r 0 * 3)
      decide
    · show ∀ r < 2, Open smallRows 0 r → 1 < |smallRows.work r 0| →
        Fits32 (smallRows.work r 0 * 3)
      decide

/-- `x + 65536 y = 0` with `65536 x <= 0`. -/
def wideRows : WorkState :=
  { WorkState.ofRows 2 [([65536, 0], 0)] with
    workEq := fun _ c => if c = 0 then 1 else 65536
    workConstEq := fun _ => 0
    workRowsEq := 1 }

/-- The coefficient `-2^32` of the substituted row is stored as 0. -/
theorem wide_product_missed : Typed wideRows ∧ Pivot 0 0 wideRows ∧ UnaryConstsFit 0 wideRows ∧
    ∃ st', subLastEqualUnary .machine 0 0 wideRows = .ok st' ∧
      st'.work 0 1 = 0 ∧ ¬ UnaryExact 0 wideRows st' := by
  refine ⟨⟨?_, ?_⟩, ⟨by decide, by decide, by decide, by decide, by decide⟩,
    ⟨by decide, by decide, by decide⟩, _, rfl, by decide, fun hex => ?_⟩
  · show ∀ r < 1, (∀ j < 2, Fits32 (wideRows.work r j)) ∧ Fits64 (wideRows.workConst r)
    decide
  · show ∀ r < 1, (∀ j < 2, Fits32 (wideRows.workEq r j)) ∧ Fits64 (wideRows.workConstEq r)
    decide
  · exact absurd ((hex.les 0 (by decide)).1 1 (by decide)) (by decide)

end Soe
