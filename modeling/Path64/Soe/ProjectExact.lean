import Mathlib.Tactic.LinearCombination
import Path64.Lib.FourierMotzkin
import Path64.Soe.SimpleRedundant

/-! # Projection is exact over the rationals

While `Project(i)` runs, every row of the original system is either
still there or is a positive row that has been combined with every
negative one, and what a combination says follows from the rows with a
zero in column `i`. -/

namespace Soe

open Nat Function LinearRow Loop

/-! ## Rational points -/

/-- The rational point `x` satisfies the inequality in row `r`. -/
def RowHoldsAt (st : WorkState) (x : Nat → ℚ) (r : Nat) : Prop :=
  Below 0 st.workCols (st.work r) (st.workConst r) x

/-- The rational point `x` satisfies every inequality in use. -/
def SolvesAt (st : WorkState) (x : Nat → ℚ) : Prop :=
  ∀ r < st.workRows, RowHoldsAt st x r

/-- The rows without variable `i` hold. -/
def ZeroRowsAt (i : Nat) (st : WorkState) (x : Nat → ℚ) : Prop :=
  ∀ r < st.workRows, st.work r i = 0 → RowHoldsAt st x r

/-- What is left of row `r` at the point `x`. -/
def slack (st : WorkState) (x : Nat → ℚ) (r : Nat) : ℚ :=
  st.workConst r - value 0 st.workCols (st.work r) x

/-- The combination of rows `p` and `m` that cancels variable `i`. -/
def PairAt (i : Nat) (st : WorkState) (p m : Nat) (x : Nat → ℚ) : Prop :=
  0 ≤ st.work p i * slack st x m - st.work m i * slack st x p

variable {st st' st0 st1 : WorkState} {x : Nat → ℚ} {r r' i plus minus p m undone n : Nat}
  {red : Nat → Bool}

theorem rowHoldsAt_iff : RowHoldsAt st x r ↔ 0 ≤ slack st x r := sub_nonneg.symm

theorem SameRow.slack_eq (h : SameRow st r st' r')
    (hcols : st'.workCols = st.workCols) (x : Nat → ℚ) : slack st' x r' = slack st x r := by
  unfold slack
  rw [hcols, h.1, value_congr (fun j _ hj => h.2 j hj)]

theorem SameRow.holdsAt (h : SameRow st r st' r') (hcols : st'.workCols = st.workCols) :
    RowHoldsAt st' x r' ↔ RowHoldsAt st x r := by
  rw [rowHoldsAt_iff, rowHoldsAt_iff, h.slack_eq hcols]

theorem SameRow.trans {s1 s2 s3 : WorkState} {r1 r2 r3 : Nat}
    (hcols : s2.workCols = s1.workCols) (h1 : SameRow s1 r1 s2 r2) (h2 : SameRow s2 r2 s3 r3) :
    SameRow s1 r1 s3 r3 :=
  ⟨h2.1.trans h1.1, fun c hc => (h2.2 c (by omega)).trans (h1.2 c hc)⟩

theorem slack_update (hi : i < st.workCols) (x : Nat → ℚ) (v : ℚ)
    (r : Nat) : slack st (update x i v) r = slack st x r - st.work r i * (v - x i):= by
  unfold slack
  rw [value_update _ _ _ (zero_le i) hi]
  ring

theorem exists_solvesAt_iff (hi : i < st.workCols) (x : Nat → ℚ) :
    (∃ v, SolvesAt st (update x i v)) ↔ ZeroRowsAt i st x ∧ ∀ p < st.workRows, ∀ m < st.workRows,
        0 < st.work p i → st.work m i < 0 → PairAt i st p m x := by
  have hrow : ∀ v r, RowHoldsAt st (update x i v) r ↔
      (st.work r i : ℚ) * v ≤ slack st x r + st.work r i * x i := by
    intro v r
    rw [rowHoldsAt_iff, slack_update hi]
    constructor <;> intro h <;> linarith
  have helim := FourierMotzkin.exists_value_iff st.workRows (fun r => (st.work r i : ℚ))
    (fun r => slack st x r + st.work r i * x i)
  unfold SolvesAt
  simp only [hrow]
  rw [helim]
  refine and_congr ?_ ?_
  · refine forall₂_congr (fun r _ => ?_)
    rw [Int.cast_eq_zero, rowHoldsAt_iff]
    refine forall_congr' (fun h0 => ?_)
    rw [h0, Int.cast_zero, zero_mul, add_zero]
  · refine forall₂_congr (fun p _ => forall₂_congr (fun m _ => ?_))
    rw [Int.cast_pos, Int.cast_lt_zero]
    refine forall₂_congr (fun _ _ => ?_)
    unfold PairAt
    rw [show (st.work p i : ℚ) * (slack st x m + st.work m i * x i)
        - st.work m i * (slack st x p + st.work p i * x i)
      = st.work p i * slack st x m - st.work m i * slack st x p by ring]

/-! ## One combination -/

theorem storeElim_slack {minVar : Nat}
    (hzero : ZeroBelow minVar st) (hpr : plus < st.workRows) (hmr : minus < st.workRows)
    (x : Nat → ℚ) : slack (storeElim .exact i plus minus minVar st) x st.workRows
      = minusMult .exact st i plus minus * slack st x plus
        + plusMult .exact st i plus minus * slack st x minus := by
  have hrow : value 0 st.workCols ((storeElim .exact i plus minus minVar st).work st.workRows) x
      = minusMult .exact st i plus minus * value 0 st.workCols (st.work plus) x
        + plusMult .exact st i plus minus * value 0 st.workCols (st.work minus) x := by
    rw [← value_comb]
    apply value_congr
    intro c _ hc
    rw [storeElim_row c hc]
    split
    · next hlt => rw [hzero plus hpr c hlt, hzero minus hmr c hlt, mul_zero, mul_zero, add_zero]
    · rw [elimTmp_exact]
  have hconst : (storeElim .exact i plus minus minVar st).workConst st.workRows
      = minusMult .exact st i plus minus * st.workConst plus
        + plusMult .exact st i plus minus * st.workConst minus := by
    simp [storeElim, elimConst]
  have hcols : (storeElim .exact i plus minus minVar st).workCols = st.workCols := rfl
  unfold slack
  rw [hcols, hrow, hconst]
  push_cast
  ring

theorem mults_scale {p m : Int} (hp : 0 < p) :
    ∃ g : Int, 0 < g ∧ p = g * p.tdiv (Int.gcd p m) ∧ -m = g * (-m).tdiv (Int.gcd p m) := by
  have hg : (0 : Int) < Int.gcd p m := by
    exact_mod_cast Int.gcd_pos_of_ne_zero_left m (by omega)
  refine ⟨Int.gcd p m, hg, ?_, ?_⟩
  · exact (Int.mul_tdiv_cancel' (Int.gcd_dvd_left p m)).symm
  · exact (Int.mul_tdiv_cancel' ((dvd_neg).mpr (Int.gcd_dvd_right p m))).symm

theorem storeElim_pairAt {minVar : Nat}
    (hzero : ZeroBelow minVar st) (hpr : plus < st.workRows) (hmr : minus < st.workRows)
    (hp : 0 < st.work plus i) (x : Nat → ℚ) :
    RowHoldsAt (storeElim .exact i plus minus minVar st) x st.workRows ↔
      PairAt i st plus minus x := by
  obtain ⟨g, hg, hgp, hgm⟩ := mults_scale (p := st.work plus i) (m := st.work minus i) hp
  rw [← plusMult_exact] at hgp
  rw [← minusMult_exact] at hgm
  have hgq : (0 : ℚ) < g := by exact_mod_cast hg
  have hgp' : (st.work plus i : ℚ) = g * plusMult .exact st i plus minus := by exact_mod_cast hgp
  have hgm' : -(st.work minus i : ℚ) = g * minusMult .exact st i plus minus := by
    exact_mod_cast hgm
  rw [rowHoldsAt_iff, storeElim_slack hzero hpr hmr]
  unfold PairAt
  have hscale : (st.work plus i : ℚ) * slack st x minus - st.work minus i * slack st x plus
      = g * (minusMult .exact st i plus minus * slack st x plus
        + plusMult .exact st i plus minus * slack st x minus) := by
    linear_combination (slack st x minus) * hgp' + (slack st x plus) * hgm'
  rw [hscale]
  exact (mul_nonneg_iff_of_pos_left hgq).symm

theorem pairAt_of_rows (hp : 0 < st.work p i)
    (hm : st.work m i < 0) (hpx : RowHoldsAt st x p) (hmx : RowHoldsAt st x m) :
    PairAt i st p m x := by
  rw [rowHoldsAt_iff] at hpx hmx
  have hp' : (0 : ℚ) < st.work p i := by exact_mod_cast hp
  have hm' : (st.work m i : ℚ) < 0 := by exact_mod_cast hm
  unfold PairAt
  nlinarith [mul_nonneg hp'.le hmx, mul_nonneg (neg_nonneg.mpr hm'.le) hpx]

/-! ## One positive row against all negative ones -/

/-- While rows are added the old ones stay, and the new ones follow from them. -/
structure Extends (i minVar : Nat) (st st' : WorkState) : Prop where
  frame : RowsOnly st st'
  step : ElimStep i st st'
  zero : ZeroBelow minVar st'
  sound : ∀ x : Nat → ℚ, SolvesAt st x → SolvesAt st' x

theorem Extends.refl {i minVar : Nat} {st : WorkState} (h : ZeroBelow minVar st) :
    Extends i minVar st st :=
  ⟨RowsOnly.refl st, ElimStep.refl i st, h, fun _ hx => hx⟩

theorem Extends.trans {i minVar : Nat} {s1 s2 s3 : WorkState} (hi : i < s1.workCols)
    (h1 : Extends i minVar s1 s2) (h2 : Extends i minVar s2 s3) : Extends i minVar s1 s3 := by
  have hcols := h1.frame.workCols
  exact ⟨h1.frame.trans h2.frame, h1.step.trans (by omega) hcols h2.step, h2.zero,
    fun x hx => h2.sound x (h1.sound x hx)⟩

theorem Extends.zeroRows {minVar : Nat}
    (hi : i < st.workCols) (h : Extends i minVar st st') (hx : ZeroRowsAt i st' x) :
    ZeroRowsAt i st x := by
  intro r hr h0
  have hsame := h.step.old r hr
  rw [← hsame.holdsAt h.frame.workCols]
  exact hx r (lt_of_lt_of_le hr h.step.grows) (by rw [hsame.2 i hi, h0])

theorem Extends.pairAt {minVar : Nat}
    (hi : i < st.workCols) (h : Extends i minVar st st') (hp : p < st.workRows)
    (hm : m < st.workRows) : PairAt i st' p m x ↔ PairAt i st p m x := by
  have hpsame := h.step.old p hp
  have hmsame := h.step.old m hm
  unfold PairAt
  rw [hpsame.2 i hi, hmsame.2 i hi, hpsame.slack_eq h.frame.workCols,
    hmsame.slack_eq h.frame.workCols]

/-- The combined row leaves room for a value of the variable between the two bounds. -/
theorem elimOne_extends {minVar : Nat}
    (hzero : ZeroBelow minVar st) (hi : i < st.workCols)
    (hpr : plus < st.workRows) (hmr : minus < st.workRows)
    (hp : 0 < st.work plus i) (hm : st.work minus i < 0) :
    Outcome (fun e => e = none ∨ ∀ x : Nat → ℚ, ¬ SolvesAt st x)
      (fun st' => Extends i minVar st st' ∧
        ∀ x : Nat → ℚ, ZeroRowsAt i st' x → PairAt i st plus minus x)
      (elimOne .exact i plus minus minVar st) := by
  have hpair : ∀ x : Nat → ℚ, RowHoldsAt (storeElim .exact i plus minus minVar st) x st.workRows ↔
      PairAt i st plus minus x := storeElim_pairAt hzero hpr hmr hp
  have hnew : ∀ x : Nat → ℚ, SolvesAt st x →
      RowHoldsAt (storeElim .exact i plus minus minVar st) x st.workRows := fun x hx =>
    (hpair x).mpr (pairAt_of_rows hp hm (hx plus hpr) (hx minus hmr))
  have hold : ∀ x : Nat → ℚ, SolvesAt st x → ∀ r < st.workRows,
      RowHoldsAt (storeElim .exact i plus minus minVar st) x r := fun x hx r hr =>
    (SameRow.holdsAt (storeElim_other (Nat.ne_of_lt hr)) rfl).mpr (hx r hr)
  have hzold : ∀ r < st.workRows, ∀ c < minVar,
      (storeElim .exact i plus minus minVar st).work r c = 0 := by
    intro r hr c hc
    have hne : r ≠ st.workRows := Nat.ne_of_lt hr
    simp only [storeElim, if_neg hne]
    exact hzero r hr c hc
  unfold elimOne
  split
  · exact .inl rfl
  · split
    · exact .inl rfl
    · dsimp only
      split
      · next hvars =>
        -- the combination has no variable left
        simp only [Bool.not_eq_true', anyCol_eq_false, decide_eq_false_iff_not, not_not] at hvars
        have hnull : ∀ c < st.workCols,
            (storeElim .exact i plus minus minVar st).work st.workRows c = 0 := by
          intro c hc
          by_cases hlt : c < minVar
          · rw [storeElim_row c hc, if_pos hlt]
          · exact hvars c (by omega) hc
        have hconst : ∀ x : Nat → ℚ,
            RowHoldsAt (storeElim .exact i plus minus minVar st) x st.workRows ↔
              0 ≤ (storeElim .exact i plus minus minVar st).workConst st.workRows := by
          intro x
          show value 0 st.workCols _ x ≤ _ ↔ _
          rw [value_eq_zero (fun c _ hc => hnull c hc)]
          exact Int.cast_nonneg_iff
        split
        · next hneg =>
          refine .inr (fun x hx => ?_)
          have := (hconst x).mp (hnew x hx)
          omega
        · next hneg =>
          refine ⟨⟨⟨_, _, st.workRows, rfl⟩, ⟨fun r hr => storeElim_other (Nat.ne_of_lt hr),
            Nat.le_refl _, fun r h1 h2 => absurd h2 (Nat.not_lt.mpr h1)⟩, hzold, hold⟩, ?_⟩
          exact fun x _ => (hpair x).mp ((hconst x).mpr (not_lt.mp hneg))
      · -- the combination is kept as a new row
        have hcol : (storeElim .exact i plus minus minVar st).work st.workRows i = 0 := by
          rw [storeElim_row i hi, elimTmp_exact_self hp hm, ite_self]
        refine ⟨⟨⟨_, _, st.workRows + 1, rfl⟩, ⟨fun r hr => storeElim_other (Nat.ne_of_lt hr),
          Nat.le_succ _, fun r h1 h2 => ?_⟩, fun r hr c hc => ?_, fun x hx r hr => ?_⟩,
          fun x hx => (hpair x).mp (hx st.workRows (lt_succ_self _) hcol)⟩
        · have hr : r = st.workRows := by dsimp only at h2; omega
          rw [hr]
          exact hcol
        · rcases Nat.lt_succ_iff_lt_or_eq.mp hr with hlt | rfl
          · exact hzold r hlt c hc
          · simp only [storeElim, if_true, if_pos hc]
        · rcases Nat.lt_succ_iff_lt_or_eq.mp hr with hlt | rfl
          · exact hold x hx r hlt
          · exact hnew x hx

theorem projectMinus_extends {minVar : Nat}
    (hzero : ZeroBelow minVar st) (hi : i < st.workCols) (hpr : plus < st.workRows)
    (hund : undone ≤ st.workRows) (hp : 0 < st.work plus i) :
    Outcome (fun e => e = none ∨ ∀ x : Nat → ℚ, ¬ SolvesAt st x)
      (fun st' => Extends i minVar st st' ∧ ∀ m < undone, st.work m i < 0 →
        ∀ x : Nat → ℚ, ZeroRowsAt i st' x → PairAt i st plus m x)
      (forFrom (projectMinus .exact i plus minVar) undone 0 st) := by
  have hloop := forFrom_outcome (f := projectMinus .exact i plus minVar)
    (Q := fun e => e = none ∨ ∀ x : Nat → ℚ, ¬ SolvesAt st x)
    (fun k t => Extends i minVar st t ∧ ∀ m < k, st.work m i < 0 →
      ∀ x : Nat → ℚ, ZeroRowsAt i t x → PairAt i st plus m x) undone 0 st ?_
    ⟨Extends.refl hzero, fun m hm => absurd hm (not_lt_zero m)⟩
  · rwa [zero_add] at hloop
  intro minus t _ hminus ht
  obtain ⟨hext, hpairs⟩ := ht
  have hgrow := hext.step.grows
  have hcols := hext.frame.workCols
  have hcol : t.work minus i = st.work minus i := (hext.step.old minus (by omega)).2 i hi
  unfold projectMinus
  split
  · next hneg =>
    have hplus : 0 < t.work plus i := by
      rw [(hext.step.old plus hpr).2 i hi]; exact hp
    have hout := elimOne_extends hext.zero (by omega) (by omega) (by omega) hplus hneg
    cases hres : elimOne .exact i plus minus minVar t with
    | error e =>
      rw [hres] at hout
      exact hout.imp_right (fun hno x hx => hno x (hext.sound x hx))
    | ok t' =>
      rw [hres] at hout
      obtain ⟨hext', hpair⟩ := hout
      refine ⟨hext.trans hi hext', fun m hm hneg' x hx => ?_⟩
      rcases Nat.lt_succ_iff_lt_or_eq.mp hm with hlt | rfl
      · exact hpairs m hlt hneg' x (hext'.zeroRows (by omega) hx)
      · exact (hext.pairAt hi hpr (by omega)).mp (hpair x hx)
  · next hneg =>
    refine ⟨hext, fun m hm hneg' x hx => ?_⟩
    rcases Nat.lt_succ_iff_lt_or_eq.mp hm with hlt | rfl
    · exact hpairs m hlt hneg' x hx
    · exact absurd (hcol ▸ hneg') hneg

/-! ## The loop over the positive rows -/

/-- Row `r` is positive and has been combined with every negative row. -/
structure Combined (st₀ : WorkState) (i : Nat) (st : WorkState) (r : Nat) : Prop where
  pos : 0 < st₀.work r i
  pairs : ∀ m < st₀.workRows, st₀.work m i < 0 →
    ∀ x : Nat → ℚ, ZeroRowsAt i st x → PairAt i st₀ r m x

/-- What the loop knows about the original system. -/
structure Projected (st₀ : WorkState) (i minVar : Nat) (st : WorkState) : Prop where
  frame : RowsOnly st₀ st
  zero : ZeroBelow minVar st
  sound : ∀ x : Nat → ℚ, SolvesAt st₀ x → SolvesAt st x
  kept : ∀ r < st₀.workRows,
    (∃ r' < st.workRows, SameRow st₀ r st r') ∨ Combined st₀ i st r

theorem copyRow_zeroBelow {dst src minVar : Nat} (h : ZeroBelow minVar st) :
    ZeroBelow minVar (copyRow dst src minVar st) := by
  intro r hr c hc
  have hrange : ¬ (r = dst ∧ minVar ≤ c ∧ c < st.workCols) := by omega
  simp only [copyRow, if_neg hrange]
  exact h r hr c hc

theorem ZeroBelow.fewer (h : ZeroBelow m st) (hn : n ≤ st.workRows) :
    ZeroBelow m { st with workRows := n } :=
  fun r hr => h r (lt_of_lt_of_le hr hn)

theorem erasePlus_zeroBelow {minVar : Nat} (h : ZeroBelow minVar st) :
    ZeroBelow minVar (erasePlus plus minVar st) := by
  unfold erasePlus
  split
  · exact (copyRow_zeroBelow h).fewer (show st.workRows - 1 ≤ st.workRows by omega)
  · exact h.fewer (sub_le _ _)

theorem erasePlus_keeps {minVar : Nat} (hzero : ZeroBelow minVar st)
    (hp : plus < st.workRows) (hr : r < st.workRows) (hne : r ≠ plus) :
    ∃ r' < (erasePlus plus minVar st).workRows, SameRow st r (erasePlus plus minVar st) r' := by
  have hrows : (erasePlus plus minVar st).workRows = st.workRows - 1 := rfl
  rw [hrows]
  by_cases hlast : r = st.workRows - 1
  · refine ⟨plus, by omega, ?_⟩
    have hsame := erasePlus_rows hzero hp (show plus < st.workRows - 1 by omega)
    rwa [if_pos rfl, ← hlast] at hsame
  · refine ⟨r, by omega, ?_⟩
    have hsame := erasePlus_rows hzero hp (show r < st.workRows - 1 by omega)
    rwa [if_neg hne] at hsame

theorem erasePlus_solvesAt {minVar : Nat}
    (hzero : ZeroBelow minVar st) (hp : plus < st.workRows) (hx : SolvesAt st x) :
    SolvesAt (erasePlus plus minVar st) x := by
  intro r hr
  have hr' : r < st.workRows - 1 := hr
  rw [(erasePlus_rows hzero hp hr').holdsAt (erasePlus_rowsOnly _ _ _).workCols]
  refine hx _ ?_
  split <;> omega

theorem Projected.erase {minVar : Nat}
    (h : Projected st0 i minVar st) (hi : i < st0.workCols) (hd : Dealt i plus undone st)
    (hlt : plus < undone) (hpos : 0 < st.work plus i) (hext : Extends i minVar st st1)
    (hpairs : ∀ m < undone, st.work m i < 0 →
      ∀ x : Nat → ℚ, ZeroRowsAt i st1 x → PairAt i st plus m x) :
    Projected st0 i minVar (erasePlus plus minVar st1) := by
  have hcols := h.frame.workCols
  have hcols1 := hext.frame.workCols
  have hgrow := hext.step.grows
  have hrows := hd.rows
  have hplus1 : st1.work plus i = st.work plus i := (hext.step.old plus (by omega)).2 i (by omega)
  have hcols2 : (erasePlus plus minVar st1).workCols = st1.workCols :=
    (erasePlus_rowsOnly _ _ _).workCols
  -- the erased row is not one of the rows without variable `i`
  have hback : ∀ x : Nat → ℚ, ZeroRowsAt i (erasePlus plus minVar st1) x → ZeroRowsAt i st1 x := by
    intro x hx r hr h0
    have hne : r ≠ plus := fun heq => by rw [heq] at h0; omega
    obtain ⟨r', hr', hsame⟩ := erasePlus_keeps hext.zero (by omega) hr hne
    rw [← hsame.holdsAt hcols2]
    exact hx r' hr' (by rw [hsame.2 i (by omega), h0])
  refine ⟨h.frame.trans (hext.frame.trans (erasePlus_rowsOnly _ _ _)),
    erasePlus_zeroBelow hext.zero,
    fun x hx => erasePlus_solvesAt hext.zero (by omega) (hext.sound x (h.sound x hx)),
    fun r hr => ?_⟩
  rcases h.kept r hr with ⟨r', hr', hsame⟩ | hcomb
  · by_cases heq : r' = plus
    · -- this is the row
      rw [heq] at hsame
      have hrpos : 0 < st0.work r i := by rw [← hsame.2 i hi]; exact hpos
      refine .inr ⟨hrpos, fun m hm hneg x hx => ?_⟩
      rcases h.kept m hm with ⟨m', hm', hsame'⟩ | hcomb
      · have hneg' : st.work m' i < 0 := by rw [hsame'.2 i hi]; exact hneg
        have hund : m' < undone := by
          by_contra hge
          have := hd.above m' (by omega) hm'
          omega
        have hpair := hpairs m' hund hneg' x (hback x hx)
        unfold PairAt at hpair ⊢
        rwa [hsame.2 i hi, hsame'.2 i hi, hsame.slack_eq hcols, hsame'.slack_eq hcols] at hpair
      · have := hcomb.pos
        omega
    · obtain ⟨r'', hr'', hsame2⟩ := erasePlus_keeps hext.zero (by omega)
        (show r' < st1.workRows by omega) heq
      have hsame1 := hsame.trans hcols (hext.step.old r' hr')
      exact .inl ⟨r'', hr'', hsame1.trans (by omega) hsame2⟩
  · refine .inr ⟨hcomb.pos, fun m hm hneg x hx => hcomb.pairs m hm hneg x ?_⟩
    exact hext.zeroRows (by omega) (hback x hx)

theorem projectLoop_projected {minVar : Nat} (hi : i < st0.workCols)
    (fuel : Nat) : ∀ (plus undone : Nat) (st : WorkState), undone - plus ≤ fuel →
      Projected st0 i minVar st → Dealt i plus undone st →
      Outcome (fun e => e = none ∨ ∀ x : Nat → ℚ, ¬ SolvesAt st0 x)
        (fun r => Projected st0 i minVar r.2 ∧ (∀ k < r.2.workRows, r.2.work k i ≤ 0) ∧
          (r.1 = true → r.2.workRows = 0)) (projectLoop .exact i minVar fuel plus undone st):= by
  have hexit : ∀ (plus undone : Nat) (st : WorkState), Dealt i plus undone st → undone ≤ plus →
      ∀ k < st.workRows, st.work k i ≤ 0 := by
    intro plus undone st hd hdone k hk
    by_cases hkp : k < plus
    · exact hd.below k hkp
    · exact (hd.above k (by omega) hk).le
  induction fuel with
  | zero =>
    intro plus undone st hfuel h hd
    exact ⟨h, hexit plus undone st hd (by omega), fun hc => absurd hc (by simp)⟩
  | succ fuel ih =>
    intro plus undone st hfuel h hd
    have hrows := hd.rows
    have hcols := h.frame.workCols
    unfold projectLoop
    split
    · next hlt =>
      split
      · next hpos =>
        have hloop := projectMinus_extends h.zero (show i < st.workCols by omega)
          (show plus < st.workRows by omega) hrows hpos
        cases hres : forFrom (projectMinus .exact i plus minVar) undone 0 st with
        | error e =>
          rw [hres] at hloop
          exact hloop.imp_right (fun hno x hx => hno x (h.sound x hx))
        | ok st1 =>
          rw [hres] at hloop
          obtain ⟨hext, hpairs⟩ := hloop
          have hgrow := hext.step.grows
          have h2 := h.erase hi hd hlt hpos hext hpairs
          have hd2 := hd.erasePlus hext.step hext.zero (by omega) hext.frame.workCols hlt
          dsimp only
          split_ifs with hnone hall hlast
          · exact ⟨h2, fun k hk => absurd hk (by rw [hnone]; exact not_lt_zero k),
              fun _ => hnone⟩
          · exact ih plus (undone - 1) _ (by omega) h2 (hd2.1 hall)
          · exact ih (plus + 1) undone _ (by omega) h2 (hd2.2 hall)
          · omega
      · next hpos => exact ih (plus + 1) undone st (by omega) h (hd.skip hlt hpos)
    · exact ⟨h, hexit plus undone st hd (by omega), fun hc => absurd hc (by simp)⟩

/-! ## Compacting loses no good row -/

theorem dropTail_bad (bad : Nat → Bool) (i : Nat) : ∀ n r, dropTail bad i n ≤ r → r < n →
    bad r = true := by
  intro n
  induction n with
  | zero => intro r _ h; omega
  | succ n ih =>
    intro r hlo hhi
    unfold dropTail at hlo
    split at hlo
    · next hc =>
      rcases Nat.lt_succ_iff_lt_or_eq.mp hhi with hlt | rfl
      · exact ih r hlo hlt
      · exact hc.2
    · omega

section

variable {bad : WorkState → Nat → Bool} {minVar : Nat}

theorem compactRows_keeps
    (hbad : ∀ s s' r, s.work r = s'.work r → bad s r = bad s' r) (fuel : Nat) :
    ∀ (k : Nat) (st : WorkState), st.workRows - k ≤ fuel → ZeroBelow minVar st →
      ∀ r < st.workRows, r < k ∨ bad st r = false →
        ∃ r' < (compactRows bad minVar fuel k st).workRows,
          SameRow st r (compactRows bad minVar fuel k st) r' := by
  induction fuel with
  | zero =>
    intro k st hfuel hzero r hr hgood
    exact ⟨r, hr, SameRow.refl st r⟩
  | succ fuel ih =>
    intro k st hfuel hzero r hr hgood
    unfold compactRows
    split
    · next hk =>
      split
      · next hbadk =>
        obtain ⟨hlo, hhi, -⟩ := dropTail_spec (bad st) k st.workRows hk
        have hdropped := dropTail_bad (bad st) k st.workRows
        generalize dropTail (bad st) k st.workRows = n at *
        -- one round: the row has a place below `n - 1`, and stays good
        obtain ⟨st1, hst1, hround⟩ : ∃ st1 : WorkState,
            (if k < n - 1 then copyRow k (n - 1) minVar st else st) = st1 ∧
            RowsOnly st st1 ∧ st1.workRows = st.workRows ∧ ZeroBelow minVar st1 ∧
            ∃ r' < n - 1, SameRow st r st1 r' ∧ (r' < k + 1 ∨ bad st1 r' = false) := by
          refine ⟨_, rfl, ?_⟩
          have hrn : r < n := by
            by_contra hge
            rcases hgood with hlt | hgood
            · omega
            · rw [hdropped r (by omega) hr] at hgood
              cases hgood
          have hrk : r ≠ k := by
            rintro rfl
            rcases hgood with hlt | hgood
            · omega
            · rw [hbadk] at hgood
              cases hgood
          split
          · next hmove =>
            refine ⟨copyRow_rowsOnly _ _ _ _, rfl, copyRow_zeroBelow hzero, ?_⟩
            by_cases hlast : r = n - 1
            · exact ⟨k, hmove, hlast ▸ copyRow_self hzero hk (by omega), .inl (by omega)⟩
            · refine ⟨r, by omega, copyRow_other hrk, ?_⟩
              rcases hgood with hlt | hgood
              · exact .inl (by omega)
              · refine .inr ?_
                rw [← hgood]
                refine hbad _ _ _ ?_
                funext c
                simp [copyRow, hrk]
          · exact ⟨RowsOnly.refl st, rfl, hzero, r, by omega, SameRow.refl st r,
              hgood.imp_left (by omega)⟩
        dsimp only
        rw [hst1]
        obtain ⟨hframe, hrows1, hzero1, r', hr', hsame, hgood'⟩ := hround
        obtain ⟨r'', hr'', hsame'⟩ := ih (k + 1) { st1 with workRows := n - 1 }
          (show n - 1 - (k + 1) ≤ fuel by omega)
          (hzero1.fewer (by omega)) r' hr' (hgood'.imp_right
            (fun hg => by rw [← hg]; exact hbad _ _ _ rfl))
        exact ⟨r'', hr'', hsame.trans hframe.workCols hsame'⟩
      · next hbadk =>
        refine ih (k + 1) st (by omega) hzero r hr ?_
        exact hgood.imp_left (by omega)
    · exact ⟨r, hr, SameRow.refl st r⟩

theorem compactRows_zeroBelow (fuel : Nat) : ∀ (k : Nat) (st : WorkState), ZeroBelow minVar st →
      ZeroBelow minVar (compactRows bad minVar fuel k st) := by
  induction fuel with
  | zero => intro k st h; exact h
  | succ fuel ih =>
    intro k st h
    unfold compactRows
    split
    · next hk =>
      split
      · obtain ⟨-, hhi, -⟩ := dropTail_spec (bad st) k st.workRows hk
        refine ih _ _ ?_
        split
        · exact (copyRow_zeroBelow h).fewer (show _ ≤ st.workRows by omega)
        · exact h.fewer (by omega)
      · exact ih _ _ h
    · exact h

theorem compactRows_solvesAt (hbad : ∀ s s' r, s.work r = s'.work r → bad s r = bad s' r)
    (hzero : ZeroBelow minVar st) (x : Nat → ℚ) :
    SolvesAt (compactRows bad minVar st.workRows 0 st) x ↔
      ∀ r < st.workRows, bad st r = false → RowHoldsAt st x r := by
  have hcols := (compactRows_rowsOnly bad minVar st.workRows 0 st).workCols
  constructor
  · intro hx r hr hgood
    obtain ⟨r', hr', hsame⟩ :=
      compactRows_keeps hbad st.workRows 0 st (by omega) hzero r hr (.inr hgood)
    rw [← hsame.holdsAt hcols]
    exact hx r' hr'
  · intro hx r hr
    obtain ⟨r', hr', hgood, hsame⟩ := compactRows_rows hbad hzero hr
    rw [hsame.holdsAt hcols]
    exact hx r' hr' hgood

end

/-! ## Simply redundant rows -/

/-- Row `b` follows from row `a`. -/
def RowImplies (st : WorkState) (a b : Nat) : Prop :=
  ∀ x : Nat → ℚ, RowHoldsAt st x a → RowHoldsAt st x b

theorem value_of_zero {lo : Nat} {a : Nat → Int} (h : ∀ j < lo, a j = 0) :
    value 0 n a x = value lo n a x := by
  by_cases hlo : lo ≤ n
  · exact value_of_zero_below hlo h
  · rw [value_eq_zero (fun j _ hj => h j (by omega)), value_eq_zero (fun j h1 h2 => by omega)]

theorem cross_verdict {d u v : Int} (hd : d ≠ 0) :
    ((if (d > 0 ∧ u ≤ v) ∨ (d < 0 ∧ u ≥ v) then 2 else 1) = 1 →
      0 < d ∧ v ≤ u ∨ d < 0 ∧ u ≤ v) ∧
    ((if (d > 0 ∧ u ≤ v) ∨ (d < 0 ∧ u ≥ v) then 2 else 1) = 2 →
      0 < d ∧ u ≤ v ∨ d < 0 ∧ v ≤ u) := by
  split <;> omega

/-- A row that is found redundant follows from the other one. -/
theorem isSimpleRedundant_implies (row1 row2 : Nat → Int) (row1c row2c : Int) (minVar cols : Nat) :
    (isSimpleRedundant .exact row1 row2 row1c row2c minVar cols = 1 → ∀ x : Nat → ℚ,
      Below minVar cols row2 row2c x → Below minVar cols row1 row1c x) ∧
    (isSimpleRedundant .exact row1 row2 row1c row2c minVar cols = 2 → ∀ x : Nat → ℚ,
      Below minVar cols row1 row1c x → Below minVar cols row2 row2c x) := by
  have hinv := multipleLoop_inv row1 row2 minVar cols
  unfold isSimpleRedundant
  generalize forFrom (multipleStep .exact row1 row2) (cols - minVar) minVar none = r at *
  rcases r with _ | m
  · -- not multiples of each other
    constructor
    · intro h
      simp at h
    · intro h
      simp at h
  · simp only [abs64_exact, exact_i64]
    by_cases hc1 : |row1c| > int32Max
    · -- a constant that is too large: no answer
      simp only [if_pos hc1]
      exact ⟨fun h => absurd h (by simp), fun h => absurd h (by simp)⟩
    by_cases hc2 : |row2c| > int32Max
    · simp only [if_neg hc1, if_pos hc2]
      exact ⟨fun h => absurd h (by simp), fun h => absurd h (by simp)⟩
    simp only [if_neg hc1, if_neg hc2]
    rcases m with _ | ⟨n, d⟩
    · -- no variables: the constants decide
      have hnull : ∀ x : Nat → ℚ, (Below minVar cols row1 row1c x ↔ 0 ≤ row1c) ∧
          (Below minVar cols row2 row2c x ↔ 0 ≤ row2c) := by
        intro x
        unfold Below
        rw [value_eq_zero fun j h1 h2 => (hinv j h1 (by omega)).1,
          value_eq_zero fun j h1 h2 => (hinv j h1 (by omega)).2]
        exact ⟨Int.cast_nonneg_iff, Int.cast_nonneg_iff⟩
      simp only [Option.getD_none, if_true]
      refine ⟨fun hv x => ?_, fun hv x => ?_⟩
      · rw [(hnull x).1, (hnull x).2]
        split_ifs at hv <;> omega
      · rw [(hnull x).1, (hnull x).2]
        split_ifs at hv <;> omega
    · -- multiples: the sign of the factor says which row implies the other
      obtain ⟨k, hk, rfl, rfl⟩ := hinv
      have hcols : minVar + (cols - minVar) = cols := by
        have := hk.lo
        have := hk.hi
        omega
      rw [hcols] at hk
      have hsign := hk.sign
      have hne : row2 k ≠ 0 := fun h0 => by rw [h0, mul_zero] at hsign; omega
      have himplies := hk.implies (K := ℚ) row1c row2c
      have himplied := hk.implied (K := ℚ) row1c row2c
      simp only [Option.getD_some]
      by_cases hnd : row1 k = row2 k
      · -- equal rows: the constants are compared as they are
        simp only [if_pos hnd]
        rw [hnd] at himplies himplied
        refine ⟨fun hv => himplied ?_, fun hv => himplies ?_⟩
        · have hle : row2c ≤ row1c := by split at hv <;> omega
          rcases lt_or_gt_of_ne hne with hneg | hpos
          · exact .inr ⟨hneg, mul_le_mul_of_nonpos_left hle hneg.le⟩
          · exact .inl ⟨hpos, mul_le_mul_of_nonneg_left hle (le_of_lt hpos)⟩
        · have hle : row1c ≤ row2c := by split at hv <;> omega
          rcases lt_or_gt_of_ne hne with hneg | hpos
          · exact .inr ⟨hneg, mul_le_mul_of_nonpos_left hle hneg.le⟩
          · exact .inl ⟨hpos, mul_le_mul_of_nonneg_left hle (le_of_lt hpos)⟩
      · simp only [if_neg hnd]
        have hcross := cross_verdict (u := row2 k * row1c) (v := row1 k * row2c) hne
        exact ⟨fun hv => himplied (hcross.1 hv), fun hv => himplies (hcross.2 hv)⟩

/-- Unmarked rows imply all, and a marked row `i` follows from one passed over since. -/
structure Marking (st : WorkState) (i j : Nat) (red : Nat → Bool) : Prop where
  covered : ∀ x : Nat → ℚ, (∀ r < st.workRows, red r = false → RowHoldsAt st x r) →
    SolvesAt st x
  owner : red i = false ∨
    ∃ a, a < j ∧ a < st.workRows ∧ a ≠ i ∧ red a = false ∧ RowImplies st a i

theorem covered_update {b : Nat}
    (hcov : ∀ x : Nat → ℚ, (∀ r < st.workRows, red r = false → RowHoldsAt st x r) → SolvesAt st x)
    (ha : ∃ a < st.workRows, a ≠ b ∧ red a = false ∧ RowImplies st a b) (x : Nat → ℚ)
    (hx : ∀ r < st.workRows, update red b true r = false → RowHoldsAt st x r) : SolvesAt st x:= by
  obtain ⟨a, harows, hab, hared, himp⟩ := ha
  refine hcov x (fun r hr hred => ?_)
  by_cases hrb : r = b
  · rw [hrb]
    exact himp x (hx a harows (by rw [update_of_ne hab]; exact hared))
  · exact hx r hr (by rw [update_of_ne hrb]; exact hred)

/-- One more pair compared: every marked row still follows from those not marked. -/
theorem markPair_marking {minVar j : Nat}
    (hzero : ZeroBelow minVar st) (hij : i < j) (hj : j < st.workRows)
    (h : Marking st i j red) : Marking st i (j + 1) (markPair .exact minVar st i j red) := by
  obtain ⟨hcov, howner⟩ := h
  have hsame : Marking st i (j + 1) red := by
    refine ⟨hcov, howner.imp_right ?_⟩
    rintro ⟨a, haj, harest⟩
    exact ⟨a, by omega, harest⟩
  have hverdict := isSimpleRedundant_implies (st.work i) (st.work j) (st.workConst i)
    (st.workConst j) minVar st.workCols
  have hbelow : ∀ r < st.workRows, ∀ x : Nat → ℚ, RowHoldsAt st x r ↔
      Below minVar st.workCols (st.work r) (st.workConst r) x := by
    intro r hr x
    unfold RowHoldsAt Below
    rw [value_of_zero (hzero r hr)]
  unfold markPair
  split
  · next hcond =>
    dsimp only
    split
    · next hone =>
      -- row `i` follows from row `j`
      have himp : RowImplies st j i := fun x hx =>
        (hbelow i (by omega) x).mpr (hverdict.1 hone x ((hbelow j hj x).mp hx))
      refine ⟨covered_update hcov ⟨j, hj, by omega, hcond.1, himp⟩, .inr ?_⟩
      refine ⟨j, lt_succ_self j, hj, by omega, ?_, himp⟩
      rw [update_of_ne (by omega)]
      exact hcond.1
    · split
      · next htwo =>
        -- row `j` follows from row `i`, or from the row that `i` follows from
        have himp : RowImplies st i j := fun x hx =>
          (hbelow j hj x).mpr (hverdict.2 htwo x ((hbelow i (by omega) x).mp hx))
        rcases howner with hi | ⟨a, haj, harows, hai, hared, haimp⟩
        · refine ⟨covered_update hcov ⟨i, by omega, by omega, hi, himp⟩, .inl ?_⟩
          rw [update_of_ne (by omega)]
          exact hi
        · refine ⟨covered_update hcov ⟨a, harows, by omega, hared,
            fun x hx => himp x (haimp x hx)⟩, .inr ⟨a, by omega, harows, hai, ?_, haimp⟩⟩
          rw [update_of_ne (by omega)]
          exact hared
      · exact hsame
  · exact hsame

theorem markRow_covered {minVar : Nat} (hzero : ZeroBelow minVar st)
    (hcov : ∀ x : Nat → ℚ, (∀ r < st.workRows, red r = false → RowHoldsAt st x r) → SolvesAt st x) :
    ∀ x : Nat → ℚ, (∀ r < st.workRows, markRow .exact minVar st i red r = false →
      RowHoldsAt st x r) → SolvesAt st x := by
  unfold markRow
  split
  · next hi =>
    exact (forEach_inv (fun j red => Marking st i j red) _ _ _
      (fun j red hlo hhi h => markPair_marking hzero (by omega) (by omega) h)
      ⟨hcov, .inl hi⟩).covered
  · exact hcov

theorem elimSimpleRedundant_solvesAt {minVar : Nat} (hzero : ZeroBelow minVar st)
    (x : Nat → ℚ) : SolvesAt (elimSimpleRedundant .exact minVar st) x ↔ SolvesAt st x := by
  have hcov := forEach_inv (f := markRow .exact minVar st)
    (fun _ red => ∀ x : Nat → ℚ, (∀ r < st.workRows, red r = false → RowHoldsAt st x r) →
      SolvesAt st x) st.workRows 0 (fun _ => false)
    (fun i red _ _ h => markRow_covered hzero h) (fun x hx r hr => hx r hr rfl)
  unfold elimSimpleRedundant
  dsimp only
  rw [compactRows_solvesAt (fun _ _ _ _ => rfl) hzero]
  exact ⟨hcov x, fun hx r hr _ => hx r hr⟩

/-! ## Project -/

theorem Projected.zeroRows_iff {minVar : Nat}
    (h : Projected st i minVar st1) (hi : i < st.workCols)
    (hnonpos : ∀ k < st1.workRows, st1.work k i ≤ 0) (x : Nat → ℚ) :
    ZeroRowsAt i st1 x ↔ ∃ v, SolvesAt st (update x i v) := by
  have hcols := h.frame.workCols
  constructor
  · intro hx
    rw [exists_solvesAt_iff hi]
    refine ⟨fun r hr h0 => ?_, fun p hp m hm hpos hneg => ?_⟩
    · rcases h.kept r hr with ⟨r', hr', hsame⟩ | hcomb
      · rw [← hsame.holdsAt hcols]
        exact hx r' hr' (by rw [hsame.2 i hi, h0])
      · have := hcomb.pos
        omega
    · rcases h.kept p hp with ⟨p', hp', hsame⟩ | hcomb
      · have hle := hnonpos p' hp'
        rw [hsame.2 i hi] at hle
        omega
      · exact hcomb.pairs m hm hneg x hx
  · rintro ⟨v, hv⟩ r hr h0
    have hrow := h.sound _ hv r hr
    rw [rowHoldsAt_iff, slack_update (by omega), h0, Int.cast_zero, zero_mul, sub_zero] at hrow
    exact rowHoldsAt_iff.mpr hrow

theorem erased_spec {minVar : Nat} (hi : i < st.workCols)
    (hzero : ZeroBelow minVar st) (hnonpos : ∀ k < st.workRows, st.work k i ≤ 0) :
    let st' := elimSimpleRedundant .exact minVar
      (compactRows (fun s r => decide (s.work r i < 0)) minVar st.workRows 0 st)
    (∀ r < st'.workRows, st'.work r i = 0) ∧
      ∀ x : Nat → ℚ, SolvesAt st' x ↔ ZeroRowsAt i st x := by
  have hbad : ∀ (s s' : WorkState) (r : Nat), s.work r = s'.work r →
      decide (s.work r i < 0) = decide (s'.work r i < 0) := by
    intro s s' r hr
    rw [hr]
  have hzero' : ZeroBelow minVar
      (compactRows (fun s r => decide (s.work r i < 0)) minVar st.workRows 0 st) :=
    compactRows_zeroBelow st.workRows 0 st hzero
  have hcols := (compactRows_rowsOnly (fun s r => decide (s.work r i < 0)) minVar
    st.workRows 0 st).workCols
  have hgood : ∀ r < st.workRows, decide (st.work r i < 0) = false ↔ st.work r i = 0 := by
    intro r hr
    have := hnonpos r hr
    rw [decide_eq_false_iff_not]
    omega
  refine ⟨elimSimpleRedundant_col hzero' (by omega) (fun r hr => ?_), fun x => ?_⟩
  · obtain ⟨r', hr', hb, hsame⟩ := compactRows_rows hbad hzero hr
    rw [hsame.2 i hi]
    exact (hgood r' hr').mp hb
  · rw [elimSimpleRedundant_solvesAt hzero', compactRows_solvesAt hbad hzero]
    exact forall₂_congr (fun r hr => by rw [hgood r hr])

/-- **Projection is exact.** If `Project(i)` proves an inconsistency, the rows have no rational
solution; otherwise column `i` is zero in the rows that are left, and they hold at the points at
which some value of variable `i` solves the original rows. -/
theorem project_exact {st st' : WorkState} {i minVar : Nat} {p : Bool} (hi : i < st.workCols)
    (hzero : ZeroBelow minVar st) (h : project .exact i minVar st = some (p, st')) :
    (p = true → ∀ x : Nat → ℚ, ¬ SolvesAt st x) ∧
    (p = false → (∀ r < st'.workRows, st'.work r i = 0) ∧
      ∀ x : Nat → ℚ, SolvesAt st' x ↔ ∃ v : ℚ, SolvesAt st (update x i v)) := by
  have hloop := projectLoop_projected hi st.workRows 0 st.workRows st (by omega)
    ⟨RowsOnly.refl st, hzero, fun _ hx => hx,
      fun r hr => .inl ⟨r, hr, SameRow.refl st r⟩⟩
    ⟨zero_le _, le_refl _, fun r hr => absurd hr (not_lt_zero r),
      fun r h1 h2 => absurd h2 (not_lt.mpr h1)⟩
  unfold project at h
  split at h
  · cases h
  · next st1 hres =>
    rw [hres] at hloop
    cases h
    refine ⟨fun _ => hloop.resolve_left (fun hn => by cases hn), fun hc => absurd hc (by simp)⟩
  · next st1 hres =>
    rw [hres] at hloop
    cases h
    obtain ⟨hproj, hnonpos, hempty⟩ := hloop
    have hnone : st'.workRows = 0 := hempty rfl
    refine ⟨fun hc => absurd hc (by simp), fun _ => ⟨fun r hr => by omega, fun x => ?_⟩⟩
    rw [← hproj.zeroRows_iff hi hnonpos]
    exact ⟨fun hx r hr _ => hx r hr, fun _ r hr => absurd hr (by omega)⟩
  · next st1 hres =>
    rw [hres] at hloop
    obtain ⟨hproj, hnonpos, -⟩ := hloop
    have hcols : st1.workCols = st.workCols := hproj.frame.workCols
    simp only [Option.some.injEq, Prod.mk.injEq] at h
    obtain ⟨rfl, rfl⟩ := h
    obtain ⟨hcol, hsolves⟩ := erased_spec (show i < st1.workCols by omega) hproj.zero hnonpos
    refine ⟨fun hc => absurd hc (by simp), fun _ => ⟨hcol, fun x => ?_⟩⟩
    rw [← hproj.zeroRows_iff hi hnonpos]
    exact hsolves x

theorem project_exact_pair :
    ∃ st', project .exact 0 0 (.ofRows 2 [([1, -1], 0), ([-1, 0], -1)]) = some (false, st') ∧
      ∀ x : Nat → ℚ, SolvesAt st' x ↔
        ∃ v : ℚ, SolvesAt (.ofRows 2 [([1, -1], 0), ([-1, 0], -1)]) (update x 0 v) := by
  have hrun : (project .exact 0 0 (.ofRows 2 [([1, -1], 0), ([-1, 0], -1)])).map Prod.fst
      = some false := by decide
  obtain ⟨⟨p, st'⟩, hres, hp⟩ := Option.map_eq_some_iff.mp hrun
  have hfalse : p = false := hp
  subst hfalse
  exact ⟨st', hres, ((project_exact (show 0 < 2 by decide)
    (fun r _ c hc => absurd hc (not_lt_zero c)) hres).2 rfl).2⟩

end Soe
