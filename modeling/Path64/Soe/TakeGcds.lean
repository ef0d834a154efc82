import Mathlib.Algebra.GCDMonoid.Finset
import Path64.Soe.SubInEqual

/-! # Dividing the rows of a system by their gcds

`Take_Gcds` divides every inequality by the gcd of its coefficients and
every equality by the gcd of its coefficients and its constant.
`Gcd_Normalize` does the same to the inequalities of the work array. -/

namespace Soe

open Int Function LinearRow Loop

/-! ## Model -/

/-- How `Take_Gcds` fails: its assertion, a division by zero, or an undefined result. -/
inductive Stop where
  | assertion
  | divideByZero
  | overflow
  deriving DecidableEq

/-- A signed 64-bit result. -/
def int64Result (z : Int) : Except Stop Int :=
  if Fits64 z then .ok z else .error .overflow

/-- `myabs(mINT64)`. -/
def myabs64 (z : Int) : Except Stop Int :=
  if z < 0 then int64Result (-z) else .ok z

/-- `Gcd(mINT64, mINT64)`. -/
def gcd64 (a b : Int) : Except Stop Int :=
  match myabs64 a, myabs64 b with
  | .ok i, .ok j =>
    .ok (if i = 0 then j
      else if j = 0 then i
      else if i > j then gcdLoop j.natAbs j i
      else gcdLoop i.natAbs i j)
  | .error e, _ => .error e
  | _, .error e => .error e

/-- `for (j = lo; j < lo + n; j++) g = Gcd(g, row[j])`. -/
def gcdColumns (row : Nat → Int) (n lo : Nat) (g : Int) : Except Stop Int :=
  forFrom (fun j g => gcd64 g (row j)) n lo g

/-- The columns of a row divided by `d`. -/
def divideColumns (vars : Nat) (d : Int) (row : Nat → Int) (j : Nat) : Int :=
  if j < vars then (row j).tdiv d else row j

/-- The new right-hand side of an inequality; `d` is `(INT32)g`. -/
def divideLeConst (g d c : Int) : Except Stop Int :=
  if 0 ≤ c then .ok (c.tdiv d)
  else if Fits64 (-c) ∧ Fits64 (-c + g) then .ok (-((-c + g - 1).tdiv d))
  else .error .overflow

/-- What `Take_Gcds` makes of one inequality. -/
def takeGcdLe (vars : Nat) (p : (Nat → Int) × Int) : Except Stop ((Nat → Int) × Int) :=
  match gcdColumns p.1 (vars - 1) 1 (p.1 0) with
  | .error e => .error e
  | .ok g =>
    if g = 0 then .ok p
    else if ¬ g > 0 then .error .assertion
    else if Arith.machine.i32 g = 0 then .error .divideByZero
    else
      match divideLeConst g (Arith.machine.i32 g) p.2 with
      | .error e => .error e
      | .ok c => .ok (divideColumns vars (Arith.machine.i32 g) p.1, c)

/-- What it makes of one equality. -/
def takeGcdEq (vars : Nat) (p : (Nat → Int) × Int) : Except Stop ((Nat → Int) × Int) :=
  match gcdColumns p.1 vars 0 p.2 with
  | .error e => .error e
  | .ok g =>
    if g = 0 then .ok p
    else if ¬ g > 0 then .error .assertion
    else if Arith.machine.i32 g = 0 then .error .divideByZero
    else .ok (divideColumns vars (Arith.machine.i32 g) p.1, p.2.tdiv (Arith.machine.i32 g))

/-- A row as it is stored in `mINT32` coefficients and an `mINT64` right-hand side. -/
def storedRow (p : (Nat → Int) × Int) : (Nat → Int) × Int :=
  (fun j => Arith.machine.i32 (p.1 j), Arith.machine.i64 p.2)

/-- Store an inequality. -/
def System.storeLe (sys : System) (i : Nat) (p : (Nat → Int) × Int) : System :=
  { sys with
    ale := update sys.ale i (storedRow p).1
    ble := update sys.ble i (storedRow p).2
    aleFits := fun r c => by
      by_cases hr : r = i
      · rw [hr, update_self]; exact machine_i32_fits _
      · rw [update_of_ne hr]; exact sys.aleFits r c
    bleFits := fun r => by
      by_cases hr : r = i
      · rw [hr, update_self]; exact machine_i64_fits _
      · rw [update_of_ne hr]; exact sys.bleFits r }

/-- Store an equality. -/
def System.storeEq (sys : System) (i : Nat) (p : (Nat → Int) × Int) : System :=
  { sys with
    aeq := update sys.aeq i (storedRow p).1
    beq := update sys.beq i (storedRow p).2
    aeqFits := fun r c => by
      by_cases hr : r = i
      · rw [hr, update_self]; exact machine_i32_fits _
      · rw [update_of_ne hr]; exact sys.aeqFits r c
    beqFits := fun r => by
      by_cases hr : r = i
      · rw [hr, update_self]; exact machine_i64_fits _
      · rw [update_of_ne hr]; exact sys.beqFits r }

/-- Inequality `i` with its right-hand side. -/
def System.leRow (sys : System) (i : Nat) : (Nat → Int) × Int := (sys.ale i, sys.ble i)
/-- Equality `i` with its right-hand side. -/
def System.eqRow (sys : System) (i : Nat) : (Nat → Int) × Int := (sys.aeq i, sys.beq i)

def takeGcds (sys : System) : Except Stop System :=
  match forFrom (fun i s => (takeGcdLe s.vars (s.leRow i)).map (s.storeLe i)) sys.eqnsLe 0 sys with
  | .error e => .error e
  | .ok s =>
    forFrom (fun i s => (takeGcdEq s.vars (s.eqRow i)).map (s.storeEq i)) s.eqnsEq 0 s

/-! ## The gcd of a row -/

variable {z d g c : Int} {p : (Nat → Int) × Int} {sys : System} {st : WorkState}

theorem myabs64_eq (h : |z| ≤ 9223372036854775807) : myabs64 z = .ok |z| := by
  unfold myabs64 int64Result
  split
  · next hneg =>
    rw [abs_of_neg hneg] at h ⊢
    exact if_pos ⟨by omega, h⟩
  · next hneg => rw [abs_of_nonneg (by omega)]

theorem gcd64_eq {a b : Int} (ha : |a| ≤ 9223372036854775807) (hb : |b| ≤ 9223372036854775807) :
    gcd64 a b = .ok (Int.gcd a b : Int) := by
  rw [← gcd32_exact]
  unfold gcd64 gcd32
  rw [myabs64_eq ha, myabs64_eq hb]
  simp only [abs32_exact]

theorem gcd64_min (b : Int) : gcd64 (-9223372036854775808) b = .error .overflow := by
  unfold gcd64
  rw [show myabs64 (-9223372036854775808) = .error .overflow by decide]

theorem fits32_abs_le (h : Fits32 z) : |z| ≤ 2147483648 := by
  unfold Fits32 int32Min int32Max at h
  rw [abs_le]
  omega

theorem gcdColumns_eq {row : Nat → Int} (hrow : ∀ j, Fits32 (row j)) (n : Nat) :
    ∀ lo (g : Int), |g| ≤ 9223372036854775807 → 0 < n →
      ∃ r : Int, gcdColumns row n lo g = .ok r ∧ 0 ≤ r ∧
        ∀ d : Int, d ∣ r ↔ d ∣ g ∧ ∀ j, lo ≤ j → j < lo + n → d ∣ row j := by
  unfold gcdColumns
  induction n with
  | zero => intro lo g _ h; omega
  | succ n ih =>
    intro lo g hg _
    have hb : |row lo| ≤ 9223372036854775807 := (fits32_abs_le (hrow lo)).trans (by decide)
    have hdvd : ∀ d : Int, d ∣ (Int.gcd g (row lo) : Int) ↔ d ∣ g ∧ d ∣ row lo :=
      fun d => dvd_coe_gcd_iff
    unfold forFrom
    rw [gcd64_eq hg hb]
    dsimp only
    rcases Nat.eq_zero_or_pos n with rfl | hn
    · refine ⟨_, rfl, natCast_nonneg _, fun d => ?_⟩
      rw [hdvd d]
      refine and_congr_right fun _ => ⟨fun h j h1 h2 => ?_, fun h => h lo (le_refl _) (by omega)⟩
      rw [show j = lo by omega]
      exact h
    · have hle : |(Int.gcd g (row lo) : Int)| ≤ 9223372036854775807 := by
        rw [Nat.abs_cast]
        by_cases h0 : g = 0
        · rw [h0, gcd_zero_left, natCast_natAbs]
          exact hb
        · have hdiv := Int.le_of_dvd (abs_pos.mpr h0) ((dvd_abs _ _).mpr (Int.gcd_dvd_left g (row lo)))
          exact hdiv.trans hg
      obtain ⟨r, hr, hnn, hall⟩ := ih (lo + 1) (Int.gcd g (row lo)) hle hn
      refine ⟨r, hr, hnn, fun d => ?_⟩
      rw [hall d, hdvd d, and_assoc]
      refine and_congr_right fun _ => ⟨fun hcols j h1 h2 => ?_,
        fun h => ⟨h lo (le_refl _) (by omega), fun j h1 h2 => h j (by omega) (by omega)⟩⟩
      rcases Nat.eq_or_lt_of_le h1 with rfl | hlt
      · exact hcols.1
      · exact hcols.2 j hlt (by omega)

/-- The gcd of the coefficients. -/
def coefGcd (vars : Nat) (row : Nat → Int) : Int := (Finset.range vars).gcd row

theorem dvd_coefGcd {vars : Nat} {row : Nat → Int} :
    d ∣ coefGcd vars row ↔ ∀ j < vars, d ∣ row j := by
  unfold coefGcd
  rw [Finset.dvd_gcd_iff]
  exact ⟨fun h j hj => h j (Finset.mem_range.mpr hj), fun h j hj => h j (Finset.mem_range.mp hj)⟩

theorem coefGcd_nonneg (vars : Nat) (row : Nat → Int) : 0 ≤ coefGcd vars row :=
  nonneg_of_normalize_eq_self Finset.normalize_gcd

theorem coefGcd_eq_zero {vars : Nat} {row : Nat → Int} :
    coefGcd vars row = 0 ↔ ∀ j < vars, row j = 0 := by
  rw [← zero_dvd_iff, dvd_coefGcd]
  exact forall₂_congr fun _ _ => zero_dvd_iff

theorem gcdColumns_le {vars : Nat} {row : Nat → Int} (hv : 0 < vars) (hrow : ∀ j, Fits32 (row j)) :
    ∃ r : Int, gcdColumns row (vars - 1) 1 (row 0) = .ok r ∧ |r| = coefGcd vars row ∧
      (vars = 1 → r = row 0) ∧ (vars ≠ 1 → 0 ≤ r) := by
  by_cases h1 : vars = 1
  · subst h1
    refine ⟨row 0, rfl, ?_, fun _ => rfl, fun h => absurd rfl h⟩
    refine dvd_antisymm (abs_nonneg _) (coefGcd_nonneg _ _) ?_ ?_
    · rw [dvd_coefGcd]
      intro j hj
      rw [show j = 0 by omega]
      exact (abs_dvd _ _).mpr (dvd_refl _)
    · exact (dvd_abs _ _).mpr (dvd_coefGcd.mp (dvd_refl _) 0 (by omega))
  · obtain ⟨r, hr, hnn, hall⟩ := gcdColumns_eq hrow (vars - 1) 1 (row 0)
      ((fits32_abs_le (hrow 0)).trans (by decide)) (by omega)
    refine ⟨r, hr, ?_, fun h => absurd h h1, fun _ => hnn⟩
    rw [abs_of_nonneg hnn]
    refine dvd_antisymm hnn (coefGcd_nonneg _ _) ?_ ?_
    · rw [dvd_coefGcd]
      intro j hj
      obtain ⟨h0, hrest⟩ := (hall r).mp (dvd_refl _)
      rcases Nat.eq_zero_or_pos j with rfl | hpos
      · exact h0
      · exact hrest j hpos (by omega)
    · rw [hall]
      exact ⟨dvd_coefGcd.mp (dvd_refl _) 0 hv,
        fun j _ hj => dvd_coefGcd.mp (dvd_refl _) j (by omega)⟩

/-! ## One row -/

/-- The inequality keeps its integer solutions under `Take_Gcds`. -/
def LeKept (vars : Nat) (p : (Nat → Int) × Int) : Prop :=
  ∃ p', takeGcdLe vars p = .ok p' ∧
    ∀ x, dot vars (storedRow p').1 x ≤ (storedRow p').2 ↔ dot vars p.1 x ≤ p.2

/-- The equality does. -/
def EqKept (vars : Nat) (p : (Nat → Int) × Int) : Prop :=
  ∃ p', takeGcdEq vars p = .ok p' ∧
    ∀ x, dot vars (storedRow p').1 x = (storedRow p').2 ↔ dot vars p.1 x = p.2

/-- A sole coefficient is not negative, the gcd is below `2^31`, and no numerator overflows. -/
structure LeDividable (vars : Nat) (row : Nat → Int) (c : Int) : Prop where
  single : vars = 1 → 0 ≤ row 0
  small : coefGcd vars row < 2147483648
  room : (∃ j < vars, row j ≠ 0) → c < 0 → -c + coefGcd vars row ≤ 9223372036854775807

/-- The constant has an absolute value, and alone it is zero or no multiple of `2^32`. -/
structure EqDividable (vars : Nat) (row : Nat → Int) (c : Int) : Prop where
  notMin : c ≠ -9223372036854775808
  cut : c = 0 ∨ (∃ j < vars, row j ≠ 0) ∨ ¬ (4294967296 : Int) ∣ c

theorem storedRow_eq (h1 : ∀ j, Fits32 (p.1 j)) (h2 : Fits64 p.2) : storedRow p = p := by
  unfold storedRow
  rw [machine_i64 h2, show (fun j => Arith.machine.i32 (p.1 j)) = p.1 from
    funext fun j => machine_i32 (h1 j)]

theorem cut_gcd (hpos : 0 < g) (hle : g ≤ 2147483648) : g < 2147483648 ∧ Arith.machine.i32 g = g ∨
      g = 2147483648 ∧ Arith.machine.i32 g = -2147483648 := by
  rcases lt_or_eq_of_le hle with hlt | rfl
  · refine .inl ⟨hlt, machine_i32 ⟨?_, ?_⟩⟩
    · unfold int32Min; omega
    · unfold int32Max; omega
  · exact .inr ⟨rfl, by decide⟩

theorem coefGcd_le (vars : Nat) {row : Nat → Int} (hrow : ∀ j, Fits32 (row j)) :
    coefGcd vars row ≤ 2147483648 := by
  by_cases h0 : coefGcd vars row = 0
  · omega
  · obtain ⟨j, hj, hne⟩ : ∃ j < vars, row j ≠ 0 := by
      by_contra hall
      push Not at hall
      exact h0 (coefGcd_eq_zero.mpr hall)
    have hdvd := le_of_dvd (abs_pos.mpr hne) ((dvd_abs _ _).mpr (dvd_coefGcd.mp (dvd_refl _) j hj))
    exact hdvd.trans (fits32_abs_le (hrow j))

theorem neg_tdiv_round (hg : 0 < g) (hc : c < 0) : -((-c + g - 1).tdiv g) = c / g := by
  have hdiv := mul_ediv_add_emod c g
  have hlo := emod_nonneg c hg.ne'
  have hhi := emod_lt_of_pos c hg
  rw [tdiv_eq_ediv_of_nonneg (by omega)]
  have hnum : -c + g - 1 = (g - 1 - c % g) + g * -(c / g) := by
    rw [mul_neg]
    omega
  rw [hnum, add_mul_ediv_left _ _ hg.ne', ediv_eq_zero_of_lt (by omega) (by omega)]
  omega

theorem divideLeConst_eq (hg : 0 < g) (hc : Fits64 c)
    (hroom : c < 0 → -c + g ≤ 9223372036854775807) : divideLeConst g g c = .ok (c / g) := by
  unfold divideLeConst
  by_cases h0 : 0 ≤ c
  · rw [if_pos h0, tdiv_eq_ediv_of_nonneg h0]
  · have hr := hroom (by omega)
    obtain ⟨hlo, hhi⟩ := hc
    rw [if_neg h0, if_pos ⟨⟨by omega, by omega⟩, by omega, hr⟩, neg_tdiv_round hg (by omega)]

theorem divideLeConst_overflow (hc : c < 0) (hroom : ¬ -c + g ≤ 9223372036854775807) :
    divideLeConst g d c = .error .overflow := by
  unfold divideLeConst
  rw [if_neg (by omega), if_neg (fun h => hroom h.2.2)]

theorem floor_fits (hg : 0 < g) (hc : Fits64 c) : Fits64 (c / g) := by
  obtain ⟨hlo, hhi⟩ := hc
  rcases le_or_gt 0 c with h0 | hneg
  · have h1 := ediv_nonneg h0 hg.le
    have h2 := ediv_le_self g h0
    exact ⟨by omega, by omega⟩
  · have h1 := ediv_neg_of_neg_of_pos hneg hg
    have h2 : c * g ≤ c * 1 := mul_le_mul_of_nonpos_left (by omega) hneg.le
    have h3 : c ≤ c / g := (Int.le_ediv_iff_mul_le hg).mpr (by omega)
    exact ⟨by omega, by omega⟩

section

variable {vars : Nat} {row : Nat → Int}

theorem divideColumns_stored (hg : 0 < g) (hrow : ∀ j, Fits32 (row j)) (hc : Fits64 c) :
    storedRow (divideColumns vars g row, c) = (divideColumns vars g row, c) := by
  refine storedRow_eq (fun j => ?_) hc
  show Fits32 (divideColumns vars g row j)
  unfold divideColumns
  split
  · exact tdiv_fits (by decide) (by decide) hg (hrow j)
  · exact hrow j

theorem divideColumns_mul (hdvd : ∀ j < vars, d ∣ row j) :
    ∀ j < vars, row j = d * divideColumns vars d row j := by
  intro j hj
  unfold divideColumns
  rw [if_pos hj, mul_comm, Int.tdiv_mul_cancel (hdvd j hj)]

theorem leKept_turned {c' : Int} (hrow : ∀ j, Fits32 (row j))
    (hgcd : coefGcd vars row = 2147483648)
    (h : ∀ x, dot vars (storedRow (divideColumns vars (-2147483648) row, c')).1 x
      ≤ (storedRow (divideColumns vars (-2147483648) row, c')).2 ↔ dot vars row x ≤ c) : False := by
  have hdvd : ∀ j < vars, (2147483648 : Int) ∣ row j := fun j hj =>
    dvd_coefGcd.mp (by rw [hgcd]) j hj
  obtain ⟨k, hk, hne⟩ : ∃ j < vars, row j ≠ 0 := by
    by_contra hall
    push Not at hall
    rw [coefGcd_eq_zero.mpr hall] at hgcd
    omega
  have hmin : row k = -2147483648 := by
    obtain ⟨q, hq⟩ := hdvd k hk
    obtain ⟨hlo, hhi⟩ := hrow k
    unfold int32Min int32Max at *
    omega
  -- a point far out on the axis of that column is on the wrong side
  generalize hC : (storedRow (divideColumns vars (-2147483648) row, c')).2 = C at h
  have hpoint : ∀ (a : Nat → Int) (t : Int), dot vars a (fun j => if j = k then t else 0) = a k * t := by
    intro a t
    unfold dot
    rw [Finset.sum_eq_single k]
    · dsimp only
      rw [if_pos rfl]
    · intro j _ hjk
      dsimp only
      rw [if_neg hjk, mul_zero]
    · intro hnot
      exact absurd (Finset.mem_range.mpr hk) hnot
  have hnew : (storedRow (divideColumns vars (-2147483648) row, c')).1 k = 1 := by
    show Arith.machine.i32 (divideColumns vars (-2147483648) row k) = 1
    unfold divideColumns
    rw [if_pos hk, hmin]
    decide
  have ht := h (fun j => if j = k then |c| + |C| + 1 else 0)
  rw [hpoint, hpoint, hnew, hmin] at ht
  have h1 := neg_abs_le c
  have h2 := le_abs_self C
  have h3 := abs_nonneg c
  have h4 := abs_nonneg C
  have hfar := ht.mpr (by omega)
  omega

/-- When the division of an inequality, as the machine does it, keeps its solutions: a condition on
the row alone. -/
theorem leKept_iff (hv : 0 < vars) (hrow : ∀ j, Fits32 (row j)) (hc : Fits64 c) :
    LeKept vars (row, c) ↔ LeDividable vars row c := by
  obtain ⟨r, hr, habs, hone, hmany⟩ := gcdColumns_le hv hrow
  have hle := coefGcd_le vars hrow
  have hnz : coefGcd vars row ≠ 0 ↔ ∃ j < vars, row j ≠ 0 := by
    rw [Ne, coefGcd_eq_zero]
    push Not
    rfl
  unfold LeKept takeGcdLe
  rw [hr]
  dsimp only
  rcases lt_trichotomy r 0 with hneg | rfl | hpos
  · -- a sole negative coefficient
    rw [if_neg (by omega), if_pos (by omega)]
    have hvars : vars = 1 := by
      by_contra hne
      have := hmany hne
      omega
    constructor
    · rintro ⟨_, hcontra, _⟩
      cases hcontra
    · intro hd
      have := hd.single hvars
      have := hone hvars
      omega
  · -- a row of zeros
    rw [if_pos rfl]
    rw [abs_zero] at habs
    refine iff_of_true ⟨_, rfl, fun x => ?_⟩ ⟨fun h => (hone h).le, by omega, fun h => ?_⟩
    · rw [storedRow_eq hrow hc]
    · exact absurd habs.symm (hnz.mpr h)
  · rw [abs_of_pos hpos] at habs
    rw [if_neg hpos.ne', if_neg (not_not.mpr hpos)]
    rcases cut_gcd hpos (by omega) with ⟨hlt, hcut⟩ | ⟨hbig, hcut⟩
    · rw [hcut, if_neg hpos.ne']
      by_cases hroom : c < 0 → -c + r ≤ 9223372036854775807
      · rw [divideLeConst_eq hpos hc hroom]
        refine iff_of_true ⟨_, rfl, fun x => ?_⟩
          ⟨fun h => by rw [← hone h]; exact hpos.le, by omega, fun _ h => by rw [← habs]; exact hroom h⟩
        rw [divideColumns_stored hpos hrow (floor_fits hpos hc)]
        refine (dot_le_floor hpos (divideColumns_mul fun j hj => ?_)).symm
        exact dvd_coefGcd.mp (by rw [habs]) j hj
      · push Not at hroom
        rw [divideLeConst_overflow hroom.1 (by omega)]
        constructor
        · rintro ⟨_, hcontra, _⟩
          cases hcontra
        · intro hd
          have := hd.room (hnz.mp (by omega)) hroom.1
          omega
    · -- the gcd is 2^31, and negative once it is cut
      rw [hcut, if_neg (by decide)]
      refine iff_of_false ?_ fun hd => ?_
      · rintro ⟨p', hp, hkept⟩
        cases hconst : divideLeConst r (-2147483648) c with
        | error e =>
          rw [hconst] at hp
          cases hp
        | ok c' =>
          rw [hconst] at hp
          cases hp
          exact leKept_turned hrow (by omega) hkept
      · have := hd.small
        omega

end

theorem machine_i32_eq_zero : Arith.machine.i32 z = 0 ↔ (4294967296 : Int) ∣ z := by
  have h := dvd_iff_bmod_eq_zero (a := 2 ^ 32) (b := z)
  rw [show ((2 ^ 32 : Nat) : Int) = 4294967296 by norm_num] at h
  exact h.symm

theorem dot_eq_divided {vars : Nat} {row : Nat → Int} (hd : d ≠ 0)
    (hdvd : ∀ j < vars, d ∣ row j) (hc : d ∣ c) (x : Nat → Int) :
    dot vars (divideColumns vars d row) x = c.tdiv d ↔ dot vars row x = c := by
  rw [dot_mul_left x d (divideColumns_mul hdvd)]
  have hmul : c = d * c.tdiv d := by rw [mul_comm, Int.tdiv_mul_cancel hc]
  constructor
  · intro h
    rw [h, ← hmul]
  · intro h
    rw [hmul] at h
    exact mul_left_cancel₀ hd h

theorem tdiv_fits64 (hc : Fits64 c) (hmin : c ≠ -9223372036854775808) : Fits64 (c.tdiv d) := by
  have hnat : (c.tdiv d).natAbs ≤ c.natAbs := by
    rw [natAbs_tdiv]
    exact Nat.div_le_self _ _
  obtain ⟨hlo, hhi⟩ := hc
  unfold Fits64
  omega

theorem eqKept_coef {vars k : Nat} {row : Nat → Int} {r : Int} (hrow : ∀ j, Fits32 (row j))
    (hc : Fits64 c) (hmin : c ≠ -9223372036854775808) (hpos : 0 < r)
    (hdvd : ∀ j < vars, r ∣ row j) (hrc : r ∣ c) (hk : k < vars) (hne : row k ≠ 0) :
    Arith.machine.i32 r ≠ 0 ∧ ∀ x,
      dot vars (storedRow (divideColumns vars (Arith.machine.i32 r) row, c.tdiv (Arith.machine.i32 r))).1 x
        = (storedRow (divideColumns vars (Arith.machine.i32 r) row, c.tdiv (Arith.machine.i32 r))).2 ↔
      dot vars row x = c := by
  have hle : r ≤ 2147483648 :=
    (le_of_dvd (abs_pos.mpr hne) ((dvd_abs _ _).mpr (hdvd k hk))).trans (fits32_abs_le (hrow k))
  have hquot := fun d => tdiv_fits64 (d := d) hc hmin
  rcases cut_gcd hpos hle with ⟨_, hcut⟩ | ⟨rfl, hcut⟩
  · rw [hcut, divideColumns_stored hpos hrow (hquot r)]
    exact ⟨hpos.ne', dot_eq_divided hpos.ne' hdvd hrc⟩
  · -- divided by `-2^31` the equality is also multiplied by -1
    have hdvd' : ∀ j < vars, (-2147483648 : Int) ∣ row j := fun j hj => neg_dvd.mpr (hdvd j hj)
    have hfits : ∀ j, Fits32 (divideColumns vars (-2147483648) row j) := by
      intro j
      unfold divideColumns
      split
      · next hj =>
        obtain ⟨q, hq⟩ := hdvd' j hj
        have hj32 := hrow j
        rw [hq, mul_tdiv_cancel_left q (by decide)]
        unfold Fits32 int32Min int32Max at *
        omega
      · exact hrow j
    rw [hcut, storedRow_eq hfits (hquot _)]
    exact ⟨by decide, dot_eq_divided (by decide) hdvd' (neg_dvd.mpr hrc)⟩

/-- The same for an equation. -/
theorem eqKept_iff {vars : Nat} {row : Nat → Int} (hv : 0 < vars)
    (hrow : ∀ j, Fits32 (row j)) (hc : Fits64 c) :
    EqKept vars (row, c) ↔ EqDividable vars row c := by
  unfold EqKept takeGcdEq
  dsimp only
  by_cases hmin : c = -9223372036854775808
  · -- the absolute value does not exist: the loop stops
    have hstop : gcdColumns row vars 0 c = .error .overflow := by
      obtain ⟨n, rfl⟩ : ∃ n, vars = n + 1 := ⟨vars - 1, by omega⟩
      unfold gcdColumns forFrom
      rw [hmin, gcd64_min]
    rw [hstop]
    refine iff_of_false ?_ fun hd => hd.notMin hmin
    rintro ⟨_, hcontra, _⟩
    cases hcontra
  have hcabs : |c| ≤ 9223372036854775807 := by
    obtain ⟨hlo, hhi⟩ := hc
    rw [abs_le]
    omega
  obtain ⟨r, hr, hnn, hall⟩ := gcdColumns_eq hrow vars 0 c hcabs hv
  obtain ⟨hrc, hrrow⟩ := (hall r).mp (dvd_refl _)
  have hdvd : ∀ j < vars, r ∣ row j := fun j hj => hrrow j (Nat.zero_le _) (by omega)
  rw [hr]
  dsimp only
  by_cases h0 : r = 0
  · rw [if_pos h0]
    have hc0 : c = 0 := zero_dvd_iff.mp (h0 ▸ hrc)
    refine iff_of_true ⟨_, rfl, fun x => ?_⟩ ⟨hmin, .inl hc0⟩
    rw [storedRow_eq hrow hc]
  have hpos : 0 < r := by omega
  rw [if_neg h0, if_neg (not_not.mpr hpos)]
  by_cases hcoef : ∃ j < vars, row j ≠ 0
  · obtain ⟨k, hk, hne⟩ := hcoef
    obtain ⟨hcut, hkept⟩ := eqKept_coef hrow hc hmin hpos hdvd hrc hk hne
    rw [if_neg hcut]
    exact iff_of_true ⟨_, rfl, hkept⟩ ⟨hmin, .inr (.inl ⟨k, hk, hne⟩)⟩
  · -- no variables: the gcd is the constant
    push Not at hcoef
    have hreq : r = |c| := by
      refine dvd_antisymm hnn (abs_nonneg _) ((dvd_abs _ _).mpr hrc) ((hall |c|).mpr ⟨?_, ?_⟩)
      · exact (abs_dvd _ _).mpr (dvd_refl _)
      · intro j _ hj
        rw [hcoef j (by omega)]
        exact dvd_zero _
    have hc0 : c ≠ 0 := fun h => h0 (by rw [hreq, h, abs_zero])
    have hzero : Arith.machine.i32 r = 0 ↔ (4294967296 : Int) ∣ c := by
      rw [machine_i32_eq_zero, hreq, dvd_abs]
    by_cases hcut : Arith.machine.i32 r = 0
    · -- cut to 32 bits the gcd is 0: a division by zero
      rw [if_pos hcut]
      refine iff_of_false ?_ fun hd => ?_
      · rintro ⟨_, hcontra, _⟩
        cases hcontra
      · rcases hd.cut with h | ⟨j, hj, hne⟩ | h
        · exact hc0 h
        · exact hne (hcoef j hj)
        · exact h (hzero.mp hcut)
    · rw [if_neg hcut]
      -- the constant is not divided down to 0, so the row still has no solution
      refine iff_of_true ⟨_, rfl, fun x => ?_⟩ ⟨hmin, .inr (.inr fun h => hcut (hzero.mpr h))⟩
      have hdle : (Arith.machine.i32 r).natAbs ≤ c.natAbs := by
        have hfits := machine_i32_fits r
        have hnat : r.natAbs = c.natAbs := by rw [hreq, natAbs_abs]
        by_cases hsmall : Fits32 r
        · rw [machine_i32 hsmall, hnat]
        · unfold Fits32 int32Min int32Max at *
          omega
      generalize Arith.machine.i32 r = d at hcut hdle
      have hq : c.tdiv d ≠ 0 := by
        rw [← natAbs_ne_zero, natAbs_tdiv]
        exact (Nat.div_pos hdle (by omega)).ne'
      have hnull : ∀ j < vars, divideColumns vars d row j = 0 := by
        intro j hj
        unfold divideColumns
        rw [if_pos hj, hcoef j hj, Int.zero_tdiv]
      rw [dot_eq_zero x hcoef, dot_eq_zero x (fun j hj => by
        show Arith.machine.i32 (divideColumns vars d row j) = 0
        rw [hnull j hj]
        decide)]
      show 0 = Arith.machine.i64 (c.tdiv d) ↔ 0 = c
      rw [machine_i64 (tdiv_fits64 hc hmin)]
      exact iff_of_false hq.symm hc0.symm

/-! ## The system -/

/-- Nothing but the inequalities differs. -/
structure SameButLe (sys s : System) : Prop where
  vars : s.vars = sys.vars
  eqnsLe : s.eqnsLe = sys.eqnsLe
  eqnsEq : s.eqnsEq = sys.eqnsEq
  eqRows : s.eqRow = sys.eqRow

/-- Nothing but the equalities differs. -/
structure SameButEq (sys s : System) : Prop where
  vars : s.vars = sys.vars
  eqnsLe : s.eqnsLe = sys.eqnsLe
  eqnsEq : s.eqnsEq = sys.eqnsEq
  leRows : s.leRow = sys.leRow

theorem leRow_storeLe (sys : System) (i : Nat) (p : (Nat → Int) × Int) :
    (sys.storeLe i p).leRow = update sys.leRow i (storedRow p) := by
  funext r
  show (update sys.ale i (storedRow p).1 r, update sys.ble i (storedRow p).2 r) = _
  by_cases hr : r = i
  · rw [hr, update_self, update_self, update_self]
  · rw [update_of_ne hr, update_of_ne hr, update_of_ne hr]
    rfl

theorem eqRow_storeEq (sys : System) (i : Nat) (p : (Nat → Int) × Int) :
    (sys.storeEq i p).eqRow = update sys.eqRow i (storedRow p) := by
  funext r
  show (update sys.aeq i (storedRow p).1 r, update sys.beq i (storedRow p).2 r) = _
  by_cases hr : r = i
  · rw [hr, update_self, update_self, update_self]
  · rw [update_of_ne hr, update_of_ne hr, update_of_ne hr]
    rfl

theorem takeGcds_le (sys : System) :
    Outcome (fun e => ∃ i < sys.eqnsLe, (takeGcdLe sys.vars (sys.leRow i)).map storedRow = .error e)
      (fun s => SameButLe sys s ∧
        ∀ i < sys.eqnsLe, (takeGcdLe sys.vars (sys.leRow i)).map storedRow = .ok (s.leRow i))
      (forFrom (fun i s => (takeGcdLe s.vars (s.leRow i)).map (s.storeLe i)) sys.eqnsLe 0 sys) := by
  have hloop := forFrom_parts
    (f := fun i (s : System) => (takeGcdLe s.vars (s.leRow i)).map (s.storeLe i))
    (I := SameButLe sys) (v := System.leRow)
    (p := fun _ p => (takeGcdLe sys.vars p).map storedRow)
    (by
      intro i s e _ hs he
      rw [hs.vars]
      cases hrow : takeGcdLe sys.vars (s.leRow i) with
      | error e' => rw [hrow] at he; cases he; rfl
      | ok q => rw [hrow] at he; cases he)
    (by
      intro i s a _ hs ha
      rw [hs.vars]
      cases hrow : takeGcdLe sys.vars (s.leRow i) with
      | error e' => rw [hrow] at ha; cases ha
      | ok q =>
        rw [hrow] at ha
        cases ha
        exact ⟨_, rfl, leRow_storeLe s i q, hs.vars, hs.eqnsLe, hs.eqnsEq, hs.eqRows⟩)
    sys.eqnsLe 0 sys (le_refl _) ⟨rfl, rfl, rfl, rfl⟩
  revert hloop
  generalize forFrom (fun i (s : System) => (takeGcdLe s.vars (s.leRow i)).map (s.storeLe i))
    sys.eqnsLe 0 sys = res
  intro hloop
  cases res with
  | error e =>
    obtain ⟨i, _, hi, he⟩ := hloop
    exact ⟨i, by omega, he⟩
  | ok s => exact ⟨hloop.1, fun i hi => hloop.2.1 i (Nat.zero_le i) (by omega)⟩

theorem takeGcds_eq (sys : System) :
    Outcome (fun e => ∃ i < sys.eqnsEq, (takeGcdEq sys.vars (sys.eqRow i)).map storedRow = .error e)
      (fun s => SameButEq sys s ∧
        ∀ i < sys.eqnsEq, (takeGcdEq sys.vars (sys.eqRow i)).map storedRow = .ok (s.eqRow i))
      (forFrom (fun i s => (takeGcdEq s.vars (s.eqRow i)).map (s.storeEq i)) sys.eqnsEq 0 sys) := by
  have hloop := forFrom_parts
    (f := fun i (s : System) => (takeGcdEq s.vars (s.eqRow i)).map (s.storeEq i))
    (I := SameButEq sys) (v := System.eqRow)
    (p := fun _ p => (takeGcdEq sys.vars p).map storedRow)
    (by
      intro i s e _ hs he
      rw [hs.vars]
      cases hrow : takeGcdEq sys.vars (s.eqRow i) with
      | error e' => rw [hrow] at he; cases he; rfl
      | ok q => rw [hrow] at he; cases he)
    (by
      intro i s a _ hs ha
      rw [hs.vars]
      cases hrow : takeGcdEq sys.vars (s.eqRow i) with
      | error e' => rw [hrow] at ha; cases ha
      | ok q =>
        rw [hrow] at ha
        cases ha
        exact ⟨_, rfl, eqRow_storeEq s i q, hs.vars, hs.eqnsLe, hs.eqnsEq, hs.leRows⟩)
    sys.eqnsEq 0 sys (le_refl _) ⟨rfl, rfl, rfl, rfl⟩
  revert hloop
  generalize forFrom (fun i (s : System) => (takeGcdEq s.vars (s.eqRow i)).map (s.storeEq i))
    sys.eqnsEq 0 sys = res
  intro hloop
  cases res with
  | error e =>
    obtain ⟨i, _, hi, he⟩ := hloop
    exact ⟨i, by omega, he⟩
  | ok s => exact ⟨hloop.1, fun i hi => hloop.2.1 i (Nat.zero_le i) (by omega)⟩

/-- `Take_Gcds` runs to its end and every row keeps its integer solutions. -/
structure GcdsTaken (sys sys' : System) : Prop where
  runs : takeGcds sys = .ok sys'
  vars : sys'.vars = sys.vars
  eqnsLe : sys'.eqnsLe = sys.eqnsLe
  eqnsEq : sys'.eqnsEq = sys.eqnsEq
  le : ∀ r < sys.eqnsLe, ∀ x,
    dot sys'.vars (sys'.ale r) x ≤ sys'.ble r ↔ dot sys.vars (sys.ale r) x ≤ sys.ble r
  eq : ∀ r < sys.eqnsEq, ∀ x,
    dot sys'.vars (sys'.aeq r) x = sys'.beq r ↔ dot sys.vars (sys.aeq r) x = sys.beq r

theorem GcdsTaken.solves {sys' : System} (h : GcdsTaken sys sys') (x : Nat → Int) :
    sys'.Solves x ↔ sys.Solves x := by
  unfold System.Solves
  rw [h.eqnsLe, h.eqnsEq]
  exact and_congr (forall₂_congr fun r hr => h.le r hr x) (forall₂_congr fun r hr => h.eq r hr x)

/-- Every row of the system can be divided by its gcd. -/
structure GcdsOk (sys : System) : Prop where
  le : ∀ r < sys.eqnsLe, LeDividable sys.vars (sys.ale r) (sys.ble r)
  eq : ∀ r < sys.eqnsEq, EqDividable sys.vars (sys.aeq r) (sys.beq r)

theorem map_storedRow_ok {r : Except Stop ((Nat → Int) × Int)}
    (h : r.map storedRow = .ok p) : ∃ q, r = .ok q ∧ p = storedRow q := by
  cases r with
  | error e => cases h
  | ok q => cases h; exact ⟨q, rfl, rfl⟩

/-- All rows in turn, the inequalities first. -/
theorem gcdsTaken_iff (hv : 0 < sys.vars) : (∃ sys', GcdsTaken sys sys') ↔ GcdsOk sys := by
  have hle := takeGcds_le sys
  constructor
  · rintro ⟨sys', h⟩
    have hruns := h.runs
    unfold takeGcds at hruns
    split at hruns
    · cases hruns
    · next s1 hloop1 =>
      rw [hloop1] at hle
      obtain ⟨hsame1, hrow1⟩ := hle
      have heq := takeGcds_eq s1
      rw [hruns, hsame1.eqnsEq] at heq
      obtain ⟨hsame2, hrow2⟩ := heq
      refine ⟨fun r hr => ?_, fun r hr => ?_⟩
      · refine (leKept_iff hv (sys.aleFits r) (sys.bleFits r)).mp ?_
        obtain ⟨q, hq, hst⟩ := map_storedRow_ok (hrow1 r hr)
        refine ⟨q, hq, fun x => ?_⟩
        have hkept := h.le r hr x
        have hfinal : sys'.leRow r = storedRow q := by rw [hsame2.leRows, hst]
        rw [h.vars] at hkept
        rw [← hfinal]
        exact hkept
      · refine (eqKept_iff hv (sys.aeqFits r) (sys.beqFits r)).mp ?_
        have hstep := hrow2 r hr
        rw [hsame1.vars, hsame1.eqRows] at hstep
        obtain ⟨q, hq, hst⟩ := map_storedRow_ok hstep
        refine ⟨q, hq, fun x => ?_⟩
        have hkept := h.eq r hr x
        rw [h.vars] at hkept
        rw [← hst]
        exact hkept
  · intro hok
    cases hloop1 : forFrom (fun i (s : System) => (takeGcdLe s.vars (s.leRow i)).map (s.storeLe i))
        sys.eqnsLe 0 sys with
    | error e =>
      rw [hloop1] at hle
      obtain ⟨i, hi, he⟩ := hle
      obtain ⟨q, hq, _⟩ := (leKept_iff hv (sys.aleFits i) (sys.bleFits i)).mpr (hok.le i hi)
      rw [show sys.leRow i = (sys.ale i, sys.ble i) from rfl, hq] at he
      cases he
    | ok s1 =>
      rw [hloop1] at hle
      obtain ⟨hsame1, hrow1⟩ := hle
      have heq := takeGcds_eq s1
      cases hloop2 : forFrom (fun i (s : System) => (takeGcdEq s.vars (s.eqRow i)).map (s.storeEq i))
          s1.eqnsEq 0 s1 with
      | error e =>
        rw [hloop2, hsame1.eqnsEq, hsame1.vars, hsame1.eqRows] at heq
        obtain ⟨i, hi, he⟩ := heq
        obtain ⟨q, hq, _⟩ := (eqKept_iff hv (sys.aeqFits i) (sys.beqFits i)).mpr (hok.eq i hi)
        rw [show sys.eqRow i = (sys.aeq i, sys.beq i) from rfl, hq] at he
        cases he
      | ok sys' =>
        rw [hloop2, hsame1.eqnsEq, hsame1.vars, hsame1.eqRows] at heq
        obtain ⟨hsame2, hrow2⟩ := heq
        have hvars : sys'.vars = sys.vars := hsame2.vars.trans hsame1.vars
        refine ⟨sys', ?_, hvars, hsame2.eqnsLe.trans hsame1.eqnsLe,
          hsame2.eqnsEq.trans hsame1.eqnsEq, fun r hr x => ?_, fun r hr x => ?_⟩
        · unfold takeGcds
          rw [hloop1]
          exact hloop2
        · obtain ⟨q, hq, hkept⟩ := (leKept_iff hv (sys.aleFits r) (sys.bleFits r)).mpr (hok.le r hr)
          have hfinal : sys'.leRow r = storedRow q := by
            have hstep := hrow1 r hr
            rw [show sys.leRow r = (sys.ale r, sys.ble r) from rfl, hq] at hstep
            rw [hsame2.leRows]
            exact (Except.ok.inj hstep).symm
          have hx := hkept x
          rw [← hfinal] at hx
          rw [hvars]
          exact hx
        · obtain ⟨q, hq, hkept⟩ := (eqKept_iff hv (sys.aeqFits r) (sys.beqFits r)).mpr (hok.eq r hr)
          have hfinal : sys'.eqRow r = storedRow q := by
            have hstep := hrow2 r hr
            rw [show sys.eqRow r = (sys.aeq r, sys.beq r) from rfl, hq] at hstep
            exact (Except.ok.inj hstep).symm
          have hx := hkept x
          rw [← hfinal] at hx
          rw [hvars]
          exact hx

/-! ## The work array -/

/-- Every coefficient in use has an absolute value. -/
def AbsDefined (st : WorkState) : Prop :=
  ∀ r < st.workRows, ∀ c < st.workCols, -int32Max ≤ st.work r c ∧ st.work r c ≤ int32Max

theorem rowGcd_machine {row : Nat → Int} {cols : Nat}
    (h : ∀ c < cols, -int32Max ≤ row c ∧ row c ≤ int32Max) :
    rowGcd .machine row cols = rowGcd .exact row cols := by
  have habs : ∀ c < cols, abs32 .machine (row c) = abs32 .exact (row c) := by
    intro c hc
    obtain ⟨hlo, hhi⟩ := h c hc
    unfold int32Max at hlo
    rw [abs32_exact, abs32_machine ⟨by unfold int32Min; omega, hhi⟩ (by unfold int32Min; omega)]
  unfold rowGcd
  dsimp only
  generalize skipZeros row cols cols 0 = j
  have hinit : (if j < cols then abs32 .machine (row j) else 0)
      = if j < cols then abs32 .exact (row j) else 0 := by
    split
    · next hj => exact habs j hj
    · rfl
  rw [hinit]
  refine forEach_congr (fun _ g => 0 ≤ g) _ _ _ (fun k g _ hk hg => ?_) ?_
  · rw [habs k (by omega), gcd32_machine hg (by rw [abs32_exact]; exact abs_nonneg _)]
    refine ⟨rfl, ?_⟩
    rw [gcd32_exact]
    exact natCast_nonneg _
  · split
    · rw [abs32_exact]
      exact abs_nonneg _
    · exact le_refl 0

theorem normalizeRow_machine {i : Nat} (hi : i < st.workRows) (h : AbsDefined st) :
    normalizeRow .machine i st = normalizeRow .exact i st ∧
      AbsDefined (normalizeRow .exact i st) := by
  constructor
  · unfold normalizeRow
    rw [rowGcd_machine (h i hi)]
  · obtain ⟨hnn, _⟩ := rowGcd_dvd (st.work i) st.workCols
    unfold normalizeRow
    dsimp only
    split
    · next hg =>
      intro r hr c hc
      dsimp only
      split
      · exact tdiv_fits (by decide) (by decide) (by omega) (h r hr c hc)
      · exact h r hr c hc
    · exact h

theorem gcdNormalize_machine (h : AbsDefined st) (x : Nat → Int) :
    Solves (gcdNormalize .machine st) x ↔ Solves st x := by
  unfold gcdNormalize
  have hloop := forEach_inv (f := normalizeRow .machine)
    (fun _ t => AbsDefined t ∧ t.workRows = st.workRows ∧ (Solves t x ↔ Solves st x))
    st.workRows 0 st
    (by
      rintro i t _ hi ⟨hok, hrows, hsol⟩
      obtain ⟨heq, hok'⟩ := normalizeRow_machine (show i < t.workRows by omega) hok
      have hrows' := (normalizeRow_rowsOnly .exact i t).2
      rw [heq]
      refine ⟨hok', hrows'.trans hrows, Iff.trans ?_ hsol⟩
      unfold Solves
      rw [hrows']
      exact forall₂_congr fun r _ => normalizeRow_holds i t x r)
    ⟨h, rfl, Iff.rfl⟩
  exact hloop.2.2

/-- **Gcd normalisation.** `Take_Gcds` runs to its end with every row keeping its integer solutions
exactly on the systems whose rows can be divided, and then the system keeps them; `Gcd_Normalize`
keeps those of the work rows if the coefficients have absolute values. -/
theorem gcds_keep_solutions (sys : System) (st : WorkState) (hv : 0 < sys.vars) :
    ((∃ sys', GcdsTaken sys sys') ↔ GcdsOk sys) ∧
    (GcdsOk sys → ∃ sys', takeGcds sys = .ok sys' ∧ ∀ x, sys'.Solves x ↔ sys.Solves x) ∧
    (AbsDefined st → ∀ x, Solves (gcdNormalize .machine st) x ↔ Solves st x) := by
  refine ⟨gcdsTaken_iff hv, fun hok => ?_, fun h x => gcdNormalize_machine h x⟩
  obtain ⟨sys', h⟩ := (gcdsTaken_iff hv).mpr hok
  exact ⟨sys', h.runs, h.solves⟩

/-- `-x <= 0`. -/
def negatedRow : System where
  ale := fun _ _ => -1
  ble := fun _ => 0
  eqnsLe := 1
  aeq := fun _ _ => 0
  beq := fun _ => 0
  eqnsEq := 0
  vars := 1
  aleFits := fun _ _ => by decide
  bleFits := fun _ => by decide
  aeqFits := fun _ _ => by decide
  beqFits := fun _ => by decide

/-- `2 x - 2 y <= -3` with `2 x + 2 y = 5`. -/
def halfRows : System where
  ale := fun _ c => if c = 0 then 2 else -2
  ble := fun _ => -3
  eqnsLe := 1
  aeq := fun _ _ => 2
  beq := fun _ => 5
  eqnsEq := 1
  vars := 2
  aleFits := fun _ c => by split <;> decide
  bleFits := fun _ => by decide
  aeqFits := fun _ _ => by decide
  beqFits := fun _ => by decide

theorem gcds_keep_solutions_half :
    (∃ sys', takeGcds halfRows = .ok sys' ∧ ∀ x, sys'.Solves x ↔ halfRows.Solves x) ∧
    ∀ x, Solves (gcdNormalize .machine halfLine) x ↔ Solves halfLine x := by
  obtain ⟨_, hsol, hnorm⟩ := gcds_keep_solutions halfRows halfLine (by decide)
  refine ⟨hsol ⟨fun r _ => ⟨?_, ?_, ?_⟩, fun r _ => ⟨by show (5 : Int) ≠ _; decide, .inr (.inl ?_)⟩⟩,
    hnorm ?_⟩
  · intro h
    exact absurd h (show ¬ (2 = 1) by decide)
  · show coefGcd 2 (fun c => if c = 0 then 2 else -2) < _
    have hdvd := le_of_dvd (by decide)
      (dvd_coefGcd.mp (dvd_refl (coefGcd 2 (fun c => if c = 0 then (2 : Int) else -2))) 0 (by decide))
    omega
  · intro _ _
    show -(-3) + coefGcd 2 (fun c => if c = 0 then 2 else -2) ≤ _
    have hdvd := le_of_dvd (by decide)
      (dvd_coefGcd.mp (dvd_refl (coefGcd 2 (fun c => if c = 0 then (2 : Int) else -2))) 0 (by decide))
    omega
  · exact ⟨0, by decide, show (2 : Int) ≠ 0 by decide⟩
  · intro r hr c hc
    have hentries : ∀ r < 2, ∀ c < 2, -int32Max ≤ halfLine.work r c ∧ halfLine.work r c ≤ int32Max := by
      decide
    exact hentries r hr c hc

/-- The assertion fails on `-x <= 0`. -/
theorem gcds_assertion_fails : takeGcds negatedRow = .error .assertion ∧
      ¬ ∃ sys', takeGcds negatedRow = .ok sys' ∧ ∀ x, sys'.Solves x ↔ negatedRow.Solves x := by
  have hstop : takeGcds negatedRow = .error .assertion := rfl
  refine ⟨hstop, ?_⟩
  rintro ⟨sys', hruns, _⟩
  rw [hstop] at hruns
  cases hruns

end Soe
