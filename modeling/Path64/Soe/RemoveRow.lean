import Mathlib.Data.List.Basic
import Path64.Lib.Loop

/-! # Removing a row by its number

`SYSTEM_OF_EQUATIONS` keeps its inequalities and its equalities in two
tables, each a matrix, a right-hand side and a count.
`Remove_Le_Number` and `Remove_Eq_Number` are the same text over the one
and the other: the rows behind row `k` move up by one place, and the
count goes down.

`Remove_Le_Number` takes down the count of the equalities. -/

namespace Soe

open Function Loop

/-! ## Model -/

/-- A matrix with its right-hand side and an `INT32` count, which may become negative. -/
structure RowTable where
  coef : Nat → Nat → Int
  rhs : Nat → Int
  count : Int

/-- The two tables of a `SYSTEM_OF_EQUATIONS`. -/
structure RowSystem where
  le : RowTable
  eq : RowTable
  vars : Nat

/-- `A(i-1,j) = A(i,j)` for every variable `j`, then `b[i-1] = b[i]`. -/
def moveRowUp (vars i : Nat) (t : RowTable) : RowTable :=
  let t := forEach
    (fun j t =>
      { t with coef := update t.coef (i - 1)
                        (update (t.coef (i - 1)) j (t.coef i j)) }) vars 0 t
  { t with rhs := update t.rhs (i - 1) (t.rhs i) }

/-- `for (i = k+1; i < count; i++)`. -/
def moveRowsUp (vars k : Nat) (t : RowTable) : RowTable :=
  forEach (moveRowUp vars) (t.count.toNat - (k + 1)) (k + 1) t

def removeEqNumber (k : Nat) (s : RowSystem) : RowSystem :=
  let eq := moveRowsUp s.vars k s.eq
  { s with eq := { eq with count := eq.count - 1 } }

/-- `Remove_Le_Number`: the inequalities are moved, the count is that of the equalities. -/
def removeLeNumber (k : Nat) (s : RowSystem) : RowSystem :=
  { s with
    le := moveRowsUp s.vars k s.le
    eq := { s.eq with count := s.eq.count - 1 } }

/-- Row `r` as far as it is in use. -/
def RowTable.row (t : RowTable) (vars r : Nat) : List Int × Int :=
  ((List.range vars).map (t.coef r), t.rhs r)

/-- The rows in use, in order. -/
def RowTable.rows (t : RowTable) (vars : Nat) : List (List Int × Int) :=
  (List.range t.count.toNat).map (t.row vars)

/-- The inequalities of the system. -/
def RowSystem.leRows (s : RowSystem) : List (List Int × Int) := s.le.rows s.vars
/-- The equalities of the system. -/
def RowSystem.eqRows (s : RowSystem) : List (List Int × Int) := s.eq.rows s.vars

/-- Inequality `k` is gone, and nothing else has changed. -/
structure LeRowRemoved (k : Nat) (s s' : RowSystem) : Prop where
  le : s'.leRows = s.leRows.eraseIdx k
  eq : s'.eqRows = s.eqRows

/-- Equality `k` is gone, and nothing else has changed. -/
structure EqRowRemoved (k : Nat) (s s' : RowSystem) : Prop where
  eq : s'.eqRows = s.eqRows.eraseIdx k
  le : s'.leRows = s.leRows

/-! ## The rows that move -/

section moving
variable {vars k i : Nat} {t t₀ : RowTable}

/-- The columns below `j` of row `i - 1` are those of row `i`. -/
structure ColumnsMoved (t₀ : RowTable) (i j : Nat) (t : RowTable) : Prop where
  count : t.count = t₀.count
  rhs : t.rhs = t₀.rhs
  coef : ∀ r c, t.coef r c = if r = i - 1 ∧ c < j then t₀.coef i c else t₀.coef r c

theorem columnsMoved_loop (vars i : Nat) (t : RowTable) : ColumnsMoved t i vars (forEach
      (fun j t =>
        { t with coef := update t.coef (i - 1)
                          (update (t.coef (i - 1)) j (t.coef i j)) }) vars 0 t) := by
  have hloop := forEach_inv (fun j u => ColumnsMoved t i j u) vars 0 t
    (f := fun j t =>
      { t with coef := update t.coef (i - 1)
                        (update (t.coef (i - 1)) j (t.coef i j)) })
    (by
      intro j u _ _ hu
      refine ⟨hu.count, hu.rhs, fun r c => ?_⟩
      have hsrc : u.coef i j = t.coef i j := by
        rw [hu.coef, if_neg (by omega)]
      by_cases hr : r = i - 1
      · subst hr
        simp only [update_self]
        by_cases hc : c = j
        · subst hc
          rw [update_self, hsrc, if_pos ⟨trivial, Nat.lt_succ_self c⟩]
        · rw [update_of_ne hc, hu.coef]
          simp only [true_and, show c < j + 1 ↔ c < j by omega]
      · simp only [update_of_ne hr]
        rw [hu.coef, if_neg (fun h => hr h.1), if_neg (fun h => hr h.1)])
    ⟨rfl, rfl, fun r c => by rw [if_neg (fun h => absurd h.2 (Nat.not_lt_zero c))]⟩
  rwa [Nat.zero_add] at hloop

/-- Rows `k` to `i - 2` hold what stood one place further down. -/
structure RowsMoved (t₀ : RowTable) (vars k i : Nat) (t : RowTable) : Prop where
  count : t.count = t₀.count
  moved : ∀ r, k ≤ r → r + 1 < i → t.row vars r = t₀.row vars (r + 1)
  before : ∀ r, r < k → t.row vars r = t₀.row vars r
  behind : ∀ r, i ≤ r + 1 → t.row vars r = t₀.row vars r

theorem RowsMoved.next (h : RowsMoved t₀ vars k i t) (hi : k + 1 ≤ i) :
    RowsMoved t₀ vars k (i + 1) (moveRowUp vars i t) := by
  have hcols := columnsMoved_loop vars i t
  -- what row `r` is afterwards: row `i` at the place in front of it
  have hrow : ∀ r, (moveRowUp vars i t).row vars r
      = if r = i - 1 then t.row vars i else t.row vars r := by
    intro r
    have hcoef : ∀ c < vars, (moveRowUp vars i t).coef r c
        = if r = i - 1 then t.coef i c else t.coef r c := by
      intro c hc
      refine (hcols.coef r c).trans ?_
      simp only [hc, and_true]
    have hrhs : (moveRowUp vars i t).rhs r = if r = i - 1 then t.rhs i else t.rhs r := by
      unfold moveRowUp
      simp only [hcols.rhs, update_apply]
    unfold RowTable.row
    rw [hrhs, List.map_congr_left (fun c hc => hcoef c (List.mem_range.mp hc))]
    split <;> rfl
  refine ⟨hcols.count.trans h.count, fun r hlo hhi => ?_, fun r hr => ?_, fun r hr => ?_⟩
  · rw [hrow]
    by_cases hlast : r = i - 1
    · rw [if_pos hlast, h.behind i (Nat.le_succ i), hlast, Nat.sub_add_cancel (by omega)]
    · rw [if_neg hlast]
      exact h.moved r hlo (by omega)
  · rw [hrow, if_neg (by omega)]
    exact h.before r hr
  · rw [hrow, if_neg (by omega)]
    exact h.behind r (by omega)

theorem moveRowsUp_moved (vars k : Nat) (t : RowTable) :
    RowsMoved t vars k (k + 1 + (t.count.toNat - (k + 1))) (moveRowsUp vars k t) := by
  refine forEach_inv (fun i u => RowsMoved t vars k i u) _ _ _
    (fun i u hlo _ hu => hu.next hlo) ⟨rfl, ?_, fun _ _ => rfl, fun _ _ => rfl⟩
  intro r hlo hhi
  omega

theorem moveRowsUp_erased (hk : (k : Int) < t.count) :
    { moveRowsUp vars k t with count := t.count - 1 }.rows vars = (t.rows vars).eraseIdx k := by
  have hmoved := moveRowsUp_moved vars k t
  unfold RowTable.rows
  refine List.ext_getElem ?_ ?_
  · rw [List.length_eraseIdx_of_lt (by simp; omega)]
    simp
  · intro r hr hr'
    have hlt : (r : Int) < t.count - 1 := by simp at hr; omega
    rw [List.getElem_eraseIdx]
    simp only [List.getElem_map, List.getElem_range]
    split
    · next h => exact hmoved.before r h
    · next h => exact hmoved.moved r (by omega) (by omega)

theorem moveRowsUp_doubled (hk : (k : Int) < t.count) : (moveRowsUp vars k t).rows vars
      = (t.rows vars).eraseIdx k ++ [t.row vars (t.count.toNat - 1)] := by
  have hmoved := moveRowsUp_moved vars k t
  have hlast : (moveRowsUp vars k t).row vars (t.count.toNat - 1)
      = t.row vars (t.count.toNat - 1) := hmoved.behind _ (by omega)
  rw [← moveRowsUp_erased hk, ← hlast]
  unfold RowTable.rows
  rw [hmoved.count, show t.count.toNat = (t.count - 1).toNat + 1 by omega, List.range_succ,
    List.map_append]
  rfl

end moving

/-! ## Which routine removes its row -/

section removal
variable {k : Nat} {s : RowSystem}

theorem removeEqNumber_removed (hk : (k : Int) < s.eq.count) :
    EqRowRemoved k s (removeEqNumber k s) := by
  refine ⟨?_, rfl⟩
  have hcount := (moveRowsUp_moved s.vars k s.eq).count
  have herased := @moveRowsUp_erased s.vars _ _ hk
  unfold RowSystem.eqRows removeEqNumber
  dsimp only
  rw [hcount]
  exact herased

theorem removeLeNumber_rows (hk : (k : Int) < s.le.count) :
    (removeLeNumber k s).leRows = s.leRows.eraseIdx k ++ [s.le.row s.vars (s.le.count.toNat - 1)] ∧
      (removeLeNumber k s).eqRows = s.eqRows.dropLast := by
  refine ⟨moveRowsUp_doubled hk, ?_⟩
  unfold RowSystem.eqRows RowTable.rows removeLeNumber
  dsimp only
  rw [← List.map_dropLast, show (s.eq.count - 1).toNat = s.eq.count.toNat - 1 by omega]
  congr 1
  cases s.eq.count.toNat with
  | zero => rfl
  | succ n => rw [List.range_succ, List.dropLast_concat, Nat.add_sub_cancel]

theorem removeLeNumber_not_removed (hk : (k : Int) < s.le.count) :
    ¬ LeRowRemoved k s (removeLeNumber k s) := by
  intro h
  have hlen := congrArg List.length h.le
  rw [(removeLeNumber_rows hk).1, List.length_append] at hlen
  simp at hlen

/-- Removing row `k` works for the equalities, whatever the system, and never for the inequalities.
-/
theorem removeNumber_removed_iff (s : RowSystem) (k : Nat) :
    ((k : Int) < s.eq.count → EqRowRemoved k s (removeEqNumber k s)) ∧
      ((k : Int) < s.le.count → ¬ LeRowRemoved k s (removeLeNumber k s)) :=
  ⟨removeEqNumber_removed, removeLeNumber_not_removed⟩

end removal

/-- `x <= 1` with `x = 0`. -/
def pointSystem : RowSystem where
  le := { coef := fun _ _ => 1, rhs := fun _ => 1, count := 1 }
  eq := { coef := fun _ _ => 1, rhs := fun _ => 0, count := 1 }
  vars := 1

theorem removeNumber_removed_point : EqRowRemoved 0 pointSystem (removeEqNumber 0 pointSystem) ∧
      ¬ LeRowRemoved 0 pointSystem (removeLeNumber 0 pointSystem) :=
  ⟨(removeNumber_removed_iff pointSystem 0).1 (by decide),
    (removeNumber_removed_iff pointSystem 0).2 (by decide)⟩

/-- Taking out `x <= 1` leaves it there and takes out `x = 0`. -/
theorem removeLeNumber_wrong : ¬ ∀ (s : RowSystem) (k : Nat),
      ((k : Int) < s.le.count → LeRowRemoved k s (removeLeNumber k s)) ∧
        ((k : Int) < s.eq.count → EqRowRemoved k s (removeEqNumber k s)) := by
  intro h
  have hle := ((h pointSystem 0).1 (by decide)).le
  exact absurd hle (by decide)

end Soe
