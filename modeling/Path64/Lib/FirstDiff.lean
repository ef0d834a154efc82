import Mathlib.Data.List.Basic
import Mathlib.Tactic.SplitIfs

/-! # The first difference of two words

A comparison that walks two structures in step and stops at the first
place where they differ is a comparison of two words over some alphabet
of keys. -/

namespace FirstDiff

variable {K : Type} [DecidableEq K]

/-! ## Two words -/

/-- The first place where two words differ; `none` when one is an initial part of the other. -/
def firstDiff : List K → List K → Option (K × K)
  | a :: as, b :: bs => if a = b then firstDiff as bs else some (a, b)
  | _, _ => none

/-- Neither word is a proper initial part of the other. -/
def Aligned (as bs : List K) : Prop := firstDiff as bs = none → as = bs

theorem firstDiff_cons (a b : K) (as bs : List K) :
    firstDiff (a :: as) (b :: bs) =
      if a = b then firstDiff as bs else some (a, b) := rfl

@[simp] theorem firstDiff_cons_self (a : K) (as bs : List K) :
    firstDiff (a :: as) (a :: bs) = firstDiff as bs := by
  rw [firstDiff_cons, if_pos rfl]

theorem firstDiff_cons_ne {a b : K} (h : a ≠ b) (as bs : List K) :
    firstDiff (a :: as) (b :: bs) = some (a, b) := by
  rw [firstDiff_cons, if_neg h]

variable {as bs rs ss cs : List K} {p q : K}

@[simp] theorem firstDiff_self (as : List K) : firstDiff as as = none := by
  induction as with
  | nil => rfl
  | cons a as ih => rw [firstDiff_cons_self, ih]

theorem firstDiff_ne (h : firstDiff as bs = some (p, q)) : p ≠ q:= by
  induction as generalizing bs with
  | nil => cases h
  | cons a as ih =>
    cases bs with
    | nil => cases h
    | cons b bs =>
      rw [firstDiff_cons] at h
      split_ifs at h with hab
      · exact ih h
      · cases h
        exact hab

theorem firstDiff_swap (as bs : List K) : firstDiff bs as = (firstDiff as bs).map Prod.swap:= by
  induction as generalizing bs with
  | nil => cases bs <;> rfl
  | cons a as ih =>
    cases bs with
    | nil => rfl
    | cons b bs =>
      by_cases hab : a = b
      · subst hab
        rw [firstDiff_cons_self, firstDiff_cons_self, ih bs]
      · rw [firstDiff_cons_ne hab, firstDiff_cons_ne (Ne.symm hab)]
        rfl

theorem firstDiff_append (h : Aligned as bs) (rs ss : List K) :
    firstDiff (as ++ rs) (bs ++ ss) = (firstDiff as bs).or (firstDiff rs ss) := by
  induction as generalizing bs with
  | nil =>
    have hb : [] = bs := h rfl
    subst hb
    rfl
  | cons a as ih =>
    cases bs with
    | nil => exact absurd (h rfl) (by simp)
    | cons b bs =>
      by_cases hab : a = b
      · subst hab
        have ht : Aligned as bs := by
          intro hn
          have hc := h (by rw [firstDiff_cons_self, hn])
          exact (List.cons.inj hc).2
        simp only [List.cons_append, firstDiff_cons_self]
        exact ih ht
      · simp only [List.cons_append]
        rw [firstDiff_cons_ne hab, firstDiff_cons_ne hab]
        rfl

theorem Aligned.append (h : Aligned as bs)
    (hr : Aligned rs ss) : Aligned (as ++ rs) (bs ++ ss) := by
  intro hn
  rw [firstDiff_append h] at hn
  cases hd : firstDiff as bs with
  | none =>
    rw [hd, Option.none_or] at hn
    rw [h hd, hr hn]
  | some d =>
    rw [hd, Option.some_or] at hn
    cases hn

theorem aligned_of_length (h : as.length = bs.length) : Aligned as bs:= by
  induction as generalizing bs with
  | nil => exact fun _ => (List.length_eq_zero_iff.mp h.symm).symm
  | cons a as ih =>
    cases bs with
    | nil => cases h
    | cons b bs =>
      intro hn
      rw [firstDiff_cons] at hn
      split_ifs at hn with hab
      rw [hab, ih (Nat.succ.inj h) hn]

theorem Aligned.append_inj (h : Aligned as bs)
    (he : as ++ rs = bs ++ ss) : as = bs ∧ rs = ss := by
  have hn : firstDiff (as ++ rs) (bs ++ ss) = none := by rw [he, firstDiff_self]
  rw [firstDiff_append h] at hn
  have hab : as = bs := by
    refine h ?_
    cases hd : firstDiff as bs with
    | none => rfl
    | some d =>
      rw [hd, Option.some_or] at hn
      cases hn
  subst hab
  exact ⟨rfl, List.append_cancel_left he⟩

/-! ## Closed sequences of words

A sequence of words is written one after the other and closed by a
mark that begins none of them. -/

/-- The words of a sequence, closed by `stop`. -/
def closed (stop : K) (ws : List (List K)) : List K := ws.flatten ++ [stop]

/-- The word is nonempty and does not begin with `stop`. -/
def Opens (stop : K) (w : List K) : Prop := ∃ a as, w = a :: as ∧ a ≠ stop

variable {stop : K}

omit [DecidableEq K] in
theorem closed_cons (w : List K) (ws : List (List K)) :
    closed stop (w :: ws) = w ++ closed stop ws := by
  simp [closed]

section

variable {vs ws : List (List K)} (hv : ∀ v ∈ vs, Opens stop v) (hw : ∀ w ∈ ws, Opens stop w)
  (h : ∀ v ∈ vs, ∀ w ∈ ws, Aligned v w)
include hv hw h

theorem aligned_closed : Aligned (closed stop vs) (closed stop ws):= by
  induction vs generalizing ws with
  | nil =>
    cases ws with
    | nil => exact fun _ => rfl
    | cons w ws =>
      obtain ⟨a, as, rfl, ha⟩ := hw w (by simp)
      intro hn
      rw [closed_cons] at hn
      exact absurd hn (by simp [closed, firstDiff_cons, Ne.symm ha])
  | cons v vs ih =>
    cases ws with
    | nil =>
      obtain ⟨a, as, rfl, ha⟩ := hv v (by simp)
      intro hn
      rw [closed_cons] at hn
      exact absurd hn (by simp [closed, firstDiff_cons, ha])
    | cons w ws =>
      rw [closed_cons, closed_cons]
      refine Aligned.append (h v (by simp) w (by simp)) (ih ?_ ?_ ?_)
      · exact fun v' hv' => hv v' (by simp [hv'])
      · exact fun w' hw' => hw w' (by simp [hw'])
      · exact fun v' hv' w' hw' => h v' (by simp [hv']) w' (by simp [hw'])

theorem closed_inj (he : closed stop vs = closed stop ws) : vs = ws := by
  induction vs generalizing ws with
  | nil =>
    cases ws with
    | nil => rfl
    | cons w ws =>
      obtain ⟨a, as, rfl, ha⟩ := hw w (by simp)
      rw [closed_cons] at he
      exact absurd (List.cons.inj he).1 (Ne.symm ha)
  | cons v vs ih =>
    cases ws with
    | nil =>
      obtain ⟨a, as, rfl, ha⟩ := hv v (by simp)
      rw [closed_cons] at he
      exact absurd (List.cons.inj he).1 ha
    | cons w ws =>
      rw [closed_cons, closed_cons] at he
      obtain ⟨hvw, ht⟩ := (h v (by simp) w (by simp)).append_inj he
      rw [hvw, ih (fun v' hv' => hv v' (by simp [hv']))
        (fun w' hw' => hw w' (by simp [hw']))
        (fun v' hv' w' hw' => h v' (by simp [hv']) w' (by simp [hw'])) ht]

end

/-! ## Three words and transitivity -/

/-- The first place where three words do not all agree. -/
def firstDiff3 : List K → List K → List K → Option (K × K × K)
  | a :: as, b :: bs, c :: cs =>
    if a = b ∧ b = c then firstDiff3 as bs cs else some (a, b, c)
  | _, _, _ => none

/-- The comparison of words by their first difference. -/
def lexCmp (cmp : K → K → Int) (as bs : List K) : Int :=
  match firstDiff as bs with
  | none => 0
  | some (p, q) => cmp p q

/-- A key comparison that is transitive where three aligned words part makes that of the words
transitive, and strict if a step is. -/
theorem lexCmp_trans {cmp : K → K → Int} (hcmp : ∀ p q, cmp p q = 0 ↔ p = q)
    (hab : Aligned as bs) (hbc : Aligned bs cs) (hac : Aligned as cs)
    (hd : ∀ p q r, firstDiff3 as bs cs = some (p, q, r) → cmp p q < 0 → cmp q r < 0 → cmp p r < 0)
    (h₁ : lexCmp cmp as bs ≤ 0) (h₂ : lexCmp cmp bs cs ≤ 0) : lexCmp cmp as cs ≤ 0 ∧
      (lexCmp cmp as bs < 0 ∨ lexCmp cmp bs cs < 0 → lexCmp cmp as cs < 0) := by
  induction as generalizing bs cs with
  | nil =>
    have hb : [] = bs := hab rfl
    have hc : [] = cs := hac rfl
    subst hb hc
    exact ⟨h₁, fun h => h.elim id id⟩
  | cons a as ih =>
    cases bs with
    | nil => exact absurd (hab rfl) (by simp)
    | cons b bs =>
      cases cs with
      | nil => exact absurd (hac rfl) (by simp)
      | cons c cs =>
        have tail : ∀ {x : K} {xs ys : List K}, Aligned (x :: xs) (x :: ys) → Aligned xs ys := by
          intro x xs ys h hn
          exact (List.cons.inj (h (by rw [firstDiff_cons_self, hn]))).2
        by_cases h : a = b ∧ b = c
        · obtain ⟨rfl, rfl⟩ := h
          simp only [lexCmp, firstDiff_cons_self] at h₁ h₂ ⊢
          refine ih (tail hab) (tail hbc) (tail hac) ?_ h₁ h₂
          intro p q r hpqr
          exact hd p q r (by rw [firstDiff3, if_pos ⟨rfl, rfl⟩, hpqr])
        · -- the words part here: the keys decide all comparisons that differ
          have hkey := hd a b c (by rw [firstDiff3, if_neg h])
          have ne_zero : ∀ {p q : K}, p ≠ q → cmp p q ≠ 0 :=
            fun hne h0 => hne ((hcmp _ _).mp h0)
          by_cases hab' : a = b
          · subst hab'
            have hne : a ≠ c := fun hc => h ⟨rfl, hc⟩
            simp only [lexCmp, firstDiff_cons_ne hne] at h₂ ⊢
            have := ne_zero hne
            exact ⟨h₂, fun _ => by omega⟩
          · by_cases hbc' : b = c
            · subst hbc'
              simp only [lexCmp, firstDiff_cons_ne hab'] at h₁ ⊢
              have := ne_zero hab'
              exact ⟨h₁, fun _ => by omega⟩
            · simp only [lexCmp, firstDiff_cons_ne hab', firstDiff_cons_ne hbc'] at h₁ h₂
              have h1 := ne_zero hab'
              have h2 := ne_zero hbc'
              have hlt : cmp a c < 0 := hkey (by omega) (by omega)
              have hne : a ≠ c := by
                intro hc
                have := (hcmp a c).mpr hc
                omega
              simp only [lexCmp, firstDiff_cons_ne hne]
              exact ⟨by omega, fun _ => hlt⟩

/-- Where three words part at three keys, two part there, unless their keys are the same. -/
theorem firstDiff_of_firstDiff3 {r : K}
    (h : firstDiff3 as bs cs = some (p, q, r)) : (p ≠ q → firstDiff as bs = some (p, q)) ∧
      (q ≠ r → firstDiff bs cs = some (q, r)) ∧ (p ≠ r → firstDiff as cs = some (p, r)):= by
  induction as generalizing bs cs with
  | nil => cases h
  | cons a as ih =>
    cases bs with
    | nil => cases h
    | cons b bs =>
      cases cs with
      | nil => cases h
      | cons c cs =>
        rw [firstDiff3] at h
        split_ifs at h with hall
        · obtain ⟨rfl, rfl⟩ := hall
          simpa only [firstDiff_cons_self] using ih h
        · cases h
          exact ⟨fun hne => firstDiff_cons_ne hne _ _,
            fun hne => firstDiff_cons_ne hne _ _,
            fun hne => firstDiff_cons_ne hne _ _⟩

end FirstDiff
