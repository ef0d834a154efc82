import Mathlib.Logic.Function.Basic

/-! # Counted loops with early exit

A `for` loop over an index range threads a state through its body.
The body may also leave the enclosing function: that is the `error`
side of `Except`, and its payload is what the function returns. -/

namespace Loop

variable {ρ σ : Type}

/-- `for (i = start; i < start + count; i++) body`, with early exit. -/
def forFrom (body : Nat → σ → Except ρ σ) : Nat → Nat → σ → Except ρ σ
  | 0, _, s => .ok s
  | count + 1, i, s =>
    match body i s with
    | .error r => .error r
    | .ok s' => forFrom body count (i + 1) s'

/-- `for (i = start; i < start + count; i++) body`, no early exit. -/
def forEach (body : Nat → σ → σ) : Nat → Nat → σ → σ
  | 0, _, s => s
  | count + 1, i, s => forEach body count (i + 1) (body i s)

/-- `Q` of what is returned early, `P` of the state otherwise. -/
def Outcome (Q : ρ → Prop) (P : σ → Prop) : Except ρ σ → Prop
  | .error r => Q r
  | .ok s => P s

variable {P : σ → Prop} {r : Except ρ σ} {s : σ} {β : Type}

@[simp] theorem outcome_error {Q : ρ → Prop} {r : ρ} : Outcome Q P (.error r) ↔ Q r := Iff.rfl

@[simp] theorem outcome_ok {Q : ρ → Prop} : Outcome Q P (.ok s) ↔ P s := Iff.rfl

theorem Outcome.and {Q : ρ → Prop} {P1 P2 : σ → Prop}
    (h1 : Outcome Q P1 r) (h2 : Outcome Q P2 r) : Outcome Q (fun s => P1 s ∧ P2 s) r := by
  cases r with
  | error _ => exact h1
  | ok _ => exact ⟨h1, h2⟩

theorem Outcome.imp {Q : ρ → Prop} {P' : σ → Prop} (h : Outcome Q P r)
    (himp : ∀ s, P s → P' s) : Outcome Q P' r := by
  cases r with
  | error _ => exact h
  | ok s => exact himp s h

theorem Outcome.exists_ok (h : Outcome (fun _ => False) P r) :
    ∃ s, r = .ok s ∧ P s := by
  cases r with
  | error _ => exact h.elim
  | ok s => exact ⟨s, rfl, h⟩

theorem forFrom_outcome {f : Nat → σ → Except ρ σ} {Q : ρ → Prop} (Inv : Nat → σ → Prop) :
    ∀ (count start : Nat) (s : σ), (∀ i t, start ≤ i → i < start + count → Inv i t →
        Outcome Q (Inv (i + 1)) (f i t)) →
      Inv start s → Outcome Q (Inv (start + count)) (forFrom f count start s) := by
  intro count
  induction count with
  | zero => intro start s _ hs; exact hs
  | succ count ih =>
    intro start s hf hs
    have hfirst := hf start s (Nat.le_refl _) (by omega) hs
    unfold forFrom
    cases hb : f start s with
    | error r => rw [hb] at hfirst; exact hfirst
    | ok s' =>
      rw [hb] at hfirst
      have hrest := ih (start + 1) s'
        (fun i t hlo hhi => hf i t (by omega) (by omega)) hfirst
      rw [show start + (count + 1) = start + 1 + count by omega]
      exact hrest

/-- One more round after those that went through. -/
theorem forFrom_snoc {f : Nat → σ → Except ρ σ} {s' s'' : σ} : ∀ (count start : Nat) (s : σ),
    forFrom f count start s = .ok s' → f (start + count) s' = .ok s'' →
      forFrom f (count + 1) start s = .ok s'' := by
  intro count
  induction count with
  | zero =>
    intro start s h hlast
    cases h
    unfold forFrom
    rw [show f start s' = .ok s'' from hlast]
    rfl
  | succ count ih =>
    intro start s h hlast
    unfold forFrom at h ⊢
    cases hfirst : f start s with
    | error r =>
      rw [hfirst] at h
      cases h
    | ok s₁ =>
      rw [hfirst] at h
      exact ih (start + 1) s₁ h (by rwa [show start + 1 + count = start + (count + 1) by omega])

/-- A loop round by round: each round may use that it is reached. -/
theorem forFrom_reached {f : Nat → σ → Except ρ σ} {Q : ρ → Prop} (Inv : Nat → σ → Prop)
    (count : Nat) (s₀ : σ)
    (hstep : ∀ i s, i < count → forFrom f i 0 s₀ = .ok s → Inv i s → Outcome Q (Inv (i + 1)) (f i s))
    (hinit : Inv 0 s₀) : Outcome Q (Inv count) (forFrom f count 0 s₀) := by
  have hloop := forFrom_outcome (f := f) (Q := Q)
    (fun i s => forFrom f i 0 s₀ = .ok s ∧ Inv i s) count 0 s₀
    (fun i s _ hi h => by
      have hround := hstep i s (by omega) h.1 h.2
      cases hbody : f i s with
      | error r =>
        rw [hbody] at hround
        exact hround
      | ok s' =>
        rw [hbody] at hround
        exact ⟨forFrom_snoc i 0 s₀ h.1 (by rw [Nat.zero_add]; exact hbody), hround⟩)
    ⟨rfl, hinit⟩
  rw [Nat.zero_add] at hloop
  exact hloop.imp fun _ h => h.2

/-- A loop whose round `i` reads and writes the `i`-th part `v` only: `p` is what it makes of one.
-/
theorem forFrom_parts {α : Type} {f : Nat → σ → Except ρ σ} {I : σ → Prop} {v : σ → Nat → α}
    {p : Nat → α → Except ρ α} {n : Nat}
    (herror : ∀ i s e, i < n → I s → p i (v s i) = .error e → f i s = .error e)
    (hok : ∀ i s a, i < n → I s → p i (v s i) = .ok a →
      ∃ s', f i s = .ok s' ∧ v s' = Function.update (v s) i a ∧ I s') :
    ∀ (count start : Nat) (s : σ), start + count ≤ n → I s →
      Outcome (fun e => ∃ i, start ≤ i ∧ i < start + count ∧ p i (v s i) = .error e)
        (fun s' => I s' ∧ (∀ i, start ≤ i → i < start + count → p i (v s i) = .ok (v s' i)) ∧
          ∀ i, i < start ∨ start + count ≤ i → v s' i = v s i) (forFrom f count start s):= by
  intro count
  induction count with
  | zero =>
    intro start s _ hs
    exact ⟨hs, fun i h1 h2 => absurd h2 (by omega), fun i _ => rfl⟩
  | succ count ih =>
    intro start s hhi hs
    unfold forFrom
    cases hpart : p start (v s start) with
    | error e =>
      rw [herror start s e (by omega) hs hpart]
      exact ⟨start, Nat.le_refl _, by omega, hpart⟩
    | ok a =>
      obtain ⟨s1, hf, hview, hs1⟩ := hok start s a (by omega) hs hpart
      have hother : ∀ i, i ≠ start → v s1 i = v s i := fun i hne => by
        rw [hview, Function.update_of_ne hne]
      have hrest := ih (start + 1) s1 (by omega) hs1
      rw [hf]
      dsimp only
      cases hloop : forFrom f count (start + 1) s1 with
      | error e =>
        rw [hloop] at hrest
        obtain ⟨i, hlo, hhi, he⟩ := hrest
        exact ⟨i, by omega, by omega, by rw [← hother i (by omega)]; exact he⟩
      | ok s' =>
        rw [hloop] at hrest
        obtain ⟨hI, hdone, hsame⟩ := hrest
        refine ⟨hI, fun i hlo hhi => ?_, fun i hi => ?_⟩
        · rcases Nat.eq_or_lt_of_le hlo with rfl | hlt
          · rw [hpart, hsame start (by omega), hview, Function.update_self]
          · rw [← hother i (by omega)]
            exact hdone i hlt (by omega)
        · rw [hsame i (by omega), hother i (by omega)]

/-- Two bodies that agree wherever the invariant holds give the same loop. -/
theorem forFrom_congr {body1 body2 : Nat → σ → Except ρ σ} (Inv : Nat → σ → Prop) :
    ∀ (count start : Nat) (s : σ), (∀ i t, start ≤ i → i < start + count → Inv i t →
        body1 i t = body2 i t ∧ Outcome (fun _ => True) (Inv (i + 1)) (body2 i t)) →
      Inv start s → forFrom body1 count start s = forFrom body2 count start s := by
  intro count
  induction count with
  | zero => intro start s _ _; rfl
  | succ count ih =>
    intro start s hbody hs
    obtain ⟨heq, hnext⟩ := hbody start s (Nat.le_refl _) (by omega) hs
    unfold forFrom
    rw [heq]
    cases hb : body2 start s with
    | error r => rfl
    | ok s' =>
      rw [hb] at hnext
      exact ih (start + 1) s' (fun i t hlo hhi => hbody i t (by omega) (by omega)) hnext

theorem forEach_inv {f : Nat → σ → σ} (Inv : Nat → σ → Prop) : ∀ (count start : Nat) (s : σ),
      (∀ i t, start ≤ i → i < start + count → Inv i t → Inv (i + 1) (f i t)) →
      Inv start s → Inv (start + count) (forEach f count start s) := by
  intro count
  induction count with
  | zero => intro start s _ hs; exact hs
  | succ count ih =>
    intro start s hf hs
    have hfirst := hf start s (Nat.le_refl _) (by omega) hs
    have hrest := ih (start + 1) (f start s)
      (fun i t hlo hhi => hf i t (by omega) (by omega)) hfirst
    rw [show start + (count + 1) = start + 1 + count by omega]
    exact hrest

theorem forEach_congr {body1 body2 : Nat → σ → σ} (Inv : Nat → σ → Prop) :
    ∀ (count start : Nat) (s : σ), (∀ i t, start ≤ i → i < start + count → Inv i t →
        body1 i t = body2 i t ∧ Inv (i + 1) (body2 i t)) →
      Inv start s → forEach body1 count start s = forEach body2 count start s := by
  intro count
  induction count with
  | zero => intro start s _ _; rfl
  | succ count ih =>
    intro start s hbody hs
    obtain ⟨heq, hnext⟩ := hbody start s (Nat.le_refl _) (by omega) hs
    unfold forEach
    rw [heq]
    exact ih (start + 1) _ (fun i t hlo hhi => hbody i t (by omega) (by omega)) hnext

/-- A loop over a list whose body may fail, but does not: `done` are the items passed. -/
theorem foldlM_total {α : Type} {f : β → α → Option β} {J : List α → β → Prop} :
    ∀ {l : List α} (done : List α) {b : β},
      (∀ done a b, a ∈ l → J done b → ∃ b', f b a = some b' ∧ J (a :: done) b') →
      J done b → ∃ b', l.foldlM f b = some b' ∧ J (l.reverse ++ done) b' := by
  intro l
  induction l with
  | nil => exact fun _ _ _ hb => ⟨_, rfl, hb⟩
  | cons a l ih =>
    intro done b hstep hb
    obtain ⟨b', hb', hinv⟩ := hstep done a b List.mem_cons_self hb
    obtain ⟨r, hr, hfinal⟩ := ih (a :: done) (fun d x c hx => hstep d x c (List.mem_cons_of_mem a hx)) hinv
    refine ⟨r, ?_, ?_⟩
    · rw [List.foldlM_cons, hb']
      exact hr
    · rw [List.reverse_cons, List.append_assoc]
      exact hfinal

section

variable {α : Type} {f : σ → α → Except ρ σ} {Q : ρ → Prop} {J : List α → σ → Prop}

theorem foldlM_outcome : ∀ {l : List α} (done : List α) {s : σ},
      (∀ done a t, a ∈ l → J done t → Outcome Q (J (a :: done)) (f t a)) →
      J done s → Outcome Q (J (l.reverse ++ done)) (l.foldlM f s) := by
  intro l
  induction l with
  | nil => exact fun _ _ _ hs => hs
  | cons a l ih =>
    intro done s hstep hs
    have hfirst := hstep done a s List.mem_cons_self hs
    rw [List.foldlM_cons, List.reverse_cons, List.append_assoc]
    cases hb : f s a with
    | error r => rw [hb] at hfirst; exact hfirst
    | ok s' =>
      rw [hb] at hfirst
      exact ih (a :: done) (fun d x t hx => hstep d x t (List.mem_cons_of_mem a hx)) hfirst

theorem foldlM_outcome_prefix {l : List α}
    (hstep : ∀ pre a post t, l = pre ++ a :: post → J pre t → Outcome Q (J (pre ++ [a])) (f t a))
    (hs : J [] s) : Outcome Q (J l) (l.foldlM f s) := by
  have hgen : ∀ (post pre : List α) (t : σ), l = pre ++ post → J pre t →
      Outcome Q (J l) (post.foldlM f t) := by
    intro post
    induction post with
    | nil =>
      rintro pre t rfl ht
      rwa [List.append_nil]
    | cons a post ih =>
      intro pre t hl ht
      have hfirst := hstep pre a post t hl ht
      rw [List.foldlM_cons]
      cases hb : f t a with
      | error r => rw [hb] at hfirst; exact hfirst
      | ok t' =>
        rw [hb] at hfirst
        exact ih (pre ++ [a]) t' (by rw [hl, List.append_assoc]; rfl) hfirst
  exact hgen l [] s rfl hs

end

theorem foldlM_flatMap {α : Type} {f : α → List β} {step : σ → β → Option σ} (l : List α) :
    ∀ s, (l.flatMap f).foldlM step s = l.foldlM (fun s a => (f a).foldlM step s) s := by
  induction l with
  | nil => exact fun _ => rfl
  | cons a l ih =>
    intro s
    rw [List.flatMap_cons, List.foldlM_append, List.foldlM_cons]
    congr 1
    exact funext ih

end Loop
