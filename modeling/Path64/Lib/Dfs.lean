import Path64.Lib.Paths
import Mathlib.Data.Finset.Card

/-! # Depth-first search

A node is marked when the search comes to it; then its neighbours are
visited one after the other, those that are marked by then excepted.
What a mark is, is left open: a member of a set, a number. -/

namespace Dfs

open List Finset Paths

/-- `mark parent v s` is the state after `v` is marked, coming from `parent`. -/
structure Search (V σ : Type) where
  adj : V → List V
  seen : σ → V → Bool
  mark : Option V → V → σ → σ

namespace Search

variable {V σ : Type} (S : Search V σ)

/-- Call for each node that is not seen when its turn comes. -/
def each (call : V → σ → Option σ) : List V → σ → Option σ
  | [], s => some s
  | v :: vs, s =>
    if S.seen s v then each call vs s
    else
      match call v s with
      | none => none
      | some s' => each call vs s'

/-- Visit a node; `fuel` bounds the depth. -/
def visit : Nat → Option V → V → σ → Option σ
  | 0, _, _, _ => none
  | fuel + 1, parent, v, s => S.each (visit fuel (some v)) (S.adj v) (S.mark parent v s)

/-- Visit the roots. -/
def visitAll (fuel : Nat) (roots : List V) (s : σ) : Option σ := S.each (S.visit fuel none) roots s

/-- The neighbours. -/
def Adj (v w : V) : Prop := w ∈ S.adj v

/-- A mark is seen, and nothing else changes what is seen. -/
def Lawful [DecidableEq V] : Prop :=
  ∀ parent v s w, S.seen (S.mark parent v s) w = (decide (w = v) || S.seen s w)

variable {S}

/-! ## Rules -/

variable {s s' t : σ} {fuel : Nat} {p : Option V} {v w : V} {done : List V} {U : Finset V}

/-- Invariant rule for the loop over nodes; `done` are those passed. -/
theorem each_rule {call : V → σ → Option σ} {J : List V → σ → Prop} {vs : List V}
    (hskip : ∀ done w s, w ∈ vs → J done s → S.seen s w = true → J (w :: done) s)
    (hcall : ∀ done w s s', w ∈ vs → J done s → S.seen s w = false → call w s = some s' →
      J (w :: done) s') (hs : J [] s) (h : S.each call vs s = some s') : J vs.reverse s' := by
  have hgen : ∀ (todo done : List V) (s : σ), (∀ w ∈ todo, w ∈ vs) → J done s →
      S.each call todo s = some s' → J (todo.reverse ++ done) s' := by
    intro todo
    induction todo with
    | nil =>
      intro done s _ hJ h
      cases h
      exact hJ
    | cons w todo ih =>
      intro done s hsub hJ h
      have hw := hsub w mem_cons_self
      have hrest := fun x hx => hsub x (mem_cons_of_mem w hx)
      rw [reverse_cons, append_assoc, singleton_append]
      unfold each at h
      split at h
      · rename_i hseen
        exact ih _ s hrest (hskip done w s hw hJ hseen) h
      · rename_i hseen
        split at h
        · cases h
        · rename_i t ht
          exact ih _ t hrest (hcall done w s t hw hJ (Bool.not_eq_true _ ▸ hseen) ht) h
  simpa using hgen vs [] s (fun w hw => hw) hs h

/-- A visit, from `P` to `Q`: `M` holds after the mark and some neighbours. -/
theorem visit_rule {P : Option V → V → σ → Prop} {Q : Option V → V → σ → σ → Prop}
    {M : Option V → V → List V → σ → σ → Prop}
    (hstart : ∀ p v s, P p v s → S.seen s v = false → M p v [] s (S.mark p v s))
    (hskip : ∀ p v done w s t, w ∈ S.adj v → M p v done s t → S.seen t w = true →
      M p v (w :: done) s t)
    (hpre : ∀ p v done w s t, w ∈ S.adj v → M p v done s t → S.seen t w = false → P (some v) w t)
    (hcall : ∀ p v done w s t t', w ∈ S.adj v → M p v done s t → S.seen t w = false →
      Q (some v) w t t' → M p v (w :: done) s t')
    (hend : ∀ p v s t, M p v (S.adj v).reverse s t → Q p v s t) :
    ∀ {p : Option V} {v : V} {s s' : σ}, P p v s → S.seen s v = false →
      S.visit fuel p v s = some s' → Q p v s s' := by
  induction fuel with
  | zero =>
    intro p v s s' _ _ h
    cases h
  | succ fuel ih =>
    intro p v s s' hP hnew h
    unfold visit at h
    refine hend p v s s' (each_rule (J := fun done t => M p v done s t) ?_ ?_
      (hstart p v s hP hnew) h)
    · intro done w t hw hJ hseen
      exact hskip p v done w s t hw hJ hseen
    · intro done w t t' hw hJ hseen hvisit
      exact hcall p v done w s t t' hw hJ hseen (ih (hpre p v done w s t hw hJ hseen) hseen hvisit)

/-! ## What is seen -/

section Seen

variable [DecidableEq V]

/-- A visit of `v` adds what unseen paths from `v` reach, with all their neighbours. -/
structure Grown (S : Search V σ) (v : V) (s s' : σ) : Prop where
  mono : ∀ w, S.seen s w = true → S.seen s' w = true
  start : S.seen s' v = true
  fresh : ∀ w, S.seen s' w = true → S.seen s w = false →
    ∃ p, Path S.Adj v w p ∧ ∀ x ∈ p, S.seen s x = false
  closed : ∀ w, S.seen s' w = true → S.seen s w = false → ∀ x ∈ S.adj w, S.seen s' x = true

/-- The same while `v` is being visited, when the neighbours in `done` have been passed. -/
structure Growing (S : Search V σ) (v : V) (done : List V) (s t : σ) : Prop where
  new : S.seen s v = false
  mono : ∀ w, S.seen s w = true → S.seen t w = true
  start : S.seen t v = true
  fresh : ∀ w, S.seen t w = true → S.seen s w = false →
    ∃ p, Path S.Adj v w p ∧ ∀ x ∈ p, S.seen s x = false
  closed : ∀ w, S.seen t w = true → S.seen s w = false → w ≠ v → ∀ x ∈ S.adj w, S.seen t x = true
  passed : ∀ w ∈ done, S.seen t w = true

variable (hS : S.Lawful)

include hS in
theorem growing_start (hnew : S.seen s v = false) : Growing S v [] s (S.mark p v s) := by
  have hmark : ∀ w, S.seen (S.mark p v s) w = true ↔ w = v ∨ S.seen s w = true := by
    intro w
    rw [hS p v s w]
    simp
  refine ⟨hnew, fun w hw => (hmark w).mpr (.inr hw), (hmark v).mpr (.inl rfl), ?_, ?_, ?_⟩
  · intro w hw hfresh
    rcases (hmark w).mp hw with rfl | hw
    · exact ⟨[w], .single, fun x hx => List.mem_singleton.mp hx ▸ hfresh⟩
    · rw [hw] at hfresh
      cases hfresh
  · intro w hw hfresh hne
    rcases (hmark w).mp hw with rfl | hw
    · exact absurd rfl hne
    · rw [hw] at hfresh
      cases hfresh
  · intro w hw
    cases hw

omit [DecidableEq V] in
theorem Growing.skip (h : Growing S v done s t)
    (hw : S.seen t w = true) : Growing S v (w :: done) s t := by
  refine ⟨h.new, h.mono, h.start, h.fresh, h.closed, fun x hx => ?_⟩
  rcases mem_cons.mp hx with rfl | hx
  · exact hw
  · exact h.passed x hx

omit [DecidableEq V] in
/-- A call of an adjacent vertex, taken into what the caller has passed. -/
theorem Growing.call {t' : σ} (hadj : w ∈ S.adj v)
    (h : Growing S v done s t) (h' : Grown S w t t') : Growing S v (w :: done) s t' := by
  refine ⟨h.new, fun x hx => h'.mono x (h.mono x hx), h'.mono v h.start, ?_, ?_, ?_⟩
  · intro x hx hfresh
    cases hxt : S.seen t x with
    | true => exact h.fresh x hxt hfresh
    | false =>
      -- the path starts with the edge from `v`
      obtain ⟨p, hp, hpath⟩ := h'.fresh x hx hxt
      obtain ⟨q, hq, hmem⟩ := (Path.snoc (Path.single : Path S.Adj v v [v]) hadj).append hp
      refine ⟨q, hq, fun y hy => ?_⟩
      have hunseen : ∀ y, S.seen t y = false → S.seen s y = false := by
        intro y hy
        by_contra hne
        rw [h.mono y (by simpa using hne)] at hy
        cases hy
      rcases (hmem y).mp hy with hy | hy
      · rcases mem_cons.mp hy with rfl | hy
        · exact hunseen _ (hpath _ hp.first_mem)
        · rw [List.mem_singleton.mp hy]
          exact h.new
      · exact hunseen y (hpath y hy)
  · intro x hx hfresh hne y hy
    cases hxt : S.seen t x with
    | true => exact h'.mono y (h.closed x hxt hfresh hne y hy)
    | false => exact h'.closed x hx hxt y hy
  · intro x hx
    rcases mem_cons.mp hx with rfl | hx
    · exact h'.start
    · exact h'.mono x (h.passed x hx)

theorem Growing.finish (h : Growing S v (S.adj v).reverse s t) : Grown S v s t := by
  refine ⟨h.mono, h.start, h.fresh, fun w hw hfresh x hx => ?_⟩
  by_cases hwv : w = v
  · subst hwv
    exact h.passed x (mem_reverse.mpr hx)
  · exact h.closed w hw hfresh hwv x hx

include hS in
theorem visit_grown (hnew : S.seen s v = false)
    (h : S.visit fuel p v s = some s') : Grown S v s s' :=
  visit_rule (P := fun _ _ _ => True) (Q := fun _ v s s' => Grown S v s s')
    (M := fun _ v done s t => Growing S v done s t)
    (fun _ _ _ _ hnew => growing_start hS hnew) (fun _ _ _ _ _ _ _ h hw => h.skip hw)
    (fun _ _ _ _ _ _ _ _ _ => trivial) (fun _ _ _ _ _ _ _ hw h _ h' => h.call hw h')
    (fun _ _ _ _ h => h.finish) trivial hnew h

include hS in
/-- A visit adds exactly what it can reach through nodes not seen before. -/
theorem visit_seen (hnew : S.seen s v = false)
    (h : S.visit fuel p v s = some s') : S.seen s' w = true ↔
      S.seen s w = true ∨ ∃ p, Path S.Adj v w p ∧ ∀ x ∈ p, S.seen s x = false := by
  have hg := visit_grown hS hnew h
  constructor
  · intro hw
    cases hsw : S.seen s w with
    | true => exact .inl rfl
    | false => exact .inr (hg.fresh w hw hsw)
  · rintro (hw | ⟨p, hp, hpath⟩)
    · exact hg.mono w hw
    · induction hp with
      | single => exact hg.start
      | snoc hq hadj ih =>
        have hprev := fun x hx => hpath x (mem_cons_of_mem _ hx)
        exact hg.closed _ (ih hprev) (hprev _ hq.last_mem) _ hadj

include hS in
/-- What a search from a list of roots has seen is what they reach. -/
theorem visitAll_seen {roots : List V} (hnew : ∀ v, S.seen s v = false)
    (h : S.visitAll fuel roots s = some s') :
    S.seen s' w = true ↔ ∃ r ∈ roots, Reaches S.Adj r w := by
  have hJ : (∀ r ∈ roots.reverse, S.seen s' r = true) ∧
      (∀ w, S.seen s' w = true → ∃ r ∈ roots, Reaches S.Adj r w) ∧
      ∀ w, S.seen s' w = true → ∀ x ∈ S.adj w, S.seen s' x = true := by
    refine each_rule (J := fun done t => (∀ r ∈ done, S.seen t r = true) ∧
      (∀ w, S.seen t w = true → ∃ r ∈ roots, Reaches S.Adj r w) ∧
      ∀ w, S.seen t w = true → ∀ x ∈ S.adj w, S.seen t x = true) ?_ ?_ ?_ h
    · rintro done r t _ ⟨hdone, hreach, hclosed⟩ hseen
      refine ⟨fun x hx => ?_, hreach, hclosed⟩
      rcases mem_cons.mp hx with rfl | hx
      · exact hseen
      · exact hdone x hx
    · rintro done r t t' hr ⟨hdone, hreach, hclosed⟩ hseen hvisit
      have hg := visit_grown hS hseen hvisit
      refine ⟨fun x hx => ?_, fun w hw => ?_, fun w hw x hx => ?_⟩
      · rcases mem_cons.mp hx with rfl | hx
        · exact hg.start
        · exact hg.mono x (hdone x hx)
      · cases hwt : S.seen t w with
        | true => exact hreach w hwt
        | false =>
          obtain ⟨p, hp, -⟩ := hg.fresh w hw hwt
          exact ⟨r, hr, p, hp⟩
      · cases hwt : S.seen t w with
        | true => exact hg.mono x (hclosed w hwt x hx)
        | false => exact hg.closed w hw hwt x hx
    · refine ⟨fun r hr => (by cases hr), fun w hw => ?_, fun w hw => ?_⟩
      · rw [hnew w] at hw
        cases hw
      · rw [hnew w] at hw
        cases hw
  obtain ⟨hroots, hreach, hclosed⟩ := hJ
  refine ⟨hreach w, ?_⟩
  rintro ⟨r, hr, p, hp⟩
  induction hp with
  | single => exact hroots _ (mem_reverse.mpr hr)
  | snoc _ hadj ih => exact hclosed _ ih _ hadj

/-! ## Invariants -/

/-- Where a node that is marked comes from. -/
def Origin (S : Search V σ) (roots : List V) (p : Option V) (v : V) (s : σ) : Prop :=
  match p with
  | none => v ∈ roots
  | some u => S.seen s u = true ∧ v ∈ S.adj u

include hS in
theorem visit_inv {Inv : σ → Prop} {roots : List V}
    (hmark : ∀ p v s, Inv s → S.seen s v = false → Origin S roots p v s → Inv (S.mark p v s))
    (hs : Inv s) (hp : Origin S roots p v s)
    (hnew : S.seen s v = false) (h : S.visit fuel p v s = some s') : Inv s' := by
  refine (visit_rule (P := fun p v s => Inv s ∧ Origin S roots p v s)
    (Q := fun _ v s s' => Inv s' ∧ Grown S v s s')
    (M := fun _ v done s t => Inv t ∧ Growing S v done s t)
    ?_ ?_ ?_ ?_ ?_ ⟨hs, hp⟩ hnew h).1
  · rintro p v s ⟨hs, hp⟩ hnew
    exact ⟨hmark p v s hs hnew hp, growing_start hS hnew⟩
  · rintro p v done w s t _ ⟨ht, hg⟩ hw
    exact ⟨ht, hg.skip hw⟩
  · rintro p v done w s t hadj ⟨ht, hg⟩ _
    exact ⟨ht, hg.start, hadj⟩
  · rintro p v done w s t t' hadj ⟨_, hg⟩ _ ⟨ht', hg'⟩
    exact ⟨ht', hg.call hadj hg'⟩
  · rintro p v s t ⟨ht, hg⟩
    exact ⟨ht, hg.finish⟩

include hS in
theorem visitAll_inv {Inv : σ → Prop} {roots : List V}
    (hmark : ∀ p v s, Inv s → S.seen s v = false → Origin S roots p v s → Inv (S.mark p v s))
    (hs : Inv s) (h : S.visitAll fuel roots s = some s') : Inv s' :=
  each_rule (J := fun _ t => Inv t) (fun _ _ _ _ ht _ => ht)
    (fun _ _ _ _ hr ht hnew hvisit => visit_inv hS hmark ht hr hnew hvisit) hs h

/-! ## The search ends -/

/-- What is left to be seen. -/
def unseen (S : Search V σ) (U : Finset V) (s : σ) : Finset V := U.filter fun v => S.seen s v = false

omit [DecidableEq V] in
theorem unseen_mono (h : ∀ w, S.seen s w = true → S.seen t w = true) :
    S.unseen U t ⊆ S.unseen U s := by
  intro x hx
  obtain ⟨hxU, hxt⟩ := mem_filter.mp hx
  refine mem_filter.mpr ⟨hxU, ?_⟩
  cases hxs : S.seen s x with
  | true =>
    rw [h x hxs] at hxt
    cases hxt
  | false => rfl

omit [DecidableEq V] in
theorem each_isSome {call : V → σ → Option σ} {n : Nat}
    (hcall : ∀ v ∈ U, ∀ s, S.seen s v = false → (S.unseen U s).card ≤ n →
      ∃ s', call v s = some s' ∧ (S.unseen U s').card ≤ n) :
    ∀ {vs : List V} {s : σ}, (∀ v ∈ vs, v ∈ U) → (S.unseen U s).card ≤ n →
      ∃ s', S.each call vs s = some s' := by
  intro vs
  induction vs with
  | nil => exact fun {s} _ _ => ⟨s, rfl⟩
  | cons v vs ih =>
    intro s hU hn
    have hrest := fun x hx => hU x (mem_cons_of_mem v hx)
    unfold each
    split
    · exact ih hrest hn
    · rename_i hseen
      obtain ⟨t, ht, hn'⟩ := hcall v (hU v mem_cons_self) s (Bool.not_eq_true _ ▸ hseen) hn
      rw [ht]
      exact ih hrest hn'

include hS in
theorem visit_isSome (hU : ∀ v ∈ U, ∀ w ∈ S.adj v, w ∈ U) :
    ∀ {p : Option V} {v : V} {s : σ}, v ∈ U → S.seen s v = false →
      (S.unseen U s).card ≤ fuel → ∃ s', S.visit fuel p v s = some s' := by
  induction fuel with
  | zero =>
    intro p v s hv hnew hn
    have hmem : v ∈ S.unseen U s := mem_filter.mpr ⟨hv, hnew⟩
    rw [card_eq_zero.mp (Nat.le_zero.mp hn)] at hmem
    cases hmem
  | succ fuel ih =>
    intro p v s hv hnew hn
    have hg := growing_start hS (p := p) hnew
    have hless : (S.unseen U (S.mark p v s)).card < (S.unseen U s).card := by
      refine card_lt_card ((ssubset_iff_of_subset (unseen_mono hg.mono)).mpr
        ⟨v, mem_filter.mpr ⟨hv, hnew⟩, fun hmem => ?_⟩)
      have := (mem_filter.mp hmem).2
      rw [hg.start] at this
      cases this
    unfold visit
    refine each_isSome (n := fuel) (fun w hw t hnew' hn' => ?_) (hU v hv) (by omega)
    obtain ⟨t', ht'⟩ := ih (p := some v) hw hnew' hn'
    exact ⟨t', ht', (card_le_card (unseen_mono (visit_grown hS hnew' ht').mono)).trans hn'⟩

include hS in
theorem visitAll_isSome (hU : ∀ v ∈ U, ∀ w ∈ S.adj v, w ∈ U)
    {roots : List V} (hroots : ∀ r ∈ roots, r ∈ U) (hn : U.card ≤ fuel) :
    ∃ s', S.visitAll fuel roots s = some s' := by
  refine each_isSome (U := U) (n := fuel) (fun r hr t hnew hn' => ?_) hroots
    ((card_filter_le _ _).trans hn)
  obtain ⟨t', ht'⟩ := visit_isSome hS hU (p := none) hr hnew hn'
  exact ⟨t', ht', (card_le_card (unseen_mono (visit_grown hS hnew ht').mono)).trans hn'⟩

end Seen

end Search

end Dfs
