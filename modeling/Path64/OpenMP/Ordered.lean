import Path64.OpenMP.Dispenser

/-! # Ordered regions

The threads of a team run an ordered loop: each gets ranges from
`__pmp_schedule_next`, and every iteration passes through one region
between `__ompc_ordered` and `__ompc_end_ordered`. A thread may enter
when `loop->now_serving` equals its ticket; on leaving it moves
`now_serving` to the next iteration and its ticket with it. Bounds,
tickets and `now_serving`, `int64_t`s, are exact integers. -/

namespace OpenMP

open Function Progression Interleaving

/-! ## Model -/

/-- Where a thread stands; `r` is its range and `i` its iteration. -/
inductive Phase where
  /-- In `__pmp_schedule_next`. -/
  | calling
  /-- In the body, before the region. -/
  | running (r : Handed) (i : Int)
  /-- In the spin loop of `__ompc_ordered`. -/
  | spinning (r : Handed) (i : Int)
  /-- In the region. -/
  | inside (r : Handed) (i : Int)
  /-- In `__ompc_end_ordered`, the assertion evaluated. -/
  | asserted (r : Handed) (i : Int)
  /-- `loop->now_serving` is read, but not yet moved. -/
  | serving (r : Handed) (i nowServing : Int)
  /-- `loop->now_serving` is moved, the thread's ticket is not. -/
  | moved (r : Handed) (i : Int)
  /-- In the body, behind the region. -/
  | behind (r : Handed) (i : Int)
  /-- Behind the loop. -/
  | left
  deriving DecidableEq

structure Member where
  phase : Phase
  ticketNumber : Int

/-- `entered` are the iterations entered, latest first. -/
structure OrderedState {teamSize : Nat} (d : Dispenser teamSize) where
  calls : d.State
  member : Fin teamSize → Member
  nowServing : Int
  entered : List Int
  failed : Bool

/-- The thread holds the region, until it has moved `now_serving`. -/
def Phase.InRegion : Phase → Prop
  | .inside .. | .asserted .. | .serving .. => True
  | _ => False

variable {teamSize : Nat} {d : Dispenser teamSize}

def OrderedState.setPhase (s : OrderedState d) (t : Fin teamSize) (p : Phase) : OrderedState d :=
  { s with member := update s.member t { s.member t with phase := p } }

/-- The iteration `i` of a range, if the loop over the range runs it. -/
def iterate (r : Handed) (i : Int) : Phase :=
  if Past r.inc i r.upper then .calling else .running r i

/-- The next atomic step of thread `t`; `inc` is `loop->inc`. -/
def orderedStep (d : Dispenser teamSize) (inc : Int) (t : Fin teamSize) (s : OrderedState d) :
    Option (OrderedState d) :=
  let ticket := (s.member t).ticketNumber
  match (s.member t).phase with
  | .calling =>
    match d.next t s.calls with
    | none => none
    | some (c, .busy) => some { s with calls := c }
    | some (c, .range r ticket) =>
      some { s with
        calls := c
        member := update s.member t ⟨iterate r r.lower, ticket⟩ }
    | some (c, .done) => some { s.setPhase t .left with calls := c }
  | .running r i =>
    if s.nowServing = ticket then
      some { s.setPhase t (.inside r i) with entered := i :: s.entered }
    else some (s.setPhase t (.spinning r i))
  | .spinning r i =>
    if s.nowServing = ticket then
      some { s.setPhase t (.inside r i) with entered := i :: s.entered }
    else some s
  | .inside r i =>
    some { s.setPhase t (.asserted r i) with
      failed := s.failed || decide (s.nowServing ≠ ticket) }
  | .asserted r i => some (s.setPhase t (.serving r i s.nowServing))
  | .serving r i nowServing =>
    some { s.setPhase t (.moved r i) with nowServing := nowServing + inc }
  | .moved r i =>
    some { s with member := update s.member t ⟨.behind r i, ticket + inc⟩ }
  | .behind r i => some (s.setPhase t (iterate r (i + r.inc)))
  | .left => none

/-- One step of any thread. -/
def OrderedTeamStep (d : Dispenser teamSize) (inc : Int) (s s' : OrderedState d) : Prop :=
  ∃ t, orderedStep d inc t s = some s'

/-- `__pmp_loop_alloc` lets the first iteration in first. -/
def orderedStart (d : Dispenser teamSize) (lower : Int) : OrderedState d where
  calls := d.start
  member := fun _ => ⟨.calling, 0⟩
  nowServing := lower
  entered := []
  failed := false

/-! ## The invariant -/

/-- The range that a thread works on. -/
def Phase.range : Phase → Option Handed
  | .running r _ | .spinning r _ | .inside r _ | .asserted r _ | .serving r _ _ | .moved r _
  | .behind r _ => some r
  | .calling | .left => none

/-- The iteration is one of the thread's range, its ticket that or the next one; inside it is
served. -/
def MemberOk (inc nowServing : Int) (hs : List Handed) (m : Member) : Prop :=
  match m.phase with
  | .calling | .left => True
  | .running r i | .spinning r i | .moved r i => r ∈ hs ∧ r.Has i ∧ m.ticketNumber = i
  | .inside r i | .asserted r i =>
    r ∈ hs ∧ r.Has i ∧ m.ticketNumber = i ∧ nowServing = i
  | .serving r i v =>
    r ∈ hs ∧ r.Has i ∧ m.ticketNumber = i ∧ nowServing = i ∧ v = i
  | .behind r i => r ∈ hs ∧ r.Has i ∧ m.ticketNumber = i + inc

/-- `hs` are the ranges handed out; `now_serving` is behind those entered, or at the last while a
thread is inside. -/
structure OrderedInv {l u inc : Int} (snd : Sound d l u inc) (hs : List Handed)
    (s : OrderedState d) : Prop where
  calls : snd.Inv s.calls hs
  member : ∀ t, MemberOk inc s.nowServing hs (s.member t)
  apart : ∀ t t' r r', t ≠ t' → (s.member t).phase.range = some r →
    (s.member t').phase.range = some r' → ∀ x, ¬ (r.Has x ∧ r'.Has x)
  held : (∃ t, (s.member t).phase.InRegion) →
    s.nowServing + inc = l + s.entered.length * inc
  free : (∀ t, ¬ (s.member t).phase.InRegion) →
    s.nowServing = l + s.entered.length * inc
  order : s.entered.reverse = slice l inc 0 s.entered.length
  within : ∀ x ∈ s.entered, InLoop l u inc x
  unfailed : s.failed = false

section Invariant

variable {l u inc : Int} {snd : Sound d l u inc} {hs : List Handed} {s s' : OrderedState d}
  {t : Fin teamSize}

variable {n i : Int} {m : Member} {hs' : List Handed} {r : Handed}

theorem MemberOk.region (h : MemberOk inc n hs m)
    (hreg : m.phase.InRegion) : ∃ r, m.phase.range = some r ∧ r ∈ hs ∧ r.Has n := by
  unfold MemberOk at h
  cases hp : m.phase with
  | inside r i =>
    rw [hp] at h
    exact ⟨r, rfl, h.1, h.2.2.2 ▸ h.2.1⟩
  | asserted r i =>
    rw [hp] at h
    exact ⟨r, rfl, h.1, h.2.2.2 ▸ h.2.1⟩
  | serving r i v =>
    rw [hp] at h
    exact ⟨r, rfl, h.1, h.2.2.2.1 ▸ h.2.1⟩
  | _ => rw [hp] at hreg; exact hreg.elim

theorem MemberOk.now {n' : Int} (h : MemberOk inc n hs m)
    (hreg : ¬ m.phase.InRegion) : MemberOk inc n' hs m := by
  unfold MemberOk at h ⊢
  cases hp : m.phase with
  | inside r i => rw [hp] at hreg; exact absurd trivial hreg
  | asserted r i => rw [hp] at hreg; exact absurd trivial hreg
  | serving r i v => rw [hp] at hreg; exact absurd trivial hreg
  | _ => rw [hp] at h; exact h

theorem MemberOk.grow (h : MemberOk inc n hs m)
    (hsub : ∀ r ∈ hs, r ∈ hs') : MemberOk inc n hs' m := by
  unfold MemberOk at h ⊢
  cases hp : m.phase with
  | calling => trivial
  | left => trivial
  | _ => rw [hp] at h; exact ⟨hsub _ h.1, h.2⟩

theorem MemberOk.range_mem (h : MemberOk inc n hs m) (hr : m.phase.range = some r) : r ∈ hs := by
  unfold MemberOk at h
  cases hp : m.phase with
  | calling => rw [hp] at hr; cases hr
  | left => rw [hp] at hr; cases hr
  | _ =>
    rw [hp] at h hr
    cases hr
    exact h.1

theorem OrderedInv.exclusive (h : OrderedInv snd hs s) {t t' : Fin teamSize}
    (ht : (s.member t).phase.InRegion) (ht' : (s.member t').phase.InRegion) : t = t' := by
  by_contra hne
  obtain ⟨r, hr, -, hhas⟩ := (h.member t).region ht
  obtain ⟨r', hr', -, hhas'⟩ := (h.member t').region ht'
  exact h.apart t t' r r' hne hr hr' s.nowServing ⟨hhas, hhas'⟩

theorem OrderedInv.move (h : OrderedInv snd hs s)
    (hcalls : snd.Inv s'.calls hs') (hsub : ∀ r ∈ hs, r ∈ hs')
    (hmember : s'.member = update s.member t m) (hok : MemberOk inc s.nowServing hs' m)
    (hreg : m.phase.InRegion ↔ (s.member t).phase.InRegion)
    (hrange : ∀ r, m.phase.range = some r → (s.member t).phase.range = some r ∨
      ∀ r' ∈ hs, ∀ x, ¬ (r.Has x ∧ r'.Has x))
    (hnow : s'.nowServing = s.nowServing) (hentered : s'.entered = s.entered)
    (hfailed : s'.failed = false) : OrderedInv snd hs' s' := by
  have hregion : ∀ t', (s'.member t').phase.InRegion ↔ (s.member t').phase.InRegion := by
    intro t'
    rw [hmember]
    by_cases ht : t' = t
    · rw [ht, update_self]; exact hreg
    · rw [update_of_ne ht]
  -- the range of the thread that moves, against that of any other thread
  have hnew : ∀ t' r r', t' ≠ t → m.phase.range = some r →
      (s.member t').phase.range = some r' → ∀ x, ¬ (r.Has x ∧ r'.Has x) := by
    intro t' r r' hne hr hr'
    rcases hrange r hr with hold | hfresh
    · exact h.apart t t' r r' (Ne.symm hne) hold hr'
    · exact hfresh r' ((h.member t').range_mem hr')
  refine ⟨hcalls, fun t' => ?_, ?_, ?_, ?_, ?_, ?_, hfailed⟩
  · rw [hnow, hmember]
    by_cases ht : t' = t
    · rw [ht, update_self]; exact hok
    · rw [update_of_ne ht]; exact (h.member t').grow hsub
  · intro t1 t2 r1 r2 hne h1 h2 x hx
    rw [hmember] at h1 h2
    by_cases ht1 : t1 = t
    · have ht2 : t2 ≠ t := fun h' => hne (ht1.trans h'.symm)
      rw [ht1, update_self] at h1
      rw [update_of_ne ht2] at h2
      exact hnew t2 r1 r2 ht2 h1 h2 x hx
    · rw [update_of_ne ht1] at h1
      by_cases ht2 : t2 = t
      · rw [ht2, update_self] at h2
        exact hnew t1 r2 r1 ht1 h2 h1 x hx.symm
      · rw [update_of_ne ht2] at h2
        exact h.apart t1 t2 r1 r2 hne h1 h2 x hx
  · rw [hnow, hentered]
    rintro ⟨t', ht'⟩
    exact h.held ⟨t', (hregion t').mp ht'⟩
  · rw [hnow, hentered]
    exact fun hall => h.free fun t' ht' => hall t' ((hregion t').mpr ht')
  · rw [hentered]; exact h.order
  · rw [hentered]; exact h.within

theorem OrderedInv.apart_same (h : OrderedInv snd hs s)
    (hrange : (s.member t).phase.range = m.phase.range) (t1 t2 : Fin teamSize) (r1 r2 : Handed)
    (hne : t1 ≠ t2) (h1 : (update s.member t m t1).phase.range = some r1)
    (h2 : (update s.member t m t2).phase.range = some r2) : ∀ x, ¬ (r1.Has x ∧ r2.Has x):= by
  have hsame : ∀ t', (update s.member t m t').phase.range = (s.member t').phase.range := by
    intro t'
    by_cases ht : t' = t
    · rw [ht, update_self, hrange]
    · rw [update_of_ne ht]
  rw [hsame] at h1 h2
  exact h.apart t1 t2 r1 r2 hne h1 h2

/-- A thread enters the ordered region when its ticket is served: every earlier iteration has
left. -/
theorem OrderedInv.enter (h : OrderedInv snd hs s)
    (hrange : (s.member t).phase.range = some r) (hreg : ¬ (s.member t).phase.InRegion)
    (hr : r ∈ hs) (hi : r.Has i) (hticket : (s.member t).ticketNumber = i)
    (hserved : s.nowServing = i) :
    OrderedInv snd hs { s.setPhase t (.inside r i) with entered := i :: s.entered } := by
  -- a thread in the region would work on the same iteration
  have hfree : ∀ t', ¬ (s.member t').phase.InRegion := by
    intro t' ht'
    obtain ⟨r', hr', -, hhas'⟩ := (h.member t').region ht'
    have hne : t ≠ t' := fun heq => hreg (heq ▸ ht')
    exact h.apart t t' r r' hne hrange hr' s.nowServing ⟨hserved ▸ hi, hhas'⟩
  have hnow := h.free hfree
  refine ⟨h.calls, fun t' => ?_, ?_, fun _ => ?_, fun hall => ?_, ?_, ?_, h.unfailed⟩
  · show MemberOk inc s.nowServing hs (update s.member t _ t')
    by_cases ht : t' = t
    · rw [ht, update_self]
      exact ⟨hr, hi, hticket, hserved⟩
    · rw [update_of_ne ht]
      exact h.member t'
  · exact h.apart_same (by rw [hrange]; rfl)
  · show s.nowServing + inc = l + ((s.entered.length + 1 : Nat) : Int) * inc
    rw [hnow, Nat.cast_add, Nat.cast_one]
    ring
  · refine absurd ?_ (hall t)
    show (update s.member t _ t).phase.InRegion
    rw [update_self]
    exact trivial
  · show (i :: s.entered).reverse = slice l inc 0 (s.entered.length + 1)
    rw [List.reverse_cons, h.order, slice_succ_last, zero_add, ← hnow, hserved]
  · intro x hx
    rcases List.mem_cons.mp hx with rfl | hx
    · exact ((snd.parts h.calls).within r hr).2 x hi
    · exact h.within x hx

theorem OrderedInv.serve {v : Int} (h : OrderedInv snd hs s)
    (hphase : (s.member t).phase = .serving r i v) :
    OrderedInv snd hs { s.setPhase t (.moved r i) with nowServing := v + inc } := by
  have hreg : (s.member t).phase.InRegion := by rw [hphase]; exact trivial
  have hok := h.member t
  unfold MemberOk at hok
  rw [hphase] at hok
  obtain ⟨hr, hi, hticket, hserved, rfl⟩ := hok
  have hothers : ∀ t', t' ≠ t → ¬ (s.member t').phase.InRegion :=
    fun t' hne ht' => hne (h.exclusive ht' hreg)
  have hgone : ∀ t', ¬ (update s.member t
      { s.member t with phase := .moved r v } t').phase.InRegion := by
    intro t'
    by_cases ht : t' = t
    · rw [ht, update_self]; exact not_false
    · rw [update_of_ne ht]; exact hothers t' ht
  refine ⟨h.calls, fun t' => ?_, ?_, fun hex => ?_, fun _ => ?_, h.order, h.within, h.unfailed⟩
  · show MemberOk inc _ hs (update s.member t _ t')
    by_cases ht : t' = t
    · rw [ht, update_self]
      exact ⟨hr, hi, hticket⟩
    · rw [update_of_ne ht]
      exact (h.member t').now (hothers t' ht)
  · exact h.apart_same (by rw [hphase]; rfl)
  · obtain ⟨t', ht'⟩ := hex
    exact absurd ht' (hgone t')
  · show v + inc = l + (s.entered.length : Int) * inc
    rw [← h.held ⟨t, hreg⟩, hserved]

theorem iterate_ok {ticket : Int} (hr : r ∈ hs)
    (hnext : ∃ k : Nat, i = r.lower + k * r.inc) (hticket : ticket = i) :
    MemberOk inc n hs ⟨iterate r i, ticket⟩ := by
  obtain ⟨k, hk⟩ := hnext
  unfold iterate
  by_cases hpast : Past r.inc i r.upper
  · rw [if_pos hpast]
    exact trivial
  · rw [if_neg hpast]
    exact ⟨hr, ⟨k, hk, hpast⟩, hticket⟩

theorem iterate_range {r' : Handed} (h : (iterate r i).range = some r') : r' = r := by
  unfold iterate at h
  split at h
  · cases h
  · cases h
    rfl

theorem iterate_not_inRegion (r : Handed) (i : Int) : ¬ (iterate r i).InRegion := by
  unfold iterate
  split <;> exact not_false

/-- One step of any member keeps the order. -/
theorem OrderedInv.step (h : OrderedInv snd hs s) (hstep : orderedStep d inc t s = some s') :
    ∃ hs', OrderedInv snd hs' s' := by
  have hok := h.member t
  unfold MemberOk at hok
  unfold orderedStep at hstep
  cases hphase : (s.member t).phase with
  | calling =>
    simp only [hphase] at hstep
    cases hcall : d.next t s.calls with
    | none => simp only [hcall] at hstep; cases hstep
    | some result =>
      obtain ⟨c, rep⟩ := result
      have hsound := snd.step h.calls hcall
      simp only [hcall] at hstep
      cases rep with
      | busy =>
        simp only [Option.some.injEq] at hstep
        subst hstep
        refine ⟨hs, h.move hsound (fun _ hr => hr) (update_eq_self t s.member).symm
          (h.member t) Iff.rfl (fun r hr => .inl hr) rfl rfl h.unfailed⟩
      | range r ticket =>
        simp only [Option.some.injEq] at hstep
        subst hstep
        obtain ⟨rfl, hgiven⟩ := hsound
        have hfresh := (List.pairwise_cons.mp (snd.parts hgiven).disjoint).1
        refine ⟨r :: hs, h.move hgiven (fun _ hr => List.mem_cons_of_mem _ hr) rfl
          (iterate_ok List.mem_cons_self ⟨0, by simp⟩ rfl) ?_ (fun r' hr' => .inr ?_)
          rfl rfl h.unfailed⟩
        · rw [hphase]
          exact iff_of_false (iterate_not_inRegion _ _) not_false
        · rw [iterate_range hr']
          exact hfresh
      | done =>
        simp only [Option.some.injEq] at hstep
        subst hstep
        refine ⟨hs, h.move hsound (fun _ hr => hr) rfl trivial ?_ (fun r hr => ?_)
          rfl rfl h.unfailed⟩
        · rw [hphase]
          exact Iff.rfl
        · cases hr
  | running r i =>
    -- is the ticket served already?
    rw [hphase] at hok
    obtain ⟨hr, hi, hticket⟩ := hok
    simp only [hphase] at hstep
    split at hstep
    · next hserved =>
      simp only [Option.some.injEq] at hstep
      subst hstep
      exact ⟨hs, h.enter (by rw [hphase]; rfl) (by rw [hphase]; exact not_false) hr hi hticket
        (hserved.trans hticket)⟩
    · simp only [Option.some.injEq] at hstep
      subst hstep
      exact ⟨hs, h.move h.calls (fun _ hr => hr) rfl ⟨hr, hi, hticket⟩ (by rw [hphase]; rfl)
        (fun r' hr' => .inl (by rw [hphase]; exact hr')) rfl rfl h.unfailed⟩
  | spinning r i =>
    -- the spin
    rw [hphase] at hok
    obtain ⟨hr, hi, hticket⟩ := hok
    simp only [hphase] at hstep
    split at hstep
    · next hserved =>
      simp only [Option.some.injEq] at hstep
      subst hstep
      exact ⟨hs, h.enter (by rw [hphase]; rfl) (by rw [hphase]; exact not_false) hr hi hticket
        (hserved.trans hticket)⟩
    · simp only [Option.some.injEq] at hstep
      subst hstep
      exact ⟨hs, h⟩
  | inside r i =>
    rw [hphase] at hok
    simp only [hphase, Option.some.injEq] at hstep
    subst hstep
    refine ⟨hs, h.move h.calls (fun _ hr => hr) rfl hok (by rw [hphase]; rfl)
      (fun r' hr' => .inl (by rw [hphase]; exact hr')) rfl rfl ?_⟩
    -- the assertion of `__ompc_end_ordered`
    show (s.failed || decide (s.nowServing ≠ (s.member t).ticketNumber)) = false
    rw [h.unfailed, hok.2.2.2, hok.2.2.1]
    simp
  | asserted r i =>
    rw [hphase] at hok
    obtain ⟨hr, hi, hticket, hserved⟩ := hok
    simp only [hphase, Option.some.injEq] at hstep
    subst hstep
    exact ⟨hs, h.move h.calls (fun _ hr => hr) rfl ⟨hr, hi, hticket, hserved, hserved⟩
      (by rw [hphase]; rfl) (fun r' hr' => .inl (by rw [hphase]; exact hr')) rfl rfl
      h.unfailed⟩
  | serving r i v =>
    -- the counter is stored
    simp only [hphase, Option.some.injEq] at hstep
    subst hstep
    exact ⟨hs, h.serve hphase⟩
  | moved r i =>
    rw [hphase] at hok
    obtain ⟨hr, hi, hticket⟩ := hok
    simp only [hphase, Option.some.injEq] at hstep
    subst hstep
    exact ⟨hs, h.move h.calls (fun _ hr => hr) rfl ⟨hr, hi, by rw [hticket]⟩
      (by rw [hphase]; rfl) (fun r' hr' => .inl (by rw [hphase]; exact hr')) rfl rfl
      h.unfailed⟩
  | behind r i =>
    rw [hphase] at hok
    obtain ⟨hr, ⟨k, hk, -⟩, hticket⟩ := hok
    have hinc : r.inc = inc := ((snd.parts h.calls).within r hr).1
    simp only [hphase, Option.some.injEq] at hstep
    subst hstep
    refine ⟨hs, h.move h.calls (fun _ hr => hr) rfl
      (iterate_ok hr ⟨k + 1, ?_⟩ (by rw [hticket, hinc])) ?_ (fun r' hr' => .inl ?_)
      rfl rfl h.unfailed⟩
    · rw [hk, Nat.cast_add, Nat.cast_one]
      ring
    · rw [hphase]
      exact iff_of_false (iterate_not_inRegion _ _) not_false
    · rw [hphase, iterate_range hr']
      rfl
  | left => simp only [hphase] at hstep; cases hstep

theorem orderedStart_inv (snd : Sound d l u inc) : OrderedInv snd [] (orderedStart d l) := by
  refine ⟨snd.start, fun _ => trivial, fun _ _ _ _ _ h => ?_, fun ⟨_, h⟩ => h.elim, fun _ => ?_,
    rfl, fun x hx => absurd hx List.not_mem_nil, rfl⟩
  · cases h
  · show l = l + ((0 : Nat) : Int) * inc
    rw [Nat.cast_zero, zero_mul, add_zero]

theorem ordered_inv_of_run (snd : Sound d l u inc) {k : Nat}
    (hrun : Run (OrderedTeamStep d inc) k (orderedStart d l) s) : ∃ hs, OrderedInv snd hs s:= by
  have hstep : ∀ s s' : OrderedState d, (∃ hs, OrderedInv snd hs s) →
      OrderedTeamStep d inc s s' → ∃ hs, OrderedInv snd hs s' := by
    rintro s s' ⟨hs, h⟩ ⟨t, ht⟩
    exact h.step ht
  exact hrun.inv hstep ⟨[], orderedStart_inv snd⟩

end Invariant

/-! ## Every interleaving -/

/-- The steps of the given threads, one after the other. -/
def runOrdered (d : Dispenser teamSize) (inc : Int) (ts : List (Fin teamSize))
    (s : OrderedState d) : Option (OrderedState d) :=
  ts.foldlM (fun s t => orderedStep d inc t s) s

/-- Two threads that share `10, 7, 4, 1` in chunks of 1. -/
def twoDown : Dispenser 2 :=
  dispenser ⟨1, 1000, by decide, by decide⟩ false .dynamic 2 10 0 (-3) 1 1

end OpenMP
