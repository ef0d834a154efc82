import Path64.Bdce.Transfer

/-! # Marking the live bits of a tree

`Mark_tree_bits_live` walks a tree from its root and adds to each node
the bits that are live there; at a variable it goes on with its
definition. Nodes are shared, the sets only grow, and a node is left
early when a visit brings nothing new. Every run of such visits keeps
that the operands of a node have the bits that the masks of `Transfer`
ask for. -/

namespace Bdce

open BitMask

/-! ## Model -/

/-- `_livebits`, `_usecnt` and the `Live_stmt` flags of the definitions. -/
structure State where
  livebits : Expr → BitVec 64
  usecnt : Expr → Nat
  liveStmt : Expr → Bool

def State.init : State :=
  { livebits := fun _ => 0, usecnt := fun _ => 0, liveStmt := fun _ => false }

def State.incUsecnt (st : State) (e : Expr) : State :=
  { st with usecnt := fun x => if x = e ∧ st.usecnt x < 2 then st.usecnt x + 1 else st.usecnt x }

def State.unionLivebits (st : State) (e : Expr) (live : BitVec 64) : State :=
  { st with livebits := fun x => if x = e then st.livebits x ||| live else st.livebits x }

def State.moreBitsLive (st : State) (e : Expr) (live : BitVec 64) : Bool :=
  live &&& ~~~st.livebits e != 0

/-- `Set_live_stmt` on the definition of the variable `e`. -/
def State.setLiveStmt (st : State) (e : Expr) : State :=
  { st with liveStmt := fun x => if x = e then true else st.liveStmt x }

/-- The start of a visit: up to two uses are counted. -/
def State.enter (st : State) (e : Expr) (stmtVisit : Bool) : Bool × State :=
  if stmtVisit then
    if st.usecnt e < 2 then (true, st.incUsecnt e) else (false, st)
  else (false, st)

def Expr.isPreg : Expr → Bool
  | .var v => v.preg
  | .defVar v _ => v.preg
  | _ => false

/-- The bits of the right hand side that become live with the whole variable. -/
def storeBits (v : Var) (rhs : Expr) (lhsBits : BitVec 64) : BitVec 64 :=
  if v.preg then
    if rhs.isPreg then lhsBits else bitsInResult rhs
  else bitsInResult rhs &&& bitsInType v.ty.dsctyp

/-- The operators whose second operand is visited first. -/
def BinOp.kid1First : BinOp → Bool
  | .bitwise k _ => k != .bxor
  | .shift _ _ | .rrotate _ => true
  | _ => false

/-- `Mark_tree_bits_live`, with what it calls at a variable. -/
def markTreeBitsLive (copyPropagate : Bool) : Expr → BitVec 64 → Bool → State → State
  | .const c, live, stmtVisit, st =>
    (st.enter (.const c) stmtVisit).2.unionLivebits (.const c) live
  | .lda t id, live, stmtVisit, st =>
    (st.enter (.lda t id) stmtVisit).2.unionLivebits (.lda t id) live
  | .var v, live, stmtVisit, st =>
    let newLive := v.live live
    let bits := if v.bits = newLive then v.bits else newLive &&& v.bits
    let st := if stmtVisit then st.incUsecnt (.var v) else st
    if st.moreBitsLive (.var v) bits then st.unionLivebits (.var v) bits else st
  | .defVar v rhs, live, stmtVisit, st =>
    let e := Expr.defVar v rhs
    let newLive := v.live live
    let st := if stmtVisit then st.incUsecnt e else st
    if v.bits = newLive then
      if st.moreBitsLive e v.bits then
        let st := st.unionLivebits e v.bits
        if st.liveStmt e then st
        else
          let st := st.setLiveStmt e
          markTreeBitsLive copyPropagate rhs (storeBits v rhs (st.livebits e)) copyPropagate st
      else st
    else
      let bits := newLive &&& v.bits
      if st.moreBitsLive e bits then
        let stmtVisit := copyPropagate && st.livebits e == 0
        markTreeBitsLive copyPropagate rhs bits stmtVisit (st.unionLivebits e bits)
      else st
  | .iload ty pointer mem base, live, stmtVisit, st =>
    let e := Expr.iload ty pointer mem base
    let r := st.enter e stmtVisit
    let visitAll := r.1 || r.2.livebits e == 0
    let st := if visitAll then markTreeBitsLive copyPropagate base pointer.bits r.1 r.2 else r.2
    let newLive := ty.live live
    if st.moreBitsLive e newLive then st.unionLivebits e newLive else st
  | .un op x, live, stmtVisit, st =>
    let e := Expr.un op x
    let r := st.enter e stmtVisit
    let visitAll := r.1 || r.2.livebits e == 0
    let live := op.trim live
    if r.1 || r.2.moreBitsLive e live then
      let st := r.2.unionLivebits e live
      if op.gated && !visitAll then st
      else markTreeBitsLive copyPropagate x (op.kidBits (st.livebits e)) r.1 st
    else r.2
  | .bin op x y, live, stmtVisit, st =>
    let e := Expr.bin op x y
    let r := st.enter e stmtVisit
    let visitAll := r.1 || r.2.livebits e == 0
    let live := op.trim live
    if r.1 || r.2.moreBitsLive e live then
      let st := r.2.unionLivebits e live
      let bits := if op.usesCall then live else st.livebits e
      if op.gated && !visitAll then st
      else if op.kid1First then
        markTreeBitsLive copyPropagate x (op.kidBits0 y bits) r.1
          (markTreeBitsLive copyPropagate y (op.kidBits1 x bits) r.1 st)
      else
        markTreeBitsLive copyPropagate y (op.kidBits1 x bits) r.1
          (markTreeBitsLive copyPropagate x (op.kidBits0 y bits) r.1 st)
    else r.2
  | .select dtyp descB c x y, live, stmtVisit, st =>
    let e := Expr.select dtyp descB c x y
    let r := st.enter e stmtVisit
    if r.1 || r.2.moreBitsLive e live then
      let st := r.2.unionLivebits e live
      let bits := st.livebits e &&& dtyp.bits
      markTreeBitsLive copyPropagate y bits r.1
        (markTreeBitsLive copyPropagate x bits r.1
          (markTreeBitsLive copyPropagate c (bitsInType (selectDesc dtyp descB)) r.1 st))
    else r.2

section
-- derives the equations
attribute [local simp] markTreeBitsLive
end

/-- A call of `Mark_tree_bits_live` by the phase. -/
structure Call where
  tree : Expr
  live : BitVec 64
  stmtVisit : Bool

/-- The state after the calls of a phase. -/
def markAll (copyPropagate : Bool) (calls : List Call) : State :=
  calls.foldl (fun st c => markTreeBitsLive copyPropagate c.tree c.live c.stmtVisit st) State.init

/-! ## What a visit leaves behind -/

/-- The bits that a visit with these live bits adds to the node itself. -/
def marked : Expr → BitVec 64 → BitVec 64
  | .const _, live | .lda _ _, live => live
  | .var v, live | .defVar v _, live => v.live live &&& v.bits
  | .iload ty _ _ _, live => ty.live live
  | .un op _, live => op.trim live
  | .bin op _ _, live => op.trim live
  | .select _ _ _ _ _, live => live

/-- The bits of a right hand side that its variable can hold. -/
def heldBits (v : Var) (rhs : Expr) : BitVec 64 :=
  bitsInResult rhs &&& bitsInType v.ty.dsctyp

/-- The operands of a node have the bits that its live bits ask for. -/
def Closed (st : State) : Expr → Prop
  | .const _ | .lda _ _ | .var _ => True
  | .defVar v rhs =>
    Sub (marked rhs (st.livebits (.defVar v rhs) &&& heldBits v rhs)) (st.livebits rhs) ∧
    (st.liveStmt (.defVar v rhs) = true → Sub (marked rhs (heldBits v rhs)) (st.livebits rhs))
  | .iload ty pointer mem base =>
    st.livebits (.iload ty pointer mem base) ≠ 0 →
      Sub (marked base pointer.bits) (st.livebits base)
  | .un op x =>
    st.livebits (.un op x) ≠ 0 →
      Sub (marked x (op.kidBits (st.livebits (.un op x)))) (st.livebits x)
  | .bin op x y =>
    st.livebits (.bin op x y) ≠ 0 →
      Sub (marked x (op.kidBits0 y (st.livebits (.bin op x y)))) (st.livebits x) ∧
      Sub (marked y (op.kidBits1 x (st.livebits (.bin op x y)))) (st.livebits y)
  | .select dtyp descB c x y =>
    st.livebits (.select dtyp descB c x y) ≠ 0 →
      Sub (marked c (bitsInType (selectDesc dtyp descB))) (st.livebits c) ∧
      Sub (marked x (st.livebits (.select dtyp descB c x y) &&& dtyp.bits)) (st.livebits x) ∧
      Sub (marked y (st.livebits (.select dtyp descB c x y) &&& dtyp.bits)) (st.livebits y)

theorem additive_marked (e : Expr) : Additive (marked e) := by
  cases e with
  | const c => exact additive_id
  | lda t id => exact additive_id
  | var v => exact (additive_varLive v).and _
  | defVar v rhs => exact (additive_varLive v).and _
  | iload ty pointer mem base => exact additive_loadLive ty
  | un op x => exact additive_unTrim op
  | bin op x y => exact additive_binTrim op
  | select dtyp descB c x y => exact additive_id

section

variable (st : State) (e : Expr)
include st e

theorem enter_livebits (sv : Bool) : (st.enter e sv).2.livebits = st.livebits:= by
  unfold State.enter
  split_ifs <;> rfl

theorem enter_liveStmt (sv : Bool) : (st.enter e sv).2.liveStmt = st.liveStmt:= by
  unfold State.enter
  split_ifs <;> rfl

@[simp] theorem unionLivebits_self (live : BitVec 64) :
    (st.unionLivebits e live).livebits e = st.livebits e ||| live := by
  simp [State.unionLivebits]

end

variable {x base y c : Expr} {st' : State} {n : Nat} {ty : LoadType} {pointer : Rtype} {op : UnOp}
  {descB : Bool} {D a b : BitVec 64}

@[simp] theorem unionLivebits_ne (st : State) {e : Expr} (live : BitVec 64) (h : x ≠ e) :
    (st.unionLivebits e live).livebits x = st.livebits x := by
  simp [State.unionLivebits, h]

@[simp] theorem unionLivebits_liveStmt (st : State) (e : Expr) (live : BitVec 64) :
    (st.unionLivebits e live).liveStmt = st.liveStmt := rfl

theorem sub_of_not_moreBitsLive {st : State} {e : Expr} {live : BitVec 64}
    (h : st.moreBitsLive e live = false) : Sub live (st.livebits e) := by
  rw [sub_iff_and_not_eq_zero]
  simpa [State.moreBitsLive] using h

theorem unionLivebits_mono (st : State) (e : Expr) (live : BitVec 64) (x : Expr) :
    Sub (st.livebits x) ((st.unionLivebits e live).livebits x) := by
  by_cases h : x = e
  · subst h
    rw [unionLivebits_self]
    exact sub_or_left _ _
  · rw [unionLivebits_ne st live h]
    exact Sub.refl _

theorem Expr.ne_of_size_lt {e : Expr} (h : x.size < e.size) : x ≠ e := by
  rintro rfl
  exact Nat.lt_irrefl _ h

theorem Closed.grow {st : State} {e : Expr} (h : Closed st e)
    (hmono : ∀ x, Sub (st.livebits x) (st'.livebits x))
    (hlive : st'.livebits e = st.livebits e) (hstmt : st'.liveStmt e = st.liveStmt e) :
    Closed st' e := by
  cases e with
  | const c => trivial
  | lda t id => trivial
  | var v => trivial
  | defVar v rhs =>
    simp only [Closed] at h ⊢
    rw [hlive, hstmt]
    exact ⟨h.1.trans (hmono _), fun hs => (h.2 hs).trans (hmono _)⟩
  | iload ty pointer mem base =>
    simp only [Closed] at h ⊢
    rw [hlive]
    exact fun hne => (h hne).trans (hmono _)
  | un op x =>
    simp only [Closed] at h ⊢
    rw [hlive]
    exact fun hne => (h hne).trans (hmono _)
  | bin op x y =>
    simp only [Closed] at h ⊢
    rw [hlive]
    exact fun hne => ⟨(h hne).1.trans (hmono _), (h hne).2.trans (hmono _)⟩
  | select dtyp descB c x y =>
    simp only [Closed] at h ⊢
    rw [hlive]
    exact fun hne => ⟨(h hne).1.trans (hmono _), (h hne).2.1.trans (hmono _),
      (h hne).2.2.trans (hmono _)⟩

/-- Below `n` nodes the sets grow, larger trees keep theirs, closed nodes stay closed. -/
structure Pass (n : Nat) (st st' : State) : Prop where
  mono : ∀ x, Sub (st.livebits x) (st'.livebits x)
  frame : ∀ x, n < x.size → st'.livebits x = st.livebits x
  stmts : ∀ x, n < x.size → st'.liveStmt x = st.liveStmt x
  closed : ∀ x, Closed st x → Closed st' x

theorem Pass.trans {n : Nat} {st st1 st2 : State} (h1 : Pass n st st1) (h2 : Pass n st1 st2) :
    Pass n st st2 where
  mono x := (h1.mono x).trans (h2.mono x)
  frame x hx := (h2.frame x hx).trans (h1.frame x hx)
  stmts x hx := (h2.stmts x hx).trans (h1.stmts x hx)
  closed x hx := h2.closed x (h1.closed x hx)

theorem Pass.weaken {m : Nat} {st : State} (h : Pass n st st') (hle : n ≤ m) : Pass m st st' where
  mono := h.mono
  frame x hx := h.frame x (by omega)
  stmts x hx := h.stmts x (by omega)
  closed := h.closed

theorem Pass.of_eq {st : State} (hlive : st'.livebits = st.livebits)
    (hstmt : st'.liveStmt = st.liveStmt) : Pass n st st' where
  mono x := by
    rw [hlive]
    exact Sub.refl _
  frame x _ := by rw [hlive]
  stmts x _ := by rw [hstmt]
  closed x hx :=
    hx.grow (fun y => by rw [hlive]; exact Sub.refl _) (by rw [hlive]) (by rw [hstmt])

theorem Pass.enter {n : Nat} (st : State) (e : Expr) (sv : Bool) : Pass n st (st.enter e sv).2:=
  Pass.of_eq (enter_livebits st e sv) (enter_liveStmt st e sv)

theorem Pass.node {e : Expr} {live : BitVec 64} {st : State} (hn : n < e.size)
    (hpass : Pass n (st.unionLivebits e live) st')
    (hclosed : st'.livebits e = st.livebits e ||| live → Closed st e → Closed st' e) :
    Pass e.size st st' where
  mono x := (unionLivebits_mono st e live x).trans (hpass.mono x)
  frame x hx := by
    rw [hpass.frame x (by omega), unionLivebits_ne st live (Expr.ne_of_size_lt hx).symm]
  stmts x hx := by
    rw [hpass.stmts x (by omega), unionLivebits_liveStmt]
  closed x hx := by
    by_cases hne : x = e
    · subst hne
      exact hclosed (by rw [hpass.frame x hn, unionLivebits_self]) hx
    · apply hpass.closed
      exact hx.grow (unionLivebits_mono st e live) (unionLivebits_ne st live hne) rfl

/-- What a call of `Mark_tree_bits_live` does. -/
structure Marks (e : Expr) (live : BitVec 64) (st st' : State) : Prop where
  pass : Pass e.size st st'
  self : Sub (marked e live) (st'.livebits e)

theorem Expr.size_pos (e : Expr) : 0 < e.size := by
  cases e <;> simp [Expr.size]

theorem Pass.leaf {e : Expr} {live : BitVec 64} (st : State)
    (hclosed : ∀ st', Closed st' e) : Pass e.size st (st.unionLivebits e live) :=
  Pass.node e.size_pos (Pass.of_eq rfl rfl) (fun _ _ => hclosed _)

theorem var_bits_eq (v : Var) (live : BitVec 64) :
    (if v.bits = v.live live then v.bits else v.live live &&& v.bits) = v.live live &&& v.bits := by
  by_cases h : v.bits = v.live live
  · rw [if_pos h, ← h, BitVec.and_self]
  · rw [if_neg h]

theorem heldBits_sub_storeBits (v : Var) (rhs : Expr) {lhsBits : BitVec 64}
    (h : Sub v.bits lhsBits) : Sub (heldBits v rhs) (storeBits v rhs lhsBits) := by
  unfold storeBits heldBits
  by_cases hp : v.preg = true
  · rw [if_pos hp]
    by_cases hr : rhs.isPreg = true
    · rw [if_pos hr]
      refine Sub.trans ?_ h
      intro i hi
      have hi64 : i < 64 := BitVec.lt_of_getLsbD hi
      unfold Var.bits
      split_ifs
      · rw [BitVec.getLsbD_allOnes, decide_eq_true hi64]
      · simpa [bitsInType, Mtype.size] using hi64
    · rw [if_neg hr]
      exact and_sub_left _ _
  · rw [if_neg hp]
    exact Sub.refl _

/-! ## Every run keeps the nodes closed -/

section Visits

variable {copyPropagate : Bool}

/-- What the induction over the tree gives for an operand. -/
def MarksAll (copyPropagate : Bool) (e : Expr) : Prop :=
  ∀ (live : BitVec 64) (sv : Bool) (st : State),
    Marks e live st (markTreeBitsLive copyPropagate e live sv st)

theorem marks_var (v : Var) : MarksAll copyPropagate (.var v) := by
  intro live sv st
  simp only [markTreeBitsLive, var_bits_eq]
  generalize hst : (if sv then st.incUsecnt (.var v) else st) = st1
  have hpass : Pass (Expr.var v).size st st1 := by
    rw [← hst]
    cases sv <;> exact Pass.of_eq rfl rfl
  cases hmore : st1.moreBitsLive (.var v) (v.live live &&& v.bits) with
  | true =>
    rw [if_pos rfl]
    refine ⟨hpass.trans (Pass.leaf st1 (fun _ => trivial)), ?_⟩
    rw [unionLivebits_self]
    exact sub_or_right _ _
  | false =>
    rw [if_neg (by simp)]
    exact ⟨hpass, sub_of_not_moreBitsLive hmore⟩

section

variable {v : Var} {rhs : Expr} (ih : MarksAll copyPropagate rhs)
include ih

/-- The pass over a definition: the bits not yet live are added, and the right hand side is marked
only if there are any. -/
theorem marks_entire (st : State) : Pass (Expr.defVar v rhs).size st
      (if (st.unionLivebits (.defVar v rhs) v.bits).liveStmt (.defVar v rhs) then
        st.unionLivebits (.defVar v rhs) v.bits
      else
        markTreeBitsLive copyPropagate rhs
          (storeBits v rhs
            (((st.unionLivebits (.defVar v rhs) v.bits).setLiveStmt (.defVar v rhs)).livebits
              (.defVar v rhs)))
          copyPropagate ((st.unionLivebits (.defVar v rhs) v.bits).setLiveStmt (.defVar v rhs))) := by
  have hlt : rhs.size < (Expr.defVar v rhs).size := by simp [Expr.size]
  by_cases hs : (st.unionLivebits (.defVar v rhs) v.bits).liveStmt (.defVar v rhs) = true
  · -- the right hand side was marked when the definition became live
    rw [if_pos hs]
    apply Pass.node (Expr.size_pos _) (Pass.of_eq rfl rfl)
    intro _ hc
    have hheld := hc.2 hs
    have hne := Expr.ne_of_size_lt hlt
    refine ⟨?_, fun _ => ?_⟩
    · rw [unionLivebits_ne st _ hne]
      exact ((additive_marked rhs).mono (and_sub_right _ _)).trans hheld
    · rw [unionLivebits_ne st _ hne]
      exact hheld
  · rw [if_neg hs]
    generalize hbits : storeBits v rhs _ = bits
    have hsub : Sub (heldBits v rhs) bits := by
      rw [← hbits]
      apply heldBits_sub_storeBits
      show Sub v.bits ((st.unionLivebits (.defVar v rhs) v.bits).livebits (.defVar v rhs))
      rw [unionLivebits_self]
      exact sub_or_right _ _
    have hm := ih bits copyPropagate
      ((st.unionLivebits (.defVar v rhs) v.bits).setLiveStmt (.defVar v rhs))
    have hheld : Sub (marked rhs (heldBits v rhs)) _ :=
      ((additive_marked rhs).mono hsub).trans hm.self
    refine
      { mono := fun x => (unionLivebits_mono st _ _ x).trans (hm.pass.mono x)
        frame := ?_, stmts := ?_, closed := ?_ }
    · intro x hx
      have hne := (Expr.ne_of_size_lt hx).symm
      rw [hm.pass.frame x (by omega)]
      exact unionLivebits_ne st _ hne
    · intro x hx
      have hne := (Expr.ne_of_size_lt hx).symm
      rw [hm.pass.stmts x (by omega)]
      simp [State.setLiveStmt, hne]
    · intro x hx
      by_cases hne : x = .defVar v rhs
      · subst hne
        exact ⟨((additive_marked rhs).mono (and_sub_right _ _)).trans hheld, fun _ => hheld⟩
      · apply hm.pass.closed
        exact hx.grow (unionLivebits_mono st _ _) (unionLivebits_ne st _ hne)
          (by simp [State.setLiveStmt, hne])

theorem marks_varBits (st : State) (bits : BitVec 64) (sv : Bool) : Pass (Expr.defVar v rhs).size st
      (markTreeBitsLive copyPropagate rhs bits sv (st.unionLivebits (.defVar v rhs) bits)) := by
  have hlt : rhs.size < (Expr.defVar v rhs).size := by simp [Expr.size]
  have hm := ih bits sv (st.unionLivebits (.defVar v rhs) bits)
  apply Pass.node hlt hm.pass
  intro hlive hc
  have hmono : Sub (st.livebits rhs) _ := (unionLivebits_mono st _ _ rhs).trans (hm.pass.mono rhs)
  refine ⟨?_, fun hs => ?_⟩
  · rw [hlive, show ∀ a b : BitVec 64, (a ||| b) &&& heldBits v rhs =
      a &&& heldBits v rhs ||| b &&& heldBits v rhs from fun a b => additive_id.and _ a b,
      additive_marked rhs]
    exact or_sub (hc.1.trans hmono)
      (((additive_marked rhs).mono (and_sub_left _ _)).trans hm.self)
  · rw [hm.pass.stmts _ hlt] at hs
    exact (hc.2 hs).trans hmono

/-- A definition passes the bits that are new to it on to its right hand side. -/
theorem marks_defVar : MarksAll copyPropagate (.defVar v rhs):= by
  intro live sv st
  have hlt : rhs.size < (Expr.defVar v rhs).size := by simp [Expr.size]
  simp only [markTreeBitsLive]
  generalize hst : (if sv then st.incUsecnt (.defVar v rhs) else st) = st1
  have hpass : Pass (Expr.defVar v rhs).size st st1 := by
    rw [← hst]
    cases sv <;> exact Pass.of_eq rfl rfl
  have hself : ∀ bits, v.live live &&& v.bits = bits → ∀ {st'},
      Pass rhs.size (st1.unionLivebits (.defVar v rhs) bits) st' →
      Sub (marked (.defVar v rhs) live) (st'.livebits (.defVar v rhs)) := by
    intro bits hbits st' h
    rw [h.frame _ hlt, unionLivebits_self]
    show Sub (v.live live &&& v.bits) _
    rw [hbits]
    exact sub_or_right _ _
  by_cases hall : v.bits = v.live live
  · rw [if_pos hall]
    have hbits : v.live live &&& v.bits = v.bits := by rw [← hall, BitVec.and_self]
    cases hmore : st1.moreBitsLive (.defVar v rhs) v.bits with
    | true =>
      rw [if_pos rfl]
      refine ⟨hpass.trans (marks_entire ih st1), ?_⟩
      split_ifs
      · exact hself _ hbits (Pass.of_eq rfl rfl)
      · have hm := (ih (storeBits v rhs
          (((st1.unionLivebits (.defVar v rhs) v.bits).setLiveStmt (.defVar v rhs)).livebits
            (.defVar v rhs))) copyPropagate
          ((st1.unionLivebits (.defVar v rhs) v.bits).setLiveStmt (.defVar v rhs))).pass
        rw [hm.frame _ hlt]
        show Sub (v.live live &&& v.bits)
          ((st1.unionLivebits (.defVar v rhs) v.bits).livebits (.defVar v rhs))
        rw [hbits, unionLivebits_self]
        exact sub_or_right _ _
    | false =>
      rw [if_neg (by simp)]
      refine ⟨hpass, ?_⟩
      show Sub (v.live live &&& v.bits) _
      rw [hbits]
      exact sub_of_not_moreBitsLive hmore
  · rw [if_neg hall]
    cases hmore : st1.moreBitsLive (.defVar v rhs) (v.live live &&& v.bits) with
    | true =>
      rw [if_pos rfl]
      exact ⟨hpass.trans (marks_varBits ih st1 _ _), hself _ rfl (ih _ _ _).pass⟩
    | false =>
      rw [if_neg (by simp)]
      exact ⟨hpass, sub_of_not_moreBitsLive hmore⟩

end

theorem marks_iload {mem : Nat}
    (ih : MarksAll copyPropagate base) : MarksAll copyPropagate (.iload ty pointer mem base) := by
  intro live sv st
  have hlt : base.size < (Expr.iload ty pointer mem base).size := by simp [Expr.size]
  simp only [markTreeBitsLive]
  have henter : Pass (Expr.iload ty pointer mem base).size st
      (st.enter (.iload ty pointer mem base) sv).2 := Pass.enter st _ sv
  generalize st.enter (.iload ty pointer mem base) sv = r at henter ⊢
  generalize hst : (if r.1 || r.2.livebits (.iload ty pointer mem base) == 0 then
    markTreeBitsLive copyPropagate base pointer.bits r.1 r.2 else r.2) = st1
  -- either the base was visited now, or the node has been visited before
  have hvisit : Pass base.size r.2 st1 ∧
      (Closed r.2 (.iload ty pointer mem base) → Sub (marked base pointer.bits) (st1.livebits base)) := by
    by_cases hv : (r.1 || r.2.livebits (.iload ty pointer mem base) == 0) = true
    · rw [if_pos hv] at hst
      subst hst
      exact ⟨(ih _ _ _).pass, fun _ => (ih _ _ _).self⟩
    · rw [if_neg hv] at hst
      subst hst
      refine ⟨Pass.of_eq rfl rfl, fun hc => hc ?_⟩
      intro h0
      simp [h0] at hv
  obtain ⟨hpass, hbase⟩ := hvisit
  have hpass' := henter.trans (hpass.weaken hlt.le)
  cases hmore : st1.moreBitsLive (.iload ty pointer mem base) (ty.live live) with
  | true =>
    rw [if_pos rfl]
    constructor
    · refine
        { mono := fun x => (hpass'.mono x).trans (unionLivebits_mono st1 _ _ x)
          frame := ?_, stmts := ?_, closed := ?_ }
      · intro x hx
        have hne := (Expr.ne_of_size_lt hx).symm
        rw [unionLivebits_ne st1 _ hne, hpass'.frame x hx]
      · intro x hx
        exact hpass'.stmts x hx
      · intro x hx
        by_cases hne : x = .iload ty pointer mem base
        · subst hne
          intro _
          exact (hbase (henter.closed _ hx)).trans (unionLivebits_mono st1 _ _ base)
        · exact (hpass'.closed x hx).grow (unionLivebits_mono st1 _ _) (unionLivebits_ne st1 _ hne) rfl
    · rw [unionLivebits_self]
      exact sub_or_right _ _
  | false =>
    rw [if_neg (by simp)]
    exact ⟨hpass', sub_of_not_moreBitsLive hmore⟩

theorem marks_un (ih : MarksAll copyPropagate x) : MarksAll copyPropagate (.un op x) := by
  intro live sv st
  have hlt : x.size < (Expr.un op x).size := by simp [Expr.size]
  simp only [markTreeBitsLive]
  have henter : Pass (Expr.un op x).size st (st.enter (.un op x) sv).2 := Pass.enter st _ sv
  generalize st.enter (.un op x) sv = r at henter ⊢
  by_cases hgo : (r.1 || r.2.moreBitsLive (.un op x) (op.trim live)) = true
  · rw [if_pos hgo]
    by_cases hskip : (op.gated && !(r.1 || r.2.livebits (.un op x) == 0)) = true
    · -- the operand has been visited with all its bits before
      rw [if_pos hskip]
      constructor
      · apply henter.trans
        apply Pass.node (Expr.size_pos _) (Pass.of_eq rfl rfl)
        intro _ hc _
        have hne := Expr.ne_of_size_lt hlt
        have hne0 : r.2.livebits (.un op x) ≠ 0 := by
          intro h0
          simp [h0] at hskip
        rw [unionLivebits_ne r.2 _ hne]
        have hconst : ∀ a b, op.kidBits a = op.kidBits b := by
          intro a b
          cases op <;> simp [UnOp.gated] at hskip <;> rfl
        rw [hconst _ (r.2.livebits (.un op x))]
        exact hc hne0
      · rw [unionLivebits_self]
        exact sub_or_right _ _
    · rw [if_neg hskip]
      have hm := ih (op.kidBits ((r.2.unionLivebits (.un op x) (op.trim live)).livebits (.un op x)))
        r.1 (r.2.unionLivebits (.un op x) (op.trim live))
      constructor
      · apply henter.trans
        apply Pass.node hlt hm.pass
        intro hlive _ _
        rw [hlive, ← unionLivebits_self]
        exact hm.self
      · rw [hm.pass.frame _ hlt, unionLivebits_self]
        exact sub_or_right _ _
  · rw [if_neg hgo]
    rw [Bool.not_eq_true, Bool.or_eq_false_iff] at hgo
    exact ⟨henter, sub_of_not_moreBitsLive hgo.2⟩

theorem marks_two (ihx : MarksAll copyPropagate x)
    (ihy : MarksAll copyPropagate y) (hx : x.size ≤ n) (hy : y.size ≤ n) (lx ly : BitVec 64)
    (sv : Bool) {st : State}
    (h : st' = markTreeBitsLive copyPropagate y ly sv (markTreeBitsLive copyPropagate x lx sv st)) :
    Pass n st st' ∧ Sub (marked x lx) (st'.livebits x) ∧ Sub (marked y ly) (st'.livebits y) := by
  subst h
  have hmx := ihx lx sv st
  have hmy := ihy ly sv (markTreeBitsLive copyPropagate x lx sv st)
  exact ⟨(hmx.pass.weaken hx).trans (hmy.pass.weaken hy), hmx.self.trans (hmy.pass.mono x), hmy.self⟩

/-- An operator with two kids: the marks of the first stay while the second is passed. -/
theorem marks_bin {op : BinOp} (ihx : MarksAll copyPropagate x)
    (ihy : MarksAll copyPropagate y) : MarksAll copyPropagate (.bin op x y) := by
  intro live sv st
  have hx : x.size ≤ x.size + y.size := by omega
  have hy : y.size ≤ x.size + y.size := by omega
  have hlt : x.size + y.size < (Expr.bin op x y).size := by simp [Expr.size]
  simp only [markTreeBitsLive]
  have henter : Pass (Expr.bin op x y).size st (st.enter (.bin op x y) sv).2 := Pass.enter st _ sv
  generalize st.enter (.bin op x y) sv = r at henter ⊢
  by_cases hgo : (r.1 || r.2.moreBitsLive (.bin op x y) (op.trim live)) = true
  · rw [if_pos hgo]
    generalize hst1 : r.2.unionLivebits (.bin op x y) (op.trim live) = st1
    generalize hbits : (if op.usesCall then op.trim live else st1.livebits (.bin op x y)) = bits
    by_cases hskip : (op.gated && !(r.1 || r.2.livebits (.bin op x y) == 0)) = true
    · -- the operands have been visited with all their bits before
      rw [if_pos hskip]
      subst hst1
      constructor
      · apply henter.trans
        apply Pass.node (Expr.size_pos _) (Pass.of_eq rfl rfl)
        intro _ hc _
        have hne0 : r.2.livebits (.bin op x y) ≠ 0 := by
          intro h0
          simp [h0] at hskip
        have hconst : ∀ a b, op.kidBits0 y a = op.kidBits0 y b ∧
            op.kidBits1 x a = op.kidBits1 x b := by
          intro a b
          cases op <;> simp [BinOp.gated] at hskip <;> exact ⟨rfl, rfl⟩
        rw [unionLivebits_ne r.2 _ (Expr.ne_of_size_lt (hx.trans_lt hlt)),
          unionLivebits_ne r.2 _ (Expr.ne_of_size_lt (hy.trans_lt hlt)),
          (hconst _ (r.2.livebits (.bin op x y))).1, (hconst _ (r.2.livebits (.bin op x y))).2]
        exact hc hne0
      · rw [unionLivebits_self]
        exact sub_or_right _ _
    · rw [if_neg hskip]
      generalize hst' : (if op.kid1First then
          markTreeBitsLive copyPropagate x (op.kidBits0 y bits) r.1
            (markTreeBitsLive copyPropagate y (op.kidBits1 x bits) r.1 st1)
        else
          markTreeBitsLive copyPropagate y (op.kidBits1 x bits) r.1
            (markTreeBitsLive copyPropagate x (op.kidBits0 y bits) r.1 st1)) = st'
      have htwo : Pass (x.size + y.size) st1 st' ∧
          Sub (marked x (op.kidBits0 y bits)) (st'.livebits x) ∧
          Sub (marked y (op.kidBits1 x bits)) (st'.livebits y) := by
        by_cases hfirst : op.kid1First = true
        · rw [if_pos hfirst] at hst'
          obtain ⟨h1, h2, h3⟩ := marks_two ihy ihx hy hx _ _ _ hst'.symm
          exact ⟨h1, h3, h2⟩
        · rw [if_neg hfirst] at hst'
          exact marks_two ihx ihy hx hy _ _ _ hst'.symm
      obtain ⟨hpass, hmx, hmy⟩ := htwo
      subst hst1
      have hmono := fun z => (unionLivebits_mono r.2 (.bin op x y) (op.trim live) z).trans (hpass.mono z)
      constructor
      · apply henter.trans
        apply Pass.node hlt hpass
        intro hlive hc _
        rw [hlive]
        by_cases hcall : op.usesCall = true
        · -- the masks of this visit and of the earlier ones add up
          rw [if_pos hcall] at hbits
          subst hbits
          by_cases h0 : r.2.livebits (.bin op x y) = 0
          · rw [h0, show (0 : BitVec 64) ||| op.trim live = op.trim live from BitVec.zero_or]
            exact ⟨hmx, hmy⟩
          · rw [additive_kidBits0 op y, additive_kidBits1 op x, additive_marked x, additive_marked y]
            exact ⟨or_sub ((hc h0).1.trans (hmono x)) hmx, or_sub ((hc h0).2.trans (hmono y)) hmy⟩
        · rw [if_neg hcall, unionLivebits_self] at hbits
          subst hbits
          exact ⟨hmx, hmy⟩
      · rw [hpass.frame _ hlt, unionLivebits_self]
        exact sub_or_right _ _
  · -- there are no new bits: nothing is passed on
    rw [if_neg hgo]
    rw [Bool.not_eq_true, Bool.or_eq_false_iff] at hgo
    exact ⟨henter, sub_of_not_moreBitsLive hgo.2⟩

theorem marks_select {dtyp : Rtype}
    (ihc : MarksAll copyPropagate c) (ihx : MarksAll copyPropagate x)
    (ihy : MarksAll copyPropagate y) : MarksAll copyPropagate (.select dtyp descB c x y) := by
  intro live sv st
  have hlt : c.size + x.size + y.size < (Expr.select dtyp descB c x y).size := by simp [Expr.size]
  simp only [markTreeBitsLive]
  have henter : Pass (Expr.select dtyp descB c x y).size st
      (st.enter (.select dtyp descB c x y) sv).2 := Pass.enter st _ sv
  generalize st.enter (.select dtyp descB c x y) sv = r at henter ⊢
  by_cases hgo : (r.1 || r.2.moreBitsLive (.select dtyp descB c x y) live) = true
  · rw [if_pos hgo]
    generalize hst1 : r.2.unionLivebits (.select dtyp descB c x y) live = st1
    have hmc := ihc (bitsInType (selectDesc dtyp descB)) r.1 st1
    generalize markTreeBitsLive copyPropagate c (bitsInType (selectDesc dtyp descB)) r.1 st1 = st2
      at hmc ⊢
    generalize hst' : markTreeBitsLive copyPropagate y
      (st1.livebits (.select dtyp descB c x y) &&& dtyp.bits) r.1
      (markTreeBitsLive copyPropagate x
        (st1.livebits (.select dtyp descB c x y) &&& dtyp.bits) r.1 st2) = st'
    obtain ⟨hpass2, hmx, hmy⟩ := marks_two (n := c.size + x.size + y.size) ihx ihy
      (by omega) (by omega) _ _ _ hst'.symm
    have hpass : Pass (c.size + x.size + y.size) st1 st' :=
      (hmc.pass.weaken (by omega)).trans hpass2
    have hself := hmc.self.trans (hpass2.mono c)
    subst hst1
    constructor
    · apply henter.trans
      apply Pass.node hlt hpass
      intro hlive _ _
      rw [hlive, ← unionLivebits_self]
      exact ⟨hself, hmx, hmy⟩
    · rw [hpass.frame _ hlt, unionLivebits_self]
      exact sub_or_right _ _
  · rw [if_neg hgo]
    rw [Bool.not_eq_true, Bool.or_eq_false_iff] at hgo
    exact ⟨henter, sub_of_not_moreBitsLive hgo.2⟩

theorem marks_markTreeBitsLive (e : Expr) : MarksAll copyPropagate e := by
  induction e with
  | const c =>
    intro live sv st
    refine ⟨(Pass.enter st _ sv).trans (Pass.leaf _ (fun _ => trivial)), ?_⟩
    simp only [markTreeBitsLive, unionLivebits_self]
    exact sub_or_right _ _
  | lda t id =>
    intro live sv st
    refine ⟨(Pass.enter st _ sv).trans (Pass.leaf _ (fun _ => trivial)), ?_⟩
    simp only [markTreeBitsLive, unionLivebits_self]
    exact sub_or_right _ _
  | var v => exact marks_var v
  | defVar v rhs ih => exact marks_defVar ih
  | iload ty pointer mem base ih => exact marks_iload ih
  | un op x ih => exact marks_un ih
  | bin op x y ihx ihy => exact marks_bin ihx ihy
  | select dtyp descB c x y ihc ihx ihy => exact marks_select ihc ihx ihy

end Visits

theorem loadSignBit_zero (t : Mtype) : loadSignBit t 0#64 = 0#64 := by
  unfold loadSignBit ifAbove
  simp

theorem marked_zero (e : Expr) : marked e 0 = 0 := by
  cases e with
  | const c => rfl
  | lda t id => rfl
  | var v => simp [marked, Var.live, loadSignBit_zero]
  | defVar v rhs => simp [marked, Var.live, loadSignBit_zero]
  | iload ty pointer mem base => simp [marked, LoadType.live, loadSignBit_zero]
  | un op x => cases op <;> simp [marked, UnOp.trim]
  | bin op x y => cases op <;> simp [marked, BinOp.trim]
  | select dtyp descB c x y => rfl

theorem closed_init (e : Expr) : Closed State.init e := by
  cases e with
  | const c => trivial
  | lda t id => trivial
  | var v => trivial
  | defVar v rhs =>
    refine ⟨?_, fun h => by simp [State.init] at h⟩
    have hzero : State.init.livebits (.defVar v rhs) &&& heldBits v rhs = 0 := BitVec.zero_and
    rw [hzero, marked_zero]
    exact zero_sub _
  | iload ty pointer mem base => exact fun h => absurd rfl h
  | un op x => exact fun h => absurd rfl h
  | bin op x y => exact fun h => absurd rfl h
  | select dtyp descB c x y => exact fun h => absurd rfl h

theorem foldl_marks (copyPropagate : Bool) (calls : List Call) (st : State) :
    let st' := calls.foldl
      (fun st c => markTreeBitsLive copyPropagate c.tree c.live c.stmtVisit st) st
    (∀ x, Sub (st.livebits x) (st'.livebits x)) ∧ (∀ x, Closed st x → Closed st' x) ∧
      ∀ c ∈ calls, Sub (marked c.tree c.live) (st'.livebits c.tree) := by
  induction calls generalizing st with
  | nil => exact ⟨fun _ => Sub.refl _, fun _ h => h, fun c hc => by simp at hc⟩
  | cons c calls ih =>
    have hall : MarksAll copyPropagate c.tree := marks_markTreeBitsLive c.tree
    have hm := hall c.live c.stmtVisit st
    obtain ⟨hmono, hclosed, hself⟩ :=
      ih (markTreeBitsLive copyPropagate c.tree c.live c.stmtVisit st)
    refine ⟨fun x => (hm.pass.mono x).trans (hmono x),
      fun x hx => hclosed x (hm.pass.closed x hx), ?_⟩
    intro d hd
    rcases List.mem_cons.mp hd with rfl | hd
    · exact hm.self.trans (hmono _)
    · exact hself d hd

theorem closed_markAll (copyPropagate : Bool) (calls : List Call) (e : Expr) :
    Closed (markAll copyPropagate calls) e :=
  (foldl_marks copyPropagate calls State.init).2.1 e (closed_init e)

theorem marked_markAll {copyPropagate : Bool} {calls : List Call} {c : Call} (h : c ∈ calls) :
    Sub (marked c.tree c.live) ((markAll copyPropagate calls).livebits c.tree) :=
  (foldl_marks copyPropagate calls State.init).2.2 c h

/-! ## Soundness -/

/-- The walk from a node of which the bits `live` are wanted uses no mask that misses bits. -/
def Safe : Expr → BitVec 64 → Prop
  | .const _, _ | .lda _ _, _ | .var _, _ => True
  | .defVar v rhs, live => Safe rhs (v.live (live &&& bitsInType v.ty.dtyp) &&& heldBits v rhs)
  | .iload ty pointer _ base, live =>
    ty.live (live &&& bitsInType ty.dtyp) ≠ 0 → Safe base pointer.bits
  | .un op x, live =>
    op.trim live &&& bitsInType op.dtyp ≠ 0 →
      Safe x (op.kidBits (op.trim live &&& bitsInType op.dtyp))
  | .bin op x y, live =>
    op.trim live &&& bitsInType op.dtyp ≠ 0 →
      op.Safe y (op.trim live &&& bitsInType op.dtyp) ∧
      Safe x (op.kidBits0 y (op.trim live &&& bitsInType op.dtyp)) ∧
      Safe y (op.kidBits1 x (op.trim live &&& bitsInType op.dtyp))
  | .select dtyp descB c x y, live =>
    live &&& dtyp.bits ≠ 0 →
      Safe c (bitsInType (selectDesc dtyp descB)) ∧ Safe x (live &&& dtyp.bits) ∧
      Safe y (live &&& dtyp.bits)

/-- The leaves agree on the bits live in them: variables, loads and addresses. -/
def LeavesAgree (livebits : Expr → BitVec 64) (ρ₁ ρ₂ : Env) : Expr → Prop
  | .const _ => True
  | .lda t id => AgreeOn (livebits (.lda t id)) (ρ₁.lda id) (ρ₂.lda id)
  | .var v => AgreeOn (livebits (.var v)) (ρ₁.var v.id) (ρ₂.var v.id)
  | .defVar _ rhs => LeavesAgree livebits ρ₁ ρ₂ rhs
  | .iload ty pointer mem base =>
    (∀ a, AgreeOn (livebits (.iload ty pointer mem base)) (ρ₁.mem mem a) (ρ₂.mem mem a)) ∧
      LeavesAgree livebits ρ₁ ρ₂ base
  | .un _ x => LeavesAgree livebits ρ₁ ρ₂ x
  | .bin _ x y => LeavesAgree livebits ρ₁ ρ₂ x ∧ LeavesAgree livebits ρ₁ ρ₂ y
  | .select _ _ c x y =>
    LeavesAgree livebits ρ₁ ρ₂ c ∧ LeavesAgree livebits ρ₁ ρ₂ x ∧ LeavesAgree livebits ρ₁ ρ₂ y

theorem bitsInType_sub_var (v : Var) : Sub (bitsInType v.ty.dsctyp) v.bits := by
  intro i hi
  have hi64 : i < 64 := BitVec.lt_of_getLsbD hi
  have hsize : i < v.ty.dsctyp.size := by
    simp [bitsInType] at hi
    exact hi.1
  unfold Var.bits
  split_ifs with h1 h2 h3
  · rw [BitVec.getLsbD_allOnes, decide_eq_true hi64]
  · simpa [bitsInType, Mtype.size] using hi64
  · have hfits : v.ty.dsctyp.size ≤ 8 * v.byteSize := by
      rcases v.fits with h | h
      · exact absurd h h3
      · exact h
    simp
    omega
  · exact hi

theorem needed_sub_live (v : Var) (D : BitVec 64) :
    Sub (D &&& bitsInType v.ty.dsctyp ||| loadSignBit v.ty.dsctyp D &&& bitsInType v.ty.dsctyp)
      (v.live D &&& bitsInType v.ty.dsctyp) := by
  intro i hi
  have hv := bitsInType_sub_var v i
  unfold Var.live
  simp only [BitVec.getLsbD_or, BitVec.getLsbD_and, Bool.or_eq_true, Bool.and_eq_true] at hi ⊢
  rcases hi with ⟨hD, ht⟩ | ⟨hs, ht⟩
  · exact ⟨.inl ⟨hD, hv ht⟩, ht⟩
  · exact ⟨.inr hs, ht⟩

theorem bitsInType_dtyp_sub_result (e : Expr) : Sub (bitsInType e.dtyp) (bitsInResult e) := by
  have hmax : ∀ n m, Sub (bitmaskOfSize n) (bitmaskOfSize (max n m)) := by
    intro n m i hi
    simp at hi ⊢
    omega
  cases e with
  | un op x =>
    cases op with
    | cvt dtyp dsctyp => exact hmax _ _
    | cvtB dtyp => exact hmax _ _
    | _ => exact Sub.refl _
  | _ => exact Sub.refl _

theorem agreeOn_eval_result (ρ₁ ρ₂ : Env) (e : Expr)
    (h : AgreeOn (D &&& bitsInResult e) (eval ρ₁ e) (eval ρ₂ e)) :
    AgreeOn D (eval ρ₁ e) (eval ρ₂ e) := by
  cases hc : e.constVal? with
  | some k =>
    rw [eval_constVal hc, eval_constVal hc]
    exact AgreeOn.refl _ _
  | none =>
    apply agreeOn_clear (clear_eval ρ₁ e hc) (clear_eval ρ₂ e hc)
    apply h.mono
    intro i hi
    rw [BitVec.getLsbD_and, Bool.and_eq_true] at hi ⊢
    exact ⟨hi.1, bitsInType_dtyp_sub_result e i hi.2⟩

theorem agreeOn_unTrim (op : UnOp)
    (h : AgreeOn (op.trim D &&& bitsInType op.dtyp) (op.eval a) (op.eval b)) :
    AgreeOn D (op.eval a) (op.eval b) := by
  have htrim : AgreeOn (op.trim D) (op.eval a) (op.eval b) :=
    agreeOn_clear (clear_unOp op a) (clear_unOp op b) h
  cases op with
  | lnot dtyp dsctyp => exact agreeOn_clear (clear_boolVal _) (clear_boolVal _) htrim
  | _ => exact htrim

theorem agreeOn_binTrim (op : BinOp) {a' b' : BitVec 64}
    (h : AgreeOn (op.trim D &&& bitsInType op.dtyp) (op.eval a b) (op.eval a' b')) :
    AgreeOn D (op.eval a b) (op.eval a' b') := by
  have htrim : AgreeOn (op.trim D) (op.eval a b) (op.eval a' b') :=
    agreeOn_clear (clear_binOp op a b) (clear_binOp op a' b') h
  cases op with
  | relation k dtyp dsctyp => exact agreeOn_clear (clear_boolVal _) (clear_boolVal _) htrim
  | logical k t => exact agreeOn_clear (clear_boolVal _) (clear_boolVal _) htrim
  | _ => exact htrim

theorem ne_zero_of_sub {m n : BitVec 64} (h : Sub m n) (hm : m ≠ 0) : n ≠ 0 := by
  rw [ne_zero_iff] at hm ⊢
  obtain ⟨i, hi⟩ := hm
  exact ⟨i, h i hi⟩

section Soundness

variable {st : State} {ρ₁ ρ₂ : Env}

/-- Wanted bits that are marked agree. -/
def AgreesAt (st : State) (ρ₁ ρ₂ : Env) (e : Expr) : Prop :=
  ∀ D, Safe e D → Sub (marked e D) (st.livebits e) → LeavesAgree st.livebits ρ₁ ρ₂ e →
    AgreeOn D (eval ρ₁ e) (eval ρ₂ e)

theorem agrees_var (v : Var) : AgreesAt st ρ₁ ρ₂ (.var v) := by
  intro D _ hmark hleaf
  apply agreeOn_load v.ty (needed_sub_live v D)
  apply AgreeOn.mono hleaf
  refine Sub.trans ?_ hmark
  intro i hi
  simp only [marked, BitVec.getLsbD_and, Bool.and_eq_true] at hi ⊢
  exact ⟨hi.1, bitsInType_sub_var v i hi.2⟩

theorem agrees_defVar {v : Var} {rhs : Expr} (hclosed : Closed st (.defVar v rhs))
    (ih : AgreesAt st ρ₁ ρ₂ rhs) : AgreesAt st ρ₁ ρ₂ (.defVar v rhs) := by
  intro D hsafe hmark hleaf
  apply agreeOn_clear (clear_low _ _) (clear_low _ _)
  apply agreeOn_load v.ty (needed_sub_live v _)
  apply agreeOn_eval_result
  have hsub : Sub (v.live (D &&& bitsInType v.ty.dtyp) &&& heldBits v rhs)
      (st.livebits (.defVar v rhs) &&& heldBits v rhs) := by
    intro i hi
    rw [BitVec.getLsbD_and, Bool.and_eq_true] at hi ⊢
    refine ⟨hmark i ?_, hi.2⟩
    simp only [marked, BitVec.getLsbD_and, Bool.and_eq_true]
    exact ⟨(additive_varLive v).mono (and_sub_left _ _) i hi.1,
      bitsInType_sub_var v i (and_sub_right _ _ i hi.2)⟩
  have hrhs := ih _ hsafe (((additive_marked rhs).mono hsub).trans hclosed.1) hleaf
  apply hrhs.mono
  intro i hi
  simp only [heldBits, BitVec.getLsbD_and, Bool.and_eq_true] at hi ⊢
  exact ⟨hi.1.1, hi.2, hi.1.2⟩

theorem agrees_iload {mem : Nat}
    (hclosed : Closed st (.iload ty pointer mem base)) (ih : AgreesAt st ρ₁ ρ₂ base) :
    AgreesAt st ρ₁ ρ₂ (.iload ty pointer mem base) := by
  intro D hsafe hmark hleaf
  apply agreeOn_clear (clear_low _ _) (clear_low _ _)
  have hneed : ∀ D', Sub (D' &&& bitsInType ty.dsctyp |||
      loadSignBit ty.dsctyp D' &&& bitsInType ty.dsctyp) (ty.live D') := by
    intro D'
    exact or_sub (sub_or_left _ _) ((and_sub_left _ _).trans (sub_or_right _ _))
  apply agreeOn_load ty (hneed (D &&& bitsInType ty.dtyp))
  by_cases h0 : ty.live (D &&& bitsInType ty.dtyp) = 0
  · rw [h0]
    exact agreeOn_zero _ _
  · have hsub : Sub (ty.live (D &&& bitsInType ty.dtyp)) (st.livebits (.iload ty pointer mem base)) :=
      ((additive_loadLive ty).mono (and_sub_left _ _)).trans hmark
    have hbase := ih _ (hsafe h0) (hclosed (ne_zero_of_sub hsub h0)) hleaf.2
    have haddr : write pointer (eval ρ₁ base) = write pointer (eval ρ₂ base) := hbase.eq_and
    rw [haddr]
    exact (hleaf.1 _).mono hsub

theorem agrees_un (hclosed : Closed st (.un op x))
    (ih : AgreesAt st ρ₁ ρ₂ x) : AgreesAt st ρ₁ ρ₂ (.un op x) := by
  intro D hsafe hmark hleaf
  apply agreeOn_unTrim
  by_cases h0 : op.trim D &&& bitsInType op.dtyp = 0
  · rw [h0]
    exact agreeOn_zero _ _
  · have hsub : Sub (op.trim D &&& bitsInType op.dtyp) (st.livebits (.un op x)) :=
      (and_sub_left _ _).trans hmark
    apply agreeOn_un
    apply ih _ (hsafe h0) _ hleaf
    exact ((additive_marked x).mono ((additive_unKidBits op).mono hsub)).trans
      (hclosed (ne_zero_of_sub hsub h0))

theorem agrees_bin {op : BinOp} (hclosed : Closed st (.bin op x y))
    (ihx : AgreesAt st ρ₁ ρ₂ x) (ihy : AgreesAt st ρ₁ ρ₂ y) : AgreesAt st ρ₁ ρ₂ (.bin op x y):= by
  intro D hsafe hmark hleaf
  apply agreeOn_binTrim
  by_cases h0 : op.trim D &&& bitsInType op.dtyp = 0
  · rw [h0]
    exact agreeOn_zero _ _
  · have hsub : Sub (op.trim D &&& bitsInType op.dtyp) (st.livebits (.bin op x y)) :=
      (and_sub_left _ _).trans hmark
    obtain ⟨hs, hsx, hsy⟩ := hsafe h0
    obtain ⟨hcx, hcy⟩ := hclosed (ne_zero_of_sub hsub h0)
    have hx := ihx _ hsx
      (((additive_marked x).mono ((additive_kidBits0 op y).mono hsub)).trans hcx) hleaf.1
    have hy := ihy _ hsy
      (((additive_marked y).mono ((additive_kidBits1 op x).mono hsub)).trans hcy) hleaf.2
    exact agreeOn_bin op x y (fun c hc => ⟨eval_constVal hc, eval_constVal hc⟩)
      (fun c hc => ⟨eval_constVal hc, eval_constVal hc⟩) hs hx hy

theorem agrees_select {dtyp : Rtype}
    (hclosed : Closed st (.select dtyp descB c x y)) (ihc : AgreesAt st ρ₁ ρ₂ c)
    (ihx : AgreesAt st ρ₁ ρ₂ x) (ihy : AgreesAt st ρ₁ ρ₂ y) :
    AgreesAt st ρ₁ ρ₂ (.select dtyp descB c x y) := by
  intro D hsafe hmark hleaf
  apply agreeOn_clear (clear_low _ _) (clear_low _ _)
  by_cases h0 : D &&& dtyp.bits = 0
  · exact (agreeOn_zero _ _).mono (fun i hi => by
      have : (D &&& dtyp.bits).getLsbD i = true := hi
      rw [h0] at this
      exact this)
  · have hne : st.livebits (.select dtyp descB c x y) ≠ 0 :=
      ne_zero_of_sub ((and_sub_left _ _).trans hmark) h0
    obtain ⟨hcc, hcx, hcy⟩ := hclosed hne
    obtain ⟨hsc, hsx, hsy⟩ := hsafe h0
    have hmono : Sub (D &&& dtyp.bits) (st.livebits (.select dtyp descB c x y) &&& dtyp.bits) :=
      (additive_id.and dtyp.bits).mono hmark
    have hc := ihc _ hsc hcc hleaf.1
    have hx := ihx _ hsx (((additive_marked x).mono hmono).trans hcx) hleaf.2.1
    have hy := ihy _ hsy (((additive_marked y).mono hmono).trans hcy) hleaf.2.2
    exact (agreeOn_select dtyp descB hc hx hy).mono (and_sub_left _ _)

/-- With closed nodes, the bits wanted of a marked tree are determined by the live bits of its
leaves. -/
theorem agreesAt_of_closed (hclosed : ∀ x, Closed st x) (e : Expr) : AgreesAt st ρ₁ ρ₂ e := by
  induction e with
  | const c => exact fun D _ _ _ => AgreeOn.refl _ _
  | lda t id => exact fun D _ hmark hleaf =>
      agreeOn_write (AgreeOn.mono hleaf ((and_sub_left _ _).trans hmark))
  | var v => exact agrees_var v
  | defVar v rhs ih => exact agrees_defVar (hclosed _) ih
  | iload ty pointer mem base ih => exact agrees_iload (hclosed _) ih
  | un op x ih => exact agrees_un (hclosed _) ih
  | bin op x y ihx ihy => exact agrees_bin (hclosed _) ihx ihy
  | select dtyp descB c x y ihc ihx ihy => exact agrees_select (hclosed _) ihc ihx ihy

end Soundness

/-- In every run of `Mark_tree_bits_live` over the trees of a phase, and for every tree that the run
was called on with the bits `live`: if the walk uses no mask that misses bits, two evaluations whose
leaves agree on their live bits agree on `live`. -/
theorem markTreeBitsLive_sound (copyPropagate : Bool) (calls : List Call) (c : Call)
    (hc : c ∈ calls) (hsafe : Safe c.tree c.live) (ρ₁ ρ₂ : Env)
    (hleaf : LeavesAgree (markAll copyPropagate calls).livebits ρ₁ ρ₂ c.tree) :
    AgreeOn c.live (eval ρ₁ c.tree) (eval ρ₂ c.tree) :=
  agreesAt_of_closed (closed_markAll copyPropagate calls) c.tree c.live hsafe
    (marked_markAll hc) hleaf

/-- An `I4` variable of four bytes. -/
def i4Var (id : Nat) : Var :=
  { id := id, ty := { dtyp := .I4, dsctyp := .I4, valid := rfl }, dedicated := false, real := true,
    preg := false, byteSize := 4, whole := by simp, fits := by simp [Mtype.size] }

def i4Const (val : BitVec 64) : Expr := .const { dtyp := .I4, val := val, bool := by simp }

/-- `x >> 4` with an `I4` variable `x`. -/
def ashrTree : Expr := .bin (.shift .ashr .I4) (.var (i4Var 0)) (i4Const 4)

/-- The environment in which every variable holds `x`. -/
def constEnv (x : BitVec 64) : Env := { var := fun _ => x, lda := fun _ => 0, mem := fun _ _ => 0 }

/-- The low byte of `x >> 4`, sign-extended. -/
def byteTree : Expr :=
  .un (.cvtl Width.char) ashrTree

theorem markTreeBitsLive_sound_byteTree : (Safe byteTree 0xFFFFFFFF#64 ∧
      LeavesAgree (markAll false [⟨byteTree, 0xFFFFFFFF#64, false⟩]).livebits
        (constEnv 0xABC#64) (constEnv 0xFFFF0ABF#64) byteTree) ∧
      AgreeOn 0xFFFFFFFF#64 (eval (constEnv 0xABC#64) byteTree)
        (eval (constEnv 0xFFFF0ABF#64) byteTree) := by
  have hsafe : Safe byteTree 0xFFFFFFFF#64 := by
    intro _ _
    refine ⟨?_, trivial, trivial⟩
    intro hne
    exact absurd (by decide) hne
  have hleaf : LeavesAgree (markAll false [⟨byteTree, 0xFFFFFFFF#64, false⟩]).livebits
      (constEnv 0xABC#64) (constEnv 0xFFFF0ABF#64) byteTree := by
    refine ⟨?_, trivial⟩
    show AgreeOn _ 0xABC#64 0xFFFF0ABF#64
    decide
  exact ⟨⟨hsafe, hleaf⟩, markTreeBitsLive_sound false [⟨byteTree, 0xFFFFFFFF#64, false⟩]
    ⟨byteTree, 0xFFFFFFFF#64, false⟩ (List.mem_singleton.mpr rfl) hsafe _ _ hleaf⟩

/-- With the top bit of `x >> 4` live, bit 28 of `x` is marked in place of the sign bit: two values
of `x` that differ in the sign agree on all the marked bits and give different top bits. -/
theorem markTreeBitsLive_loses_signBit : ¬ ∀ (c : Call) (ρ₁ ρ₂ : Env),
      LeavesAgree (markAll false [c]).livebits ρ₁ ρ₂ c.tree →
        AgreeOn c.live (eval ρ₁ c.tree) (eval ρ₂ c.tree) := by
  intro h
  have hleaf : LeavesAgree (markAll false [⟨ashrTree, 0x80000000#64, false⟩]).livebits
      (constEnv 0#64) (constEnv 0x80000000#64) ashrTree := by
    refine ⟨?_, trivial⟩
    show AgreeOn _ 0#64 0x80000000#64
    decide
  have hagree := h ⟨ashrTree, 0x80000000#64, false⟩ _ _ hleaf
  revert hagree
  decide

end Bdce
