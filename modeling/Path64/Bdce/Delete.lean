import Path64.Bdce.Redundant

/-! # Deleting extensions

`Delete_cvtls` rewrites a tree from its leaves: a node without a live
bit becomes zero, a variable may be replaced by its definition, a `CVTL`
or a widening `CVT` is dropped if the bits that it sets are dead or the
extension is redundant, and on a 32-bit target some 64-bit operations
become 32-bit ones. -/

namespace Bdce

open BitMask

/-! ## Model -/

/-- What `Delete_cvtls` reads besides the tree. -/
structure Phase where
  annot : Annot
  target64 : Bool
  volatile : Expr → Bool
  copyPropagate : Var → Expr → Bool

/-- A dead use. -/
def Phase.dead (ph : Phase) (e : Expr) : Bool :=
  ph.annot.livebits e == 0 && !ph.volatile e

/-- A 64-bit operation of which only the low half is live, on a 32-bit target. -/
def Phase.narrows (ph : Phase) (e : Expr) : Bool :=
  !ph.target64 && e.dtyp.size == 64 && ph.annot.livebits e >>> 32 == 0

/-- `Mtype_TransferSize(MTYPE_I4, _)`. -/
def Mtype.to32 (t : Mtype) : Mtype := if t.signed then .I4 else .U4

def Rtype.to32 (t : Rtype) : Rtype := if t.signed then .I4 else .U4

/-- The 32-bit variant of an operator. -/
def UnOp.narrow : UnOp → UnOp
  | .neg t => .neg t.to32
  | .bnot t => .bnot t.to32
  | .lnot dtyp dsctyp => .lnot dtyp.to32 dsctyp.to32
  | op => op

def BinOp.narrow : BinOp → BinOp
  | .arith k t => .arith k t.to32
  | .bitwise k t => .bitwise k t.to32
  | .logical k t => .logical k t.to32
  | op => op

/-- `cr->Dtyp()` with the value zero. -/
def zeroConst (t : Mtype) : Expr := .const { dtyp := t, val := 0, bool := fun _ => .inl rfl }

/-- `Delete_cvtls`; the result is the tree itself where the source returns `NULL`. -/
def deleteCvtls (ph : Phase) : Expr → Expr
  | .const c => if ph.dead (.const c) then zeroConst c.dtyp else .const c
  | .lda t id => if ph.dead (.lda t id) then zeroConst t.mtype else .lda t id
  | .var v => if ph.dead (.var v) then zeroConst v.ty.dtyp else .var v
  | .defVar v rhs =>
    if ph.dead (.defVar v rhs) then zeroConst v.ty.dtyp
    else if ph.copyPropagate v rhs then rhs else .defVar v rhs
  | .iload ty pointer mem base =>
    if ph.dead (.iload ty pointer mem base) then zeroConst ty.dtyp
    else .iload ty pointer mem (deleteCvtls ph base)
  | .un (.cvtl w) x =>
    let e := Expr.un (.cvtl w) x
    if ph.dead e then zeroConst w.dtyp.mtype
    else if ph.annot.livebits e &&& ~~~bitmaskOfSize w.bits == 0 ||
        redundantCvtl ph.annot w.dtyp.signed w.dtyp.size w.bits (deleteCvtls ph x) then
      deleteCvtls ph x
    else .un (.cvtl w) (deleteCvtls ph x)
  | .un (.cvt dtyp dsctyp) x =>
    let e := Expr.un (.cvt dtyp dsctyp) x
    if ph.dead e then zeroConst dtyp.mtype
    else if decide (dsctyp.size < dtyp.size) && (ph.annot.livebits e &&& ~~~dsctyp.bits == 0 ||
          redundantCvtl ph.annot dsctyp.signed dtyp.size dsctyp.size (deleteCvtls ph x)) then
      deleteCvtls ph x
    else .un (.cvt dtyp dsctyp) (deleteCvtls ph x)
  | .un op x =>
    let e := Expr.un op x
    if ph.dead e then zeroConst op.dtyp
    else .un (if ph.narrows e then op.narrow else op) (deleteCvtls ph x)
  | .bin op x y =>
    let e := Expr.bin op x y
    if ph.dead e then zeroConst op.dtyp
    else .bin (if ph.narrows e then op.narrow else op) (deleteCvtls ph x) (deleteCvtls ph y)
  | .select dtyp descB c x y =>
    if ph.dead (.select dtyp descB c x y) then zeroConst dtyp.mtype
    else .select dtyp descB (deleteCvtls ph c) (deleteCvtls ph x) (deleteCvtls ph y)

/-- A node with no live bit becomes a zero of its type. -/
theorem deleteCvtls_dead {ph : Phase} {e : Expr} (h : ph.dead e = true) :
    deleteCvtls ph e = zeroConst e.dtyp := by
  cases e with
  | un op x => cases op <;> simp only [deleteCvtls, h, if_true, Expr.dtyp, UnOp.dtyp]
  | _ => simp only [deleteCvtls, h, if_true, Expr.dtyp]

/-! ## Sound annotations -/

/-- The bits beyond the type that a load fixes: zeros, or copies of a live sign bit. -/
def LoadType.filled (ty : LoadType) (live : BitVec 64) : BitVec 64 :=
  if ty.dsctyp.signed = false ∨ live.getLsbD (ty.dsctyp.size - 1) = true then
    bitsInType ty.dtyp &&& ~~~bitsInType ty.dsctyp
  else 0

/-- The bits of the value of a node that its live bits speak of; those of a load are of its content.
-/
def seen (livebits : Expr → BitVec 64) (e : Expr) : BitVec 64 :=
  livebits e &&& bitsInType e.dtyp |||
    match e with
    | .var v | .defVar v _ => v.ty.filled (livebits e)
    | .iload ty _ _ _ => ty.filled (livebits e)
    | _ => 0

/-- Operands may be exchanged for any that agree with them on the bits seen. -/
def SoundLivebits (livebits : Expr → BitVec 64) : Expr → Prop
  | .const _ | .lda _ _ | .var _ | .defVar _ _ => True
  | .iload ty pointer mem base =>
    (∀ ρ a, AgreeOn (seen livebits base) (eval ρ base) a →
      AgreeOn (seen livebits (.iload ty pointer mem base)) (eval ρ (.iload ty pointer mem base))
        (ty.value (ρ.mem mem (write pointer a)))) ∧
    SoundLivebits livebits base
  | .un op x =>
    (∀ ρ a, AgreeOn (seen livebits x) (eval ρ x) a →
      AgreeOn (seen livebits (.un op x)) (eval ρ (.un op x)) (op.eval a)) ∧
    SoundLivebits livebits x
  | .bin op x y =>
    (∀ ρ a b, AgreeOn (seen livebits x) (eval ρ x) a → AgreeOn (seen livebits y) (eval ρ y) b →
      AgreeOn (seen livebits (.bin op x y)) (eval ρ (.bin op x y)) (op.eval a b)) ∧
    SoundLivebits livebits x ∧ SoundLivebits livebits y
  | .select dtyp descB c x y =>
    (∀ ρ d a b, AgreeOn (seen livebits c) (eval ρ c) d → AgreeOn (seen livebits x) (eval ρ x) a →
      AgreeOn (seen livebits y) (eval ρ y) b →
      AgreeOn (seen livebits (.select dtyp descB c x y)) (eval ρ (.select dtyp descB c x y))
        (selectEval dtyp descB d a b)) ∧
    SoundLivebits livebits c ∧ SoundLivebits livebits x ∧ SoundLivebits livebits y

/-! ## The condition -/

/-- When `Delete_cvtls` keeps the live bits: no 64-bit logical operator is narrowed, no replaced
variable is narrower than its use, and where `Redundant_cvtl` is asked about an operand, which has
been rewritten by then, its answer is right. -/
def DeleteOk (ph : Phase) : Expr → Prop
  | .const _ | .lda _ _ | .var _ => True
  | .defVar v rhs =>
    ph.dead (.defVar v rhs) = false → ph.copyPropagate v rhs = true →
      v.ty.dtyp.size ≤ v.ty.dsctyp.size
  | .iload ty pointer mem base =>
    ph.dead (.iload ty pointer mem base) = false → DeleteOk ph base
  | .un op x =>
    ph.dead (.un op x) = false →
      (match op with
        | .cvtl w => w.bits < w.dtyp.size →
            ph.annot.livebits (.un op x) &&& ~~~bitmaskOfSize w.bits ≠ 0 →
            RedundantOk ph.annot w.dtyp.signed w.dtyp.size w.bits (deleteCvtls ph x)
        | .cvt dtyp dsctyp => dsctyp.size < dtyp.size →
            ph.annot.livebits (.un op x) &&& ~~~dsctyp.bits ≠ 0 →
            RedundantOk ph.annot dsctyp.signed dtyp.size dsctyp.size (deleteCvtls ph x)
        | .lnot _ _ => ph.narrows (.un op x) = false
        | _ => True) ∧ DeleteOk ph x
  | .bin op x y =>
    ph.dead (.bin op x y) = false →
      (match op with
        | .logical _ _ => ph.narrows (.bin op x y) = false
        | _ => True) ∧ DeleteOk ph x ∧ DeleteOk ph y
  | .select dtyp descB c x y =>
    ph.dead (.select dtyp descB c x y) = false →
      DeleteOk ph c ∧ DeleteOk ph x ∧ DeleteOk ph y

variable {i : Nat} {e x y : Expr} {op : UnOp} {w : Width}

/-! ## The rewriting keeps the live bits -/

section Preservation

variable {ph : Phase} {ρ : Env}

theorem agreeOn_filled_zero (ty : LoadType) (c : BitVec 64) :
    AgreeOn (ty.filled 0) (ty.value c) 0 := by
  intro i hi
  unfold LoadType.filled at hi
  by_cases h : ty.dsctyp.signed = false ∨ (0 : BitVec 64).getLsbD (ty.dsctyp.size - 1) = true
  · rw [if_pos h, BitVec.getLsbD_and, Bool.and_eq_true] at hi
    have hs : ty.dsctyp.signed = false := by
      rcases h with h | h
      · exact h
      · simp at h
    have hge : ¬ i < ty.dsctyp.size := by
      intro hlt
      have hi64 : i < 64 := BitVec.lt_of_getLsbD hi.1
      have hnot := hi.2
      rw [BitVec.getLsbD_not, bitsInType, getLsbD_bitmaskOfSize, decide_eq_true hlt,
        decide_eq_true hi64] at hnot
      exact absurd hnot (by decide)
    unfold LoadType.value
    rw [getLsbD_low, getLsbD_extend, hs]
    simp [hge]
  · rw [if_neg h] at hi
    simp at hi

theorem agreeOn_dead (t : Mtype) (h : ph.dead e = true) :
    AgreeOn (seen ph.annot.livebits e) (eval ρ e) (eval ρ (zeroConst t)) := by
  have hlive : ph.annot.livebits e = 0 := by
    simp only [Phase.dead, Bool.and_eq_true, beq_iff_eq] at h
    exact h.1
  have hseen : ∀ m, seen ph.annot.livebits e = 0 &&& bitsInType e.dtyp ||| m →
      Sub (seen ph.annot.livebits e) m := by
    intro m hm
    rw [hm]
    exact or_sub ((and_sub_left _ _).trans (zero_sub _)) (Sub.refl _)
  cases e with
  | var v =>
    exact (agreeOn_filled_zero v.ty _).mono (hseen _ (by simp only [seen, hlive]))
  | defVar v rhs =>
    exact (agreeOn_filled_zero v.ty _).mono (hseen _ (by simp only [seen, hlive]))
  | iload ty pointer mem base =>
    exact (agreeOn_filled_zero ty _).mono (hseen _ (by simp only [seen, hlive]))
  | _ => exact (agreeOn_zero _ _).mono (hseen 0 (by simp only [seen, hlive]))

theorem to32_size (t : Rtype) : t.to32.size = 32 := by
  cases t <;> rfl

theorem lt_of_seen_narrows (h : ph.narrows e = true)
    (hseen : seen ph.annot.livebits e = ph.annot.livebits e &&& bitsInType e.dtyp)
    (hi : (seen ph.annot.livebits e).getLsbD i = true) : i < 32 := by
  simp only [Phase.narrows, Bool.and_eq_true, beq_iff_eq] at h
  by_contra hge
  rw [hseen] at hi
  have hlive := and_sub_left _ _ i hi
  have hbit : (ph.annot.livebits e >>> 32).getLsbD (i - 32) = false := by simp [h.2]
  rw [BitVec.getLsbD_ushiftRight, show 32 + (i - 32) = i by omega, hlive] at hbit
  exact absurd hbit (by simp)

theorem write_to32 {t : Rtype} (ht : t.size = 64) (v : BitVec 64) (hi : i < 32) :
    (write t v).getLsbD i = (write t.to32 v).getLsbD i := by
  unfold write
  rw [getLsbD_low, getLsbD_low, to32_size, ht]
  simp [hi, show i < 64 by omega]

theorem agreeOn_un_narrow (a : BitVec 64) (hop : ∀ dtyp dsctyp, op ≠ .lnot dtyp dsctyp) :
    AgreeOn (seen ph.annot.livebits (.un op x)) (op.eval a)
      ((if ph.narrows (.un op x) then op.narrow else op).eval a) := by
  by_cases hn : ph.narrows (.un op x) = true
  · rw [if_pos hn]
    intro i hi
    have hseen : seen ph.annot.livebits (.un op x) =
        ph.annot.livebits (.un op x) &&& bitsInType (Expr.un op x).dtyp := BitVec.or_zero
    have hlt := lt_of_seen_narrows hn hseen hi
    have hsize : (Expr.un op x).dtyp.size = 64 := by
      simp only [Phase.narrows, Bool.and_eq_true, beq_iff_eq] at hn
      exact hn.1.2
    cases op with
    | neg t => exact write_to32 hsize _ hlt
    | bnot t => exact write_to32 hsize _ hlt
    | lnot dtyp dsctyp => exact absurd rfl (hop dtyp dsctyp)
    | _ => rfl
  · rw [if_neg hn]
    exact AgreeOn.refl _ _

theorem agreeOn_bin_narrow {op : BinOp} (a b : BitVec 64)
    (hop : ∀ k t, op ≠ .logical k t) : AgreeOn (seen ph.annot.livebits (.bin op x y)) (op.eval a b)
      ((if ph.narrows (.bin op x y) then op.narrow else op).eval a b) := by
  by_cases hn : ph.narrows (.bin op x y) = true
  · rw [if_pos hn]
    intro i hi
    have hseen : seen ph.annot.livebits (.bin op x y) =
        ph.annot.livebits (.bin op x y) &&& bitsInType (Expr.bin op x y).dtyp := BitVec.or_zero
    have hlt := lt_of_seen_narrows hn hseen hi
    have hsize : (Expr.bin op x y).dtyp.size = 64 := by
      simp only [Phase.narrows, Bool.and_eq_true, beq_iff_eq] at hn
      exact hn.1.2
    cases op with
    | arith k t => exact write_to32 hsize _ hlt
    | bitwise k t => exact write_to32 hsize _ hlt
    | logical k t => exact absurd rfl (hop k t)
    | _ => rfl
  · rw [if_neg hn]
    exact AgreeOn.refl _ _

theorem seen_un (h : (seen ph.annot.livebits (.un op x)).getLsbD i = true) :
    (ph.annot.livebits (.un op x)).getLsbD i = true ∧ i < op.dtyp.size := by
  have hseen : seen ph.annot.livebits (.un op x) =
      ph.annot.livebits (.un op x) &&& bitsInType op.dtyp := BitVec.or_zero
  rw [hseen, BitVec.getLsbD_and, Bool.and_eq_true] at h
  refine ⟨h.1, ?_⟩
  have := h.2
  simp [bitsInType] at this
  exact this.1

theorem not_live_of_dead_bits {live bits : BitVec 64} (h : live &&& ~~~bits = 0)
    (hi : live.getLsbD i = true) : bits.getLsbD i = true :=
  sub_iff_and_not_eq_zero.mpr h i hi

theorem agreeOn_drop_cvtl (a : BitVec 64)
    (h : ph.annot.livebits (.un (.cvtl w) x) &&& ~~~bitmaskOfSize w.bits = 0 ∨
      w.bits = w.dtyp.size ∨ Unchanged w.dtyp.signed w.dtyp.size w.bits a) :
    AgreeOn (seen ph.annot.livebits (.un (.cvtl w) x)) ((UnOp.cvtl w).eval a) a := by
  intro i hi
  obtain ⟨hlive, hlt⟩ := seen_un hi
  have hlt' : i < w.dtyp.size := hlt
  have hle := w.dtyp.size_le
  have hvalue : ((UnOp.cvtl w).eval a).getLsbD i =
      (extendFrom w.dtyp.signed w.bits a).getLsbD i := by
    show (low w.dtyp.size _).getLsbD i = _
    rw [getLsbD_low, decide_eq_true hlt', Bool.true_and]
    rfl
  have hkeep : i < w.bits → (extendFrom w.dtyp.signed w.bits a).getLsbD i = a.getLsbD i := by
    intro hb
    unfold extendFrom
    by_cases hs : w.dtyp.signed = true
    · rw [if_pos hs, getLsbD_sext w.pos, Nat.min_eq_left (by omega)]
      simp [show i < 64 by omega]
    · rw [if_neg hs, getLsbD_low]
      simp [hb]
  rw [hvalue]
  rcases h with h | h | h
  · have hb := not_live_of_dead_bits h hlive
    simp at hb
    exact hkeep hb.1
  · exact hkeep (by omega)
  · exact h i (by simp; omega)

theorem agreeOn_drop_cvt {dtyp dsctyp : Rtype} (a : BitVec 64)
    (h : ph.annot.livebits (.un (.cvt dtyp dsctyp) x) &&& ~~~dsctyp.bits = 0 ∨
      Unchanged dsctyp.signed dtyp.size dsctyp.size a) :
    AgreeOn (seen ph.annot.livebits (.un (.cvt dtyp dsctyp) x))
      ((UnOp.cvt dtyp dsctyp).eval a) a := by
  intro i hi
  obtain ⟨hlive, hlt⟩ := seen_un hi
  have hlt' : i < dtyp.size := hlt
  have hle := dtyp.size_le
  have hvalue : ((UnOp.cvt dtyp dsctyp).eval a).getLsbD i =
      (extendFrom dsctyp.signed dsctyp.size a).getLsbD i := by
    show (low dtyp.size _).getLsbD i = _
    rw [getLsbD_low, decide_eq_true hlt', Bool.true_and]
    rfl
  rw [hvalue]
  rcases h with h | h
  · have hb := not_live_of_dead_bits h hlive
    rw [getLsbD_bits, decide_eq_true_eq] at hb
    unfold extendFrom
    by_cases hs : dsctyp.signed = true
    · rw [if_pos hs, getLsbD_sext dsctyp.size_pos, Nat.min_eq_left (by omega)]
      simp [show i < 64 by omega]
    · rw [if_neg hs, getLsbD_low]
      simp [hb]
  · exact h i (by simp; omega)

theorem agreeOn_propagate {v : Var} {rhs : Expr} (hw : v.ty.dtyp.size ≤ v.ty.dsctyp.size) :
    AgreeOn (seen ph.annot.livebits (.defVar v rhs)) (eval ρ (.defVar v rhs)) (eval ρ rhs) := by
  have hpos := v.ty.dsctyp.size_pos
  intro i hi
  have hlt : i < v.ty.dtyp.size := by
    simp only [seen, BitVec.getLsbD_or, Bool.or_eq_true] at hi
    have htype : (bitsInType v.ty.dtyp).getLsbD i = true := by
      rcases hi with hi | hi
      · exact and_sub_right _ _ i hi
      · unfold LoadType.filled at hi
        split_ifs at hi
        · exact and_sub_left _ _ i hi
        · simp at hi
    simp [bitsInType] at htype
    exact htype.1
  have hle := v.ty.dtyp.size_le
  show (v.ty.value (eval ρ rhs)).getLsbD i = _
  unfold LoadType.value
  rw [getLsbD_low, getLsbD_extend, decide_eq_true hlt, Bool.true_and,
    Nat.min_eq_left (by omega), decide_eq_true (show i < 64 by omega),
    decide_eq_true (show i < v.ty.dsctyp.size by omega)]
  simp

/-- What the induction over the tree gives for an operand. -/
def Preserves (ph : Phase) (ρ : Env) (e : Expr) : Prop :=
  SoundLivebits ph.annot.livebits e → DeleteOk ph e →
    AgreeOn (seen ph.annot.livebits e) (eval ρ e) (eval ρ (deleteCvtls ph e))

theorem preserves_of_dead (hdead : ph.dead e = true) : Preserves ph ρ e := by
  intro _ _
  rw [deleteCvtls_dead hdead]
  exact agreeOn_dead _ hdead

theorem preserves_cvtl (ih : Preserves ph ρ x) : Preserves ph ρ (.un (.cvtl w) x) := by
  cases hdead : ph.dead (.un (.cvtl w) x) with
  | true => exact preserves_of_dead hdead
  | false =>
    intro hsound hok
    simp only [deleteCvtls]
    rw [if_neg (by simp [hdead])]
    obtain ⟨hroot, hokx⟩ := hok hdead
    have hx := ih hsound.2 hokx
    have hnode := hsound.1 ρ _ hx
    by_cases hdrop : (ph.annot.livebits (.un (.cvtl w) x) &&& ~~~bitmaskOfSize w.bits == 0 ||
        redundantCvtl ph.annot w.dtyp.signed w.dtyp.size w.bits (deleteCvtls ph x)) = true
    · rw [if_pos hdrop]
      apply hnode.trans
      apply agreeOn_drop_cvtl
      by_cases hlive : ph.annot.livebits (.un (.cvtl w) x) &&& ~~~bitmaskOfSize w.bits = 0
      · exact .inl hlive
      · rcases Nat.lt_or_ge w.bits w.dtyp.size with hlt | hge
        · have hred : redundantCvtl ph.annot w.dtyp.signed w.dtyp.size w.bits
              (deleteCvtls ph x) = true := by
            rw [Bool.or_eq_true, beq_iff_eq] at hdrop
            exact hdrop.resolve_left hlive
          exact .inr (.inr ((redundantCvtl_right_iff w.dtyp.size_eq w.pos hlt _).mpr
            (hroot hlt hlive) hred ρ))
        · exact .inr (.inl (Nat.le_antisymm w.le hge))
    · rw [if_neg hdrop]
      exact hnode

theorem preserves_cvt {dtyp dsctyp : Rtype} (ih : Preserves ph ρ x) :
    Preserves ph ρ (.un (.cvt dtyp dsctyp) x) := by
  cases hdead : ph.dead (.un (.cvt dtyp dsctyp) x) with
  | true => exact preserves_of_dead hdead
  | false =>
    intro hsound hok
    simp only [deleteCvtls]
    rw [if_neg (by simp [hdead])]
    obtain ⟨hroot, hokx⟩ := hok hdead
    have hx := ih hsound.2 hokx
    have hnode := hsound.1 ρ _ hx
    by_cases hdrop : (decide (dsctyp.size < dtyp.size) &&
        (ph.annot.livebits (.un (.cvt dtyp dsctyp) x) &&& ~~~dsctyp.bits == 0 ||
          redundantCvtl ph.annot dsctyp.signed dtyp.size dsctyp.size (deleteCvtls ph x))) = true
    · rw [if_pos hdrop]
      apply hnode.trans
      apply agreeOn_drop_cvt
      rw [Bool.and_eq_true, decide_eq_true_eq] at hdrop
      by_cases hlive : ph.annot.livebits (.un (.cvt dtyp dsctyp) x) &&& ~~~dsctyp.bits = 0
      · exact .inl hlive
      · have hred : redundantCvtl ph.annot dsctyp.signed dtyp.size dsctyp.size
            (deleteCvtls ph x) = true := by
          have hor := hdrop.2
          rw [Bool.or_eq_true, beq_iff_eq] at hor
          exact hor.resolve_left hlive
        exact .inr ((redundantCvtl_right_iff dtyp.size_eq dsctyp.size_pos hdrop.1 _).mpr
          (hroot hdrop.1 hlive) hred ρ)
    · rw [if_neg hdrop]
      exact hnode

theorem preserves_un (ih : Preserves ph ρ x) (hdel : deleteCvtls ph (.un op x) =
      if ph.dead (.un op x) then zeroConst op.dtyp
      else .un (if ph.narrows (.un op x) then op.narrow else op) (deleteCvtls ph x))
    (hlnot : ∀ dtyp dsctyp, op = .lnot dtyp dsctyp → ph.dead (.un op x) = false →
      DeleteOk ph (.un op x) → ph.narrows (.un op x) = false) : Preserves ph ρ (.un op x) := by
  cases hdead : ph.dead (.un op x) with
  | true => exact preserves_of_dead hdead
  | false =>
    intro hsound hok
    rw [hdel]
    rw [if_neg (by simp [hdead])]
    have hx := ih hsound.2 (hok hdead).2
    apply (hsound.1 ρ _ hx).trans
    by_cases hl : ∃ dtyp dsctyp, op = .lnot dtyp dsctyp
    · obtain ⟨dtyp, dsctyp, rfl⟩ := hl
      rw [hlnot dtyp dsctyp rfl hdead hok]
      exact AgreeOn.refl _ _
    · exact agreeOn_un_narrow _ (fun dtyp dsctyp h => hl ⟨dtyp, dsctyp, h⟩)

theorem preserves_bin {op : BinOp} (ihx : Preserves ph ρ x)
    (ihy : Preserves ph ρ y) : Preserves ph ρ (.bin op x y) := by
  cases hdead : ph.dead (.bin op x y) with
  | true => exact preserves_of_dead hdead
  | false =>
    intro hsound hok
    simp only [deleteCvtls]
    rw [if_neg (by simp [hdead])]
    obtain ⟨hlog, hokx, hoky⟩ := hok hdead
    have hnode := hsound.1 ρ _ _ (ihx hsound.2.1 hokx) (ihy hsound.2.2 hoky)
    apply hnode.trans
    by_cases hl : ∃ k t, op = .logical k t
    · obtain ⟨k, t, rfl⟩ := hl
      simp only at hlog
      rw [hlog]
      exact AgreeOn.refl _ _
    · exact agreeOn_bin_narrow _ _ (fun k t h => hl ⟨k, t, h⟩)

theorem soundLivebits_un {livebits : Expr → BitVec 64}
    (hsub : Sub (op.kidBits (seen livebits (.un op x))) (seen livebits x))
    (hx : SoundLivebits livebits x) : SoundLivebits livebits (.un op x) :=
  ⟨fun _ _ ha => agreeOn_un op (ha.mono hsub), hx⟩

theorem preserves_leaf (t : Mtype)
    (hdel : deleteCvtls ph e = if ph.dead e then zeroConst t else e) : Preserves ph ρ e := by
  cases hdead : ph.dead e with
  | true => exact preserves_of_dead hdead
  | false =>
    intro _ _
    rw [hdel, if_neg (by simp [hdead])]
    exact AgreeOn.refl _ _

theorem preserves_defVar (v : Var) (rhs : Expr) : Preserves ph ρ (.defVar v rhs) := by
  cases hdead : ph.dead (.defVar v rhs) with
  | true => exact preserves_of_dead hdead
  | false =>
    intro _ hok
    simp only [deleteCvtls]
    rw [if_neg (by simp [hdead])]
    by_cases hcopy : ph.copyPropagate v rhs = true
    · rw [if_pos hcopy]
      exact agreeOn_propagate (hok hdead hcopy)
    · rw [if_neg hcopy]
      exact AgreeOn.refl _ _

theorem preserves_iload {ty : LoadType} {pointer : Rtype} {mem : Nat} {base : Expr}
    (ih : Preserves ph ρ base) : Preserves ph ρ (.iload ty pointer mem base) := by
  cases hdead : ph.dead (.iload ty pointer mem base) with
  | true => exact preserves_of_dead hdead
  | false =>
    intro hsound hok
    simp only [deleteCvtls]
    rw [if_neg (by simp [hdead])]
    exact hsound.1 ρ _ (ih hsound.2 (hok hdead))

theorem preserves_select {dtyp : Rtype} {descB : Bool} {c : Expr} (ihc : Preserves ph ρ c)
    (ihx : Preserves ph ρ x) (ihy : Preserves ph ρ y) :
    Preserves ph ρ (.select dtyp descB c x y) := by
  cases hdead : ph.dead (.select dtyp descB c x y) with
  | true => exact preserves_of_dead hdead
  | false =>
    intro hsound hok
    simp only [deleteCvtls]
    rw [if_neg (by simp [hdead])]
    obtain ⟨hokc, hokx, hoky⟩ := hok hdead
    obtain ⟨hnode, hsc, hsx, hsy⟩ := hsound
    exact hnode ρ _ _ _ (ihc hsc hokc) (ihx hsx hokx) (ihy hsy hoky)

theorem preserves_deleteCvtls (ph : Phase) (ρ : Env) (e : Expr) : Preserves ph ρ e := by
  induction e with
  | const c => exact preserves_leaf _ rfl
  | lda t id => exact preserves_leaf _ rfl
  | var v => exact preserves_leaf _ rfl
  | defVar v rhs ih => exact preserves_defVar v rhs
  | iload ty pointer mem base ih => exact preserves_iload ih
  | un op x ih =>
    cases op with
    | cvtl w => exact preserves_cvtl ih
    | cvt dtyp dsctyp => exact preserves_cvt ih
    | lnot dtyp dsctyp => exact preserves_un ih rfl (fun _ _ _ hdead hok => (hok hdead).1)
    | _ => exact preserves_un ih rfl (fun _ _ h => absurd h (by simp))
  | bin op x y ihx ihy => exact preserves_bin ihx ihy
  | select dtyp descB c x y ihc ihx ihy => exact preserves_select ihc ihx ihy

/-- A phase in which all bits are live, on a 64-bit target. -/
def livePhase : Phase :=
  { annot := liveAnnot, target64 := true, volatile := fun _ => false,
    copyPropagate := fun _ _ => false }

/-- `I4CVTL 8` twice. -/
def charTwice : Expr :=
  .un (.cvtl Width.char) charTree

/-- `I8CVTL 32` of the conversion of `-x` from `U4` to `I8`. -/
def cvtlOfWiden : Expr :=
  .un (.cvtl { dtyp := .I8, bits := 32, pos := by decide, le := by decide })
    (.un (.cvt .I8 .U4) (.un (.neg .U4) (.var (u4Var 0))))

end Preservation

end Bdce
