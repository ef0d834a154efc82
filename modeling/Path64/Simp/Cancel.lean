import Path64.Simp.Compare

/-! # Cancellation in comparisons

`cancel_in_relop`: negations are removed on both sides of a comparison, a
term of one side is cancelled against a term of the other, or a whole
side is found as a term of the other. What remains is compared with its
signs; where only one of the two has a minus sign it is negated. -/

namespace Simp.Whirl

open Option

/-! ## The search -/

/-- `Enable_Cfold_Aggressive`, `Simp_Unsafe_Relops` and `Simp_Fold_Unsigned_Relops`. -/
structure CancelOptions where
  aggressive : Bool
  unsafeRelops : Bool
  foldUnsignedRelops : Bool

/-- The operands of a sum or a difference, and whether the second is subtracted. -/
def sumParts : Expr → Option (Expr × Expr × Bool)
  | .binary .add _ a b => some (a, b, false)
  | .binary .sub _ a b => some (a, b, true)
  | _ => none

def isAdd : Expr → Bool
  | .binary .add _ _ _ => true
  | _ => false

/-- What a cancellation leaves: the other term, whether it is subtracted, and the other side. -/
inductive Found where
  | pair (lhs : Expr) (sLhs : Bool) (rest : Option (Expr × Bool)) (dt : Expr)
  | side (lhs : Expr) (sLhs : Bool) (rhs : Expr) (sRhs : Bool)

/-- `simp_diff_value` of equal trees. -/
def diffValue (k : Expr) : Expr := intConst k.rtype 0

section search
variable (same : Expr → Expr → Bool)

/-- The loops over the terms of both sides. -/
def findPair (x0 x1 : Expr) (s1 : Bool) (x2 : Expr) (s2 : Bool) (x3 : Option (Expr × Bool)) :
    Option Found :=
  if s2 = false ∧ same x0 x2 then some (.pair x1 s1 x3 (diffValue x0))
  else if x3.any (fun p => p.2 == false && same x0 p.1) then
    some (.pair x1 s1 (some (x2, s2)) (diffValue x0))
  else if s1 = s2 ∧ same x1 x2 then some (.pair x0 false x3 (diffValue x1))
  else if x3.any (fun p => p.2 == s1 && same x1 p.1) then
    some (.pair x0 false (some (x2, s2)) (diffValue x1))
  else none

/-- Each side against the terms of the other. -/
def findSide (k0 k1 x0 x1 : Expr) (s1 : Bool) (x2 x3 : Expr) (s3 : Bool) : Option Found :=
  if same k1 x0 then some (.side x1 s1 (diffValue k1) false)
  else if same k0 x2 then some (.side (diffValue k0) false x3 s3)
  else if s1 = false ∧ same k1 x1 then some (.side x0 false (diffValue k1) false)
  else if s3 = false ∧ same k0 x3 then some (.side (diffValue k0) false x2 false)
  else none

/-- What is found, for a sum or difference on the left. -/
def findCancel (k0 k1 : Expr) : Option Found :=
  match sumParts k0 with
  | none => none
  | some (x0, x1, s1) =>
    match sumParts k1 with
    | some (x2, x3, s3) =>
      match findPair same x0 x1 s1 x2 false (some (x3, s3)) with
      | some f => some f
      | none => findSide same k0 k1 x0 x1 s1 x2 x3 s3
    | none =>
      match k1 with
      | .unary .neg _ x2 => findPair same x0 x1 s1 x2 true none
      | _ => findPair same x0 x1 s1 k1 false none

end search

/-! ## The tree -/

/-- `Mtype_TransferSign(MTYPE_I4, ty)`. -/
def signedOf : Mtype → Mtype
  | .U1 => .I1
  | .U2 => .I2
  | .U4 => .I4
  | .U8 => .I8
  | ty => ty

section build
variable (create : Expr → Expr) (op : Relop) (rt ty : Mtype)

/-- The terms that remain, with appropriate signs. -/
def signedRelop (lhs : Expr) (sLhs : Bool) (rhs : Expr) (sRhs : Bool) : Expr :=
  let negated e := create (.unary .neg (signedOf ty) e)
  if sLhs && sRhs then create (.compare op rt ty rhs lhs)
  else create (.compare op rt ty (if sLhs then negated lhs else lhs)
    (if sRhs then negated rhs else rhs))

/-- The comparison of what is left. -/
def buildFound : Found → Expr
  | .pair lhs sLhs none dt =>
    let rhs := if sLhs then dt else create (.unary .neg (signedOf ty) dt)
    signedRelop create op rt ty lhs sLhs rhs sLhs
  | .pair lhs sLhs (some (rhs, sRhs)) dt =>
    let dt := if sLhs then create (.unary .neg (signedOf ty) dt) else dt
    signedRelop create op rt ty (create (.binary .add ty lhs dt)) sLhs rhs sRhs
  | .side lhs sLhs rhs sRhs => signedRelop create op rt ty lhs sLhs rhs sRhs

end build

/-- The two canonicalizations: a sum or difference on the left, and sums first. -/
def swapSides (op : Relop) (k0 k1 : Expr) : Relop × Expr × Expr :=
  let (op, k0, k1) := if (sumParts k0).isSome then (op, k0, k1) else (op.commute, k1, k0)
  if !isAdd k0 && isAdd k1 then (op.commute, k1, k0) else (op, k0, k1)

/-- A comparison of order. -/
def Relop.isOrder : Relop → Bool
  | eq | ne => false
  | _ => true

/-- `cancel_in_relop` for a sum or difference on the left. -/
def cancelSums (o : CancelOptions) (same : Expr → Expr → Bool) (create : Expr → Expr) (op : Relop)
    (rt ty : Mtype) (k0 k1 : Expr) : Option Expr :=
  if ty.isUnsigned ∧ !o.foldUnsignedRelops ∧ op.isOrder then none
  else if op.isOrder ∧ !ty.isUnsigned ∧ !o.unsafeRelops then none
  else (findCancel same k0 k1).map (buildFound create op rt ty)

/-- The two operands of negations. -/
def bothNegated : Expr → Expr → Option (Expr × Expr)
  | .unary .neg _ a, .unary .neg _ b => some (a, b)
  | _, _ => none

/-- `cancel_in_relop`, for trees without pointers. -/
def cancelInRelop (o : CancelOptions) (same : Expr → Expr → Bool) (create : Expr → Expr)
    (op : Relop) (rt ty : Mtype) (k0 k1 : Expr) : Option Expr :=
  match bothNegated k0 k1 with
  | some (a, b) => some (create (.compare op.commute rt ty a b))
  | none =>
    if !o.aggressive then none
    else if (sumParts k0).isNone ∧ (sumParts k1).isNone then none
    else
      let (op, k0, k1) := swapSides op k0 k1
      cancelSums o same create op rt ty k0 k1

/-! ## Numbers up to overflow -/

/-- The numbers are congruent, and equal for a signed type, whose trees do not overflow. -/
def Agree (ty : Mtype) (a b : Int) : Prop :=
  (2 : Int) ^ ty.bits ∣ a - b ∧ (ty.isUnsigned = false → a = b)

section agree
variable {ty : Mtype} {a b c d : Int}

theorem Agree.refl (ty : Mtype) (a : Int) : Agree ty a a :=
  ⟨by rw [sub_self]; exact dvd_zero _, fun _ => rfl⟩

theorem Agree.of_eq (h : a = b) : Agree ty a b := h ▸ Agree.refl ty a

theorem Agree.trans (h : Agree ty a b) (h' : Agree ty b c) : Agree ty a c :=
  ⟨by rw [← sub_add_sub_cancel a b c]; exact dvd_add h.1 h'.1, fun hu => (h.2 hu).trans (h'.2 hu)⟩

theorem Agree.sub (h : Agree ty a b) (h' : Agree ty c d) : Agree ty (a - c) (b - d) :=
  ⟨by rw [sub_sub_sub_comm]; exact dvd_sub h.1 h'.1, fun hu => by rw [h.2 hu, h'.2 hu]⟩

theorem Agree.wrap (x : Int) (h : ty.isUnsigned = false → ty.Holds x) : Agree ty (ty.wrap x) x :=
  ⟨by
    obtain ⟨-, k, hk⟩ := ty.wrap_spec x
    rw [hk, add_sub_cancel_left]
    exact dvd_mul_left _ _, fun hu => Mtype.wrap_of_holds (h hu)⟩

end agree

/-- A term with its sign. -/
def withSign (s : Bool) (x : Int) : Int := if s then -x else x

variable {t : Mtype} {x0 x1 x2 x3 : Expr} {s1 s3 : Bool} {f : Found}

section values
variable {ρ : Env} {ty : Mtype} {k : Expr}

theorem sumParts_value {a b : Expr} {s : Bool} (hk : Uniform ty k) (hfit : NoOverflow ρ k)
    (h : sumParts k = some (a, b, s)) : Uniform ty a ∧ Uniform ty b ∧
      Agree ty (ty.wrap (eval ρ k)) (ty.wrap (eval ρ a) + withSign s (ty.wrap (eval ρ b))) := by
  unfold sumParts at h
  split at h
  · simp only [some.injEq, Prod.mk.injEq] at h
    obtain ⟨rfl, rfl, rfl⟩ := h
    obtain ⟨rfl, ha, hb⟩ := hk
    refine ⟨ha, hb, ?_⟩
    rw [eval_add, Mtype.wrap_wrap, ← Mtype.wrap_add_wrap]
    exact Agree.wrap _ hfit.2.2
  · simp only [some.injEq, Prod.mk.injEq] at h
    obtain ⟨rfl, rfl, rfl⟩ := h
    obtain ⟨rfl, ha, hb⟩ := hk
    refine ⟨ha, hb, ?_⟩
    rw [eval_sub, Mtype.wrap_wrap, ← Mtype.wrap_sub_wrap]
    exact Agree.wrap _ hfit.2.2
  · cases h

theorem neg_value {a : Expr} (hk : Uniform ty (.unary .neg t a))
    (hfit : NoOverflow ρ (.unary .neg t a)) :
    Agree ty (ty.wrap (eval ρ (.unary .neg t a))) (-ty.wrap (eval ρ a)) := by
  obtain ⟨rfl, -⟩ := hk
  have hval : t.wrap (eval ρ (.unary .neg t a)) = t.wrap (-t.wrap (eval ρ a)) := by
    show t.wrap (t.wrap (-eval ρ a)) = _
    rw [Mtype.wrap_wrap, ← zero_sub, ← zero_sub (t.wrap _), ← Mtype.wrap_sub_wrap,
      ← Mtype.wrap_sub_wrap 0 (t.wrap _), Mtype.wrap_wrap]
  rw [hval]
  exact Agree.wrap _ hfit.2

/-- The value of what may be left of a side. -/
def restValue (ρ : Env) (ty : Mtype) : Option (Expr × Bool) → Int
  | none => 0
  | some p => withSign p.2 (ty.wrap (eval ρ p.1))

/-- What was found has the difference of the sides. -/
def Found.Balanced (ρ : Env) (ty : Mtype) (d : Int) : Found → Prop
  | .pair lhs s rest dt => eval ρ dt = 0 ∧
    Agree ty d (withSign s (ty.wrap (eval ρ lhs)) - restValue ρ ty rest)
  | .side lhs s rhs s' =>
    Agree ty d (withSign s (ty.wrap (eval ρ lhs)) - withSign s' (ty.wrap (eval ρ rhs)))

theorem eval_diffValue (k : Expr) : eval ρ (diffValue k) = 0 := by
  unfold diffValue
  rw [eval_intConst]
  exact k.rtype.wrap_zero

section found
variable {same : Expr → Expr → Bool} (hsame : ∀ a b, same a b = true → eval ρ a = eval ρ b)
include hsame

/-- Taking an equal term out of both sides keeps their difference. -/
theorem findPair_balanced {s2 : Bool} {x3 : Option (Expr × Bool)}
    {K0 K1 : Int} (h0 : Agree ty K0 (ty.wrap (eval ρ x0) + withSign s1 (ty.wrap (eval ρ x1))))
    (h1 : Agree ty K1 (withSign s2 (ty.wrap (eval ρ x2)) + restValue ρ ty x3))
    (h : findPair same x0 x1 s1 x2 s2 x3 = some f) : f.Balanced ρ ty (K0 - K1) := by
  have hdiff := h0.sub h1
  unfold findPair at h
  split at h
  · rename_i hc
    obtain rfl := some.inj h
    obtain ⟨rfl, heq⟩ := hc
    refine ⟨eval_diffValue x0, hdiff.trans (Agree.of_eq ?_)⟩
    rw [hsame _ _ heq]
    unfold withSign
    simp only [Bool.false_eq_true, if_false]
    ring
  split at h
  · rename_i hc
    obtain rfl := some.inj h
    cases x3 with
    | none => cases hc
    | some p =>
      simp only [any_some, Bool.and_eq_true, beq_iff_eq] at hc
      refine ⟨eval_diffValue x0, hdiff.trans (Agree.of_eq ?_)⟩
      rw [hsame _ _ hc.2]
      unfold restValue withSign
      simp only [hc.1, Bool.false_eq_true, if_false]
      ring
  split at h
  · rename_i hc
    obtain rfl := some.inj h
    obtain ⟨rfl, heq⟩ := hc
    refine ⟨eval_diffValue x1, hdiff.trans (Agree.of_eq ?_)⟩
    rw [hsame _ _ heq]
    unfold withSign
    simp only [Bool.false_eq_true, if_false]
    ring
  split at h
  · rename_i hc
    obtain rfl := some.inj h
    cases x3 with
    | none => cases hc
    | some p =>
      simp only [any_some, Bool.and_eq_true, beq_iff_eq] at hc
      refine ⟨eval_diffValue x1, hdiff.trans (Agree.of_eq ?_)⟩
      rw [hsame _ _ hc.2]
      unfold restValue
      dsimp only
      rw [hc.1]
      unfold withSign
      simp only [Bool.false_eq_true, if_false]
      ring
  · cases h

theorem findSide_balanced {k0 k1 : Expr}
    (h0 : Agree ty (ty.wrap (eval ρ k0)) (ty.wrap (eval ρ x0) + withSign s1 (ty.wrap (eval ρ x1))))
    (h1 : Agree ty (ty.wrap (eval ρ k1)) (ty.wrap (eval ρ x2) + withSign s3 (ty.wrap (eval ρ x3))))
    (h : findSide same k0 k1 x0 x1 s1 x2 x3 s3 = some f) :
    f.Balanced ρ ty (ty.wrap (eval ρ k0) - ty.wrap (eval ρ k1)) := by
  have hleft := h0.sub (Agree.refl ty (ty.wrap (eval ρ k1)))
  have hright := (Agree.refl ty (ty.wrap (eval ρ k0))).sub h1
  unfold findSide at h
  split at h
  · rename_i hc
    obtain rfl := some.inj h
    refine hleft.trans (Agree.of_eq ?_)
    rw [hsame _ _ hc, eval_diffValue, Mtype.wrap_zero]
    unfold withSign
    simp only [Bool.false_eq_true, if_false]
    ring
  split at h
  · rename_i hc
    obtain rfl := some.inj h
    refine hright.trans (Agree.of_eq ?_)
    rw [hsame _ _ hc, eval_diffValue, Mtype.wrap_zero]
    unfold withSign
    simp only [Bool.false_eq_true, if_false]
    ring
  split at h
  · rename_i hc
    obtain rfl := some.inj h
    obtain ⟨rfl, heq⟩ := hc
    refine hleft.trans (Agree.of_eq ?_)
    rw [hsame _ _ heq, eval_diffValue, Mtype.wrap_zero]
    unfold withSign
    simp only [Bool.false_eq_true, if_false]
    ring
  split at h
  · rename_i hc
    obtain rfl := some.inj h
    obtain ⟨rfl, heq⟩ := hc
    refine hright.trans (Agree.of_eq ?_)
    rw [hsame _ _ heq, eval_diffValue, Mtype.wrap_zero]
    unfold withSign
    simp only [Bool.false_eq_true, if_false]
    ring
  · cases h

theorem findCancel_balanced {k0 k1 : Expr} (hk0 : Uniform ty k0) (hk1 : Uniform ty k1)
    (hfit0 : NoOverflow ρ k0) (hfit1 : NoOverflow ρ k1) (h : findCancel same k0 k1 = some f) :
    f.Balanced ρ ty (ty.wrap (eval ρ k0) - ty.wrap (eval ρ k1)) := by
  unfold findCancel at h
  split at h
  · cases h
  rename_i x0 x1 s1 hparts0
  obtain ⟨-, -, h0⟩ := sumParts_value hk0 hfit0 hparts0
  split at h
  · rename_i x2 x3 s3 hparts1
    obtain ⟨-, -, h1⟩ := sumParts_value hk1 hfit1 hparts1
    split at h
    · rename_i f' hpair
      obtain rfl := some.inj h
      have h1' : Agree ty (ty.wrap (eval ρ k1)) (withSign false (ty.wrap (eval ρ x2)) +
          restValue ρ ty (some (x3, s3))) := h1
      exact findPair_balanced hsame h0 h1' hpair
    · exact findSide_balanced hsame h0 h1 h
  · split at h
    · rename_i t x2 hnone
      have h1 := neg_value hk1 hfit1
      refine findPair_balanced hsame h0 (h1.trans (Agree.of_eq ?_)) h
      exact (add_zero _).symm
    · refine findPair_balanced hsame h0 (Agree.of_eq ?_) h
      exact (add_zero _).symm

end found

end values

/-! ## What is left -/

section built
variable {ρ : Env} {create : Expr → Expr} {op : Relop} {rt ty : Mtype} {lhs rhs : Expr}
  {sLhs sRhs : Bool} {K0 K1 : Int}

theorem signedOf_bits (ty : Mtype) : (signedOf ty).bits = ty.bits := by cases ty <;> rfl

theorem Mtype.wrap_wrap_same {u : Mtype} (h : t.bits = u.bits) (x : Int) :
    t.wrap (u.wrap x) = t.wrap x := by
  rw [wrap_eq_iff, h, wrap_emod]

theorem eval_negated (hkeeps : Keeps ρ create) (e : Expr) :
    ty.wrap (eval ρ (create (.unary .neg (signedOf ty) e))) = ty.wrap (-ty.wrap (eval ρ e)) := by
  rw [hkeeps]
  show ty.wrap ((signedOf ty).wrap (-eval ρ e)) = _
  rw [Mtype.wrap_wrap_same (signedOf_bits ty).symm, ← zero_sub, ← zero_sub (ty.wrap _),
    ← Mtype.wrap_sub_wrap, ← Mtype.wrap_sub_wrap 0 (ty.wrap _), Mtype.wrap_wrap]

theorem eval_signedRelop (hkeeps : Keeps ρ create) :
    eval ρ (signedRelop create op rt ty lhs sLhs rhs sRhs) =
      if sLhs && sRhs then truth (op.Rel (ty.wrap (eval ρ rhs)) (ty.wrap (eval ρ lhs)))
      else truth (op.Rel (ty.wrap (withSign sLhs (ty.wrap (eval ρ lhs))))
        (ty.wrap (withSign sRhs (ty.wrap (eval ρ rhs))))) := by
  have hsign : ∀ (s : Bool) (e : Expr),
      ty.wrap (eval ρ (if s then create (.unary .neg (signedOf ty) e) else e)) =
        ty.wrap (withSign s (ty.wrap (eval ρ e))) := by
    intro s e
    unfold withSign
    cases s with
    | false => exact (Mtype.wrap_wrap _).symm
    | true => exact eval_negated hkeeps e
  unfold signedRelop
  dsimp only
  split
  · rw [hkeeps, eval_compare]
  · rw [hkeeps, eval_compare]
    simp only [hsign]

theorem signedRelop_equality (hkeeps : Keeps ρ create) (hop : op.isOrder = false)
    (hK0 : ty.wrap K0 = K0) (hK1 : ty.wrap K1 = K1) (h : Agree ty (K0 - K1)
      (withSign sLhs (ty.wrap (eval ρ lhs)) - withSign sRhs (ty.wrap (eval ρ rhs)))) :
    eval ρ (signedRelop create op rt ty lhs sLhs rhs sRhs) = truth (op.Rel K0 K1) := by
  have hdiff : ty.wrap K0 = ty.wrap K1 ↔ ty.wrap (withSign sLhs (ty.wrap (eval ρ lhs))) =
      ty.wrap (withSign sRhs (ty.wrap (eval ρ rhs))) := by
    rw [Mtype.wrap_eq_iff, Mtype.wrap_eq_iff, Int.emod_eq_emod_iff_emod_sub_eq_zero,
      Int.emod_eq_emod_iff_emod_sub_eq_zero, ← Int.dvd_iff_emod_eq_zero,
      ← Int.dvd_iff_emod_eq_zero]
    exact dvd_iff_dvd_of_dvd_sub h.1
  rw [hK0, hK1] at hdiff
  have heq : ∀ {a b c d : Int}, (a = b ↔ c = d) → truth (op.Rel a b) = truth (op.Rel c d) := by
    intro a b c d hiff
    cases op with
    | eq => exact truth_congr hiff
    | ne => exact truth_congr (not_congr hiff)
    | _ => cases hop
  rw [eval_signedRelop hkeeps]
  cases hb : sLhs && sRhs with
  | false =>
    rw [if_neg Bool.false_ne_true]
    exact heq hdiff.symm
  | true =>
    rw [if_pos rfl]
    apply heq
    rw [hdiff]
    obtain ⟨rfl, rfl⟩ := Bool.and_eq_true_iff.mp hb
    have hflip := wrap_eq_congr ty (a := ty.wrap (eval ρ rhs)) (b := ty.wrap (eval ρ lhs))
      (c := -ty.wrap (eval ρ lhs)) (d := -ty.wrap (eval ρ rhs)) (.inl (by ring))
    rwa [Mtype.wrap_wrap, Mtype.wrap_wrap] at hflip

/-- The smallest number of the type. -/
def Mtype.minimum (ty : Mtype) : Int := -2 ^ (ty.bits - 1)

theorem wrap_neg {x : Int} (hu : ty.isUnsigned = false) (hx : ty.Holds x) :
    ty.wrap (-x) = if x = ty.minimum then x else -x := by
  have hhalf := ty.two_pow_half
  have hpos : (0 : Int) < 2 ^ (ty.bits - 1) := by positivity
  split
  · -- the minimum is its own negation
    rename_i hmin
    have hcong : ty.wrap (-x) = ty.wrap x := by
      rw [wrap_eq_iff_dvd, hmin]
      refine ⟨1, ?_⟩
      unfold Mtype.minimum
      omega
    rw [hcong, Mtype.wrap_of_holds hx]
  · rename_i hmin
    apply Mtype.wrap_of_holds
    unfold Mtype.minimum at hmin
    unfold Mtype.Holds at hx ⊢
    rw [hu, if_neg Bool.false_ne_true] at hx ⊢
    omega

/-- The term that is negated, where one of the two has a minus sign. -/
def loneTerm (lhs : Expr) (sLhs : Bool) (rhs : Expr) (sRhs : Bool) : Option Expr :=
  if sLhs && !sRhs then some lhs else if sRhs && !sLhs then some rhs else none

/-- For an order relation the sides may change places while nothing overflows. -/
theorem signedRelop_order (hkeeps : Keeps ρ create) (hop : op.isOrder = true)
    (hu : ty.isUnsigned = false) (hK0 : ty.Holds K0) (hK1 : ty.Holds K1) (h : Agree ty (K0 - K1)
      (withSign sLhs (ty.wrap (eval ρ lhs)) - withSign sRhs (ty.wrap (eval ρ rhs)))) :
    eval ρ (signedRelop create op rt ty lhs sLhs rhs sRhs) = truth (op.Rel K0 K1) ↔
      ¬ ∃ e, loneTerm lhs sLhs rhs sRhs = some e ∧ ty.wrap (eval ρ e) = ty.minimum := by
  have hexact := h.2 hu
  have hL := ty.holds_wrap (eval ρ lhs)
  have hR := ty.holds_wrap (eval ρ rhs)
  have hhalf := ty.two_pow_half
  have hpos : (0 : Int) < 2 ^ (ty.bits - 1) := by positivity
  rw [eval_signedRelop hkeeps]
  unfold loneTerm
  have hrange : ∀ x, ty.Holds x → -2 ^ (ty.bits - 1) ≤ x ∧ x < 2 ^ (ty.bits - 1) := by
    intro x hx
    unfold Mtype.Holds at hx
    rwa [hu, if_neg Bool.false_ne_true] at hx
  have hr0 := hrange _ hK0
  have hr1 := hrange _ hK1
  have hrL := hrange _ hL
  have hrR := hrange _ hR
  -- one of the sides is a negation that is the minimum again at the minimum
  have hlone : ∀ x y a b : Int, ty.Holds y →
      (a = (if x = ty.minimum then x else -x) ∧ b = y ∧ K0 - K1 = -x - y) ∨
        (b = (if x = ty.minimum then x else -x) ∧ a = y ∧ K0 - K1 = y + x) →
      (truth (op.Rel a b) = truth (op.Rel K0 K1) ↔ ¬ x = ty.minimum) := by
    intro x y a b hy hab
    have hry := hrange _ hy
    by_cases hmin : x = ty.minimum
    · rw [if_pos hmin] at hab
      refine ⟨fun h => ?_, fun h => absurd hmin h⟩
      have hiff := iff_of_truth_eq h
      unfold Mtype.minimum at hmin
      rcases hab with ⟨rfl, rfl, hd⟩ | ⟨rfl, rfl, hd⟩ <;> cases op <;>
        simp only [Relop.Rel, Relop.isOrder, Bool.false_eq_true] at hiff hop <;> omega
    · rw [if_neg hmin] at hab
      refine ⟨fun _ => hmin, fun _ => truth_congr (op.rel_of_diff ?_)⟩
      rcases hab with ⟨rfl, rfl, hd⟩ | ⟨rfl, rfl, hd⟩ <;> omega
  cases sLhs with
  | false =>
    cases sRhs with
    | false =>
      simp only [withSign, Bool.false_eq_true, if_false, Bool.and_false, Bool.and_true,
        Bool.not_false, reduceCtorEq, false_and, exists_false, not_false_eq_true, iff_true,
        Mtype.wrap_wrap] at hexact ⊢
      exact truth_congr (op.rel_of_diff hexact.symm)
    | true =>
      simp only [withSign, Bool.false_eq_true, if_false, if_true, Bool.and_false,
        Bool.not_true, Bool.and_true, Bool.not_false, some.injEq, exists_eq_left',
        Mtype.wrap_wrap, wrap_neg hu hR] at hexact ⊢
      exact hlone _ _ _ _ hL (.inr ⟨rfl, rfl, by omega⟩)
  | true =>
    cases sRhs with
    | false =>
      simp only [withSign, Bool.false_eq_true, if_false, if_true, Bool.and_false,
        Bool.not_true, Bool.and_true, Bool.not_false, some.injEq, exists_eq_left',
        Mtype.wrap_wrap, wrap_neg hu hL] at hexact ⊢
      exact hlone _ _ _ _ hR (.inl ⟨rfl, rfl, by omega⟩)
    | true =>
      simp only [withSign, Bool.and_true, if_true, Bool.not_true, Bool.and_false,
        Bool.false_eq_true, if_false, reduceCtorEq, false_and, exists_false, not_false_eq_true,
        iff_true] at hexact ⊢
      exact truth_congr (op.rel_of_diff (by omega))

/-- The term that is negated in what is built of a find. -/
def Found.loneTerm : Found → Option Expr
  | .pair lhs s (some (rhs, s')) _ => Whirl.loneTerm lhs s rhs s'
  | .pair _ _ none _ => none
  | .side lhs s rhs s' => Whirl.loneTerm lhs s rhs s'

theorem buildFound_parts (op : Relop) (rt : Mtype) (hkeeps : Keeps ρ create) {d : Int}
    (h : f.Balanced ρ ty d) : ∃ lhs sLhs rhs sRhs,
      buildFound create op rt ty f = signedRelop create op rt ty lhs sLhs rhs sRhs ∧
      Agree ty d (withSign sLhs (ty.wrap (eval ρ lhs)) - withSign sRhs (ty.wrap (eval ρ rhs))) ∧
      ((∃ e, loneTerm lhs sLhs rhs sRhs = some e ∧ ty.wrap (eval ρ e) = ty.minimum) ↔
        ∃ e, f.loneTerm = some e ∧ ty.wrap (eval ρ e) = ty.minimum) := by
  cases f with
  | side lhs s rhs s' => exact ⟨lhs, s, rhs, s', rfl, h, Iff.rfl⟩
  | pair lhs s rest dt =>
    obtain ⟨hdt, hagree⟩ := h
    have hneg : ty.wrap (eval ρ (create (.unary .neg (signedOf ty) dt))) = 0 := by
      rw [eval_negated hkeeps, hdt, Mtype.wrap_zero, neg_zero, Mtype.wrap_zero]
    cases rest with
    | none =>
      refine ⟨lhs, s, _, s, rfl, ?_, ?_⟩
      · have hzero : withSign s (ty.wrap (eval ρ
            (if s then dt else create (.unary .neg (signedOf ty) dt)))) = 0 := by
          unfold withSign
          cases s with
          | false => exact hneg
          | true =>
            rw [if_pos rfl, if_pos rfl, hdt, Mtype.wrap_zero, neg_zero]
        rw [hzero]
        exact hagree
      · unfold loneTerm Found.loneTerm
        cases s <;> simp
    | some p =>
      obtain ⟨rhs, s'⟩ := p
      have hlhs : ty.wrap (eval ρ (create (.binary .add ty lhs
          (if s then create (.unary .neg (signedOf ty) dt) else dt)))) = ty.wrap (eval ρ lhs) := by
        rw [hkeeps, eval_add, Mtype.wrap_wrap, ← Mtype.wrap_add_wrap]
        cases s with
        | false => rw [if_neg Bool.false_ne_true, hdt, Mtype.wrap_zero, add_zero, Mtype.wrap_wrap]
        | true => rw [if_pos rfl, hneg, add_zero, Mtype.wrap_wrap]
      refine ⟨_, s, rhs, s', rfl, ?_, ?_⟩
      · rw [hlhs]
        exact hagree
      · unfold Found.loneTerm loneTerm
        cases s with
        | false => cases s' <;> simp
        | true =>
          rw [if_pos rfl] at hlhs
          cases s' <;> simp [hlhs]

end built

/-! ## The comparison keeps its truth -/

/-- The subtracted term that a cancellation leaves alone. -/
def subtractedTerm (same : Expr → Expr → Bool) (k0 k1 : Expr) : Option Expr :=
  match k0, k1 with
  | .binary .add _ x0 x1, .binary .sub _ x2 l =>
    if same x0 x2 ∨ same x1 x2 then some l
    else if same k1 x0 then none
    else if same k0 x2 then some l
    else none
  | .binary .sub _ x0 l0, .binary .sub _ x2 l2 =>
    if same x0 x2 ∨ same l0 l2 then none
    else if same k1 x0 then some l0
    else if same k0 x2 then some l2
    else none
  | _, _ => none

/-- Two negations of which one is of 0, unsigned; or a lone subtracted minimum. -/
def CancelFails (ρ : Env) (o : CancelOptions) (same : Expr → Expr → Bool) (op : Relop) (ty : Mtype)
    (k0 k1 : Expr) : Prop :=
  op.isOrder = true ∧
    ((ty.isUnsigned = true ∧ ∃ a b, bothNegated k0 k1 = some (a, b) ∧
        (ty.wrap (eval ρ a) = 0 ↔ ty.wrap (eval ρ b) ≠ 0)) ∨
      (ty.isUnsigned = false ∧ o.aggressive = true ∧ o.unsafeRelops = true ∧
        bothNegated k0 k1 = none ∧
        ∃ l, subtractedTerm same (swapSides op k0 k1).2.1 (swapSides op k0 k1).2.2 = some l ∧
          ty.wrap (eval ρ l) = ty.minimum))

section

variable (same : Expr → Expr → Bool)
include same

theorem findPair_single (x0 x1 : Expr) (s1 : Bool) (x2 : Expr)
    (s2 : Bool) : (findPair same x0 x1 s1 x2 s2 none).bind Found.loneTerm = none := by
  unfold findPair
  simp only [any_none, Bool.false_eq_true, if_false]
  split
  · rfl
  · split
    · rfl
    · rfl

theorem findCancel_pair {k0 k1 : Expr}
    (h0 : sumParts k0 = some (x0, x1, s1)) (h1 : sumParts k1 = some (x2, x3, s3)) :
    findCancel same k0 k1 = match findPair same x0 x1 s1 x2 false (some (x3, s3)) with
      | some f => some f
      | none => findSide same k0 k1 x0 x1 s1 x2 x3 s3 := by
  unfold findCancel
  rw [h0, h1]

theorem findCancel_single {k0 k1 : Expr} (h1 : sumParts k1 = none) :
    (findCancel same k0 k1).bind Found.loneTerm = none := by
  unfold findCancel
  rw [h1]
  split
  · rfl
  · rename_i x0 x1 s1 _
    dsimp only
    split
    · exact findPair_single same x0 x1 s1 _ true
    · exact findPair_single same x0 x1 s1 _ false

theorem loneTerm_add_sub (k0 k1 x0 x1 x2 l : Expr) :
    (match findPair same x0 x1 false x2 false (some (l, true)) with
      | some f => some f
      | none => findSide same k0 k1 x0 x1 false x2 l true).bind Found.loneTerm =
      if same x0 x2 ∨ same x1 x2 then some l
      else if same k1 x0 then none
      else if same k0 x2 then some l
      else none := by
  unfold findPair findSide
  rw [any_some, any_some]
  generalize same x0 x2 = b02
  generalize same x1 x2 = b12
  generalize same k1 x0 = b10
  generalize same k0 x2 = b32
  generalize same k1 x1 = b11
  cases b02 <;> cases b12 <;> cases b10 <;> cases b32 <;> cases b11 <;> rfl

theorem loneTerm_sub_sub (k0 k1 x0 l0 x2 l2 : Expr) :
    (match findPair same x0 l0 true x2 false (some (l2, true)) with
      | some f => some f
      | none => findSide same k0 k1 x0 l0 true x2 l2 true).bind Found.loneTerm =
      if same x0 x2 ∨ same l0 l2 then none
      else if same k1 x0 then some l0
      else if same k0 x2 then some l2
      else none := by
  unfold findPair findSide
  rw [any_some, any_some]
  generalize same x0 x2 = b02
  generalize same l0 l2 = b13
  generalize same k1 x0 = b10
  generalize same k0 x2 = b32
  cases b02 <;> cases b13 <;> cases b10 <;> cases b32 <;> rfl

theorem loneTerm_eq_subtracted {k0 k1 : Expr} (h : ¬ (isAdd k0 = false ∧ isAdd k1 = true)) :
    (findCancel same k0 k1).bind Found.loneTerm = subtractedTerm same k0 k1 := by
  cases h1 : sumParts k1 with
  | none =>
    rw [findCancel_single same h1]
    unfold subtractedTerm
    split
    · cases h1
    · cases h1
    · rfl
  | some p =>
    obtain ⟨x2, x3, s3⟩ := p
    cases h0 : sumParts k0 with
    | none =>
      have hnone : findCancel same k0 k1 = none := by
        unfold findCancel
        rw [h0]
      rw [hnone]
      unfold subtractedTerm
      split
      · cases h0
      · cases h0
      · rfl
    | some q =>
      obtain ⟨x0, x1, s1⟩ := q
      rw [findCancel_pair same h0 h1]
      unfold sumParts at h0 h1
      split at h0
      · -- a sum on the left
        cases h0
        split at h1
        · -- two sums have no sign that is left alone
          cases h1
          simp only [findPair, findSide, subtractedTerm]
          split_ifs <;> rfl
        · cases h1
          exact loneTerm_add_sub same _ _ _ _ _ _
        · cases h1
      · cases h0
        split at h1
        · exact absurd ⟨rfl, rfl⟩ h
        · cases h1
          exact loneTerm_sub_sub same _ _ _ _ _ _
        · cases h1
      · cases h0

end

section cancel
variable {ρ : Env} {create : Expr → Expr} {o : CancelOptions} {same : Expr → Expr → Bool}
  {op : Relop} {rt ty : Mtype} {k0 k1 : Expr}

theorem Relop.commute_commute (op : Relop) : op.commute.commute = op := by cases op <;> rfl

theorem Relop.isOrder_commute (op : Relop) : op.commute.isOrder = op.isOrder := by cases op <;> rfl

theorem swapSides_cases (op : Relop) (k0 k1 : Expr) :
    (swapSides op k0 k1 = (op, k0, k1) ∨ swapSides op k0 k1 = (op.commute, k1, k0)) ∧
      ¬ (isAdd (swapSides op k0 k1).2.1 = false ∧ isAdd (swapSides op k0 k1).2.2 = true) := by
  have hboth : ¬ ((!isAdd k0 && isAdd k1) = true ∧ (!isAdd k1 && isAdd k0) = true) := by
    cases isAdd k0 <;> simp
  unfold swapSides
  dsimp only
  split
  · dsimp only
    split
    · rename_i h
      refine ⟨.inr rfl, fun hc => hboth ⟨h, ?_⟩⟩
      simpa using hc
    · rename_i h
      exact ⟨.inl rfl, fun hc => h (by simpa using hc)⟩
  · dsimp only
    split
    · rename_i h
      refine ⟨.inl (by rw [Relop.commute_commute]), fun hc => hboth ⟨?_, h⟩⟩
      simpa using hc
    · rename_i h
      exact ⟨.inr rfl, fun hc => h (by simpa using hc)⟩

theorem eval_commute : eval ρ (.compare op.commute rt ty k1 k0) = eval ρ (.compare op rt ty k0 k1) :=
  truth_congr (op.rel_commute _ _)

/-- Two sums with an equal term: when dropping it keeps the value of the comparison. -/
theorem cancelSums_right_iff (op : Relop) (rt : Mtype) (hkeeps : Keeps ρ create)
    (hsame : ∀ a b, same a b = true → eval ρ a = eval ρ b) (ho : o.foldUnsignedRelops = false)
    (hk0 : Uniform ty k0) (hk1 : Uniform ty k1) (hfit0 : NoOverflow ρ k0)
    (hfit1 : NoOverflow ρ k1) (hadd : ¬ (isAdd k0 = false ∧ isAdd k1 = true)) :
    (∀ r, cancelSums o same create op rt ty k0 k1 = some r →
        eval ρ r = eval ρ (.compare op rt ty k0 k1)) ↔
      ¬ (op.isOrder = true ∧ ty.isUnsigned = false ∧ o.unsafeRelops = true ∧
        ∃ l, subtractedTerm same k0 k1 = some l ∧ ty.wrap (eval ρ l) = ty.minimum) := by
  -- what is built of a find
  have hbuilt : ∀ f, findCancel same k0 k1 = some f →
      (op.isOrder = false → eval ρ (buildFound create op rt ty f) =
        eval ρ (.compare op rt ty k0 k1)) ∧
      (op.isOrder = true → ty.isUnsigned = false →
        (eval ρ (buildFound create op rt ty f) = eval ρ (.compare op rt ty k0 k1) ↔
          ¬ ∃ l, subtractedTerm same k0 k1 = some l ∧ ty.wrap (eval ρ l) = ty.minimum)) := by
    intro f hf
    obtain ⟨lhs, sLhs, rhs, sRhs, hparts, hagree, hlone⟩ :=
      buildFound_parts op rt hkeeps
        (findCancel_balanced hsame hk0 hk1 hfit0 hfit1 hf)
    have hterm : f.loneTerm = subtractedTerm same k0 k1 := by
      rw [← loneTerm_eq_subtracted same hadd, hf, bind_some]
    rw [hterm] at hlone
    rw [hparts, eval_compare, ← hlone]
    refine ⟨fun hop => ?_, fun hop hu => ?_⟩
    · exact signedRelop_equality hkeeps hop (Mtype.wrap_wrap _) (Mtype.wrap_wrap _) hagree
    · exact signedRelop_order hkeeps hop hu (Mtype.holds_wrap _ _) (Mtype.holds_wrap _ _) hagree
  unfold cancelSums
  constructor
  · intro hall hfail
    obtain ⟨hop, hu, hsafe, hmin⟩ := hfail
    rw [if_neg (by simp [hu]), if_neg (by simp [hsafe])] at hall
    cases hf : findCancel same k0 k1 with
    | none =>
      obtain ⟨l, hl, -⟩ := hmin
      rw [← loneTerm_eq_subtracted same hadd, hf] at hl
      cases hl
    | some f =>
      rw [hf] at hall
      exact ((hbuilt f hf).2 hop hu).mp (hall _ rfl) hmin
  · intro hfail r hr
    split at hr
    · cases hr
    rename_i hunsigned
    split at hr
    · cases hr
    rename_i hsafe
    obtain ⟨f, hf, rfl⟩ := map_eq_some_iff.mp hr
    cases hop : op.isOrder with
    | false => exact (hbuilt f hf).1 hop
    | true =>
      have hu : ty.isUnsigned = false := by simpa [ho, hop] using hunsigned
      have hs : o.unsafeRelops = true := by simpa [hu, hop] using hsafe
      exact ((hbuilt f hf).2 hop hu).mpr fun hmin => hfail ⟨hop, hu, hs, hmin⟩

/-- Two negations compared with the relation turned around: wrong for an unsigned order just when
one side alone is 0. -/
theorem negations_right_iff (op : Relop) (rt : Mtype) (hkeeps : Keeps ρ create) {t' : Mtype}
    {a b : Expr} (hk0 : Uniform ty (.unary .neg t a)) (hk1 : Uniform ty (.unary .neg t' b))
    (hfit0 : NoOverflow ρ (.unary .neg t a)) (hfit1 : NoOverflow ρ (.unary .neg t' b)) :
    eval ρ (create (.compare op.commute rt ty a b)) =
        eval ρ (.compare op rt ty (.unary .neg t a) (.unary .neg t' b)) ↔
      ¬ (op.isOrder = true ∧ ty.isUnsigned = true ∧
        (ty.wrap (eval ρ a) = 0 ↔ ty.wrap (eval ρ b) ≠ 0)) := by
  have h0 := neg_value hk0 hfit0
  have h1 := neg_value hk1 hfit1
  have hA := ty.holds_wrap (eval ρ a)
  have hB := ty.holds_wrap (eval ρ b)
  have hNA := ty.holds_wrap (eval ρ (.unary .neg t a))
  have hNB := ty.holds_wrap (eval ρ (.unary .neg t' b))
  have hcreated : eval ρ (create (.compare op.commute rt ty a b)) =
      truth (op.Rel (ty.wrap (eval ρ b)) (ty.wrap (eval ρ a))) := by
    rw [hkeeps, eval_commute, eval_compare]
  rw [hcreated, eval_compare]
  generalize hNAe : ty.wrap (eval ρ (.unary .neg t a)) = NA at *
  generalize hNBe : ty.wrap (eval ρ (.unary .neg t' b)) = NB at *
  have hA' := Mtype.wrap_of_holds hA
  have hB' := Mtype.wrap_of_holds hB
  have hNA' := Mtype.wrap_of_holds hNA
  have hNB' := Mtype.wrap_of_holds hNB
  generalize ty.wrap (eval ρ a) = A at *
  generalize ty.wrap (eval ρ b) = B at *
  have hdiff := h0.sub h1
  have hequal : B = A ↔ NA = NB := by
    have hcong : ty.wrap NA = ty.wrap NB ↔ ty.wrap B = ty.wrap A := by
      rw [wrap_eq_iff_dvd, wrap_eq_iff_dvd, show B - A = -A - -B by ring]
      exact dvd_iff_dvd_of_dvd_sub hdiff.1
    rw [hA', hB', hNA', hNB'] at hcong
    exact hcong.symm
  cases hop : op.isOrder with
  | false =>
    refine ⟨fun _ h => Bool.false_ne_true h.1, fun _ => ?_⟩
    cases op with
    | eq => exact truth_congr hequal
    | ne => exact truth_congr (not_congr hequal)
    | _ => cases hop
  | true =>
    cases hu : ty.isUnsigned with
    | false =>
      refine ⟨fun _ h => Bool.false_ne_true h.2.1, fun _ => truth_congr (op.rel_of_diff ?_)⟩
      rw [hdiff.2 hu]
      ring
    | true =>
      -- an unsigned negation is 0 or the complement to the modulus
      have hneg : ∀ x y : Int, ty.Holds x → ty.Holds y → Agree ty y (-x) →
          0 ≤ x ∧ 0 ≤ y ∧ (x = 0 ∧ y = 0 ∨ 0 < x ∧ 0 < y ∧ y = 2 ^ ty.bits - x) := by
        intro x y hx hy hxy
        unfold Mtype.Holds at hx hy
        rw [if_pos hu] at hx hy
        obtain ⟨k, hk⟩ := hxy.1
        have hk1 : k = 0 ∨ k = 1 := by
          rcases lt_trichotomy k 0 with hlt | heq | hgt
          · have : 2 ^ ty.bits * k ≤ 2 ^ ty.bits * -1 := by gcongr; omega
            omega
          · exact .inl heq
          · rcases Nat.lt_or_ge 1 k.toNat with h2 | h2
            · have : (2 : Int) ^ ty.bits * 2 ≤ 2 ^ ty.bits * k := by gcongr; omega
              omega
            · exact .inr (by omega)
        rcases hk1 with rfl | rfl <;> omega
      have hna := hneg A NA hA hNA h0
      have hnb := hneg B NB hB hNB h1
      constructor
      · intro h hone
        have hiff := iff_of_truth_eq h
        obtain ⟨-, -, hone⟩ := hone
        cases op <;> simp only [Relop.Rel, Relop.isOrder, Bool.false_eq_true] at hiff hop <;> omega
      · intro h
        apply truth_congr
        have hone : ¬ (A = 0 ↔ B ≠ 0) := fun hab => h ⟨rfl, rfl, hab⟩
        cases op <;> simp only [Relop.Rel, Relop.isOrder, Bool.false_eq_true] at hop ⊢ <;> omega

end cancel

/-- Cancellation keeps the truth of a comparison, but for negations of 0 and of the minimum. -/
theorem cancelInRelop_right_iff (ρ : Env) (create : Expr → Expr) (hkeeps : Keeps ρ create)
    (o : CancelOptions) (ho : o.foldUnsignedRelops = false) (same : Expr → Expr → Bool)
    (hsame : ∀ a b, same a b = true → eval ρ a = eval ρ b) (op : Relop) (rt ty : Mtype)
    (k0 k1 : Expr) (hk0 : Uniform ty k0) (hk1 : Uniform ty k1)
    (hfit : NoOverflow ρ (.compare op rt ty k0 k1)) :
    (∀ r, cancelInRelop o same create op rt ty k0 k1 = some r →
        eval ρ r = eval ρ (.compare op rt ty k0 k1)) ↔ ¬ CancelFails ρ o same op ty k0 k1:= by
  unfold cancelInRelop CancelFails
  cases hneg : bothNegated k0 k1 with
  | some p =>
    -- both sides are negations
    obtain ⟨a, b⟩ := p
    obtain ⟨t, t', rfl, rfl⟩ : ∃ t t', k0 = .unary .neg t a ∧ k1 = .unary .neg t' b := by
      unfold bothNegated at hneg
      split at hneg
      · rename_i t a' t' b'
        simp only [some.injEq, Prod.mk.injEq] at hneg
        obtain ⟨rfl, rfl⟩ := hneg
        exact ⟨t, t', rfl, rfl⟩
      · cases hneg
    have hright := negations_right_iff op rt hkeeps hk0 hk1 hfit.1 hfit.2
    simp only [some.injEq, forall_eq', Prod.mk.injEq, reduceCtorEq,
      false_and, and_false, or_false] at hright ⊢
    rw [hright]
    refine not_congr ⟨fun h => ⟨h.1, h.2.1, a, b, ⟨rfl, rfl⟩, h.2.2⟩, ?_⟩
    rintro ⟨hop, hu, a', b', ⟨rfl, rfl⟩, hab⟩
    exact ⟨hop, hu, hab⟩
  | none =>
    -- sums, the one on the left first
    dsimp only
    obtain ⟨hswap, hadd⟩ := swapSides_cases op k0 k1
    have hnosum : (sumParts k0).isNone = true ∧ (sumParts k1).isNone = true →
        subtractedTerm same (swapSides op k0 k1).2.1 (swapSides op k0 k1).2.2 = none := by
      intro hno
      have hsingle : ∀ a b : Expr, sumParts a = none → subtractedTerm same a b = none := by
        intro a b ha
        unfold subtractedTerm
        split
        · cases ha
        · cases ha
        · rfl
      rcases hswap with h | h
      · rw [h]
        exact hsingle _ _ (isNone_iff_eq_none.mp hno.1)
      · rw [h]
        exact hsingle _ _ (isNone_iff_eq_none.mp hno.2)
    have hsums : (∀ r, cancelSums o same create (swapSides op k0 k1).1 rt ty
          (swapSides op k0 k1).2.1 (swapSides op k0 k1).2.2 = some r →
        eval ρ r = eval ρ (.compare op rt ty k0 k1)) ↔
        ¬ (op.isOrder = true ∧ ty.isUnsigned = false ∧ o.unsafeRelops = true ∧
          ∃ l, subtractedTerm same (swapSides op k0 k1).2.1 (swapSides op k0 k1).2.2 = some l ∧
            ty.wrap (eval ρ l) = ty.minimum) := by
      rcases hswap with h | h
      · rw [h] at hadd ⊢
        exact cancelSums_right_iff op rt hkeeps hsame ho hk0 hk1 hfit.1 hfit.2 hadd
      · rw [h] at hadd ⊢
        have hright := cancelSums_right_iff op.commute rt hkeeps hsame ho hk1 hk0
          hfit.2 hfit.1 hadd
        rw [Relop.isOrder_commute, eval_commute] at hright
        exact hright
    cases hagg : o.aggressive with
    | false => simp
    | true =>
      by_cases hno : (sumParts k0).isNone = true ∧ (sumParts k1).isNone = true
      · rw [if_neg (by simp), if_pos hno, hnosum hno]
        simp
      · rw [if_neg (by simp), if_neg hno, hsums]
        simp

theorem cancelInRelop_right_iff_five :
    ∃ r, cancelInRelop ⟨true, true, false⟩ (fun a b => decide (a = b)) id .lt .I4 .I4
        (.binary .sub .I4 (.leaf .other .I4 .I4 5) (.leaf .other .I4 .I4 1))
        (.binary .add .I4 (.leaf .other .I4 .I4 5) (.leaf .other .I4 .I4 2)) = some r ∧
      eval ⟨fun n => n, true⟩ r = eval ⟨fun n => n, true⟩ (.compare .lt .I4 .I4
        (.binary .sub .I4 (.leaf .other .I4 .I4 5) (.leaf .other .I4 .I4 1))
        (.binary .add .I4 (.leaf .other .I4 .I4 5) (.leaf .other .I4 .I4 2))) := by
  refine ⟨_, rfl, (cancelInRelop_right_iff ⟨fun n => n, true⟩ id (keeps_id _) ⟨true, true, false⟩ rfl
    (fun a b => decide (a = b)) (fun a b h => by rw [of_decide_eq_true h]) .lt .I4 .I4
    (.binary .sub .I4 (.leaf .other .I4 .I4 5) (.leaf .other .I4 .I4 1))
    (.binary .add .I4 (.leaf .other .I4 .I4 5) (.leaf .other .I4 .I4 2)) ⟨rfl, rfl, rfl⟩
    ⟨rfl, rfl, rfl⟩ ⟨⟨trivial, trivial, fun _ => ?_⟩, trivial, trivial, fun _ => ?_⟩).mpr ?_ _ rfl⟩
  · unfold Bop.Fits
    decide
  · unfold Bop.Fits
    decide
  · intro hfail
    rcases hfail.2 with h | h
    · exact Bool.false_ne_true h.1
    · obtain ⟨l, hl, hmin⟩ := h.2.2.2.2
      obtain rfl : Expr.leaf .other .I4 .I4 1 = l := some.inj hl
      revert hmin
      decide

/-- -x < -y of type U4, for x = 0 and y = 1, becomes y < x. -/
theorem unsigned_negations_wrong : ¬ ∀ (ρ : Env) (create : Expr → Expr), Keeps ρ create →
    ∀ o : CancelOptions, o.foldUnsignedRelops = false → ∀ same : Expr → Expr → Bool,
    (∀ a b, same a b = true → eval ρ a = eval ρ b) → ∀ (op : Relop) (rt ty : Mtype) (k0 k1 : Expr),
      Uniform ty k0 → Uniform ty k1 → NoOverflow ρ (.compare op rt ty k0 k1) →
      ∀ r, cancelInRelop o same create op rt ty k0 k1 = some r →
        eval ρ r = eval ρ (.compare op rt ty k0 k1) := by
  intro hall
  have hwrong := hall ⟨fun n => n, true⟩ id (keeps_id _) ⟨true, true, false⟩ rfl
    (fun _ _ => false) nofun .lt .I4 .U4 (.unary .neg .U4 (.leaf .other .U4 .U4 0))
    (.unary .neg .U4 (.leaf .other .U4 .U4 1)) ⟨rfl, fun _ => rfl⟩ ⟨rfl, fun _ => rfl⟩
    ⟨⟨trivial, nofun⟩, trivial, nofun⟩ _ rfl
  revert hwrong
  decide

end Simp.Whirl
