import Path64.Simp.Rules
import Mathlib.Tactic.Ring

/-! # Negations, products and quotients keep their values

One lemma for each rule function: over creators that keep values, and as
long as every check is met, a tree that the function returns has the value
of the tree that it was called for. -/

namespace Simp.Arith

open Option Flagged
open BitVec (intMin sdiv_one)

variable {W : Width}

/-! ## What the rules rely on -/

/-- Only trees of equal value compare equal, and those for a truth value have its value. -/
structure Ctx.Faithful (X : Ctx W) : Prop where
  compare : ∀ a b, X.compareTrees a b = 0 → eval X.env a = eval X.env b
  truth : ∀ c negated, eval X.env (X.truth c negated) =
    some (if c.holds X.env != negated then 1 else 0)

/-- An optional tree, if there is one, has the value `v`. -/
def Yields (env : Env W) (v : BitVec W.bits) (r : Option Expr) : Prop :=
  ∀ e, r = some e → eval env e = some v

/-- The creators keep values; constants are folded, and `x / -1` becomes `-x`. -/
structure Creator.Sound (X : Ctx W) (C : Creator) : Prop where
  exp1 : ∀ {ty k v}, eval X.env k = some v →
    Post (C.exp1 ty k) fun r => eval X.env r = some (-v)
  exp2 : ∀ {op ty k0 k1 a b v}, eval X.env k0 = some a → eval X.env k1 = some b →
    Bop.eval op ty a b = some v → Post (C.exp2 op ty k0 k1) fun r => eval X.env r = some v
  exp3 : ∀ {ty c k1 k2 a b}, eval X.env k1 = some a → eval X.env k2 = some b →
    Post (C.exp3 ty c k1 k2) fun r => eval X.env r = some (if c.holds X.env then a else b)
  constNeg : ∀ {ty k}, k.isConst = true →
    Post (C.exp1 ty k) fun r => r = constantFold1 W ty k
  divNegOne : ∀ {k a}, eval X.env k = some a →
    k.isConst = false ∨ a ≠ intMin W.bits →
    Post (C.exp2 .div .signed k (.intconst .signed (-1))) fun r => eval X.env r = some (-a)

variable {X : Ctx W} {C : Creator} {env : Env W} {v a b : BitVec W.bits}

theorem yields_none : Yields env v none := fun _ h => by cases h

variable {e k : Expr}

theorem yields_some (h : eval env e = some v) : Yields env v (some e) := by
  rintro e' ⟨rfl⟩
  exact h

theorem post_none : Post (pure none) (Yields env v) := post_pure yields_none

theorem post_some (h : eval env e = some v) :
    Post (pure (some e)) (Yields env v) := post_pure (yields_some h)

theorem post_create {m : Flagged Expr} (h : Post m fun r => eval env r = some v) :
    Post (some <$> m) (Yields env v) :=
  post_map fun hok => yields_some (h hok)

theorem post_orElse {m next : Flagged (Option Expr)} (hm : Post m (Yields env v))
    (hn : Post next (Yields env v)) : Post (m >>= fun r => match r with
      | some e => pure (some e)
      | none => next) (Yields env v) := by
  refine post_bind hm fun r hr => ?_
  cases r with
  | some e => exact post_pure hr
  | none => exact hn

theorem eval_neg {ty : Sgn} (h : eval env (.neg ty k) = some v) :
    ∃ a, eval env k = some a ∧ v = -a := by
  simp only [eval, map_eq_some_iff] at h
  obtain ⟨a, ha, hv⟩ := h
  exact ⟨a, ha, hv.symm⟩

theorem eval_bin {op : Bop} {ty : Sgn} {k0 k1 : Expr} : eval env (.bin op ty k0 k1) = some v ↔
      ∃ a b, eval env k0 = some a ∧ eval env k1 = some b ∧ op.eval ty a b = some v := by
  simp only [eval, bind_eq_some_iff]
  constructor
  · rintro ⟨a, ha, b, hb, hv⟩
    exact ⟨a, b, ha, hb, hv⟩
  · rintro ⟨a, b, ha, hb, hv⟩
    exact ⟨a, ha, b, hb, hv⟩

theorem isIntMin_iff (hk : k.isConst = true) (ha : eval env k = some a) :
    isIntMin W k = true ↔ a = intMin W.bits := by
  simp [isIntMin, hk, constVal_eq hk ha]

theorem constantFold1_one (hk : k.isConst = true) (ha : eval env k = some 1) :
    constantFold1 W .signed k = .intconst .signed (-1) := by
  rw [constantFold1, constVal_eq hk ha]
  cases W <;> decide

/-! ## Division -/

theorem evalDiv_signed (h : Bop.eval .div .signed a b = some v) :
    b ≠ 0 ∧ ¬(a = intMin W.bits ∧ b = -1) ∧ v = a.sdiv b := by
  simp only [Bop.eval] at h
  split_ifs at h with hf
  rw [not_or] at hf
  exact ⟨hf.1, hf.2, (some.inj h).symm⟩

theorem evalDiv_signed_of (hb : b ≠ 0) (hm : ¬(a = intMin W.bits ∧ b = -1)) :
    Bop.eval .div .signed a b = some (a.sdiv b) := by
  simp only [Bop.eval]
  rw [if_neg (by rw [not_or]; exact ⟨hb, hm⟩)]

theorem neg_ne_zero_bv (h : b ≠ 0) : -b ≠ 0 := by
  intro hn
  exact h (by rw [← BitVec.neg_neg (x := b), hn]; exact BitVec.neg_zero _)

theorem evalDiv_neg_neg (h : Bop.eval .div .signed (-a) (-b) = some v)
    (hc : a ≠ intMin W.bits ∨ b = intMin W.bits) :
    Bop.eval .div .signed a b = some v := by
  obtain ⟨hb, hm, rfl⟩ := evalDiv_signed h
  have hb' : b ≠ 0 := by
    rintro rfl
    exact hb (BitVec.neg_zero _)
  have one_ne : intMin W.bits ≠ -1 := by
    cases W <;> decide
  by_cases ha : a = intMin W.bits
  · have hbm : b = intMin W.bits := hc.resolve_left (fun hne => hne ha)
    subst ha hbm
    rw [BitVec.neg_intMin]
    exact evalDiv_signed_of hb' (fun hh => one_ne hh.2)
  · rw [BitVec.neg_sdiv_neg ha]
    exact evalDiv_signed_of hb' (fun hh => ha hh.1)

theorem evalDiv_one {ty : Sgn} (h : Bop.eval .div ty a 1 = some v) : v = a := by
  cases ty with
  | signed =>
    obtain ⟨-, -, rfl⟩ := evalDiv_signed h
    exact sdiv_one
  | unsigned =>
    simp only [Bop.eval] at h
    split_ifs at h
    rw [← some.inj h]
    exact BitVec.udiv_one

theorem evalDiv_negOne (h : Bop.eval .div .signed a (-1) = some v) : v = -a := by
  obtain ⟨-, -, rfl⟩ := evalDiv_signed h
  have hone : (1 : BitVec W.bits) ≠ intMin W.bits := by
    cases W <;> decide
  have hdiv : a.sdiv 1 = a := sdiv_one
  rw [BitVec.sdiv_neg hone, hdiv]

theorem evalDiv_self {ty : Sgn} (h : Bop.eval .div ty a a = some v) : v = 1 := by
  cases ty with
  | signed =>
    obtain ⟨h0, -, rfl⟩ := evalDiv_signed h
    rw [BitVec.sdiv_self, if_neg (by simpa using h0)]
    rfl
  | unsigned =>
    simp only [Bop.eval] at h
    split_ifs at h with h0
    rw [← some.inj h, BitVec.udiv_self, if_neg (by simpa using h0)]
    rfl

/-! ## `simp_neg` -/

theorem post_negQuotient (hC : C.Sound X) {k0 k1 : Expr} (hk1 : k1.isConst = true)
    (ha : eval X.env k0 = some a) (hb : eval X.env k1 = some b)
    (hv : Bop.eval .div .signed a b = some v)
    (hcheck : (!isIntMin W k1 && !(isIntMin W k0 && k1.constVal.setWidth W.bits == 1)) = true) :
    Post (do
      let r ← C.exp1 .signed k1
      some <$> C.exp2 .div .signed k0 r) (Yields X.env (-v)) := by
  simp only [Bool.and_eq_true, Bool.not_eq_true', Bool.and_eq_false_iff, beq_eq_false_iff_ne] at hcheck
  obtain ⟨hmin, hone⟩ := hcheck
  have hbmin : b ≠ intMin W.bits := by
    intro he
    rw [(isIntMin_iff hk1 hb).mpr he] at hmin
    cases hmin
  obtain ⟨hb0, hab, rfl⟩ := evalDiv_signed hv
  by_cases hcase : a = intMin W.bits ∧ b = 1
  · -- `INT_MIN / 1`: the new quotient `x / -1` is itself turned into `-x`
    obtain ⟨ham, rfl⟩ := hcase
    have hk0 : k0.isConst = false := by
      rcases hone with h | h
      · cases hc : k0.isConst with
        | false => rfl
        | true =>
          rw [(isIntMin_iff hc ha).mpr ham] at h
          cases h
      · exact absurd (constVal_eq hk1 hb) h
    refine post_bind (hC.constNeg hk1) fun r hr => ?_
    rw [hr, constantFold1_one hk1 hb]
    have hdiv : a.sdiv 1 = a := sdiv_one
    rw [hdiv]
    exact post_create (hC.divNegOne ha (.inl hk0))
  · refine post_bind (hC.exp1 hb) fun r hr => post_create (hC.exp2 ha hr ?_)
    have hnm : ¬(a = intMin W.bits ∧ -b = -1) := by
      rintro ⟨ham, hb1⟩
      exact hcase ⟨ham, neg_injective hb1⟩
    rw [evalDiv_signed_of (neg_ne_zero_bv hb0) hnm, BitVec.sdiv_neg hbmin]

theorem simpNeg_post (hC : C.Sound X) {ty : Sgn} {k0 : Expr} (ha : eval X.env k0 = some a) :
    Post (simpNeg (W := W) C ty k0) (Yields X.env (-a)) := by
  cases k0 with
  | intconst t c => exact post_none
  | lda t s o => exact post_none
  | leaf t n l => exact post_none
  | select t c k1 k2 => exact post_none
  | neg t k =>
    obtain ⟨u, hu, rfl⟩ := eval_neg ha
    simp only [simpNeg]
    split_ifs
    · exact post_some (by rw [neg_neg]; exact hu)
    · exact post_none
  | bin op t k1 k2 =>
    obtain ⟨u, w, hu, hw, hv⟩ := eval_bin.mp ha
    cases op with
    | add => exact post_none
    | sub =>
      have hv' : u - w = a := some.inj hv
      exact post_create (hC.exp2 hw hu (by rw [← hv', neg_sub]; rfl))
    | mpy =>
      have hv' : u * w = a := some.inj hv
      simp only [simpNeg]
      split_ifs
      · refine post_bind (hC.exp1 hw) fun r hr => post_create (hC.exp2 hu hr ?_)
        rw [← hv', ← mul_neg]
        rfl
      · exact post_none
    | div =>
      simp only [simpNeg]
      split_ifs with h1 h2
      · rw [Bool.and_eq_true, beq_iff_eq] at h1
        obtain ⟨hc, rfl⟩ := h1
        exact post_check fun hok => post_negQuotient hC hc hu hw hv hok
      · rw [Bool.and_eq_true, beq_iff_eq] at h2
        obtain ⟨hc, rfl⟩ := h2
        refine post_check fun hok => ?_
        have hmin : u ≠ intMin W.bits := by
          intro he
          rw [(isIntMin_iff hc hu).mpr he] at hok
          cases hok
        obtain ⟨hw0, -, rfl⟩ := evalDiv_signed hv
        refine post_bind (hC.exp1 hu) fun r hr => post_create (hC.exp2 hr hw ?_)
        rw [evalDiv_signed_of hw0 (fun h => hmin (BitVec.neg_eq_intMin.mp h.1)),
          BitVec.neg_sdiv hmin]
      · exact post_none

/-! ## `simp_times` -/

theorem simpTimesConst_post (hC : C.Sound X) {ty : Sgn} {k0 k1 : Expr}
    (hk1 : k1.isConst = true) (ha : eval X.env k0 = some a) (hb : eval X.env k1 = some b) :
    Post (simpTimesConst (W := W) C ty k0 k1) (Yields X.env (a * b)) := by
  have hval := constVal_eq hk1 hb
  unfold simpTimesConst
  split_ifs with h1 h2 h3
  · have hb1 : b = 1 := by
      rw [← hval, h1]
      cases W <;> rfl
    rw [hb1, mul_one]
    exact post_some ha
  · have hb1 : b = -1 := by
      rw [Bool.and_eq_true, decide_eq_true_eq] at h2
      rw [← hval, h2.1]
      cases W <;> rfl
    rw [hb1, mul_neg, mul_one]
    exact post_create (hC.exp1 ha)
  · have hb0 : b = 0 := by
      rw [← hval, h3]
      cases W <;> rfl
    rw [hb0, mul_zero]
    refine post_some ?_
    rw [eval_simpIntconst]
    cases W <;> rfl
  · split
    · rename_i op t k2 k3
      obtain ⟨u, w, hu, hw, hv⟩ := eval_bin.mp ha
      split_ifs with hop hc hc'
      · -- `(a op c1) * c2`
        refine post_bind (hC.exp2 hw hb rfl) fun addend hadd => ?_
        refine post_bind (hC.exp2 hu hb rfl) fun r hr => post_create (hC.exp2 hr hadd ?_)
        cases op with
        | add => rw [← some.inj hv, add_mul]; rfl
        | sub => rw [← some.inj hv, sub_mul]; rfl
        | mpy => simp at hop
        | div => simp at hop
      · -- `(c1 op a) * c2`
        refine post_bind (hC.exp2 hu hb rfl) fun addend hadd => ?_
        refine post_bind (hC.exp2 hw hb rfl) fun r hr => post_create (hC.exp2 hadd hr ?_)
        cases op with
        | add => rw [← some.inj hv, add_mul]; rfl
        | sub => rw [← some.inj hv, sub_mul]; rfl
        | mpy => simp at hop
        | div => simp at hop
      · exact post_none
      · exact post_none
    · exact post_none

theorem simpTimes_post (hC : C.Sound X) {ty : Sgn} {k0 k1 : Expr}
    (ha : eval X.env k0 = some a) (hb : eval X.env k1 = some b) :
    Post (simpTimes (W := W) C ty k0 k1) (Yields X.env (a * b)) := by
  unfold simpTimes
  by_cases hk0 : k0.isConst = true
  · rw [if_pos hk0]
    exact post_none
  · rw [if_neg hk0]
    split
    · obtain ⟨u, hu, rfl⟩ := eval_neg ha
      obtain ⟨w, hw, rfl⟩ := eval_neg hb
      exact post_create (hC.exp2 hu hw (by rw [neg_mul_neg]; rfl))
    · obtain ⟨u, hu, rfl⟩ := eval_neg ha
      split_ifs with hc
      · refine post_bind (hC.exp2 hu hb rfl) fun r hr => post_create ?_
        rw [neg_mul]
        exact hC.exp1 hr
      · refine post_bind (hC.exp1 hb) fun r hr => post_create (hC.exp2 hu hr ?_)
        rw [neg_mul, ← mul_neg]
        rfl
      · exact simpTimesConst_post hC (by simpa using hc) ha hb
    · obtain ⟨w, hw, rfl⟩ := eval_neg hb
      refine post_bind (hC.exp2 ha hw rfl) fun r hr => post_create ?_
      rw [mul_neg]
      exact hC.exp1 hr
    · split_ifs with hc
      · exact simpTimesConst_post hC hc ha hb
      · exact post_none

/-! ## `simp_div` -/

section

variable (hX : X.Faithful) (hC : C.Sound X) {ty : Sgn} {k0 k1 : Expr} (ha : eval X.env k0 = some a)
  (hb : eval X.env k1 = some b) (hv : Bop.eval .div ty a b = some v)
include hX hC ha hb hv

theorem simpDivPlain_post : Post (simpDivPlain X C ty k0 k1) (Yields X.env v):= by
  unfold simpDivPlain
  split_ifs with h1 h2 h3
  · rw [Bool.and_eq_true, beq_iff_eq] at h1
    have hb1 : b = 1 := by
      rw [← constVal_eq h1.1 hb, h1.2]
      cases W <;> rfl
    rw [hb1] at hv
    rw [evalDiv_one hv]
    exact post_some ha
  · rw [Bool.and_eq_true, Bool.and_eq_true, beq_iff_eq, beq_iff_eq] at h2
    obtain ⟨⟨hc, hval⟩, rfl⟩ := h2
    have hb1 : b = -1 := by
      rw [← constVal_eq hc hb, hval]
      cases W <;> rfl
    rw [hb1] at hv
    rw [evalDiv_negOne hv]
    exact post_create (hC.exp1 ha)
  · rw [Bool.and_eq_true, beq_iff_eq] at h3
    have hab : a = b := by
      have he := hX.compare k0 k1 h3.2
      rw [ha, hb] at he
      exact some.inj he
    rw [← hab] at hv
    rw [evalDiv_self hv]
    refine post_some ?_
    rw [eval_simpIntconst]
    cases W <;> rfl
  · exact post_none

theorem simpDiv_post : Post (simpDiv X C ty k0 k1) (Yields X.env v):= by
  unfold simpDiv
  split
  · obtain ⟨u, hu, rfl⟩ := eval_neg ha
    obtain ⟨w, hw, rfl⟩ := eval_neg hb
    refine post_check fun hok => ?_
    simp only [negationsCancel, hu, hw, Bool.and_eq_true, Bool.or_eq_true, beq_iff_eq,
      bne_iff_ne, ne_eq, some.injEq] at hok
    obtain ⟨rfl, hcase⟩ := hok
    exact post_create (hC.exp2 hu hw (evalDiv_neg_neg hv hcase))
  · exact simpDivPlain_post hX hC ha hb hv

end

end Simp.Arith
