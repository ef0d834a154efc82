import Path64.Simp.Sums

/-! # The simplifier on its own results

Every node that a rule builds is simplified again. One level of the
recursion keeps values when the level below does (`Creator.Sound`), and
the level at which the recursion is cut off claims nothing; so every run
whose checks are all met keeps values, at any depth. -/

namespace Simp.Arith

open Flagged

variable {W : Width} {X : Ctx W} {C : Creator} {v a b : BitVec W.bits}

/-! ## The dispatchers -/

variable {env : Env W} {k2 k : Expr}

theorem eval_of_constantFold2 {op : Bop} {ty : Sgn} {k0 k1 : Expr}
    (h0 : k0.isConst = true) (h1 : k1.isConst = true)
    (ha : eval env k0 = some a) (hb : eval env k1 = some b)
    (h : (constantFold2 W op ty k0 k1).isSome = true) : ∃ u, op.eval ty a b = some u := by
  unfold constantFold2 at h
  rw [constVal_eq h0 ha, constVal_eq h1 hb, Option.isSome_map] at h
  exact Option.isSome_iff_exists.mp h

theorem eval_select {ty : Sgn} {c : Cond} {k1 : Expr}
    (h : eval env (.select ty c k1 k2) = some v) :
    ∃ a b, eval env k1 = some a ∧ eval env k2 = some b ∧ v = if c.holds env then a else b := by
  simp only [eval, Option.bind_eq_some_iff, Option.map_eq_some_iff] at h
  obtain ⟨a, ha, b, hb, hv⟩ := h
  exact ⟨a, b, ha, hb, hv.symm⟩

theorem selected {f : BitVec W.bits → Option (BitVec W.bits)} {c : Bool}
    {x y u w : BitVec W.bits} (hu : f x = some u) (hw : f y = some w)
    (hv : f (if c then x else y) = some v) : (if c then u else w) = v := by
  cases c with
  | true => exact Option.some.inj (hu.symm.trans hv)
  | false => exact Option.some.inj (hw.symm.trans hv)

theorem fold2IntoSelect_post (hC : C.Sound X) {op : Bop} {ty : Sgn} {k0 k1 : Expr}
    (hconst : k0.isConst = true ∨ k1.isConst = true)
    (ha : eval X.env k0 = some a) (hb : eval X.env k1 = some b) (hv : op.eval ty a b = some v) :
    Post (fold2IntoSelect (W := W) C op ty k0 k1) (Yields X.env v) := by
  unfold fold2IntoSelect
  split
  · rename_i t c sk1 sk2
    obtain ⟨x, y, hx, hy, rfl⟩ := eval_select ha
    have hc1 : k1.isConst = true := by
      rcases hconst with h | h
      · cases h
      · exact h
    split_ifs with hc
    · rw [Bool.and_eq_true] at hc
      refine post_check fun hok => ?_
      rw [Bool.and_eq_true] at hok
      obtain ⟨u, hu⟩ := eval_of_constantFold2 hc.1 hc1 hx hb hok.1
      obtain ⟨w, hw⟩ := eval_of_constantFold2 hc.2 hc1 hy hb hok.2
      refine post_bind (hC.exp2 hx hb hu) fun r1 h1 => ?_
      refine post_bind (hC.exp2 hy hb hw) fun r2 h2 => post_create ?_
      have hsel := @Creator.Sound.exp3 _ _ _ hC ty c _ _ _ _ h1 h2
      rwa [selected (f := fun z => op.eval ty z b) hu hw hv] at hsel
    · exact post_none
  · rename_i k0' t c sk1 sk2 hk0
    obtain ⟨x, y, hx, hy, rfl⟩ := eval_select hb
    have hc0 : k0.isConst = true := by
      rcases hconst with h | h
      · exact h
      · cases h
    split_ifs with hc
    · rw [Bool.and_eq_true] at hc
      refine post_check fun hok => ?_
      rw [Bool.and_eq_true] at hok
      obtain ⟨u, hu⟩ := eval_of_constantFold2 hc0 hc.1 ha hx hok.1
      obtain ⟨w, hw⟩ := eval_of_constantFold2 hc0 hc.2 ha hy hok.2
      refine post_bind (hC.exp2 ha hx hu) fun r1 h1 => ?_
      refine post_bind (hC.exp2 ha hy hw) fun r2 h2 => post_create ?_
      have hsel := @Creator.Sound.exp3 _ _ _ hC ty c _ _ _ _ h1 h2
      rwa [selected (f := fun z => op.eval ty a z) hu hw hv] at hsel
    · exact post_none
  · exact post_none

theorem eval_comm {op : Bop} {ty : Sgn} (h : op.commutes = true) :
    op.eval ty a b = op.eval ty b a := by
  cases op with
  | add => simp only [Bop.eval, add_comm]
  | mpy => simp only [Bop.eval, mul_comm]
  | sub => cases h
  | div => cases h

theorem eval_assoc {op : Bop} (ty : Sgn) (h : op.commutes = true) (a b c : BitVec W.bits) :
    ∃ u w v, op.eval ty a b = some u ∧ op.eval ty b c = some w ∧
      op.eval ty u c = some v ∧ op.eval ty a w = some v := by
  cases op with
  | add => exact ⟨_, _, _, rfl, rfl, rfl, by simp only [Bop.eval, add_assoc]⟩
  | mpy => exact ⟨_, _, _, rfl, rfl, rfl, by simp only [Bop.eval, mul_assoc]⟩
  | sub => cases h
  | div => cases h

theorem eval_regroup {op : Bop} {ty : Sgn} (h : op.commutes = true) {c w : BitVec W.bits}
    (hw : op.eval ty b c = some w) (hv : op.eval ty a w = some v) :
    ∃ u, op.eval ty a b = some u ∧ op.eval ty u c = some v := by
  obtain ⟨u, w', v', h1, h2, h3, h4⟩ := eval_assoc ty h a b c
  rw [hw] at h2
  cases h2
  rw [hv] at h4
  cases h4
  exact ⟨u, h1, h3⟩

section

variable (hC : C.Sound X) {op : Bop} {ty : Sgn} {k0 k1 : Expr}
include hC

theorem reassocRight_post
    (hop : op.commutes = true) (ha : eval X.env k0 = some a) (hb : eval X.env k1 = some b)
    (hv : op.eval ty a b = some v) : Post (reassocRight C op ty k0 k1) (Yields X.env v):= by
  unfold reassocRight
  split
  · split_ifs with h
    · obtain ⟨rfl, rfl, -⟩ := h
      obtain ⟨x, y, hx, hy, hxy⟩ := eval_bin.mp hb
      obtain ⟨u, h1, h2⟩ := eval_regroup hop hxy hv
      rw [eval_comm hop] at h1
      exact post_bind (hC.exp2 hx ha h1) fun r hr => post_create (hC.exp2 hr hy h2)
    · exact post_none
  · exact post_none

theorem reassocConsts_post
    (hop : op.commutes = true) (ha : eval X.env k0 = some a) (hb : eval X.env k1 = some b)
    (hv : op.eval ty a b = some v) : Post (reassocConsts C op ty k0 k1) (Yields X.env v):= by
  unfold reassocConsts
  split
  · rename_i p0 t0 a0 b0
    split_ifs with h hc
    · obtain ⟨rfl, rfl, -⟩ := h
      obtain ⟨x, y, hx, hy, hxy⟩ := eval_bin.mp ha
      obtain ⟨u, w, v', h1, h2, h3, h4⟩ := eval_assoc t0 hop x y b
      rw [hxy] at h1
      cases h1
      rw [hv] at h3
      cases h3
      exact post_bind (hC.exp2 hy hb h2) fun r hr => post_create (hC.exp2 hx hr h4)
    · obtain ⟨rfl, rfl, -⟩ := h
      obtain ⟨x, y, hx, hy, hxy⟩ := eval_bin.mp ha
      rw [eval_comm hop] at hv
      obtain ⟨u, h1, h2⟩ := eval_regroup hop hxy hv
      rw [eval_comm hop] at h1
      exact post_bind (hC.exp2 hx hb h1) fun r hr => post_create (hC.exp2 hr hy h2)
    · exact reassocRight_post hC hop ha hb hv
  · exact reassocRight_post hC hop ha hb hv

theorem reassocArrays_post (ha : eval X.env k0 = some a) (hb : eval X.env k1 = some b)
    (hv : op.eval ty a b = some v) : Post (reassocArrays X C op ty k0 k1) (Yields X.env v):= by
  unfold reassocArrays
  split
  · split
    · obtain ⟨x, y, hx, hy, hxy⟩ := eval_bin.mp hb
      split_ifs with h h1 h2
      · obtain ⟨rfl, rfl, -⟩ := h
        refine post_check fun hop => ?_
        obtain ⟨u, hu, huv⟩ := eval_regroup hop hxy hv
        exact post_bind (hC.exp2 ha hx hu) fun r hr => post_create (hC.exp2 hr hy huv)
      · obtain ⟨rfl, rfl, -⟩ := h
        refine post_check fun hop => ?_
        rw [eval_comm hop] at hxy
        obtain ⟨u, hu, huv⟩ := eval_regroup hop hxy hv
        exact post_bind (hC.exp2 ha hy hu) fun r hr => post_create (hC.exp2 hr hx huv)
      · exact post_none
      · exact post_none
    · exact post_none
  · exact post_none

theorem canonicalize_post (ha : eval X.env k0 = some a) (hb : eval X.env k1 = some b)
    (hv : op.eval ty a b = some v) : Post (canonicalize X C op ty k0 k1) (Yields X.env v):= by
  unfold canonicalize
  by_cases h1 : (k0.isConst && op.commutes) = true
  · rw [if_pos h1]
    rw [Bool.and_eq_true] at h1
    exact post_create (hC.exp2 hb ha (by rw [eval_comm h1.2]; exact hv))
  rw [if_neg h1]
  by_cases h2 : (!k0.isConst && !k1.isConst && op.commutes && X.opts.aggressive &&
      X.compareTrees k0 k1 == 1) = true
  · rw [if_pos h2]
    simp only [Bool.and_eq_true] at h2
    exact post_create (hC.exp2 hb ha (by rw [eval_comm h2.1.1.2]; exact hv))
  rw [if_neg h2]
  refine post_orElse ?_ (reassocArrays_post hC ha hb hv)
  split_ifs with hop
  · exact reassocConsts_post hC hop ha hb hv
  · exact post_none

end

section

variable (hX : X.Faithful) (hC : C.Sound X) {op : Bop} {ty : Sgn} {k0 k1 : Expr}
  (ha : eval X.env k0 = some a) (hb : eval X.env k1 = some b) (hv : op.eval ty a b = some v)
include hX hC ha hb hv

theorem simpFunction_post : Post (simpFunction X C op ty k0 k1) (Yields X.env v):= by
  cases op with
  | add =>
    rw [← Option.some.inj hv]
    exact simpAddSub_post hX hC false ha hb
  | sub =>
    rw [← Option.some.inj hv]
    exact simpAddSub_post hX hC true ha hb
  | mpy =>
    rw [← Option.some.inj hv]
    exact simpTimes_post hC ha hb
  | div => exact simpDiv_post hX hC ha hb hv

theorem simplifyExp2_post : Post (simplifyExp2 X C op ty k0 k1) (Yields X.env v):= by
  unfold simplifyExp2
  by_cases hc : (k0.isConst && k1.isConst) = true
  · rw [if_pos hc]
    rw [Bool.and_eq_true] at hc
    obtain ⟨r, hr, -, hrv⟩ := eval_constantFold2 hc.1 hc.2 ha hb hv
    rw [hr]
    exact post_some hrv
  rw [if_neg hc]
  refine post_orElse ?_ (post_orElse ?_ (simpFunction_post hX hC ha hb hv))
  · split_ifs with hone
    · rw [Bool.or_eq_true] at hone
      exact fold2IntoSelect_post hC hone ha hb hv
    · exact post_none
  · split_ifs
    · exact canonicalize_post hC ha hb hv
    · exact post_none

end

theorem simplifyExp1_post (hC : C.Sound X) {ty : Sgn} (ha : eval X.env k = some a) :
    Post (simplifyExp1 (W := W) C ty k) (Yields X.env (-a)) := by
  unfold simplifyExp1
  split
  · rename_i t c k1 k2
    obtain ⟨x, y, hx, hy, rfl⟩ := eval_select ha
    by_cases hc : (k1.isConst && k2.isConst) = true
    · rw [if_pos hc]
      refine post_bind (hC.exp1 hx) fun r1 h1 => ?_
      refine post_bind (hC.exp1 hy) fun r2 h2 => post_create ?_
      have hsel := @Creator.Sound.exp3 _ _ _ hC ty c _ _ _ _ h1 h2
      rwa [← neg_ite] at hsel
    · rw [if_neg hc]
      exact post_none
  · split_ifs with hc
    · exact post_some (eval_constantFold1 hc ha)
    · exact simpNeg_post hC ha

theorem equalArms_yields (hX : X.Faithful) (c : Bool) {k1 : Expr}
    (ha : eval X.env k1 = some a) (hb : eval X.env k2 = some b) :
    Yields X.env (if c then a else b) (equalArms X k1 k2) := by
  unfold equalArms
  by_cases h : (X.opts.aggressive && X.compareTrees k1 k2 == 0) = true
  · rw [if_pos h]
    rw [Bool.and_eq_true, beq_iff_eq] at h
    refine yields_some ?_
    rw [compare_value hX h.2 ha hb, ite_self]
    exact ha
  · rw [if_neg h]
    exact yields_none

theorem simplifyExp3_yields (hX : X.Faithful) {c : Cond} {k1 : Expr}
    (ha : eval X.env k1 = some a) (hb : eval X.env k2 = some b) :
    Yields X.env (if c.holds X.env then a else b) (simplifyExp3 X c k1 k2) := by
  have constant : ∀ {k : Expr} {u : BitVec W.bits} {n : BitVec 64}, k.isConst = true →
      k.constVal = n → eval X.env k = some u → u = n.setWidth W.bits := by
    intro k u n hk hn hu
    rw [← constVal_eq hk hu, hn]
  have hone : (1 : BitVec 64).setWidth W.bits = 1 := by cases W <;> rfl
  have hzero : (0 : BitVec 64).setWidth W.bits = 0 := by cases W <;> rfl
  have truthOrArms : Yields X.env (if c.holds X.env then a else b)
      (if k1.isConst && k2.isConst && k1.constVal == 1 && k2.constVal == 0 then
        some (X.truth c false)
      else if k1.isConst && k2.isConst && k1.constVal == 0 && k2.constVal == 1 then
        some (X.truth c true)
      else equalArms X k1 k2) := by
    by_cases h1 : (k1.isConst && k2.isConst && k1.constVal == 1 && k2.constVal == 0) = true
    · rw [if_pos h1]
      simp only [Bool.and_eq_true, beq_iff_eq] at h1
      refine yields_some ?_
      rw [hX.truth, constant h1.1.1.1 h1.1.2 ha, constant h1.1.1.2 h1.2 hb, hone, hzero]
      cases c.holds X.env <;> rfl
    rw [if_neg h1]
    by_cases h2 : (k1.isConst && k2.isConst && k1.constVal == 0 && k2.constVal == 1) = true
    · rw [if_pos h2]
      simp only [Bool.and_eq_true, beq_iff_eq] at h2
      refine yields_some ?_
      rw [hX.truth, constant h2.1.1.1 h2.1.2 ha, constant h2.1.1.2 h2.2 hb, hone, hzero]
      cases c.holds X.env <;> rfl
    rw [if_neg h2]
    exact equalArms_yields hX _ ha hb
  unfold simplifyExp3
  cases hkind : c.kind with
  | const b' =>
    refine yields_some ?_
    simp only [Cond.holds, hkind]
    cases b' with
    | true => exact ha
    | false => exact hb
  | cand => exact equalArms_yields hX _ ha hb
  | boolexpr => exact truthOrArms
  | other => exact truthOrArms

/-! ## The knot -/

theorem getD_yields {r : Option Expr} {e : Expr} (hr : Yields env v r)
    (he : eval env e = some v) : eval env (r.getD e) = some v := by
  cases r with
  | none => exact he
  | some e' => exact hr e' rfl

theorem post_orElse_found {m next : Flagged (Option Expr)} (hm : Post m (Yields X.env v))
    (hn : Post next fun r => ∃ e, r = some e ∧ eval X.env e = some v) :
    Post (m >>= fun r => match r with
      | some e => pure (some e)
      | none => next) fun r => ∃ e, r = some e ∧ eval X.env e = some v := by
  refine post_bind hm fun r hr => ?_
  cases r with
  | some e => exact post_pure ⟨e, rfl, hr e rfl⟩
  | none => exact hn

theorem evalDiv_negOne_of (ha : a ≠ BitVec.intMin W.bits) :
    Bop.eval .div .signed a (-1) = some (-a) := by
  have hne : (-1 : BitVec W.bits) ≠ 0 := by
    cases W <;> decide
  have hdiv := evalDiv_signed_of hne fun h => ha h.1
  rw [hdiv, evalDiv_negOne hdiv]

theorem eval_negOne (env : Env W) : eval env (.intconst .signed (-1)) = some (-1) := by
  cases W <;> rfl

theorem fold2IntoSelect_negOne (hC : C.Sound X) (ha : eval X.env k = some a) :
    Post (fold2IntoSelect (W := W) C .div .signed k (.intconst .signed (-1)))
      (Yields X.env (-a)) := by
  unfold fold2IntoSelect
  split
  · rename_i t c sk1 sk2
    obtain ⟨x, y, hx, hy, rfl⟩ := eval_select ha
    by_cases hc : (sk1.isConst && sk2.isConst) = true
    · rw [if_pos hc]
      rw [Bool.and_eq_true] at hc
      refine post_check fun hok => ?_
      rw [Bool.and_eq_true] at hok
      obtain ⟨u, hu⟩ := eval_of_constantFold2 hc.1 rfl hx (eval_negOne X.env) hok.1
      obtain ⟨w, hw⟩ := eval_of_constantFold2 hc.2 rfl hy (eval_negOne X.env) hok.2
      refine post_bind (hC.exp2 hx (eval_negOne X.env) hu) fun r1 h1 => ?_
      refine post_bind (hC.exp2 hy (eval_negOne X.env) hw) fun r2 h2 => post_create ?_
      have hsel := @Creator.Sound.exp3 _ _ _ hC .signed c _ _ _ _ h1 h2
      rwa [evalDiv_negOne hu, evalDiv_negOne hw, ← neg_ite] at hsel
    · rw [if_neg hc]
      exact post_none
  · cases ‹Expr.intconst _ _ = Expr.select _ _ _ _›
  · exact post_none

theorem canonicalize_negOne (hk : k.isConst = false) :
    Post (canonicalize X C .div .signed k (.intconst .signed (-1))) (Yields X.env v) := by
  unfold canonicalize
  rw [hk]
  have hnone : reassocArrays X C .div .signed k (.intconst .signed (-1)) = pure none := by
    unfold reassocArrays
    split
    · rename_i heq
      cases heq
    · rfl
  simp only [Bop.commutes, Bool.and_false, Bool.false_and, Bool.false_eq_true, if_false, hnone]
  exact post_orElse post_none post_none

theorem simplifyExp2_negOne (hC : C.Sound X) (ha : eval X.env k = some a)
    (hk : k.isConst = false ∨ a ≠ BitVec.intMin W.bits) :
    Post (simplifyExp2 X C .div .signed k (.intconst .signed (-1))) fun r =>
      ∃ e, r = some e ∧ eval X.env e = some (-a) := by
  unfold simplifyExp2
  by_cases hc : k.isConst = true
  · have hne : a ≠ BitVec.intMin W.bits := hk.resolve_left fun h => by rw [hc] at h; cases h
    obtain ⟨r, hr, -, hrv⟩ :=
      eval_constantFold2 hc rfl ha (eval_negOne X.env) (evalDiv_negOne_of hne)
    rw [if_pos (by rw [hc]; rfl), hr]
    exact post_pure ⟨r, rfl, hrv⟩
  · have hc' : k.isConst = false := Bool.eq_false_iff.mpr hc
    rw [if_neg (by rw [hc']; decide), if_pos (by rw [hc']; rfl)]
    refine post_orElse_found (fold2IntoSelect_negOne hC ha) (post_orElse_found ?_ ?_)
    · split_ifs
      · exact canonicalize_negOne hc'
      · exact post_none
    · have hdiv : simpDiv X C .signed k (.intconst .signed (-1)) = some <$> C.exp1 .signed k := by
        unfold simpDiv
        split
        · rename_i heq
          cases heq
        · rfl
      show Post (simpDiv X C .signed k (.intconst .signed (-1))) _
      rw [hdiv]
      exact post_map fun hok => ⟨_, rfl, hC.exp1 ha hok⟩

/-- The creators call each other; by induction on the depth they all keep the value. -/
theorem creator_sound (hX : X.Faithful) (n : Nat) : (creator X n).Sound X := by
  induction n with
  | zero =>
    refine ⟨?_, ?_, ?_, ?_, ?_⟩ <;> intros <;> rintro ⟨⟩
  | succ n ih =>
    refine ⟨?_, ?_, ?_, ?_, ?_⟩
    · intro ty k v hv
      refine post_map fun hok => getD_yields (simplifyExp1_post ih hv hok) ?_
      rw [eval, hv]
      rfl
    · intro op ty k0 k1 a b v ha hb hv
      refine post_map fun hok => getD_yields (simplifyExp2_post hX ih ha hb hv hok) ?_
      exact eval_bin.mpr ⟨a, b, ha, hb, hv⟩
    · intro ty c k1 k2 a b ha hb
      refine post_pure (getD_yields (simplifyExp3_yields hX ha hb) ?_)
      simp [eval, ha, hb]
    · intro ty k hk
      refine post_map fun _ => ?_
      cases k with
      | intconst t c => rfl
      | lda => cases hk
      | leaf => cases hk
      | neg => cases hk
      | bin => cases hk
      | select => cases hk
    · intro k a ha hk
      refine post_map fun hok => ?_
      obtain ⟨e, he, hev⟩ := simplifyExp2_negOne ih ha hk hok
      rw [he]
      exact hev

/-! ## Whole runs -/

/-- Whenever `simp_add_sub` returns a tree, in a run all of whose steps meet their checks, the tree
has the value of the sum or difference. -/
theorem simpAddSub_keeps_value (W : Width) (X : Ctx W) (hX : X.Faithful) (n : Nat)
    (issub : Bool) (ty : Sgn) (k0 k1 : Expr) (v : BitVec W.bits)
    (hv : eval X.env (.bin (sumOp issub) ty k0 k1) = some v)
    (hok : (simpAddSub X (creator X n) issub ty k0 k1).ok = true) (r : Expr)
    (hr : (simpAddSub X (creator X n) issub ty k0 k1).val = some r) : eval X.env r = some v:= by
  obtain ⟨a, b, ha, hb, hab⟩ := eval_bin.mp hv
  have hpost := simpAddSub_post hX (creator_sound hX n) issub ha hb hok r hr
  rw [hpost, ← hab]
  cases issub <;> rfl

/-- An assignment of the leaves; symbols lie at 0 and conditions hold. -/
def plainEnv (W : Width) (leaf : Nat → BitVec W.bits) : Env W :=
  { leaf := leaf, sym := fun _ => 0, cond := fun _ => true }

/-- A context whose comparison is equality of trees. -/
def plainCtx (W : Width) (leaf : Nat → BitVec W.bits) : Ctx W where
  opts := { aggressive := true, canonicalize := true, reassociate := true, foldLda := true }
  compareTrees a b := if a = b then 0 else -1
  truth c negated :=
    .intconst .signed (if c.holds (plainEnv W leaf) != negated then 1 else 0)
  env := plainEnv W leaf

theorem plainCtx_faithful (W : Width) (leaf : Nat → BitVec W.bits) :
    (plainCtx W leaf).Faithful where
  compare := by
    intro a b h
    simp only [plainCtx] at h
    split_ifs at h with hab
    rw [hab]
  truth := by
    intro c negated
    show some (BitVec.setWidth W.bits
        (if c.holds (plainEnv W leaf) != negated then (1 : BitVec 64) else 0)) =
      some (if c.holds (plainEnv W leaf) != negated then 1 else 0)
    by_cases h : (c.holds (plainEnv W leaf) != negated) = true
    · rw [if_pos h, if_pos h]
      cases W <;> rfl
    · rw [if_neg h, if_neg h]
      cases W <;> rfl

theorem simpAddSub_keeps_value_collect :
    eval (plainCtx .w32 fun _ => 7).env (.intconst .signed (-2)) = some (-2) := by
  refine simpAddSub_keeps_value .w32 (plainCtx .w32 fun _ => 7) (plainCtx_faithful _ _) 9 true
    .signed (.bin .add .signed (.leaf .signed 0 .ldid) (.intconst .signed 3))
    (.bin .add .signed (.leaf .signed 0 .ldid) (.intconst .signed 5)) (-2) ?_ ?_ _ ?_
  · decide
  · decide
  · decide

/-- `0 - x / INT_MIN` becomes `x / INT_MIN`, which differs at `INT_MIN`. -/
theorem simpAddSub_loses_negation : ∃ r, (simpAddSub (plainCtx .w32 fun _ => BitVec.intMin 32)
        (creator (plainCtx .w32 fun _ => BitVec.intMin 32) 5) true .signed (.intconst .signed 0)
        (.bin .div .signed (.leaf .signed 0 .ldid) (.intconst .signed (-2 ^ 31)))).val = some r ∧
      eval (plainCtx .w32 fun _ => BitVec.intMin 32).env (.bin .sub .signed (.intconst .signed 0)
        (.bin .div .signed (.leaf .signed 0 .ldid) (.intconst .signed (-2 ^ 31)))) = some (-1) ∧
      eval (plainCtx .w32 fun _ => BitVec.intMin 32).env r = some 1 := by
  refine ⟨.bin .div .signed (.leaf .signed 0 .ldid) (.intconst .signed (-2 ^ 31)), ?_, ?_, ?_⟩
  · decide
  · decide
  · decide

/-- Whenever `simp_neg`, `simp_times` or `simp_div` returns a tree, in a run all of whose steps meet
their checks, the tree has a value, that of the original. -/
theorem simpNegTimesDiv_keep_value (W : Width) (X : Ctx W) (hX : X.Faithful) (n : Nat) (ty : Sgn)
    (v : BitVec W.bits) (r : Expr) : (∀ k0, eval X.env (.neg ty k0) = some v →
      (simpNeg (W := W) (creator X n) ty k0).ok = true →
      (simpNeg (W := W) (creator X n) ty k0).val = some r → eval X.env r = some v) ∧
    (∀ k0 k1, eval X.env (.bin .mpy ty k0 k1) = some v →
      (simpTimes (W := W) (creator X n) ty k0 k1).ok = true →
      (simpTimes (W := W) (creator X n) ty k0 k1).val = some r → eval X.env r = some v) ∧
    (∀ k0 k1, eval X.env (.bin .div ty k0 k1) = some v →
      (simpDiv X (creator X n) ty k0 k1).ok = true →
      (simpDiv X (creator X n) ty k0 k1).val = some r → eval X.env r = some v) := by
  refine ⟨fun k0 hv hok hr => ?_, fun k0 k1 hv hok hr => ?_, fun k0 k1 hv hok hr => ?_⟩
  · obtain ⟨a, ha, rfl⟩ := eval_neg hv
    exact simpNeg_post (creator_sound hX n) ha hok r hr
  · obtain ⟨a, b, ha, hb, hab⟩ := eval_bin.mp hv
    rw [simpTimes_post (creator_sound hX n) ha hb hok r hr, ← hab]
    rfl
  · obtain ⟨a, b, ha, hb, hab⟩ := eval_bin.mp hv
    exact simpDiv_post hX (creator_sound hX n) ha hb hab hok r hr

theorem simpNegTimesDiv_keep_value_signed : eval (plainCtx .w32 fun i => if i = 0 then 7 else 2).env
      (.bin .div .signed (.leaf .signed 0 .ldid) (.leaf .signed 1 .ldid)) = some 3 := by
  refine (simpNegTimesDiv_keep_value .w32 (plainCtx .w32 fun i => if i = 0 then 7 else 2)
    (plainCtx_faithful _ _) 5 .signed 3 _).2.2 (.neg .signed (.leaf .signed 0 .ldid))
    (.neg .signed (.leaf .signed 1 .ldid)) ?_ ?_ ?_
  · decide
  · decide
  · decide

/-- `(-x) / (-y)` of two unsigned operands, 2 and 1. -/
theorem simpDiv_unsigned_negations : ∃ r, (simpDiv (plainCtx .w32 fun i => if i = 0 then 2 else 1)
        (creator (plainCtx .w32 fun i => if i = 0 then 2 else 1) 5) .unsigned
        (.neg .unsigned (.leaf .unsigned 0 .ldid))
        (.neg .unsigned (.leaf .unsigned 1 .ldid))).val = some r ∧
      eval (plainCtx .w32 fun i => if i = 0 then 2 else 1).env (.bin .div .unsigned
        (.neg .unsigned (.leaf .unsigned 0 .ldid))
        (.neg .unsigned (.leaf .unsigned 1 .ldid))) = some 0 ∧
      eval (plainCtx .w32 fun i => if i = 0 then 2 else 1).env r = some 2 := by
  refine ⟨.bin .div .unsigned (.leaf .unsigned 0 .ldid) (.leaf .unsigned 1 .ldid), ?_, ?_, ?_⟩
  · decide
  · decide
  · decide

end Simp.Arith
