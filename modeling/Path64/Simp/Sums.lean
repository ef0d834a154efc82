import Path64.Simp.Products
import Mathlib.Algebra.BigOperators.Group.List.Basic

/-! # Sums keep their values

`simp_add_sub` works on a list of signed operands. The value that it has
to keep is the total of the list, which no reordering changes; every case
of the reassociation is then an identity of totals. -/

namespace Simp.Arith

open Option List Flagged

variable {W : Width} {X : Ctx W} {C : Creator} {env : Env W} {v a b : BitVec W.bits}

/-! ## Signed operands and their total -/

/-- The signed value of an operand that has a value. -/
def amount (env : Env W) (t : Term) : BitVec W.bits :=
  if t.1 then -(eval env t.2).getD 0 else (eval env t.2).getD 0

/-- Every operand has a value. -/
def Defined (env : Env W) (ts : List Term) : Prop := ∀ t ∈ ts, ∃ v, eval env t.2 = some v

/-- The sum of the signed values. -/
def total (env : Env W) (ts : List Term) : BitVec W.bits := (ts.map (amount env)).sum

variable {t t0 t1 t2 : Term} {ts us : List Term} {r : Expr}

theorem eval_eq_amount (h : ∃ v, eval env t.2 = some v) :
    eval env t.2 = some (if t.1 then -amount env t else amount env t) := by
  obtain ⟨v, hv⟩ := h
  unfold amount
  rw [hv]
  cases t.1 <;> simp

theorem total_perm (h : ts.Perm us) : total env ts = total env us :=
  (h.map _).sum_eq

theorem Defined.perm (hd : Defined env ts) (h : ts.Perm us) :
    Defined env us := fun t ht => hd t (h.mem_iff.mpr ht)

@[simp] theorem total_nil : total env [] = 0 := rfl

@[simp] theorem total_cons (t : Term) (ts : List Term) :
    total env (t :: ts) = amount env t + total env ts := by
  simp [total]

theorem collectConsts_spec (ts : List Term) : ∀ consts : List Term,
    (∀ t ∈ consts, t.2.isConst = true) → (collectConsts ts consts).1.Perm (ts ++ consts) ∧
      ∃ p q, (collectConsts ts consts).1 = p ++ q ∧ q.length = (collectConsts ts consts).2.1 ∧
        ∀ t ∈ q, t.2.isConst = true := by
  induction ts with
  | nil =>
    intro consts hc
    exact ⟨List.Perm.refl _, [], consts, rfl, rfl, hc⟩
  | cons t ts ih =>
    intro consts hc
    by_cases ht : t.2.isConst = true
    · obtain ⟨hperm, hsplit⟩ := ih (t :: consts) (by
        intro u hu
        rcases mem_cons.mp hu with rfl | hu
        · exact ht
        · exact hc u hu)
      simp only [collectConsts, if_pos ht]
      exact ⟨hperm.trans perm_middle, hsplit⟩
    · obtain ⟨hperm, p, q, hpq, hlen, hq⟩ := ih consts hc
      simp only [collectConsts, if_neg ht]
      exact ⟨hperm.cons t, t :: p, q, by rw [hpq, cons_append], hlen, hq⟩

/-! ## Folding constants -/

theorem foldFirst_spec (env : Env W) (T : SumTypes) (hc : t.2.isConst = true) :
    (foldFirst W T t).isConst = true ∧ eval env (foldFirst W T t) = some (amount env t) := by
  have hv : eval env t.2 = some (t.2.constVal.setWidth W.bits) := eval_of_isConst hc
  unfold foldFirst amount
  rw [hv]
  split_ifs
  · refine ⟨?_, eval_constantFold1 hc hv⟩
    unfold constantFold1 simpIntconst
    split <;> rfl
  · exact ⟨hc, hv⟩

theorem foldTerm_spec (T : SumTypes) (hr : r.isConst = true)
    (ha : eval env r = some a) (hc : t.2.isConst = true) : (foldTerm W T r t).isConst = true ∧
      eval env (foldTerm W T r t) = some (a + amount env t) := by
  have hv : eval env t.2 = some (t.2.constVal.setWidth W.bits) := eval_of_isConst hc
  unfold foldTerm amount
  rw [hv]
  cases t.1 with
  | true =>
    obtain ⟨e, he, hec, hev⟩ := @eval_constantFold2 _ env .sub T.sub _ _ _ _ _ hr hc ha hv rfl
    simp only [if_true, he, getD_some]
    exact ⟨hec, by rw [hev, sub_eq_add_neg]⟩
  | false =>
    obtain ⟨e, he, hec, hev⟩ := @eval_constantFold2 _ env .add T.add _ _ _ _ _ hr hc ha hv rfl
    simp only [Bool.false_eq_true, if_false, he, getD_some]
    exact ⟨hec, hev⟩

/-! ## Two, three and four operands -/

theorem addTerm_post (hC : C.Sound X) (T : SumTypes)
    (ha : eval X.env r = some a) (ht : ∃ v, eval X.env t.2 = some v) :
    Post (addTerm C T r t) fun e => eval X.env e = some (a + amount X.env t) := by
  have hv := eval_eq_amount ht
  unfold addTerm
  split_ifs with hs
  · rw [if_pos hs] at hv
    exact hC.exp2 ha hv (by simp [Bop.eval])
  · rw [if_neg hs] at hv
    exact hC.exp2 ha hv rfl

theorem withSign_post (hC : C.Sound X) (T : SumTypes)
    (ht : ∃ v, eval X.env t.2 = some v) :
    Post (withSign C T t) fun e => eval X.env e = some (amount X.env t) := by
  have hv := eval_eq_amount ht
  unfold withSign
  split_ifs with hs
  · rw [if_pos hs] at hv
    have hneg := @Creator.Sound.exp1 _ _ _ hC T.add _ _ hv
    rwa [neg_neg] at hneg
  · rw [if_neg hs] at hv
    exact post_pure hv

theorem addPair_post (hC : C.Sound X) (T : SumTypes) {ti tj : Term}
    (hi : ∃ v, eval X.env ti.2 = some v) (hj : ∃ v, eval X.env tj.2 = some v) :
    Post (addPair C T ti tj) fun e => eval X.env e = some (amount X.env ti + amount X.env tj) := by
  have hvi := eval_eq_amount hi
  have hvj := eval_eq_amount hj
  unfold addPair
  split_ifs with hs hs'
  · rw [if_pos hs] at hvi
    rw [if_pos hs'] at hvj
    refine post_bind (hC.exp2 hvi hvj rfl) fun r hr => ?_
    have hneg := @Creator.Sound.exp1 _ _ _ hC T.add _ _ hr
    rwa [neg_add, neg_neg, neg_neg] at hneg
  · rw [if_pos hs] at hvi
    rw [if_neg hs'] at hvj
    refine hC.exp2 hvj hvi ?_
    simp only [Bop.eval, some.injEq]
    ring
  · rw [if_neg hs] at hvi
    exact addTerm_post hC T hvi hj

section

variable (hX : X.Faithful) {k0 k1 : Expr} (negateResult : Bool) (ha : eval X.env k0 = some a)
  (hb : eval X.env k1 = some b)
include hX negateResult ha hb

theorem diffByTrees_yields :
    Yields X.env (if negateResult then -(a - b) else a - b) (diffByTrees X k0 k1) := by
  unfold diffByTrees
  by_cases hc : X.compareTrees k0 k1 = 0
  · have hab : a = b := by
      have he := hX.compare k0 k1 hc
      rw [ha, hb] at he
      exact some.inj he
    rw [if_pos hc]
    refine yields_some ?_
    rw [eval_simpIntconst, hab]
    simp
  · rw [if_neg hc]
    exact yields_none

theorem simpDiffValue_post : Post (simpDiffValue X k0 k1 negateResult)
      (Yields X.env (if negateResult then -(a - b) else a - b)) := by
  unfold simpDiffValue
  split
  · rename_i t0 s0 o0 t1 s1 o1
    by_cases hs : s0 = s1
    · subst hs
      rw [if_pos rfl]
      refine post_check fun hok => post_some ?_
      rw [beq_iff_eq] at hok
      have hdiff : a - b = o0.signExtend W.bits - o1.signExtend W.bits := by
        rw [← some.inj ha, ← some.inj hb]
        ring
      rw [eval_simpIntconst, hdiff, ← hok]
      split_ifs
      · congr 1
        exact BitVec.setWidth_neg_of_le W.bits_le
      · rfl
    · rw [if_neg hs]
      exact post_pure (diffByTrees_yields hX negateResult ha hb)
  · exact post_pure (diffByTrees_yields hX negateResult ha hb)

end

/-- The first pair of terms that cancel is taken out of the sum. -/
theorem firstCancel_post (hX : X.Faithful) (l : List (Term × Term × List Term))
    (hl : ∀ p ∈ l, (∃ v, eval X.env p.1.2 = some v) ∧ ∃ v, eval X.env p.2.1.2 = some v) :
    Post (firstCancel X l) fun r => ∀ dt rest, r = some (dt, rest) →
      ∃ p ∈ l, p.2.2 = rest ∧ eval X.env dt = some (amount X.env p.1 + amount X.env p.2.1) := by
  induction l with
  | nil => exact post_pure (fun _ _ h => by cases h)
  | cons p more ih =>
    obtain ⟨ta, tb, rest⟩ := p
    have later : Post (firstCancel X more) fun r => ∀ dt rest', r = some (dt, rest') →
        ∃ p ∈ (ta, tb, rest) :: more, p.2.2 = rest' ∧
          eval X.env dt = some (amount X.env p.1 + amount X.env p.2.1) := by
      intro hok dt rest' hr
      obtain ⟨p, hp, h⟩ := ih (fun p hp => hl p (by simp [hp])) hok dt rest' hr
      exact ⟨p, by simp [hp], h⟩
    unfold firstCancel
    by_cases hs : (ta.1 != tb.1) = true
    · rw [if_pos hs]
      obtain ⟨hta, htb⟩ := hl (ta, tb, rest) (by simp)
      refine post_bind (simpDiffValue_post hX ta.1 (eval_eq_amount hta) (eval_eq_amount htb))
        fun r hr => ?_
      cases r with
      | none => exact later
      | some dt =>
        refine post_pure ?_
        rintro dt' rest' ⟨rfl⟩
        refine ⟨(ta, tb, rest), by simp, rfl, ?_⟩
        rw [hr dt rfl]
        congr 1
        cases ha : ta.1 <;> cases hb : tb.1 <;> simp [ha, hb] at hs ⊢
        ring
    · rw [if_neg hs]
      exact later

/-- A sum of three terms: the constants are put together and the sum stays. -/
theorem sumOfThree_post (hX : X.Faithful) (hC : C.Sound X) (T : SumTypes)
    (constLast : Bool) (hd : Defined X.env [t0, t1, t2]) :
    Post (sumOfThree X C T t0 t1 t2 constLast) (Yields X.env (total X.env [t0, t1, t2])) := by
  have h0 := hd t0 (by simp)
  have h1 := hd t1 (by simp)
  have h2 := hd t2 (by simp)
  have hv0 := eval_eq_amount h0
  have hv1 := eval_eq_amount h1
  simp only [total_cons, total_nil, add_zero]
  unfold sumOfThree
  by_cases hc : constLast = true
  · rw [if_pos hc]
    by_cases hs0 : t0.1 = true
    · rw [if_pos hs0] at hv0 ⊢
      by_cases hs1 : t1.1 = true
      · -- `-x0 - x1 + c` is `c - (x0 + x1)`
        rw [if_pos hs1] at hv1 ⊢
        refine post_bind (hC.exp2 hv0 hv1 rfl) fun r hr => ?_
        refine post_bind (withSign_post hC T h2) fun c hc' => post_create (hC.exp2 hc' hr ?_)
        simp only [Bop.eval, some.injEq]
        ring
      · -- `-x0 + x1 + c` is `(x1 - x0) + c`
        rw [if_neg hs1] at hv1 ⊢
        refine post_bind (hC.exp2 hv1 hv0 rfl) fun r hr => post_create ?_
        have hsum := addTerm_post hC T hr h2
        have he : amount X.env t1 - -amount X.env t0 + amount X.env t2 =
            amount X.env t0 + (amount X.env t1 + amount X.env t2) := by ring
        rwa [he] at hsum
    · rw [if_neg hs0] at hv0 ⊢
      refine post_bind (addTerm_post hC T hv0 h1) fun r hr => post_create ?_
      rw [← add_assoc]
      exact addTerm_post hC T hr h2
  · rw [if_neg hc]
    by_cases hag : X.opts.aggressive = true
    swap
    · rw [if_neg hag]
      exact post_none
    -- a pair cancels
    rw [if_pos hag]
    refine post_bind (firstCancel_post hX _ ?_) fun r hr => ?_
    · intro p hp
      simp only [mem_cons, not_mem_nil, or_false] at hp
      rcases hp with rfl | rfl | rfl
      · exact ⟨h0, h1⟩
      · exact ⟨h1, h2⟩
      · exact ⟨h2, h0⟩
    · split
      · obtain ⟨p, hp, hrest, hdt⟩ := hr _ _ rfl
        simp only [mem_cons, not_mem_nil, or_false] at hp
        rcases hp with rfl | rfl | rfl
        · cases hrest
          refine post_create ?_
          rw [← add_assoc]
          exact addTerm_post hC T hdt h2
        · cases hrest
          refine post_create ?_
          rw [add_comm (amount X.env t0)]
          exact addTerm_post hC T hdt h0
        · cases hrest
          refine post_create ?_
          have hsum := addTerm_post hC T hdt h1
          have he : amount X.env t2 + amount X.env t0 + amount X.env t1 =
              amount X.env t0 + (amount X.env t1 + amount X.env t2) := by ring
          rwa [he] at hsum
      · exact post_none

theorem sumOfFour_post (hX : X.Faithful) (hC : C.Sound X) (T : SumTypes) {t3 : Term}
    (constLast : Bool) (hd : Defined X.env [t0, t1, t2, t3]) :
    Post (sumOfFour X C T t0 t1 t2 t3 constLast) (Yields X.env (total X.env [t0, t1, t2, t3])):= by
  unfold sumOfFour
  by_cases hag : X.opts.aggressive = true
  swap
  · rw [if_neg hag]
    exact post_none
  rw [if_pos hag]
  -- every pair of either list leaves two operands, and all four together are ours
  have hpairs : ∀ p ∈ (if constLast = true then
        [(t0, t1, [t2, t3]), (t1, t2, [t0, t3]), (t2, t0, [t1, t3])]
      else [(t0, t1, [t2, t3]), (t0, t2, [t1, t3]), (t0, t3, [t1, t2]),
        (t1, t2, [t0, t3]), (t1, t3, [t0, t2]), (t2, t3, [t0, t1])]),
      (p.1 ∈ [t0, t1, t2, t3] ∧ p.2.1 ∈ [t0, t1, t2, t3] ∧
        ∀ t ∈ p.2.2, t ∈ [t0, t1, t2, t3]) ∧
      amount X.env p.1 + amount X.env p.2.1 + total X.env p.2.2 =
        total X.env [t0, t1, t2, t3] := by
    intro p hp
    split_ifs at hp
    · simp only [mem_cons, not_mem_nil, or_false] at hp
      rcases hp with rfl | rfl | rfl <;>
        exact ⟨by simp, by simp only [total_cons, total_nil]; ring⟩
    · simp only [mem_cons, not_mem_nil, or_false] at hp
      rcases hp with rfl | rfl | rfl | rfl | rfl | rfl <;>
        exact ⟨by simp, by simp only [total_cons, total_nil]; ring⟩
  refine post_bind (firstCancel_post hX _ ?_) fun r hr => ?_
  · intro p hp
    obtain ⟨⟨hp1, hp2, -⟩, -⟩ := hpairs p hp
    exact ⟨hd _ hp1, hd _ hp2⟩
  · split
    · obtain ⟨p, hp, hrest, hdt⟩ := hr _ _ rfl
      obtain ⟨⟨-, -, hmem⟩, htotal⟩ := hpairs p hp
      rw [hrest] at hmem htotal
      refine post_bind (addPair_post hC T (hd _ (hmem _ (by simp))) (hd _ (hmem _ (by simp))))
        fun e he => post_create (hC.exp2 he hdt ?_)
      rw [← htotal]
      simp only [total_cons, total_nil, Bop.eval, some.injEq]
      ring
    · exact post_none

/-! ## The reassociation -/

theorem post_withConst (hC : C.Sound X) (T : SumTypes) {c : Expr}
    (ht : ∃ v, eval X.env t.2 = some v) (hc : eval X.env c = some a) :
    Post (if t.1 = true then some <$> C.exp2 .sub T.sub c t.2
      else some <$> C.exp2 .add T.add t.2 c) (Yields X.env (amount X.env t + a)) := by
  have hv := eval_eq_amount ht
  split_ifs with hs
  · rw [if_pos hs] at hv
    refine post_create (hC.exp2 hc hv ?_)
    simp only [Bop.eval, some.injEq]
    ring
  · rw [if_neg hs] at hv
    exact post_create (hC.exp2 hv hc rfl)

/-- All sums of three and four terms keep the total. -/
theorem reassociate_post (hX : X.Faithful) (hC : C.Sound X) (T : SumTypes)
    (hts : Defined X.env ts) : Post (reassociate X C T ts) (Yields X.env (total X.env ts)):= by
  obtain ⟨hperm, p, q, hpq, hlen, hq⟩ := collectConsts_spec ts [] (by simp)
  rw [append_nil] at hperm
  have hd := hts.perm hperm.symm
  rw [← total_perm hperm]
  unfold reassociate
  generalize collectConsts ts [] = c at *
  obtain ⟨xs, numConst, moved⟩ := c
  simp only at hperm hpq hlen hd ⊢
  subst hlen
  have hconst : ∀ t ∈ xs.drop (xs.length - q.length), t.2.isConst = true := by
    intro t ht
    refine hq t ?_
    rw [hpq] at ht
    simpa using ht
  split
  · -- three terms, by the number of constants
    rename_i t0 t1 t2
    by_cases h3 : q.length = 3
    · rw [if_pos h3]
      rw [h3] at hconst
      obtain ⟨hc, hv⟩ := foldFirst_spec X.env T (hconst t0 (by simp))
      obtain ⟨hc, hv⟩ := foldTerm_spec T hc hv (hconst t1 (by simp))
      obtain ⟨hc, hv⟩ := foldTerm_spec T hc hv (hconst t2 (by simp))
      refine post_some ?_
      rw [hv]
      simp only [total_cons, total_nil, add_zero, add_assoc]
    · rw [if_neg h3]
      by_cases h2 : q.length = 2
      · rw [if_pos h2]
        rw [h2] at hconst
        obtain ⟨hc, hv⟩ := foldFirst_spec X.env T (hconst t1 (by simp))
        obtain ⟨hc, hv⟩ := foldTerm_spec T hc hv (hconst t2 (by simp))
        simp only [total_cons, total_nil, add_zero]
        exact post_withConst hC T (hd t0 (by simp)) hv
      · rw [if_neg h2]
        exact sumOfThree_post hX hC T _ hd
  · -- four terms, by the number of constants
    rename_i t0 t1 t2 t3
    by_cases h4 : q.length = 4
    · rw [if_pos h4]
      rw [h4] at hconst
      obtain ⟨hc, hv⟩ := foldFirst_spec X.env T (hconst t0 (by simp))
      obtain ⟨hc, hv⟩ := foldTerm_spec T hc hv (hconst t1 (by simp))
      obtain ⟨hc, hv⟩ := foldTerm_spec T hc hv (hconst t2 (by simp))
      obtain ⟨hc, hv⟩ := foldTerm_spec T hc hv (hconst t3 (by simp))
      refine post_some ?_
      rw [hv]
      simp only [total_cons, total_nil, add_zero, add_assoc]
    · rw [if_neg h4]
      by_cases h3 : q.length = 3
      · rw [if_pos h3]
        rw [h3] at hconst
        obtain ⟨hc, hv⟩ := foldFirst_spec X.env T (hconst t1 (by simp))
        obtain ⟨hc, hv⟩ := foldTerm_spec T hc hv (hconst t2 (by simp))
        obtain ⟨hc, hv⟩ := foldTerm_spec T hc hv (hconst t3 (by simp))
        have htotal : total X.env [t0, t1, t2, t3] = amount X.env t0 +
            (amount X.env t1 + amount X.env t2 + amount X.env t3) := by
          simp only [total_cons, total_nil, add_zero, add_assoc]
        rw [htotal]
        exact post_withConst hC T (hd t0 (by simp)) hv
      · rw [if_neg h3]
        by_cases h2 : q.length = 2
        · rw [if_pos h2]
          rw [h2] at hconst
          obtain ⟨hc, hv⟩ := foldFirst_spec X.env T (hconst t2 (by simp))
          obtain ⟨hc, hv⟩ := foldTerm_spec T hc hv (hconst t3 (by simp))
          have hd' : Defined X.env [t0, t1, (false, foldTerm W T (foldFirst W T t2) t3)] := by
            intro t ht
            simp only [mem_cons, not_mem_nil, or_false] at ht
            rcases ht with rfl | rfl | rfl
            · exact hd _ (by simp)
            · exact hd _ (by simp)
            · exact ⟨_, hv⟩
          have htotal : total X.env [t0, t1, t2, t3] =
              total X.env [t0, t1, (false, foldTerm W T (foldFirst W T t2) t3)] := by
            have hamount : amount X.env (false, foldTerm W T (foldFirst W T t2) t3) =
                amount X.env t2 + amount X.env t3 := by
              simp [amount, hv]
            simp only [total_cons, total_nil, add_zero, hamount]
          rw [htotal]
          exact sumOfThree_post hX hC T _ hd'
        · rw [if_neg h2]
          exact sumOfFour_post hX hC T _ hd
  · exact post_none

/-- The sum or difference that the operands come from. -/
def sumOrDiff (issub : Bool) (a b : BitVec W.bits) : BitVec W.bits :=
  if issub then a - b else a + b

/-- The terms collected from the two operands add up to the sum or the difference. -/
theorem operands_total (issub : Bool) {k0 k1 : Expr}
    (ha : eval env k0 = some a) (hb : eval env k1 = some b) : operands issub k0 k1 = [] ∨
      (Defined env (operands issub k0 k1) ∧
        total env (operands issub k0 k1) = sumOrDiff issub a b) := by
  -- the values of the operands, and the total, case by case
  have sums : ∀ {op : Bop} {ty : Sgn} {k l : Expr} {u : BitVec W.bits},
      eval env (.bin op ty k l) = some u →
      ∃ x y, eval env k = some x ∧ eval env l = some y ∧ op.eval ty x y = some u :=
    fun h => eval_bin.mp h
  unfold operands
  split
  case h_1 | h_2 | h_3 | h_4 =>
    obtain ⟨x, y, hx, hy, hxy⟩ := sums ha
    obtain ⟨z, w, hz, hw, hzw⟩ := sums hb
    rw [← some.inj hxy, ← some.inj hzw]
    refine .inr ⟨?_, ?_⟩
    · intro t ht
      simp only [mem_cons, not_mem_nil, or_false] at ht
      rcases ht with rfl | rfl | rfl | rfl
      · exact ⟨x, hx⟩
      · exact ⟨y, hy⟩
      · exact ⟨z, hz⟩
      · exact ⟨w, hw⟩
    · cases issub <;> simp [amount, sumOrDiff, hx, hy, hz, hw] <;> ring
  case h_5 | h_6 =>
    obtain ⟨x, y, hx, hy, hxy⟩ := sums ha
    rw [← some.inj hxy]
    refine .inr ⟨?_, ?_⟩
    · intro t ht
      simp only [mem_cons, not_mem_nil, or_false] at ht
      rcases ht with rfl | rfl | rfl
      · exact ⟨x, hx⟩
      · exact ⟨y, hy⟩
      · exact ⟨b, hb⟩
    · cases issub <;> simp [amount, sumOrDiff, hx, hy, hb] <;> ring
  case h_7 =>
    split_ifs
    · exact .inl rfl
    · obtain ⟨z, w, hz, hw, hzw⟩ := sums hb
      rw [← some.inj hzw]
      refine .inr ⟨?_, ?_⟩
      · intro t ht
        simp only [mem_cons, not_mem_nil, or_false] at ht
        rcases ht with rfl | rfl | rfl
        · exact ⟨a, ha⟩
        · exact ⟨z, hz⟩
        · exact ⟨w, hw⟩
      · cases issub <;> simp [amount, sumOrDiff, ha, hz, hw]
        ring
  case h_8 =>
    obtain ⟨z, w, hz, hw, hzw⟩ := sums hb
    rw [← some.inj hzw]
    refine .inr ⟨?_, ?_⟩
    · intro t ht
      simp only [mem_cons, not_mem_nil, or_false] at ht
      rcases ht with rfl | rfl | rfl
      · exact ⟨a, ha⟩
      · exact ⟨z, hz⟩
      · exact ⟨w, hw⟩
    · cases issub <;> simp [amount, sumOrDiff, ha, hz, hw] <;> ring
  case h_9 => exact .inl rfl

/-! ## The other rules of `simp_add_sub` -/

theorem simpAddSubSimple_post (hC : C.Sound X) {issub : Bool} (T : SumTypes) {ty : Sgn}
    {k0 k1 : Expr} (ha : eval X.env k0 = some a) (hb : eval X.env k1 = some b) :
    Post (simpAddSubSimple (W := W) C issub T ty k0 k1) (Yields X.env (sumOrDiff issub a b)) := by
  unfold simpAddSubSimple
  by_cases h1 : (k1.isConst && k1.constVal == 0) = true
  · -- `j + 0` and `j - 0`
    rw [if_pos h1]
    rw [Bool.and_eq_true, beq_iff_eq] at h1
    have hb0 : b = 0 := by
      rw [← constVal_eq h1.1 hb, h1.2]
      cases W <;> rfl
    refine post_some ?_
    rw [ha, hb0]
    cases issub <;> simp [sumOrDiff]
  rw [if_neg h1]
  by_cases h2 : (k1.isConst && issub && ty == .signed) = true
  · -- `j - c` is `j + (-c)`
    rw [if_pos h2]
    simp only [Bool.and_eq_true] at h2
    obtain ⟨⟨hc, rfl⟩, -⟩ := h2
    refine post_create (hC.exp2 ha (eval_constantFold1 hc hb) ?_)
    simp [Bop.eval, sumOrDiff, sub_eq_add_neg]
  rw [if_neg h2]
  by_cases h3 : (k0.isConst && issub && k0.constVal == 0) = true
  · -- `0 - j`
    rw [if_pos h3]
    simp only [Bool.and_eq_true, beq_iff_eq] at h3
    obtain ⟨⟨hc, rfl⟩, hval⟩ := h3
    have ha0 : a = 0 := by
      rw [← constVal_eq hc ha, hval]
      cases W <;> rfl
    have hneg := @Creator.Sound.exp1 _ _ _ hC ty _ _ hb
    refine post_create ?_
    rw [ha0]
    simpa [sumOrDiff] using hneg
  rw [if_neg h3]
  by_cases hs : issub = true
  · subst hs
    rw [if_pos rfl]
    split
    · -- `x - (-y)`
      obtain ⟨y, hy, rfl⟩ := eval_neg hb
      exact post_create (hC.exp2 ha hy (by simp [Bop.eval, sumOrDiff]))
    · -- `(-x) - y`
      obtain ⟨x, hx, rfl⟩ := eval_neg ha
      split_ifs with hc
      · rw [Bool.and_eq_true] at hc
        refine post_create (hC.exp2 (eval_constantFold1 hc.1 hb) hx ?_)
        simp only [Bop.eval, sumOrDiff, if_true, some.injEq]
        ring
      · refine post_bind (hC.exp2 hx hb rfl) fun r hr => post_create ?_
        have hneg := @Creator.Sound.exp1 _ _ _ hC ty _ _ hr
        have he : -(x + b) = sumOrDiff true (-x) b := by
          simp only [sumOrDiff, if_true]
          ring
        rwa [he] at hneg
    · exact post_none
  · rw [if_neg hs]
    rw [Bool.not_eq_true] at hs
    subst hs
    split
    · -- `(-x) + y`
      obtain ⟨x, hx, rfl⟩ := eval_neg ha
      refine post_create (hC.exp2 hb hx ?_)
      simp only [Bop.eval, sumOrDiff, Bool.false_eq_true, if_false, some.injEq]
      ring
    · -- `x + (-y)`
      obtain ⟨y, hy, rfl⟩ := eval_neg hb
      refine post_create (hC.exp2 ha hy ?_)
      simp [Bop.eval, sumOrDiff, sub_eq_add_neg]
    · exact post_none

/-- The operator of a sum or a difference. -/
def sumOp (issub : Bool) : Bop := if issub then .sub else .add

theorem eval_sumOp (issub : Bool) (ty : Sgn) (a b : BitVec W.bits) :
    (sumOp issub).eval ty a b = some (sumOrDiff issub a b) := by
  cases issub <;> rfl

theorem mul_sumOrDiff (issub : Bool) (z x y : BitVec W.bits) :
    z * sumOrDiff issub x y = sumOrDiff issub (z * x) (z * y) := by
  cases issub with
  | true => exact mul_sub z x y
  | false => exact mul_add z x y

theorem post_factor (hC : C.Sound X) (issub : Bool) (ty : Sgn) {f x y : Expr}
    {z u w : BitVec W.bits} (hf : eval X.env f = some z)
    (hx : eval X.env x = some u) (hy : eval X.env y = some w) : Post (do
      let r ← C.exp2 (sumOp issub) ty x y
      some <$> C.exp2 .mpy ty f r) (Yields X.env (sumOrDiff issub (z * u) (z * w))) ∧
    Post (do
      let r ← C.exp2 (sumOp issub) ty x y
      some <$> C.exp2 .mpy ty r f) (Yields X.env (sumOrDiff issub (z * u) (z * w))) := by
  constructor
  · refine post_bind (hC.exp2 hx hy (eval_sumOp ..)) fun r hr => post_create (hC.exp2 hf hr ?_)
    rw [← mul_sumOrDiff]
    rfl
  · refine post_bind (hC.exp2 hx hy (eval_sumOp ..)) fun r hr => post_create (hC.exp2 hr hf ?_)
    rw [← mul_sumOrDiff, mul_comm]
    rfl

theorem compare_value (hX : X.Faithful) {k l : Expr} (h : X.compareTrees k l = 0)
    (ha : eval X.env k = some a) (hb : eval X.env l = some b) : b = a := by
  have he := hX.compare k l h
  rw [ha, hb] at he
  exact (some.inj he).symm

theorem simpFactor_post (hX : X.Faithful) (hC : C.Sound X) {issub : Bool} {ty : Sgn}
    {k0 k1 : Expr} (flag : FactorFlags)
    (ha : eval X.env k0 = some a) (hb : eval X.env k1 = some b) :
    Post (simpFactor X C k0 k1 .mpy (sumOp issub) ty flag) (Yields X.env (sumOrDiff issub a b)):= by
  unfold simpFactor
  by_cases hag : (!X.opts.aggressive) = true
  · rw [if_pos hag]
    exact post_none
  rw [if_neg hag]
  split
  · rename_i p0 t0 a0 b0 p1 t1 a1 b1
    obtain ⟨x0, y0, hx0, hy0, hxy0⟩ := eval_bin.mp ha
    obtain ⟨x1, y1, hx1, hy1, hxy1⟩ := eval_bin.mp hb
    split_ifs with hop h11 h22 h21 h12
    · obtain ⟨rfl, -, rfl, -⟩ := hop
      rw [Bool.and_eq_true, beq_iff_eq] at h11
      rw [← some.inj hxy0, ← some.inj hxy1, compare_value hX h11.2 hx0 hx1]
      exact (post_factor hC issub _ hx0 hy0 hy1).1
    · obtain ⟨rfl, -, rfl, -⟩ := hop
      rw [Bool.and_eq_true, beq_iff_eq] at h22
      rw [← some.inj hxy0, ← some.inj hxy1, compare_value hX h22.2 hy0 hy1,
        mul_comm x0, mul_comm x1]
      exact (post_factor hC issub _ hy0 hx0 hx1).2
    · obtain ⟨rfl, -, rfl, -⟩ := hop
      rw [Bool.and_eq_true, beq_iff_eq] at h21
      rw [← some.inj hxy0, ← some.inj hxy1, compare_value hX h21.2 hy0 hx1,
        mul_comm x0]
      exact (post_factor hC issub _ hy0 hx0 hy1).1
    · obtain ⟨rfl, -, rfl, -⟩ := hop
      rw [Bool.and_eq_true, beq_iff_eq] at h12
      rw [← some.inj hxy0, ← some.inj hxy1, compare_value hX h12.2 hx0 hy1,
        mul_comm x1]
      exact (post_factor hC issub _ hx0 hy0 hx1).1
    · exact post_none
    · exact post_none
  · exact post_none

theorem eval_makeIdentity (ty : Sgn) : eval env (makeIdentity W .mpy ty) = some 1 := by
  rw [makeIdentity, eval_simpIntconst]
  cases W <;> rfl

section

variable (hX : X.Faithful) (hC : C.Sound X) {issub : Bool} {ty : Sgn} {k0 k1 : Expr}
  (constOnly : Bool) (ha : eval X.env k0 = some a) (hb : eval X.env k1 = some b)
include hX hC constOnly ha hb

theorem factorIdtyRight_post : Post (factorIdtyRight X C k0 k1 .mpy (sumOp issub) ty constOnly)
      (Yields X.env (sumOrDiff issub a b)) := by
  unfold factorIdtyRight
  split
  · rename_i p1 t1 a1 b1
    obtain ⟨x1, y1, hx1, hy1, hxy1⟩ := eval_bin.mp hb
    split_ifs with hop hl hcl hr hcr
    · obtain ⟨rfl, -⟩ := hop
      rw [← some.inj hxy1, ← compare_value hX hl ha hx1, ← mul_one x1]
      have hfac := (post_factor hC issub ty hx1
        (eval_makeIdentity ty) hy1).1
      simpa only [mul_one] using hfac
    · exact post_none
    · obtain ⟨rfl, -⟩ := hop
      rw [← some.inj hxy1, ← compare_value hX hr ha hy1, mul_comm x1]
      have hfac := (post_factor hC issub ty hy1
        (eval_makeIdentity ty) hx1).2
      simpa only [mul_one] using hfac
    · exact post_none
    · exact post_none
    · exact post_none
  · exact post_none

theorem simpFactorIdty_post : Post (simpFactorIdty X C k0 k1 .mpy (sumOp issub) ty constOnly)
      (Yields X.env (sumOrDiff issub a b)) := by
  unfold simpFactorIdty
  by_cases hag : (!X.opts.aggressive) = true
  · rw [if_pos hag]
    exact post_none
  rw [if_neg hag]
  split
  · rename_i p0 t0 a0 b0
    obtain ⟨x0, y0, hx0, hy0, hxy0⟩ := eval_bin.mp ha
    split_ifs with hop hl hcl hr hcr
    · obtain ⟨rfl, -⟩ := hop
      rw [← some.inj hxy0, compare_value hX hl hx0 hb]
      have hfac := (post_factor hC issub ty hx0 hy0
        (eval_makeIdentity ty)).1
      simpa only [mul_one] using hfac
    · exact post_none
    · obtain ⟨rfl, -⟩ := hop
      rw [← some.inj hxy0, compare_value hX hr hy0 hb, mul_comm x0]
      have hfac := (post_factor hC issub ty hy0 hx0
        (eval_makeIdentity ty)).2
      simpa only [mul_one] using hfac
    · exact post_none
    · exact post_none
    · exact factorIdtyRight_post hX hC constOnly ha hb
  · exact factorIdtyRight_post hX hC constOnly ha hb

end

theorem signExtend_bits (x : BitVec 32) :
    x.signExtend W.bits = (x.signExtend 64).setWidth W.bits := by
  have hw := W.bits_le
  apply BitVec.eq_of_getLsbD_eq
  intro i hi
  have hi' : i < 64 := by omega
  simp only [BitVec.getLsbD_setWidth, BitVec.getLsbD_signExtend, hi, hi', decide_true,
    Bool.true_and]

theorem signExtend_setWidth_32 {n : BitVec 64} (h1 : -2 ^ 31 ≤ n.toInt) (h2 : n.toInt < 2 ^ 31) :
    (n.setWidth 32).signExtend 64 = n := by
  apply BitVec.eq_of_toInt_eq
  rw [BitVec.toInt_signExtend_of_le (by decide), BitVec.toInt_setWidth]
  have hn := n.isLt
  rw [BitVec.toInt_eq_toNat_cond] at h1 h2 ⊢
  simp only [Int.bmod]
  split_ifs at * <;> omega

theorem foldLda_yields {issub : Bool} {k0 k1 : Expr}
    (ha : eval X.env k0 = some a) (hb : eval X.env k1 = some b) :
    Yields X.env (sumOrDiff issub a b) (foldLda X issub k0 k1) := by
  unfold foldLda
  split
  · rename_i t s o
    by_cases hc : (k1.isConst && X.opts.foldLda) = true
    · simp only [hc, if_true]
      rw [Bool.and_eq_true] at hc
      have hval := constVal_eq hc.1 hb
      by_cases hr : -2 ^ 31 ≤ ((if issub then -k1.constVal else k1.constVal) +
          o.signExtend 64).toInt ∧ ((if issub then -k1.constVal else k1.constVal) +
          o.signExtend 64).toInt < 2 ^ 31
      · rw [if_pos hr]
        refine yields_some ?_
        rw [eval, signExtend_bits, signExtend_setWidth_32 hr.1 hr.2,
          BitVec.setWidth_add _ _ W.bits_le, ← signExtend_bits]
        rw [eval, some.injEq] at ha
        rw [← ha, ← hval]
        cases issub with
        | true =>
          simp only [sumOrDiff, if_true]
          rw [BitVec.setWidth_neg_of_le W.bits_le]
          congr 1
          ring
        | false =>
          simp only [sumOrDiff, Bool.false_eq_true, if_false]
          congr 1
          ring
      · rw [if_neg hr]
        exact yields_none
    · rw [if_neg hc]
      exact yields_none
  · exact yields_none

theorem simpAddSub_post (hX : X.Faithful) (hC : C.Sound X) (issub : Bool) {ty : Sgn}
    {k0 k1 : Expr} (ha : eval X.env k0 = some a) (hb : eval X.env k1 = some b) :
    Post (simpAddSub X C issub ty k0 k1) (Yields X.env (sumOrDiff issub a b)) := by
  unfold simpAddSub
  refine post_orElse (simpAddSubSimple_post hC _ ha hb) (post_orElse ?_ ?_)
  · split_ifs with hc
    · rw [Bool.and_eq_true] at hc
      have hdiff := simpDiffValue_post hX false ha hb
      rw [hc.2]
      exact hdiff
    · exact post_none
  · rcases operands_total issub ha hb with hnil | ⟨hd, htotal⟩
    · rw [hnil]
      exact post_orElse (simpFactor_post hX hC factorAll ha hb)
        (post_orElse (simpFactorIdty_post hX hC true ha hb) (post_pure (foldLda_yields ha hb)))
    · split
      · exact post_orElse (simpFactor_post hX hC factorAll ha hb)
          (post_orElse (simpFactorIdty_post hX hC true ha hb) (post_pure (foldLda_yields ha hb)))
      · rw [← htotal]
        exact reassociate_post hX hC _ hd

end Simp.Arith
