import Path64.Simp.Relop
import Path64.X8664.Modulus

/-! # Equality comparisons

The rules of `simp_eq_neq` for a constant on the right: tests of truth
values and of single bits, masks that cannot give the constant, and
constants that are moved through a sum, a difference or a product. -/

namespace Simp.Whirl

open BitVec

/-! ## The rules -/

/-- `ARCH_has_bit_tests`, for every target. -/
def archHasBitTests : Bool := true

def isLogop : Expr → Bool
  | .unary .lnot _ _ | .binary .land _ _ _ | .binary .lior _ _ _ => true
  | _ => false

/-- Whether `get_inverse_relop` knows the operator. -/
def isRelop : Expr → Bool
  | .compare .. => true
  | _ => false

/-- The operator of a tree with another result type, on the same kids. -/
def withRtype (rt : Mtype) : Expr → Expr
  | .unary op _ k => .unary op rt k
  | .binary op _ k0 k1 => .binary op rt k0 k1
  | .compare op _ desc k0 k1 => .compare op rt desc k0 k1
  | e => e

/-- The rules for a comparison with 0 or 1. -/
def eqTruth (create : Expr → Expr) (op : Relop) (rt desc : Mtype) (k0 k1 : Expr) : Option Expr :=
  let iseq := op = .eq
  let c1 := k1.constVal
  if (isLogop k0 ∨ isRelop k0) ∧ ((iseq ∧ c1 = 1) ∨ (¬ iseq ∧ c1 = 0)) then
    some (create (withRtype rt k0))
  else if isLogop k0 ∧ ((iseq ∧ c1 = 0) ∨ (¬ iseq ∧ c1 = 1)) then
    some (create (.unary .lnot k0.rtype k0))
  else
    match k0 with
    | .compare op' _ desc' a b =>
      if (iseq ∧ c1 = 0) ∨ (¬ iseq ∧ c1 = 1) then some (create (.compare op'.inverse rt desc' a b))
      else none
    | .binary .band t (.unary .bnot _ e) k =>
      if iseq ∧ c1 = 0 ∧ k.isConst ∧ isPowerOf2 k.constVal then
        some (create (.compare op.inverse rt desc (create (.binary .band t e k)) k1))
      else none
    | _ => none

/-- `(x >> c) & 1`, on a target without bit tests. -/
def eqBitTest (create : Expr → Expr) (op : Relop) (rt : Mtype) (x count : Expr) (t : Mtype) : Expr:=
  let c2 := BitVec.ofNat 64 (t.bits - 1) - count.constVal
  let ty := if t.bits = 32 then Mtype.I4 else .I8
  let r := create (.binary .shl ty x (intConst .I4 c2))
  create (.compare (if op = .eq then .ge else .lt) rt ty r (intConst ty 0))

/-- Whether `(j & c2) relop c1`, or with `|`, cannot be equal; 32 bits are low halves. -/
def masksOut (rt : Mtype) (band : Bool) (c2 c1 : BitVec 64) : Bool :=
  let c2 := if rt.bits = 32 then c2 &&& 0xffffffff#64 else c2
  let c1 := if rt.bits = 32 then c1 &&& 0xffffffff#64 else c1
  if band then c1 &&& ~~~c2 != 0 else c2 &&& ~~~c1 != 0

/-- The constant of a comparison that is never, or always, true. -/
def eqConst (op : Relop) (rt : Mtype) : Expr := intConst rt (if op = .eq then 0 else 1)

/-- `(j * c2) relop c1`. -/
def eqMpy (create : Expr → Expr) (op : Relop) (rt desc : Mtype) (j k1 : Expr) (c2 : BitVec 64) :
    Tried :=
  let c1 := k1.constVal
  if c2 = 0 then .no
  else if c1.toInt = -2 ^ 63 ∧ c2.toInt = -1 then .stop
  else if c1.sdiv c2 * c2 = c1 then
    .yes (create (.compare op rt desc j (intConst k1.rtype (c1.sdiv c2))))
  else .yes (eqConst op rt)

/-- The rules after those for 0 and 1. -/
def eqMoved (create : Expr → Expr) (op : Relop) (rt desc : Mtype) (k0 k1 : Expr) : Tried :=
  let c1 := k1.constVal
  let ty := k0.rtype
  match k0 with
  | .binary .band _ j k =>
    if !archHasBitTests ∧ c1 = 0 ∧ k.isConst ∧ k.constVal = 1 then
      match j with
      | .binary .lshr t x count | .binary .ashr t x count =>
        if count.isConst then .yes (eqBitTest create op rt x count t) else .no
      | _ => .no
    else if k.isConst ∧ masksOut rt true k.constVal c1 then .yes (eqConst op rt)
    else .no
  | .binary .bior _ _ k =>
    if k.isConst ∧ masksOut rt false k.constVal c1 then .yes (eqConst op rt) else .no
  | .binary .add _ j k =>
    if k.isConst ∧ (isAddOk c1 (-k.constVal) ty ∨ ty.bits = 64) then
      .yes (create (.compare op rt desc j (intConst ty (c1 + -k.constVal))))
    else .no
  | .binary .sub _ j k =>
    if k.isConst then
      if isAddOk c1 k.constVal ty ∨ ty.bits = 64 then
        .yes (create (.compare op rt desc j (intConst ty (c1 + k.constVal))))
      else .no
    else if j.isConst ∧ (isSubOk j.constVal c1 ty ∨ ty.bits = 64) then
      .yes (create (.compare op rt desc k (intConst ty (j.constVal - c1))))
    else .no
  | .binary .mpy _ j k => if k.isConst then eqMpy create op rt desc j k1 k.constVal else .no
  | _ => .no

/-- The constant rules of `simp_eq_neq`. -/
def simpEqNeq (create : Expr → Expr) (op : Relop) (rt desc : Mtype) (k0 k1 : Expr) : Tried :=
  if k0.isConst then .no
  else if k1.isConst then
    match eqTruth create op rt desc k0 k1 with
    | some r => .yes r
    | none => eqMoved create op rt desc k0 k1
  else .no

/-! ## Stored constants -/

section stored
variable {ty : Mtype} {v v1 v2 : BitVec 64}

theorem word_toInt (ty : Mtype) (v : BitVec 64) : ty.word v.toInt = v.setWidth ty.bits := by
  have hlow := X8664.setWidth_ofInt ty.bits_le v.toInt
  rw [ofInt_toInt] at hlow
  exact hlow.symm

theorem stored_eq (h : WellStored ty v) (hbits : 32 ≤ ty.bits) :
    v = if ty.isUnsigned then (v.setWidth ty.bits).setWidth 64
      else (v.setWidth ty.bits).signExtend 64 := by
  cases hu : ty.isUnsigned with
  | true =>
    rw [if_pos rfl]
    cases ty with
    | I1 | I2 | I4 | I8 => cases hu
    | U1 | U2 => norm_num [Mtype.bits] at hbits
    | U4 =>
      have hlt := h.2 rfl
      apply eq_of_toNat_eq
      rw [toNat_setWidth, toNat_setWidth]
      simp only [Mtype.bits]
      omega
    | U8 => exact (setWidth_eq v).symm
  | false =>
    rw [if_neg Bool.false_ne_true]
    apply eq_of_toInt_eq
    rw [toInt_signExtend_of_le ty.bits_le, ← word_toInt]
    have hwrap := Mtype.wrap_of_holds (h.1 hu)
    unfold Mtype.wrap Mtype.ofWord at hwrap
    rw [if_neg (by rw [hu]; exact Bool.false_ne_true)] at hwrap
    exact hwrap.symm

theorem stored_and (h1 : WellStored ty v1) (h2 : WellStored ty v2) (hbits : 32 ≤ ty.bits)
    (h : v1.setWidth ty.bits &&& v2.setWidth ty.bits = v1.setWidth ty.bits) : v1 &&& v2 = v1 := by
  have e1 := stored_eq h1 hbits
  have e2 := stored_eq h2 hbits
  cases hu : ty.isUnsigned with
  | true =>
    rw [hu, if_pos rfl] at e1 e2
    rw [e1, e2, ← setWidth_and, h]
  | false =>
    rw [hu, if_neg Bool.false_ne_true] at e1 e2
    rw [e1, e2, ← signExtend_and, h]

theorem word_power (h : WellStored ty v) (hbits : 32 ≤ ty.bits) (hpow : isPowerOf2 v = true) :
    ∃ n, n < ty.bits ∧ v.setWidth ty.bits = BitVec.twoPow ty.bits n := by
  obtain ⟨n, hn⟩ := (X8664.bitPowerOf2_iff v).mp hpow
  have hlt := v.isLt
  have hn64 : n < 64 := (Nat.pow_lt_pow_iff_right (by decide : 1 < 2)).mp (hn ▸ hlt)
  have hnb : n < ty.bits := by
    by_contra hge
    -- a power beyond the type is not stored in it
    have h32 : ty.bits = 32 := by cases ty <;> simp_all [Mtype.bits]
    have hle : 2 ^ 32 ≤ 2 ^ n := Nat.pow_le_pow_right (by decide) (by omega)
    cases hu : ty.isUnsigned with
    | true =>
      obtain rfl : ty = .U4 := by cases ty <;> simp_all [Mtype.bits, Mtype.isUnsigned]
      have := h.2 rfl
      omega
    | false =>
      have hholds := h.1 hu
      have hint := toInt_eq_toNat_cond v
      unfold Mtype.Holds at hholds
      rw [hu, if_neg Bool.false_ne_true, h32] at hholds
      norm_num at hholds
      have hle63 : n = 63 ∨ 2 ^ n ≤ 2 ^ 62 := by
        rcases Nat.lt_or_ge n 63 with hlt63 | hge63
        · exact .inr (Nat.pow_le_pow_right (by decide) (by omega))
        · exact .inl (by omega)
      rcases hle63 with rfl | hle63
      · split at hint <;> omega
      · split at hint <;> omega
  refine ⟨n, hnb, ?_⟩
  apply eq_of_toNat_eq
  rw [toNat_setWidth, toNat_twoPow, hn]

end stored

/-! ## Equality modulo the width -/

variable {a b c d : Int} {t : Mtype} {k j : Expr}

section equality
variable {ρ : Env} {create : Expr → Expr} {op : Relop} {rt ty : Mtype} {k0 k1 r : Expr}

theorem rel_eq_congr (hop : op = .eq ∨ op = .ne) (h : a = b ↔ c = d) :
    op.Rel a b ↔ op.Rel c d := by
  rcases hop with rfl | rfl
  · exact h
  · exact not_congr h

theorem eval_eqConst (hop : op = .eq ∨ op = .ne) (h : a ≠ b) :
    eval ρ (eqConst op rt) = truth (op.Rel a b) := by
  unfold eqConst
  rcases hop with rfl | rfl
  · rw [if_pos rfl, eval_intConst]
    exact rt.wrap_zero.trans (if_neg h).symm
  · rw [if_neg (by decide), eval_intConst]
    exact rt.wrap_one.trans (if_pos h).symm

theorem wrap_const (hc : k0.isConst = true) (ht : k0.rtype = ty) :
    ty.wrap (eval ρ k0) = ty.wrap k0.constVal.toInt := by
  cases k0 with
  | intconst t v =>
    obtain rfl : t = ty := ht
    exact t.wrap_wrap v.toInt
  | _ => cases hc

theorem truth_eq_iff (hop : op = .eq ∨ op = .ne) :
    truth (op.Rel a b) = truth (op.Rel c d) ↔ (a = b ↔ c = d) := by
  constructor
  · intro h
    have hiff := iff_of_truth_eq h
    rcases hop with rfl | rfl
    · exact hiff
    · exact not_iff_not.mp hiff
  · exact fun h => truth_congr (rel_eq_congr hop h)

theorem truth_valued (h : isLogop k0 = true ∨ isRelop k0 = true) :
    eval ρ k0 = 0 ∨ eval ρ k0 = 1 := by
  have htruth : ∀ (p : Prop) [Decidable p], truth p = 0 ∨ truth p = 1 := fun p _ => by
    unfold truth
    split
    · exact .inr rfl
    · exact .inl rfl
  cases k0 with
  | unary uop t k =>
    cases uop with
    | lnot => exact htruth _
    | neg | bnot => simp [isLogop, isRelop] at h
  | binary bop t a b =>
    cases bop with
    | land | lior => exact htruth _
    | _ => simp [isLogop, isRelop] at h
  | compare o t d a b => exact htruth _
  | _ => simp [isLogop, isRelop] at h

theorem eval_withRtype (h : isLogop k0 = true ∨ isRelop k0 = true) (rt : Mtype) :
    eval ρ (withRtype rt k0) = eval ρ k0 := by
  cases k0 with
  | unary uop t k =>
    cases uop with
    | lnot => rfl
    | neg | bnot => simp [isLogop, isRelop] at h
  | binary bop t a b =>
    cases bop with
    | land | lior => rfl
    | _ => simp [isLogop, isRelop] at h
  | compare o t d a b => rfl
  | _ => simp [isLogop, isRelop] at h

end equality

/-! ## The rules are right -/

section rules
variable {ρ : Env} {create : Expr → Expr} {op : Relop} {rt desc : Mtype} {k0 k1 r : Expr}

theorem eval_compare_const (hc1 : k1.isConst = true) (h1 : k1.rtype = desc) {n : Int}
    (hn : k1.constVal.toInt = n) :
    eval ρ (.compare op rt desc k0 k1) = truth (op.Rel (desc.wrap (eval ρ k0)) (desc.wrap n)) := by
  rw [eval_compare, wrap_const hc1 h1, hn]

/-- A comparison that is known to be true or false. -/
theorem eqTruth_right (hkeeps : Keeps ρ create) (hop : op = .eq ∨ op = .ne)
    (hbits : 32 ≤ desc.bits) (h0 : Uniform desc k0) (hwf0 : WellFormed k0) (hc1 : k1.isConst = true)
    (h1 : k1.rtype = desc) (h : eqTruth create op rt desc k0 k1 = some r) :
    eval ρ r = eval ρ (.compare op rt desc k0 k1) := by
  have hzero : k1.constVal = 0 → k1.constVal.toInt = 0 := fun h => by rw [h]; rfl
  have hone : k1.constVal = 1 → k1.constVal.toInt = 1 := fun h => by rw [h]; decide
  have hne : op = .ne ↔ ¬ op = .eq := by rcases hop with rfl | rfl <;> decide
  unfold eqTruth at h
  dsimp only at h
  split at h
  · -- the truth value itself
    rename_i hcond
    obtain ⟨hkind, hc⟩ := hcond
    obtain rfl := Option.some.inj h
    rw [hkeeps, eval_withRtype hkind]
    rcases hc with ⟨rfl, hc⟩ | ⟨hnot, hc⟩
    · rw [eval_compare_const hc1 h1 (hone hc)]
      rcases truth_valued (ρ := ρ) hkind with hv | hv <;> rw [hv] <;> simp [truth, Relop.Rel]
    · obtain rfl := hne.mpr hnot
      rw [eval_compare_const hc1 h1 (hzero hc)]
      rcases truth_valued (ρ := ρ) hkind with hv | hv <;> rw [hv] <;> simp [truth, Relop.Rel]
  split at h
  · -- its negation
    rename_i hcond
    obtain ⟨hkind, hc⟩ := hcond
    obtain rfl := Option.some.inj h
    rw [hkeeps, eval]
    show truth (eval ρ k0 = 0) = _
    rcases hc with ⟨rfl, hc⟩ | ⟨hnot, hc⟩
    · rw [eval_compare_const hc1 h1 (hzero hc)]
      rcases truth_valued (ρ := ρ) (.inl hkind) with hv | hv <;> rw [hv] <;>
        simp [truth, Relop.Rel]
    · obtain rfl := hne.mpr hnot
      rw [eval_compare_const hc1 h1 (hone hc)]
      rcases truth_valued (ρ := ρ) (.inl hkind) with hv | hv <;> rw [hv] <;>
        simp [truth, Relop.Rel]
  split at h
  · -- the inverse comparison
    rename_i op' t d a b _ _
    split at h
    · rename_i hc
      obtain rfl := Option.some.inj h
      have hinverse := (hkeeps (.compare op'.inverse rt d a b)).trans
        (truth_congr (op'.rel_inverse (d.wrap (eval ρ a)) (d.wrap (eval ρ b))))
      rw [hinverse]
      rcases hc with ⟨rfl, hc⟩ | ⟨hnot, hc⟩
      · rw [eval_compare_const hc1 h1 (hzero hc), eval_compare, Mtype.wrap_truth, Mtype.wrap_zero]
        exact truth_congr truth_eq_zero.symm
      · obtain rfl := hne.mpr hnot
        rw [eval_compare_const hc1 h1 (hone hc), eval_compare, Mtype.wrap_truth, Mtype.wrap_one]
        exact truth_congr (not_congr truth_eq_one).symm
    · cases h
  · -- one bit of a complement
    rename_i t t' e k _ _
    split at h
    · rename_i hcond
      obtain ⟨rfl, hc, hck, hpow⟩ := hcond
      obtain rfl := Option.some.inj h
      obtain ⟨rfl, hbnot, hk⟩ := h0
      obtain ⟨rfl, -⟩ := hbnot
      cases k with
      | intconst tk v =>
        obtain rfl : tk = t' := hk
        obtain ⟨n, hn, hword⟩ := word_power hwf0.2 hbits hpow
        rw [hkeeps, eval_compare, hkeeps, eval_compare_const hc1 h1 (hzero hc), wrap_const hc1 h1,
          hzero hc]
        have hmask : tk.word (eval ρ (.intconst tk v)) = BitVec.twoPow tk.bits n := by
          rw [eval, Mtype.word_wrap, word_toInt, hword]
        apply truth_congr
        rw [Mtype.wrap_zero, wrap_eval_binary, wrap_eval_binary]
        show ¬ tk.ofWord (tk.word _ &&& tk.word _) = 0 ↔
          tk.ofWord (tk.word (tk.ofWord (~~~tk.word _)) &&& tk.word _) = 0
        rw [hmask, Mtype.word_ofWord, Mtype.ofWord_eq_zero, Mtype.ofWord_eq_zero,
          and_twoPow, and_twoPow, getLsbD_not]
        have hbit : BitVec.twoPow tk.bits n ≠ BitVec.ofNat tk.bits 0 := fun h0 => by
          have := congrArg BitVec.toNat h0
          rw [toNat_twoPow_of_lt hn] at this
          exact (Nat.two_pow_pos n).ne' this
        cases (tk.word (eval ρ e)).getLsbD n <;> simp [hn, hbit]
      | _ => cases hck
    · cases h
  · cases h

/-- A mask that excludes the constant compared with. -/
theorem masksOut_right (j : Expr) {band : Bool} {bop : Bop}
    (hb : bop = if band then .band else .bior) (hop : op = .eq ∨ op = .ne)
    (hbits : 32 ≤ t.bits) (htk : k.rtype = t) (hck : k.isConst = true) (hwfk : WellFormed k)
    (h1 : k1.rtype = t) (hc1 : k1.isConst = true) (hwf1 : WellFormed k1)
    (h : masksOut rt band k.constVal k1.constVal = true) :
    eval ρ (eqConst op rt) = eval ρ (.compare op rt t (.binary bop t j k) k1) := by
  subst hb
  apply eval_eqConst hop
  intro heq
  have hstored : ∀ e : Expr, e.rtype = t → e.isConst = true → WellFormed e →
      WellStored t e.constVal ∧ t.word (eval ρ e) = e.constVal.setWidth t.bits := by
    intro e ht hc hwf
    cases e with
    | intconst te v =>
      obtain rfl : te = t := ht
      exact ⟨hwf, by rw [eval, Mtype.word_wrap, word_toInt, Expr.constVal_intconst]⟩
    | _ => cases hc
  obtain ⟨hs1, hw1⟩ := hstored k1 h1 hc1 hwf1
  obtain ⟨hsk, hwk⟩ := hstored k htk hck hwfk
  have hword := congrArg t.word heq
  rw [Mtype.word_wrap, Mtype.word_wrap, hw1] at hword
  -- what is left of one constant outside the other
  have hleft : ∀ x y : BitVec 64, x &&& y = x → x &&& ~~~y = 0 := fun x y hxy => by
    rw [← hxy, BitVec.and_assoc, BitVec.and_not_self]
    exact BitVec.and_zero
  have hlow : ∀ x y m : BitVec 64, x &&& y = x → (x &&& m) &&& (y &&& m) = x &&& m :=
    fun x y m hxy => by
      rw [BitVec.and_assoc, BitVec.and_comm m, BitVec.and_assoc, BitVec.and_self,
        ← BitVec.and_assoc, hxy]
  unfold masksOut at h
  dsimp only at h
  cases band with
  | true =>
    have hand : k1.constVal &&& k.constVal = k1.constVal := by
      apply stored_and hs1 hsk hbits
      have hj : t.word (eval ρ j) &&& k.constVal.setWidth t.bits = k1.constVal.setWidth t.bits := by
        rw [← hword, ← hwk]
        exact (Mtype.word_ofWord _).symm
      rw [← hj, BitVec.and_assoc, BitVec.and_self]
    rw [if_pos rfl] at h
    split at h
    · rw [hleft _ _ (hlow _ _ _ hand)] at h
      cases h
    · rw [hleft _ _ hand] at h
      cases h
  | false =>
    have hand : k.constVal &&& k1.constVal = k.constVal := by
      apply stored_and hsk hs1 hbits
      have hj : t.word (eval ρ j) ||| k.constVal.setWidth t.bits = k1.constVal.setWidth t.bits := by
        rw [← hword, ← hwk]
        exact (Mtype.word_ofWord _).symm
      rw [← hj, BitVec.and_or_distrib_left, BitVec.and_self]
      apply BitVec.eq_of_getLsbD_eq
      intro i _
      rw [getLsbD_or, getLsbD_and]
      cases (k.constVal.setWidth t.bits).getLsbD i <;> simp
    rw [if_neg Bool.false_ne_true] at h
    split at h
    · rw [hleft _ _ (hlow _ _ _ hand)] at h
      cases h
    · rw [hleft _ _ hand] at h
      cases h

theorem eval_moved (hkeeps : Keeps ρ create) (hop : op = .eq ∨ op = .ne) {e : Expr}
    {c : BitVec 64} (hc1 : k1.isConst = true) (h1 : k1.rtype = t)
    (h : t.wrap (eval ρ j) = t.wrap c.toInt ↔ t.wrap (eval ρ e) = t.wrap k1.constVal.toInt) :
    eval ρ (create (.compare op rt t j (intConst t c))) = eval ρ (.compare op rt t e k1) := by
  rw [eval_created hkeeps, eval_compare, truth_eq_iff hop, wrap_const hc1 h1]
  exact h

theorem wrap_add_const (j : Expr) (hck : k.isConst = true)
    (htk : k.rtype = t) : t.wrap (eval ρ j + eval ρ k) = t.wrap (eval ρ j + k.constVal.toInt):= by
  rw [← Mtype.wrap_add_wrap, wrap_const hck htk, Mtype.wrap_add_wrap]

/-- What a product rule's tree says of the factor. -/
def MeetsQuotient (ρ : Env) (ty : Mtype) (j : Expr) (c2 c1 : Int) : Prop :=
  c1 = c1.tdiv c2 * c2 ∧ ty.wrap (eval ρ j) = ty.wrap (c1.tdiv c2)

instance (ty : Mtype) (j : Expr) (c2 c1 : Int) : Decidable (MeetsQuotient ρ ty j c2 c1) := by
  unfold MeetsQuotient
  infer_instance

theorem eval_eqMpy (hkeeps : Keeps ρ create) (hop : op = .eq ∨ op = .ne)
    {c2 : BitVec 64} (h1 : k1.rtype = desc) (h : eqMpy create op rt desc j k1 c2 = .yes r) :
    c2.toInt ≠ 0 ∧ eval ρ r =
      truth (op.Rel (truth (MeetsQuotient ρ desc j c2.toInt k1.constVal.toInt)) 1) := by
  unfold eqMpy at h
  dsimp only at h
  split at h
  · cases h
  rename_i h2
  split at h
  · cases h
  rename_i hmin
  have hexact := exact_iff h2 hmin
  refine ⟨fun h0 => h2 (eq_of_toInt_eq (by rw [h0]; rfl)), ?_⟩
  split at h
  · rename_i hdiv
    obtain rfl := Tried.yes.inj h
    have hdiv' := hexact.mp hdiv.symm
    rw [hkeeps, eval_compare, eval_intConst, h1, Mtype.wrap_wrap, toInt_sdiv_64 hmin,
      truth_eq_iff hop, truth_eq_one]
    exact ⟨fun h => ⟨hdiv', h⟩, And.right⟩
  · rename_i hdiv
    obtain rfl := Tried.yes.inj h
    apply eval_eqConst hop
    exact fun h => hdiv (hexact.mpr (truth_eq_one.mp h).1).symm

/-- An unsigned product meets the constant modulo the width, but its factor is not the quotient. -/
def WrapsOnto (ρ : Env) (desc : Mtype) (k0 k1 : Expr) : Prop :=
  desc.isUnsigned = true ∧ k1.isConst = true ∧ ∃ j k, k0 = .binary .mpy desc j k ∧
    k.isConst = true ∧ k.constVal ≠ 0 ∧
    ¬ (k1.constVal.toInt = -2 ^ 63 ∧ k.constVal.toInt = -1) ∧
    desc.wrap (eval ρ k0) = desc.wrap (eval ρ k1) ∧
    ¬ MeetsQuotient ρ desc j k.constVal.toInt k1.constVal.toInt

theorem product_meets (htk : k.rtype = desc) (hck : k.isConst = true)
    (hwfk : WellFormed k) (h1 : k1.rtype = desc) (hc1 : k1.isConst = true) (hwf1 : WellFormed k1)
    (hfit : NoOverflow ρ (.binary .mpy desc j k)) (hne : k.constVal.toInt ≠ 0) :
    (MeetsQuotient ρ desc j k.constVal.toInt k1.constVal.toInt →
      desc.wrap (eval ρ (.binary .mpy desc j k)) = desc.wrap (eval ρ k1)) ∧
    (desc.isUnsigned = false → desc.wrap (eval ρ (.binary .mpy desc j k)) = desc.wrap (eval ρ k1) →
      MeetsQuotient ρ desc j k.constVal.toInt k1.constVal.toInt) := by
  constructor
  · intro hmeets
    rw [wrap_eval_binary, eval_mpy, ← Mtype.wrap_mul_wrap, wrap_const hck htk, wrap_const hc1 h1,
      hmeets.2, Mtype.wrap_mul_wrap, ← hmeets.1]
  · intro hu heq
    obtain ⟨hvk, -⟩ := const_value (ρ := ρ) hu hck htk hwfk
    obtain ⟨hv1, -⟩ := const_value (ρ := ρ) hu hc1 h1 hwf1
    rw [wrap_eval_binary, (eval_exact hu hfit).2.2 rfl, hvk, hv1] at heq
    have hq : k1.constVal.toInt.tdiv k.constVal.toInt = desc.wrap (eval ρ j) := by
      rw [← heq, Int.mul_tdiv_cancel _ hne]
    exact ⟨by rw [hq, heq], by rw [hq, Mtype.wrap_wrap]⟩

/-- A constant moved to the other side of an equality. -/
theorem eqMoved_right (hkeeps : Keeps ρ create) (hop : op = .eq ∨ op = .ne)
    (hbits : 32 ≤ desc.bits) (h0 : Uniform desc k0) (hwf0 : WellFormed k0) (hfit : NoOverflow ρ k0)
    (hc1 : k1.isConst = true) (h1 : k1.rtype = desc) (hwf1 : WellFormed k1)
    (hwraps : ¬ WrapsOnto ρ desc k0 k1) (h : eqMoved create op rt desc k0 k1 = .yes r) :
    eval ρ r = eval ρ (.compare op rt desc k0 k1) := by
  unfold eqMoved at h
  dsimp only at h
  split at h
  · -- `&`
    rename_i t j k
    rw [if_neg (fun hbit => Bool.false_ne_true hbit.1)] at h
    split at h
    · rename_i hcond
      obtain rfl := Tried.yes.inj h
      obtain ⟨rfl, -, hk⟩ := h0
      exact masksOut_right j rfl hop hbits hk.rtype hcond.1 hwf0.2 h1 hc1 hwf1 hcond.2
    · cases h
  · -- `|`
    rename_i t j k
    split at h
    · rename_i hcond
      obtain rfl := Tried.yes.inj h
      obtain ⟨rfl, -, hk⟩ := h0
      exact masksOut_right j rfl hop hbits hk.rtype hcond.1 hwf0.2 h1 hc1 hwf1 hcond.2
    · cases h
  · -- `j + c2`
    rename_i t j k
    split at h
    · rename_i hcond
      obtain rfl := Tried.yes.inj h
      obtain ⟨rfl, -, hk⟩ := h0
      apply eval_moved hkeeps hop hc1 h1
      rw [eval_add, Mtype.wrap_wrap, wrap_add_const j hcond.1 hk.rtype, ← sub_eq_add_neg,
        wrap_toInt_sub]
      exact wrap_eq_congr t (.inl (by ring))
    · cases h
  · -- `j - c2` and `c2 - j`
    rename_i t j k
    obtain ⟨rfl, hj, hk⟩ := h0
    split at h
    · rename_i hck
      split at h
      · obtain rfl := Tried.yes.inj h
        apply eval_moved hkeeps hop hc1 h1
        rw [eval_sub, Mtype.wrap_wrap, ← Mtype.wrap_sub_wrap, wrap_const hck hk.rtype,
          Mtype.wrap_sub_wrap, wrap_toInt_add]
        exact wrap_eq_congr t (.inl (by ring))
      · cases h
    split at h
    · rename_i hcond
      obtain rfl := Tried.yes.inj h
      apply eval_moved hkeeps hop hc1 h1
      rw [eval_sub, Mtype.wrap_wrap, ← Mtype.wrap_sub_wrap, wrap_const hcond.1 hj.rtype,
        Mtype.wrap_sub_wrap, wrap_toInt_sub]
      exact wrap_eq_congr t (.inr (by ring))
    · cases h
  · -- `j * c2`
    rename_i t j k
    obtain ⟨rfl, -, hk⟩ := h0
    split at h
    · rename_i hck
      obtain ⟨hne, hr⟩ := eval_eqMpy hkeeps hop h1 h
      obtain ⟨hfrom, hto⟩ := product_meets hk.rtype hck hwf0.2 h1 hc1 hwf1 hfit hne
      rw [hr, eval_compare, truth_eq_iff hop, truth_eq_one]
      refine ⟨hfrom, fun heq => ?_⟩
      cases hu : t.isUnsigned with
      | false => exact hto hu heq
      | true =>
        by_contra hnot
        refine hwraps ⟨hu, hc1, j, k, rfl, hck, fun h0 => hne (by rw [h0]; rfl), ?_, heq, hnot⟩
        intro hmin
        unfold eqMpy at h
        dsimp only at h
        rw [if_neg (fun h0 => hne (by rw [h0]; rfl)), if_pos hmin] at h
        cases h
    · cases h
  · cases h

end rules

/-! ## The comparison keeps its truth -/

/-- The rules return a tree that is true exactly when the comparison is, but for a product of an
unsigned type that wraps onto the constant. -/
theorem simpEqNeq_right_iff (ρ : Env) (create : Expr → Expr) (hkeeps : Keeps ρ create)
    (op : Relop) (hop : op = .eq ∨ op = .ne) (rt desc : Mtype) (hbits : 32 ≤ desc.bits)
    (k0 k1 : Expr) (h0 : Uniform desc k0) (h1 : Uniform desc k1) (hwf0 : WellFormed k0)
    (hwf1 : WellFormed k1) (hfit : NoOverflow ρ (.compare op rt desc k0 k1)) :
    (∀ r, simpEqNeq create op rt desc k0 k1 = .yes r →
        eval ρ r = eval ρ (.compare op rt desc k0 k1)) ↔ ¬ WrapsOnto ρ desc k0 k1:= by
  constructor
  · intro hall hwraps
    obtain ⟨hu, hc1, j, k, rfl, hck, hne, hmin, heq, hnot⟩ := hwraps
    obtain ⟨r, hr⟩ : ∃ r, eqMpy create op rt desc j k1 k.constVal = .yes r := by
      unfold eqMpy
      rw [if_neg hne, if_neg hmin]
      split
      · exact ⟨_, rfl⟩
      · exact ⟨_, rfl⟩
    have hwrong := hall r (by
      unfold simpEqNeq
      rw [if_neg (show ¬ (Expr.binary .mpy desc j k).isConst = true from Bool.false_ne_true),
        if_pos hc1]
      have hnone : eqTruth create op rt desc (.binary .mpy desc j k) k1 = none := by
        unfold eqTruth
        simp [isLogop, isRelop]
      rw [hnone]
      exact (if_pos hck).trans hr)
    rw [(eval_eqMpy hkeeps hop h1.rtype hr).2, eval_compare, truth_eq_iff hop, truth_eq_one]
      at hwrong
    exact hnot (hwrong.mpr heq)
  · intro hwraps r hr
    unfold simpEqNeq at hr
    split at hr
    · cases hr
    split at hr
    · rename_i hc1
      split at hr
      · rename_i e he
        obtain rfl := Tried.yes.inj hr
        exact eqTruth_right hkeeps hop hbits h0 hwf0 hc1 h1.rtype he
      · exact eqMoved_right hkeeps hop hbits h0 hwf0 hfit.1 hc1 h1.rtype hwf1 hwraps hr
    · cases hr

theorem simpEqNeq_right_iff_four :
    ∃ r, simpEqNeq id .eq .I4 .I4 (.binary .mpy .I4 (.leaf .other .I4 .I4 0) (.intconst .I4 3))
        (.intconst .I4 12) = .yes r ∧
      eval ⟨fun _ => 4, true⟩ r = eval ⟨fun _ => 4, true⟩ (.compare .eq .I4 .I4
        (.binary .mpy .I4 (.leaf .other .I4 .I4 0) (.intconst .I4 3)) (.intconst .I4 12)) := by
  refine ⟨_, rfl, (simpEqNeq_right_iff ⟨fun _ => 4, true⟩ id (keeps_id _) .eq (.inl rfl) .I4 .I4
    (by decide) (.binary .mpy .I4 (.leaf .other .I4 .I4 0) (.intconst .I4 3)) (.intconst .I4 12)
    ⟨rfl, rfl, rfl⟩ rfl ⟨trivial, ⟨fun _ => by decide, nofun⟩⟩ ⟨fun _ => by decide, nofun⟩
    ⟨⟨trivial, trivial, fun _ => ?_⟩, trivial⟩).mpr ?_ _ rfl⟩
  · unfold Bop.Fits
    decide
  · exact fun hwraps => Bool.false_ne_true hwraps.1

/-- 2147483648 * 2 == 0 of type U4 becomes 2147483648 == 0. -/
theorem unsigned_product_wrong : ¬ ∀ (ρ : Env) (create : Expr → Expr), Keeps ρ create →
    ∀ op : Relop, op = .eq ∨ op = .ne → ∀ rt desc : Mtype, 32 ≤ desc.bits →
    ∀ k0 k1 : Expr, Uniform desc k0 → Uniform desc k1 → WellFormed k0 → WellFormed k1 →
      NoOverflow ρ (.compare op rt desc k0 k1) → ∀ r, simpEqNeq create op rt desc k0 k1 = .yes r →
        eval ρ r = eval ρ (.compare op rt desc k0 k1) := by
  intro hall
  have hwrong := hall ⟨fun _ => 2 ^ 31, true⟩ id (keeps_id _) .eq (.inl rfl) .I4 .U4 (by decide)
    (.binary .mpy .U4 (.leaf .other .U4 .U4 0) (.intconst .U4 2)) (.intconst .U4 0) ⟨rfl, rfl, rfl⟩
    rfl ⟨trivial, ⟨nofun, fun _ => by decide⟩⟩ ⟨nofun, fun _ => by decide⟩
    ⟨⟨trivial, trivial, nofun⟩, trivial⟩
    (.compare .eq .I4 .U4 (.leaf .other .U4 .U4 0) (.intconst .U4 0)) (by decide)
  revert hwrong
  decide

end Simp.Whirl
