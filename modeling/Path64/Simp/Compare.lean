import Path64.Simp.Whirl

/-! # Comparisons

What the rules for comparisons share: the relations, the checked sums of
constants `is_add_ok` and `is_sub_ok`, and the trees whose signed
arithmetic stays in its type. -/

namespace Simp.Whirl

/-! ## Results and relations -/

/-- What a rule comes to: a division overflow stops the compiler, `NULL`, or a tree. -/
inductive Tried where
  | stop
  | no
  | yes (e : Expr)
  deriving DecidableEq

/-- `OPCODE_commutative_op` of a comparison. -/
def Relop.commute : Relop → Relop
  | eq => eq
  | ne => ne
  | lt => gt
  | le => ge
  | gt => lt
  | ge => le

/-- `get_inverse_relop`. -/
def Relop.inverse : Relop → Relop
  | eq => ne
  | ne => eq
  | lt => ge
  | le => gt
  | gt => le
  | ge => lt

@[simp] theorem Relop.rel_commute (op : Relop) (a b : Int) : op.commute.Rel a b ↔ op.Rel b a := by
  cases op with
  | eq => exact eq_comm
  | ne => exact ne_comm
  | lt | le | gt | ge => exact Iff.rfl

@[simp] theorem Relop.rel_inverse (op : Relop) (a b : Int) : op.inverse.Rel a b ↔ ¬ op.Rel a b := by
  cases op with
  | eq => exact Iff.rfl
  | ne => exact not_not.symm
  | lt | gt => exact not_lt.symm
  | le | ge => exact not_le.symm

theorem Relop.rel_add (op : Relop) (a b c : Int) : op.Rel (a + b) c ↔ op.Rel a (c - b) := by
  cases op <;> simp only [Relop.Rel] <;> omega

theorem Relop.rel_sub_left (op : Relop) (a b c : Int) : op.Rel (a - b) c ↔ op.Rel (a - c) b := by
  cases op <;> simp only [Relop.Rel] <;> omega

variable {a b c d : Int} {p q : Prop}

theorem Relop.rel_of_diff (op : Relop) (h : a - b = c - d) : op.Rel a b ↔ op.Rel c d := by
  cases op <;> simp only [Relop.Rel] <;> omega

theorem truth_congr [Decidable p] [Decidable q] (h : p ↔ q) : truth p = truth q := by
  unfold truth
  simp only [h]

@[simp] theorem truth_eq_zero [Decidable p] : truth p = 0 ↔ ¬ p := by
  unfold truth
  simp

@[simp] theorem truth_eq_one [Decidable p] : truth p = 1 ↔ p := by
  unfold truth
  simp

@[simp] theorem Mtype.wrap_truth (ty : Mtype) (p : Prop) [Decidable p] :
    ty.wrap (truth p) = truth p :=
  wrap_of_holds (ty.holds_truth p)

theorem iff_of_truth_eq [Decidable p] [Decidable q] (h : truth p = truth q) : p ↔ q := by
  unfold truth at h
  by_cases hp : p <;> by_cases hq : q <;> simp_all

/-! ## Sums of constants -/

/-- `is_add_ok`; the sum is computed in any case. -/
def isAddOk (i1 i2 : BitVec 64) (ty : Mtype) : Bool :=
  let sum := i1 + i2
  match ty with
  | .U4 => !decide (2 ^ 32 - 1 < sum.toNat)
  | .I4 => !decide (2 ^ 31 - 1 < sum.toInt) && !decide (sum.toInt < -2 ^ 31)
  | .U8 => !decide (sum.toNat < i1.toNat)
  | .I8 =>
    if (i1 ^^^ i2).toInt < 0 then true
    else if (0 < i1.toInt ∨ 0 < i2.toInt) ∧ sum.toInt ≤ 0 then false
    else if (i1.toInt < 0 ∨ i2.toInt < 0) ∧ 0 ≤ sum.toInt then false
    else true
  | _ => false

/-- `is_sub_ok`; the difference is computed in any case. -/
def isSubOk (i1 i2 : BitVec 64) (ty : Mtype) : Bool :=
  let sum := i1 - i2
  match ty with
  | .I4 => !decide (2 ^ 31 - 1 < sum.toInt) && !decide (sum.toInt < -2 ^ 31)
  | .U4 | .U8 => !decide (i1.toNat < i2.toNat)
  | .I8 =>
    if 0 ≤ (i1 ^^^ i2).toInt then true
    else if i2.toInt < i1.toInt ∧ sum.toInt ≤ 0 then false
    else if i1.toInt < i2.toInt ∧ 0 ≤ sum.toInt then false
    else true
  | _ => false

section sums
variable {i1 i2 : BitVec 64} {ty : Mtype}

theorem toInt_add_cases (x y : BitVec 64) :
    ∃ k : Int, (x + y).toInt = x.toInt + y.toInt + k * 18446744073709551616 := by
  have hdvd := Int.dvd_bmod_sub_self (x := x.toInt + y.toInt) (m := 2 ^ 64)
  rw [← BitVec.toInt_add] at hdvd
  obtain ⟨k, hk⟩ := hdvd
  exact ⟨k, by push_cast at hk; omega⟩

theorem toInt_sub_cases (x y : BitVec 64) :
    ∃ k : Int, (x - y).toInt = x.toInt - y.toInt + k * 18446744073709551616 := by
  have hdvd := Int.dvd_bmod_sub_self (x := x.toInt - y.toInt) (m := 2 ^ 64)
  rw [← BitVec.toInt_sub] at hdvd
  obtain ⟨k, hk⟩ := hdvd
  exact ⟨k, by push_cast at hk; omega⟩

theorem wrap_toInt_add (ty : Mtype) (x y : BitVec 64) :
    ty.wrap (x + y).toInt = ty.wrap (x.toInt + y.toInt) := by
  rw [← wrap_toInt_ofInt ty (x.toInt + y.toInt), BitVec.ofInt_add, BitVec.ofInt_toInt,
    BitVec.ofInt_toInt]

theorem wrap_toInt_sub (ty : Mtype) (x y : BitVec 64) :
    ty.wrap (x - y).toInt = ty.wrap (x.toInt - y.toInt) := by
  rw [← wrap_toInt_ofInt ty (x.toInt - y.toInt), Int.sub_eq_add_neg, BitVec.ofInt_add,
    BitVec.ofInt_neg, BitVec.ofInt_toInt, BitVec.ofInt_toInt, BitVec.sub_eq_add_neg]

theorem toInt_range (x : BitVec 64) :
    -9223372036854775808 ≤ x.toInt ∧ x.toInt < 9223372036854775808 := by
  have hlo := x.le_toInt
  have hhi := x.toInt_lt
  norm_num at hlo hhi
  exact ⟨hlo, hhi⟩

theorem xor_negative (x y : BitVec 64) : (x ^^^ y).toInt < 0 ↔ ¬ (x.toInt < 0 ↔ y.toInt < 0):= by
  have hsign : ∀ z : BitVec 64, z.toInt < 0 ↔ z.msb = true := fun z => by
    rw [BitVec.msb_eq_toInt, decide_eq_true_iff]
  rw [hsign, hsign, hsign, BitVec.msb_xor]
  cases x.msb <;> cases y.msb <;> decide

theorem isAddOk_signed (hu : ty.isUnsigned = false) (h : isAddOk i1 i2 ty = true)
    (h1 : ty.Holds i1.toInt) (h2 : ty.Holds i2.toInt) :
    (i1 + i2).toInt = i1.toInt + i2.toInt ∧ ty.Holds (i1.toInt + i2.toInt) := by
  obtain ⟨k, hk⟩ := toInt_add_cases i1 i2
  have hsum := toInt_range (i1 + i2)
  have hr1 := toInt_range i1
  have hr2 := toInt_range i2
  unfold Mtype.Holds at h1 h2 ⊢
  cases ty with
  | U1 | U2 | U4 | U8 => cases hu
  | I1 | I2 => cases h
  | I4 =>
    dsimp only [isAddOk] at h
    generalize (i1 + i2) = sum at *
    norm_num [Mtype.isUnsigned, Mtype.bits] at h h1 h2 ⊢
    omega
  | I8 =>
    have hxor := xor_negative i1 i2
    dsimp only [isAddOk] at h
    generalize (i1 + i2) = sum at *
    norm_num [Mtype.isUnsigned, Mtype.bits] at h1 h2 ⊢
    split at h
    · omega
    · split at h
      · cases h
      · split at h
        · cases h
        · omega

theorem isSubOk_signed (hu : ty.isUnsigned = false) (h : isSubOk i1 i2 ty = true)
    (h1 : ty.Holds i1.toInt) (h2 : ty.Holds i2.toInt) :
    (i1 - i2).toInt = i1.toInt - i2.toInt ∧ ty.Holds (i1.toInt - i2.toInt) := by
  obtain ⟨k, hk⟩ := toInt_sub_cases i1 i2
  have hsum := toInt_range (i1 - i2)
  have hr1 := toInt_range i1
  have hr2 := toInt_range i2
  unfold Mtype.Holds at h1 h2 ⊢
  cases ty with
  | U1 | U2 | U4 | U8 => cases hu
  | I1 | I2 => cases h
  | I4 =>
    dsimp only [isSubOk] at h
    generalize (i1 - i2) = sum at *
    norm_num [Mtype.isUnsigned, Mtype.bits] at h h1 h2 ⊢
    omega
  | I8 =>
    have hxor := xor_negative i1 i2
    dsimp only [isSubOk] at h
    generalize (i1 - i2) = sum at *
    norm_num [Mtype.isUnsigned, Mtype.bits] at h1 h2 ⊢
    split at h
    · omega
    · split at h
      · cases h
      · split at h
        · cases h
        · omega

end sums

/-! ## Trees -/

/-- A signed constant is a number of its type; `WN_CreateIntconst` clears the high half of U4. -/
def WellStored (ty : Mtype) (v : BitVec 64) : Prop :=
  (ty.isUnsigned = false → ty.Holds v.toInt) ∧ (ty = .U4 → v.toNat < 2 ^ 32)

/-- The constants of a tree are well stored. -/
def WellFormed : Expr → Prop
  | .intconst ty v => WellStored ty v
  | .leaf .. => True
  | .unary _ _ k | .cvt _ _ k | .cvtl _ _ k | .extract _ _ _ k => WellFormed k
  | .binary _ _ k0 k1 | .compare _ _ _ k0 k1 | .compose _ _ _ k0 k1 =>
    WellFormed k0 ∧ WellFormed k1
  | .select _ c k1 k2 => WellFormed c ∧ WellFormed k1 ∧ WellFormed k2

/-- The exact result of a negation is in its type. -/
def Uop.Fits (op : Uop) (ty : Mtype) (a : Int) : Prop :=
  match op with
  | neg => ty.Holds (-ty.wrap a)
  | _ => True

/-- The exact result of a sum, a difference or a product is in its type. -/
def Bop.Fits (op : Bop) (ty : Mtype) (a b : Int) : Prop :=
  match op with
  | add => ty.Holds (ty.wrap a + ty.wrap b)
  | sub => ty.Holds (ty.wrap a - ty.wrap b)
  | mpy => ty.Holds (ty.wrap a * ty.wrap b)
  | _ => True

/-- No signed operation of a tree overflows. -/
def NoOverflow (ρ : Env) : Expr → Prop
  | .intconst .. | .leaf .. => True
  | .unary op ty k => NoOverflow ρ k ∧ (ty.isUnsigned = false → op.Fits ty (eval ρ k))
  | .cvt _ _ k | .cvtl _ _ k | .extract _ _ _ k => NoOverflow ρ k
  | .binary op ty k0 k1 => NoOverflow ρ k0 ∧ NoOverflow ρ k1 ∧
    (ty.isUnsigned = false → op.Fits ty (eval ρ k0) (eval ρ k1))
  | .compare _ _ _ k0 k1 | .compose _ _ _ k0 k1 => NoOverflow ρ k0 ∧ NoOverflow ρ k1
  | .select _ c k1 k2 => NoOverflow ρ c ∧ NoOverflow ρ k1 ∧ NoOverflow ρ k2

/-- The tree has the type, and so have the operands of its arithmetic, at any depth. -/
def Uniform (ty : Mtype) : Expr → Prop
  | .unary op t k => t = ty ∧ (op ≠ .lnot → Uniform ty k)
  | .binary op t k0 k1 => t = ty ∧ (match op with
    | .land | .lior => True
    | .shl | .ashr | .lshr => Uniform ty k0
    | _ => Uniform ty k0 ∧ Uniform ty k1)
  | e => e.rtype = ty

/-- The tree has the type, and so have the operands of its sum, difference or product. -/
def OfType (ty : Mtype) : Expr → Prop
  | .binary op t k0 k1 =>
    t = ty ∧ (op = .add ∨ op = .sub ∨ op = .mpy → k0.rtype = ty ∧ k1.rtype = ty)
  | e => e.rtype = ty

theorem OfType.rtype {ty : Mtype} {e : Expr} (h : OfType ty e) : e.rtype = ty := by
  cases e with
  | binary op t k0 k1 => exact h.1
  | _ => exact h

theorem Uniform.rtype {ty : Mtype} {e : Expr} (h : Uniform ty e) : e.rtype = ty := by
  cases e with
  | unary op t k => exact h.1
  | binary op t k0 k1 => exact h.1
  | _ => exact h

section values
variable {ρ : Env} {ty : Mtype} {k0 k1 : Expr}

theorem eval_add : eval ρ (.binary .add ty k0 k1) = ty.wrap (eval ρ k0 + eval ρ k1) := rfl

theorem eval_sub : eval ρ (.binary .sub ty k0 k1) = ty.wrap (eval ρ k0 - eval ρ k1) := rfl

theorem eval_mpy : eval ρ (.binary .mpy ty k0 k1) = ty.wrap (eval ρ k0 * eval ρ k1) := rfl

theorem eval_compare (op : Relop) (rt desc : Mtype) : eval ρ (.compare op rt desc k0 k1) =
      truth (op.Rel (desc.wrap (eval ρ k0)) (desc.wrap (eval ρ k1))) := rfl

theorem wrap_eval_binary (op : Bop) :
    ty.wrap (eval ρ (.binary op ty k0 k1)) = eval ρ (.binary op ty k0 k1) :=
  wrap_eval ρ (.binary op ty k0 k1)

theorem Mtype.wrap_add_wrap (a b : Int) : ty.wrap (ty.wrap a + ty.wrap b) = ty.wrap (a + b) := by
  rw [wrap_eq_iff, Int.add_emod, wrap_emod, wrap_emod, ← Int.add_emod]

theorem Mtype.wrap_sub_wrap (a b : Int) : ty.wrap (ty.wrap a - ty.wrap b) = ty.wrap (a - b) := by
  rw [wrap_eq_iff, Int.sub_emod, wrap_emod, wrap_emod, ← Int.sub_emod]

theorem Mtype.wrap_mul_wrap (a b : Int) : ty.wrap (ty.wrap a * ty.wrap b) = ty.wrap (a * b) := by
  rw [wrap_eq_iff, Int.mul_emod, wrap_emod, wrap_emod, ← Int.mul_emod]

theorem wrap_eq_iff_dvd (ty : Mtype) (a b : Int) :
    ty.wrap a = ty.wrap b ↔ (2 : Int) ^ ty.bits ∣ a - b := by
  rw [Mtype.wrap_eq_iff, Int.emod_eq_emod_iff_emod_sub_eq_zero, Int.dvd_iff_emod_eq_zero]

theorem wrap_eq_congr (ty : Mtype) (h : a - b = c - d ∨ a - b = d - c) :
    ty.wrap a = ty.wrap b ↔ ty.wrap c = ty.wrap d := by
  rw [wrap_eq_iff_dvd, wrap_eq_iff_dvd]
  rcases h with h | h
  · rw [h]
  · rw [h, ← dvd_neg, neg_sub]

theorem const_value (hu : ty.isUnsigned = false) (hc : k0.isConst = true) (ht : k0.rtype = ty)
    (hwf : WellFormed k0) :
    ty.wrap (eval ρ k0) = k0.constVal.toInt ∧ ty.Holds k0.constVal.toInt := by
  cases k0 with
  | intconst t v =>
    obtain rfl : t = ty := ht
    have hholds : t.Holds v.toInt := hwf.1 hu
    refine ⟨?_, hholds⟩
    rw [eval, Mtype.wrap_wrap]
    exact Mtype.wrap_of_holds hholds
  | _ => cases hc

theorem eval_exact (hu : ty.isUnsigned = false) {op : Bop}
    (hfit : NoOverflow ρ (.binary op ty k0 k1)) :
    (op = .add → eval ρ (.binary op ty k0 k1) = ty.wrap (eval ρ k0) + ty.wrap (eval ρ k1)) ∧
    (op = .sub → eval ρ (.binary op ty k0 k1) = ty.wrap (eval ρ k0) - ty.wrap (eval ρ k1)) ∧
    (op = .mpy → eval ρ (.binary op ty k0 k1) = ty.wrap (eval ρ k0) * ty.wrap (eval ρ k1)) := by
  have hholds := hfit.2.2 hu
  refine ⟨?_, ?_, ?_⟩
  · intro hop
    subst hop
    rw [eval_add, ← Mtype.wrap_add_wrap]
    exact Mtype.wrap_of_holds hholds
  · intro hop
    subst hop
    rw [eval_sub, ← Mtype.wrap_sub_wrap]
    exact Mtype.wrap_of_holds hholds
  · intro hop
    subst hop
    rw [eval_mpy, ← Mtype.wrap_mul_wrap]
    exact Mtype.wrap_of_holds hholds

end values

end Simp.Whirl
