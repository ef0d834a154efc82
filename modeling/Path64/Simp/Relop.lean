import Path64.Simp.Compare

/-! # Ordering comparisons

The rules of `simp_relop` that come before the aggressive ones: the
extreme constants of a type, and constants that are moved through a sum, a
difference or a product, or that a strict relation absorbs. -/

namespace Simp.Whirl

/-! ## The rules -/

/-- `Simp_Unsafe_Relops` and `Simp_Fold_Unsigned_Relops`. -/
structure RelopOptions where
  unsafeRelops : Bool
  foldUnsignedRelops : Bool

def addFoldOk (o : RelopOptions) (ty : Mtype) (k0 k1 : Expr) : Bool :=
  if !ty.isUnsigned && (k0.rtype.isUnsigned || k1.rtype.isUnsigned) then o.foldUnsignedRelops
  else (!ty.isUnsigned || o.foldUnsignedRelops) && o.unsafeRelops

/-- `c1min`. -/
def isTypeMin (ty : Mtype) (c1 : BitVec 64) : Bool :=
  match ty with
  | .I4 => decide (c1.toInt = -2 ^ 31)
  | .I8 => decide (c1.toInt = -2 ^ 63)
  | .U4 | .U8 => decide (c1 = 0)
  | _ => false

/-- `c1max`. -/
def isTypeMax (ty : Mtype) (c1 : BitVec 64) : Bool :=
  match ty with
  | .I4 => decide (c1.toInt = 2 ^ 31 - 1)
  | .I8 => decide (c1.toInt = 2 ^ 63 - 1)
  | .U4 => decide (c1.toInt = 2 ^ 32 - 1)
  | .U8 => decide (c1 = -1)
  | _ => false

/-- A comparison with the smallest or largest number of the type. -/
def relopMinMax (op : Relop) (rt ty : Mtype) (c1 : BitVec 64) : Option Expr :=
  if isTypeMin ty c1 ∧ op = .lt then some (intConst rt 0)
  else if isTypeMin ty c1 ∧ op = .ge then some (intConst rt 1)
  else if isTypeMax ty c1 ∧ op = .gt then some (intConst rt 0)
  else if isTypeMax ty c1 ∧ op = .le then some (intConst rt 1)
  else none

/-- `(j * c2) relop c1`. -/
def relopMpy (create : Expr → Expr) (op : Relop) (rt ty : Mtype) (j : Expr) (c2 c1 : BitVec 64) :
    Tried :=
  if c2 = 0 then .no
  else if c1.toInt = -2 ^ 63 ∧ c2.toInt = -1 then .stop
  else
    let c3 := c1.sdiv c2
    let signC3 := (c1 ^^^ c2).toInt < 0
    let newop := if 0 < c2.toInt then op else op.commute
    if c1 = c3 * c2 then .yes (create (.compare newop rt ty j (intConst ty c3)))
    else
      -- the quotient is moved away from zero where the relation asks for it
      let c3 :=
        if (op = .lt ∧ 0 < c1.toInt) ∨ (op = .gt ∧ c1.toInt < 0) ∨ (op = .le ∧ c1.toInt < 0) ∨
            (op = .ge ∧ 0 < c1.toInt) then
          if signC3 then c3 - 1 else c3 + 1
        else c3
      .yes (create (.compare newop rt ty j (intConst ty c3)))

/-- A constant that is moved to the other side. -/
def relopConst (o : RelopOptions) (create : Expr → Expr) (op : Relop) (rt ty : Mtype)
    (k0 k1 : Expr) : Tried :=
  let c1 := k1.constVal
  match k0 with
  | .binary .add _ j k =>
    if k.isConst ∧ addFoldOk o ty k0 k1 ∧ isSubOk c1 k.constVal ty then
      .yes (create (.compare op rt ty j (intConst ty (c1 - k.constVal))))
    else .no
  | .binary .sub _ j k =>
    if addFoldOk o ty k0 k1 then
      if k.isConst then
        if isAddOk c1 k.constVal ty then
          .yes (create (.compare op rt ty j (intConst ty (c1 + k.constVal))))
        else .no
      else if j.isConst then
        if isSubOk j.constVal c1 ty then
          .yes (create (.compare op.commute rt ty k (intConst ty (j.constVal - c1))))
        else .no
      else .no
    else .no
  | .binary .mpy mty j k =>
    if k.isConst ∧ (!mty.isUnsigned ∨ o.foldUnsignedRelops) ∧ o.unsafeRelops then
      relopMpy create op rt ty j k.constVal c1
    else .no
  | _ => .no

/-- The relation that absorbs a constant: `one` on its right, its negation on its left. -/
def exchange (one c : BitVec 64) : Relop → Option Relop
  | .lt => if c = one then some .le else none
  | .ge => if c = one then some .gt else none
  | .gt => if c = -one then some .ge else none
  | .le => if c = -one then some .lt else none
  | _ => none

/-- `i relop N + 1` and `i relop N + -1`. -/
def relopRight (o : RelopOptions) (create : Expr → Expr) (op : Relop) (rt ty : Mtype)
    (k0 k1 : Expr) : Option Expr :=
  match k1 with
  | .binary .add _ n k =>
    if addFoldOk o ty k0 k1 ∧ k.isConst then
      (exchange 1 k.constVal op).map fun op' => create (.compare op' rt ty k0 n)
    else none
  | _ => none

/-- `N + 1 relop i` and `N + -1 relop i`. -/
def relopLeft (o : RelopOptions) (create : Expr → Expr) (op : Relop) (rt ty : Mtype)
    (k0 k1 : Expr) : Option Expr :=
  match k0 with
  | .binary .add _ n k =>
    if addFoldOk o ty k0 k1 ∧ o.unsafeRelops ∧ k.isConst then
      (exchange (-1) k.constVal op).map fun op' => create (.compare op' rt ty n k1)
    else none
  | _ => none

/-- The first part of `simp_relop`, for a constant on the right. -/
def relopWithConst (o : RelopOptions) (create : Expr → Expr) (op : Relop) (rt ty : Mtype)
    (k0 k1 : Expr) : Tried :=
  if k1.isConst then
    match relopMinMax op rt ty k1.constVal with
    | some e => .yes e
    | none => relopConst o create op rt ty k0 k1
  else .no

/-- `simp_relop`, before the aggressive rules. -/
def simpRelop (o : RelopOptions) (create : Expr → Expr) (op : Relop) (rt ty : Mtype)
    (k0 k1 : Expr) : Tried :=
  if k0.isConst then .no
  else
    match relopWithConst o create op rt ty k0 k1 with
    | .no =>
      match relopRight o create op rt ty k0 k1 with
      | some e => .yes e
      | none =>
        match relopLeft o create op rt ty k0 k1 with
        | some e => .yes e
        | none => .no
    | r => r

/-! ## Products -/

section product
variable {j c1 c2 : Int}

theorem quotient_facts (j c1 : Int) (h : c2 ≠ 0) :
    c1 = c1.tdiv c2 * c2 + c1.tmod c2 ∧ (0 ≤ c1 → 0 ≤ c1.tmod c2) ∧ (c1 ≤ 0 → c1.tmod c2 ≤ 0) ∧
    |c1.tmod c2| < |c2| ∧ (j = c1.tdiv c2 → j * c2 = c1.tdiv c2 * c2) ∧
    (j ≤ c1.tdiv c2 - 1 → (0 < c2 → j * c2 ≤ c1.tdiv c2 * c2 - c2) ∧
      (c2 < 0 → c1.tdiv c2 * c2 - c2 ≤ j * c2)) ∧
    (c1.tdiv c2 + 1 ≤ j → (0 < c2 → c1.tdiv c2 * c2 + c2 ≤ j * c2) ∧
      (c2 < 0 → j * c2 ≤ c1.tdiv c2 * c2 + c2)) := by
  have hmod := Int.tmod_add_tdiv_mul c1 c2
  refine ⟨by omega, fun h0 => Int.tmod_nonneg _ h0, fun h0 => ?_, ?_, fun hj => by rw [hj],
    fun hj => ⟨fun hc => by nlinarith, fun hc => by nlinarith⟩,
    fun hj => ⟨fun hc => by nlinarith, fun hc => by nlinarith⟩⟩
  · have hneg := Int.tmod_nonneg c2 (show 0 ≤ -c1 by omega)
    rw [Int.neg_tmod] at hneg
    omega
  · rw [Int.abs_eq_natAbs, Int.abs_eq_natAbs, Int.natAbs_tmod]
    exact_mod_cast Nat.mod_lt _ (by omega)

/-- The constant that the product rule compares with. -/
def quotientBound (op : Relop) (c1 c2 : Int) : Int :=
  if c1 = c1.tdiv c2 * c2 then c1.tdiv c2
  else if (op = .lt ∧ 0 < c1) ∨ (op = .gt ∧ c1 < 0) ∨ (op = .le ∧ c1 < 0) ∨ (op = .ge ∧ 0 < c1) then
    if ¬ (c1 < 0 ↔ c2 < 0) then c1.tdiv c2 - 1 else c1.tdiv c2 + 1
  else c1.tdiv c2

/-- A comparison of a product with a constant is one of the factor with the rounded quotient. -/
theorem rel_product (op : Relop) (hop : op ≠ .eq ∧ op ≠ .ne) (j c1 : Int) (h : c2 ≠ 0) :
    (if 0 < c2 then op else op.commute).Rel j (quotientBound op c1 c2) ↔ op.Rel (j * c2) c1 := by
  obtain ⟨hdiv, hpos, hneg, hlt, heq, hbelow, habove⟩ := quotient_facts j c1 h
  unfold quotientBound
  generalize c1.tdiv c2 = q at *
  generalize c1.tmod c2 = r at *
  generalize j * c2 = P at *
  generalize q * c2 = Q at *
  rw [abs_lt] at hlt
  obtain ⟨hlt1, hlt2⟩ := hlt
  rcases abs_cases c2 with ⟨ha, hs⟩ | ⟨ha, hs⟩
  · -- a positive factor keeps the relation
    rw [ha] at hlt1 hlt2
    rw [if_pos (by omega)]
    cases op with
    | eq => exact absurd rfl hop.1
    | ne => exact absurd rfl hop.2
    | lt | le | gt | ge =>
      simp only [reduceCtorEq, false_and, true_and, false_or, or_false, Relop.Rel]
      split
      · omega
      · split
        · split <;> omega
        · omega
  · -- a negative factor turns it round
    rw [ha] at hlt1 hlt2
    rw [if_neg (by omega)]
    cases op with
    | eq => exact absurd rfl hop.1
    | ne => exact absurd rfl hop.2
    | lt | le | gt | ge =>
      simp only [reduceCtorEq, false_and, true_and, false_or, or_false, Relop.Rel, Relop.commute]
      split
      · omega
      · split
        · split <;> omega
        · omega

theorem natAbs_quotient (c1 : Int) (h : c2 ≠ 0) : (c1.tdiv c2).natAbs ≤ c1.natAbs ∧
    (c1 ≠ c1.tdiv c2 * c2 → 2 * (c1.tdiv c2).natAbs ≤ c1.natAbs) := by
  have hdiv : (c1.tdiv c2).natAbs = c1.natAbs / c2.natAbs := Int.natAbs_tdiv c1 c2
  rw [hdiv]
  refine ⟨Nat.div_le_self _ _, fun hne => ?_⟩
  have h2 : 2 ≤ c2.natAbs := by
    by_contra hlt
    have hone : c2.natAbs = 1 := by omega
    refine hne (Int.tdiv_mul_cancel ?_).symm
    rw [← Int.natAbs_dvd, hone]
    exact one_dvd _
  have hle := Nat.div_le_div_left (a := c1.natAbs) h2 (by decide)
  omega

theorem quotientBound_range (op : Relop) (h : c2 ≠ 0) {m : Int} (hm : 4 ≤ m)
    (hlo : -m ≤ c1) (hhi : c1 < m) (hmin : ¬ (c1 = -m ∧ c2 = -1)) :
    -m ≤ quotientBound op c1 c2 ∧ quotientBound op c1 c2 < m := by
  obtain ⟨hle, hhalf⟩ := natAbs_quotient c1 h
  unfold quotientBound
  split
  · -- an exact quotient is the largest number plus one only for the minimum and -1
    rename_i hexact
    refine ⟨by omega, ?_⟩
    by_contra hge
    have hq : c1.tdiv c2 = m := by omega
    have hc1 : c1 = -m := by
      rcases lt_or_ge c1 0 with hneg | hpos
      · omega
      · omega
    rw [hq, hc1] at hexact
    have : m * (c2 + 1) = 0 := by linarith
    rcases mul_eq_zero.mp this with h0 | h0
    · omega
    · exact hmin ⟨hc1, by omega⟩
  · rename_i hne
    have := hhalf hne
    split
    · split <;> omega
    · omega

end product

/-! ## The constants of the rules -/

section constants
variable {ty : Mtype} {c1 c2 : BitVec 64}

theorem toInt_sdiv_64 (hmin : ¬ (c1.toInt = -2 ^ 63 ∧ c2.toInt = -1)) :
    (c1.sdiv c2).toInt = c1.toInt.tdiv c2.toInt := by
  apply BitVec.toInt_sdiv_of_ne_or_ne
  by_contra h
  rw [not_or, not_not, not_not] at h
  exact hmin ⟨by rw [h.1]; rfl, by rw [h.2]; rfl⟩

theorem exact_iff (h2 : c2 ≠ 0) (hmin : ¬ (c1.toInt = -2 ^ 63 ∧ c2.toInt = -1)) :
    c1 = c1.sdiv c2 * c2 ↔ c1.toInt = c1.toInt.tdiv c2.toInt * c2.toInt := by
  have hne : c2.toInt ≠ 0 := fun h => h2 (BitVec.eq_of_toInt_eq (by rw [h]; rfl))
  have hq := toInt_sdiv_64 hmin
  constructor
  · intro h
    have hint : c1.toInt = Int.bmod (c1.toInt.tdiv c2.toInt * c2.toInt) (2 ^ 64) := by
      rw [← hq, ← BitVec.toInt_mul, ← h]
    obtain ⟨hdiv, hpos, hneg, hlt, -⟩ := quotient_facts 0 c1.toInt hne
    have hr1 := toInt_range c1
    have hr2 := toInt_range c2
    have habs : |c2.toInt| ≤ 9223372036854775808 := abs_le.mpr ⟨by omega, by omega⟩
    have hmul : (c1.toInt.tdiv c2.toInt * c2.toInt).natAbs ≤ c1.toInt.natAbs := by
      rw [Int.natAbs_mul, Int.natAbs_tdiv]
      exact Nat.div_mul_le_self _ _
    rw [abs_lt] at hlt
    rw [Int.bmod_eq_of_le (by norm_num; omega) (by norm_num; omega)] at hint
    exact hint
  · intro h
    apply BitVec.eq_of_toInt_eq
    rw [BitVec.toInt_mul, hq, ← h]
    have hr1 := toInt_range c1
    exact (Int.bmod_eq_of_le (by norm_num; omega) (by norm_num; omega)).symm

end constants

section rules
variable {ρ : Env} {create : Expr → Expr} {op : Relop} {rt ty : Mtype} {k0 k1 r : Expr}

theorem eval_created (hkeeps : Keeps ρ create) (op : Relop) (j : Expr) (c : BitVec 64) :
    eval ρ (create (.compare op rt ty j (intConst ty c))) =
      truth (op.Rel (ty.wrap (eval ρ j)) (ty.wrap c.toInt)) := by
  rw [hkeeps, eval_compare, eval_intConst, Mtype.wrap_wrap]

theorem wrap_moved (ty : Mtype) (p : Prop) [Decidable p] (q c1 c2 : BitVec 64) :
    ty.wrap (if p then if (c1 ^^^ c2).toInt < 0 then q - 1 else q + 1 else q).toInt =
      ty.wrap (if p then if ¬ (c1.toInt < 0 ↔ c2.toInt < 0) then q.toInt - 1 else q.toInt + 1
        else q.toInt) := by
  split
  · simp only [xor_negative]
    split
    · exact wrap_toInt_sub ty q 1
    · exact wrap_toInt_add ty q 1
  · rfl

theorem eval_relopMpy (hkeeps : Keeps ρ create) {j : Expr} {c1 c2 : BitVec 64}
    (h : relopMpy create op rt ty j c2 c1 = .yes r) :
    c2.toInt ≠ 0 ∧ eval ρ r = truth ((if 0 < c2.toInt then op else op.commute).Rel
      (ty.wrap (eval ρ j)) (ty.wrap (quotientBound op c1.toInt c2.toInt))) := by
  unfold relopMpy at h
  split at h
  · cases h
  rename_i h2
  split at h
  · cases h
  rename_i hmin
  have hq := toInt_sdiv_64 hmin
  have hexact := exact_iff h2 hmin
  refine ⟨fun h0 => h2 (BitVec.eq_of_toInt_eq (by rw [h0]; rfl)), ?_⟩
  unfold quotientBound
  dsimp only at h
  split at h
  · rename_i hdiv
    obtain rfl := Tried.yes.inj h
    rw [if_pos (hexact.mp hdiv), eval_created hkeeps, hq]
  · rename_i hdiv
    obtain rfl := Tried.yes.inj h
    rw [if_neg (mt hexact.mpr hdiv), eval_created hkeeps, wrap_moved, hq]

theorem relopMpy_yes (c1 c2 : BitVec 64) (create : Expr → Expr) (op : Relop) (rt ty : Mtype)
    (j : Expr) (h2 : c2 ≠ 0) (hmin : ¬ (c1.toInt = -2 ^ 63 ∧ c2.toInt = -1)) :
    ∃ r, relopMpy create op rt ty j c2 c1 = .yes r := by
  unfold relopMpy
  rw [if_neg h2, if_neg hmin]
  dsimp only
  split
  · exact ⟨_, rfl⟩
  · exact ⟨_, rfl⟩

theorem typeMin_le {c1 : BitVec 64} (h : isTypeMin ty c1 = true) {x : Int} (hx : ty.Holds x) :
    ty.wrap c1.toInt ≤ x := by
  unfold Mtype.Holds at hx
  cases ty with
  | I1 | I2 | U1 | U2 => cases h
  | I4 | I8 =>
    have hc := of_decide_eq_true h
    rw [hc, Mtype.wrap_of_holds (by decide)]
    exact hx.1
  | U4 | U8 =>
    have hc := of_decide_eq_true h
    rw [hc, BitVec.ofNat_eq_ofNat, BitVec.toInt_zero, Mtype.wrap_zero]
    exact hx.1

theorem le_typeMax {c1 : BitVec 64} (h : isTypeMax ty c1 = true) {x : Int} (hx : ty.Holds x) :
    x ≤ ty.wrap c1.toInt := by
  unfold Mtype.Holds at hx
  cases ty with
  | I1 | I2 | U1 | U2 => cases h
  | I4 | I8 | U4 =>
    have hc := of_decide_eq_true h
    rw [hc, Mtype.wrap_of_holds (by decide)]
    exact Int.le_sub_one_of_lt hx.2
  | U8 =>
    have hc := of_decide_eq_true h
    have hmax : Mtype.U8.wrap c1.toInt = 2 ^ 64 - 1 := by
      rw [hc]
      decide
    rw [hmax]
    exact Int.le_sub_one_of_lt hx.2

theorem relopMinMax_right {c1 : BitVec 64} (h : relopMinMax op rt ty c1 = some r) {x : Int}
    (hx : ty.Holds x) : eval ρ r = truth (op.Rel x (ty.wrap c1.toInt)) := by
  have hone : rt.wrap (1 : BitVec 64).toInt = 1 := by
    rw [show (1 : BitVec 64).toInt = 1 by decide, Mtype.wrap_one]
  unfold relopMinMax at h
  split at h
  · rename_i hc
    obtain rfl := Option.some.inj h
    have hle := typeMin_le hc.1 hx
    rw [eval_intConst, hc.2]
    exact (rt.wrap_zero).trans (if_neg (not_lt.mpr hle)).symm
  split at h
  · rename_i hc
    obtain rfl := Option.some.inj h
    have hle := typeMin_le hc.1 hx
    rw [eval_intConst, hc.2]
    exact hone.trans (if_pos hle).symm
  split at h
  · rename_i hc
    obtain rfl := Option.some.inj h
    have hle := le_typeMax hc.1 hx
    rw [eval_intConst, hc.2]
    exact (rt.wrap_zero).trans (if_neg (not_lt.mpr hle)).symm
  split at h
  · rename_i hc
    obtain rfl := Option.some.inj h
    have hle := le_typeMax hc.1 hx
    rw [eval_intConst, hc.2]
    exact hone.trans (if_pos hle).symm
  · cases h

theorem signed_of_addFoldOk {o : RelopOptions} (ho : o.foldUnsignedRelops = false)
    (h : addFoldOk o ty k0 k1 = true) : ty.isUnsigned = false := by
  unfold addFoldOk at h
  cases hu : ty.isUnsigned with
  | false => rfl
  | true => simp [hu, ho] at h

end rules

/-! ## Constants that are moved -/

section moved
variable {ρ : Env} {create : Expr → Expr} {o : RelopOptions} {op : Relop} {rt ty : Mtype}
  {k0 k1 r : Expr}

theorem relopMpy_right (hkeeps : Keeps ρ create) (hop : op ≠ .eq ∧ op ≠ .ne)
    (hu : ty.isUnsigned = false) (hbits : 32 ≤ ty.bits) {j k : Expr} {c1 : BitVec 64}
    (hk : k.rtype = ty) (hconst : k.isConst = true) (hwf : WellFormed k)
    (hfit : NoOverflow ρ (.binary .mpy ty j k)) (h1 : ty.Holds c1.toInt)
    (hmin : ¬ (c1.toInt = -2 ^ (ty.bits - 1) ∧ k.constVal.toInt = -1))
    (h : relopMpy create op rt ty j k.constVal c1 = .yes r) :
    eval ρ r = truth (op.Rel (eval ρ (.binary .mpy ty j k)) c1.toInt) := by
  obtain ⟨hval, hholds⟩ := const_value (ρ := ρ) hu hconst hk hwf
  obtain ⟨hne, hr⟩ := eval_relopMpy hkeeps h
  have hm : (4 : Int) ≤ 2 ^ (ty.bits - 1) := by
    have : (2 : Int) ^ 2 ≤ 2 ^ (ty.bits - 1) := pow_le_pow_right₀ (by decide) (by omega)
    omega
  have hbound : ty.Holds (quotientBound op c1.toInt k.constVal.toInt) := by
    unfold Mtype.Holds at h1 ⊢
    rw [hu, if_neg Bool.false_ne_true] at h1 ⊢
    exact quotientBound_range op hne hm h1.1 h1.2 hmin
  rw [hr, Mtype.wrap_of_holds hbound, (eval_exact hu hfit).2.2 rfl, hval]
  exact truth_congr (rel_product op hop _ _ hne)

/-- A comparison with a constant; one case for each operator on the left. -/
theorem relopConst_right (hkeeps : Keeps ρ create) (ho : o.foldUnsignedRelops = false)
    (hop : op ≠ .eq ∧ op ≠ .ne) (hbits : 32 ≤ ty.bits) (h0 : OfType ty k0) (h1 : k1.rtype = ty)
    (hc1 : k1.isConst = true) (hwf0 : WellFormed k0) (hwf1 : WellFormed k1) (hfit : NoOverflow ρ k0)
    (hmin : ¬ (ty = .I4 ∧ k1.constVal.toInt = -2 ^ 31 ∧
      ∃ t j v, k0 = .binary .mpy t j (.intconst ty v) ∧ v.toInt = -1))
    (h : relopConst o create op rt ty k0 k1 = .yes r) :
    eval ρ r = eval ρ (.compare op rt ty k0 k1) := by
  unfold relopConst at h
  dsimp only at h
  cases k0 with
  | binary bop t j k =>
    obtain ⟨rfl, hkids⟩ := h0
    cases bop with
    | add =>
      -- `j + c2`: the constant is moved to the other side
      dsimp only at h
      split at h
      · rename_i hcond
        obtain ⟨hck, hfold, hok⟩ := hcond
        have hu := signed_of_addFoldOk ho hfold
        obtain ⟨-, htk⟩ := hkids (.inl rfl)
        obtain ⟨hv1, hh1⟩ := const_value (ρ := ρ) hu hc1 h1 hwf1
        obtain ⟨hvk, hhk⟩ := const_value (ρ := ρ) hu hck htk hwf0.2
        obtain ⟨hdiff, hholds⟩ := isSubOk_signed hu hok hh1 hhk
        obtain rfl := Tried.yes.inj h
        rw [eval_created hkeeps, eval_compare, wrap_eval_binary, (eval_exact hu hfit).1 rfl, hvk,
          hv1, hdiff, Mtype.wrap_of_holds hholds]
        exact truth_congr (op.rel_add _ _ _).symm
      · cases h
    | sub =>
      -- `j - c2` and `c2 - j`
      dsimp only at h
      split at h
      · rename_i hfold
        have hu := signed_of_addFoldOk ho hfold
        obtain ⟨htj, htk⟩ := hkids (.inr (.inl rfl))
        obtain ⟨hv1, hh1⟩ := const_value (ρ := ρ) hu hc1 h1 hwf1
        split at h
        · -- `j - c2`
          rename_i hck
          obtain ⟨hvk, hhk⟩ := const_value (ρ := ρ) hu hck htk hwf0.2
          split at h
          · rename_i hok
            obtain ⟨hsum, hholds⟩ := isAddOk_signed hu hok hh1 hhk
            obtain rfl := Tried.yes.inj h
            rw [eval_created hkeeps, eval_compare, wrap_eval_binary, (eval_exact hu hfit).2.1 rfl,
              hvk, hv1, hsum, Mtype.wrap_of_holds hholds, Int.sub_eq_add_neg]
            apply truth_congr
            rw [op.rel_add, sub_neg_eq_add]
          · cases h
        split at h
        · -- `c2 - j`
          rename_i hcj
          obtain ⟨hvj, hhj⟩ := const_value (ρ := ρ) hu hcj htj hwf0.1
          split at h
          · rename_i hok
            obtain ⟨hdiff, hholds⟩ := isSubOk_signed hu hok hhj hh1
            obtain rfl := Tried.yes.inj h
            rw [eval_created hkeeps, eval_compare, wrap_eval_binary, (eval_exact hu hfit).2.1 rfl,
              hvj, hv1, hdiff, Mtype.wrap_of_holds hholds]
            apply truth_congr
            rw [op.rel_commute, op.rel_sub_left]
          · cases h
        · cases h
      · cases h
    | mpy =>
      -- `j * c2`: divided by it, with the relation turned around below zero
      dsimp only at h
      split at h
      · rename_i hcond
        obtain ⟨hck, hunsigned, -⟩ := hcond
        obtain ⟨-, htk⟩ := hkids (.inr (.inr rfl))
        have hu : t.isUnsigned = false := by simpa [ho] using hunsigned
        obtain ⟨hv1, hh1⟩ := const_value (ρ := ρ) hu hc1 h1 hwf1
        have hnot : ¬ (k1.constVal.toInt = -2 ^ (t.bits - 1) ∧ k.constVal.toInt = -1) := by
          intro hboth
          cases t with
          | U1 | U2 | U4 | U8 => cases hu
          | I1 | I2 => norm_num [Mtype.bits] at hbits
          | I8 =>
            -- the division stops
            have hne : k.constVal ≠ 0 := fun h0 => by rw [h0] at hboth; cases hboth.2
            unfold relopMpy at h
            rw [if_neg hne, if_pos (show _ = -2 ^ 63 ∧ _ from hboth)] at h
            cases h
          | I4 =>
            cases k with
            | intconst tk v =>
              obtain rfl : tk = .I4 := htk
              exact hmin ⟨rfl, hboth.1, _, _, _, rfl, hboth.2⟩
            | _ => cases hck
        rw [relopMpy_right hkeeps hop hu hbits htk hck hwf0.2 hfit hh1 hnot h, eval_compare,
          wrap_eval_binary, hv1]
      · cases h
    | _ => cases h
  | _ => cases h

theorem exchange_right {one c : BitVec 64} {op' : Relop} (h : exchange one c op = some op')
    (hone : one.toInt = 1 ∨ one.toInt = -1) :
    (one.toInt = 1 → ∀ x y, op'.Rel x y ↔ op.Rel x (y + c.toInt)) ∧
    (one.toInt = -1 → ∀ x y, op'.Rel x y ↔ op.Rel (x + c.toInt) y) := by
  have hneg : (-one).toInt = -one.toInt := by
    rw [BitVec.toInt_neg]
    rcases hone with h1 | h1 <;> rw [h1] <;> rfl
  cases op with
  | eq | ne => cases h
  | lt | ge =>
    simp only [exchange, Option.ite_none_right_eq_some, Option.some.injEq] at h
    obtain ⟨rfl, rfl⟩ := h
    constructor <;> intro h1 x y <;> simp only [Relop.Rel] <;> omega
  | gt | le =>
    simp only [exchange, Option.ite_none_right_eq_some, Option.some.injEq] at h
    obtain ⟨rfl, rfl⟩ := h
    constructor <;> intro h1 x y <;> simp only [Relop.Rel] <;> omega

theorem relopRight_right (hkeeps : Keeps ρ create) (ho : o.foldUnsignedRelops = false)
    (h1 : OfType ty k1) (hwf : WellFormed k1) (hfit : NoOverflow ρ k1)
    (h : relopRight o create op rt ty k0 k1 = some r) :
    eval ρ r = eval ρ (.compare op rt ty k0 k1) := by
  unfold relopRight at h
  split at h
  · rename_i t n k
    obtain ⟨rfl, hkids⟩ := h1
    split at h
    · rename_i hcond
      obtain ⟨hfold, hck⟩ := hcond
      have hu := signed_of_addFoldOk ho hfold
      obtain ⟨hvk, -⟩ := const_value (ρ := ρ) hu hck (hkids (.inl rfl)).2 hwf.2
      obtain ⟨op', hop', rfl⟩ := Option.map_eq_some_iff.mp h
      have hrel := (exchange_right hop' (.inl (by decide))).1 (by decide)
      rw [hkeeps, eval_compare, eval_compare, wrap_eval_binary, (eval_exact hu hfit).1 rfl, hvk]
      exact truth_congr (hrel _ _)
    · cases h
  · cases h

theorem relopLeft_right (hkeeps : Keeps ρ create) (ho : o.foldUnsignedRelops = false)
    (h0 : OfType ty k0) (hwf : WellFormed k0) (hfit : NoOverflow ρ k0)
    (h : relopLeft o create op rt ty k0 k1 = some r) :
    eval ρ r = eval ρ (.compare op rt ty k0 k1) := by
  unfold relopLeft at h
  split at h
  · rename_i t n k
    obtain ⟨rfl, hkids⟩ := h0
    split at h
    · rename_i hcond
      obtain ⟨hfold, -, hck⟩ := hcond
      have hu := signed_of_addFoldOk ho hfold
      obtain ⟨hvk, -⟩ := const_value (ρ := ρ) hu hck (hkids (.inl rfl)).2 hwf.2
      obtain ⟨op', hop', rfl⟩ := Option.map_eq_some_iff.mp h
      have hrel := (exchange_right hop' (.inr (by decide))).2 (by decide)
      rw [hkeeps, eval_compare, eval_compare, wrap_eval_binary, (eval_exact hu hfit).1 rfl, hvk]
      exact truth_congr (hrel _ _)
    · cases h
  · cases h

end moved

/-! ## The comparison keeps its truth -/

/-- The product with -1, compared with the smallest I4. -/
def NegatesMinimum (op : Relop) (ty : Mtype) (k0 k1 : Expr) : Prop :=
  ty = .I4 ∧ (op = .gt ∨ op = .le) ∧ k1.constVal.toInt = -2 ^ 31 ∧ k1.isConst = true ∧
    ∃ t j v, k0 = .binary .mpy t j (.intconst ty v) ∧ v.toInt = -1

/-- The rules return a tree that is true exactly when the comparison is, but for the product with -1
and the smallest I4. -/
theorem simpRelop_right_iff (ρ : Env) (create : Expr → Expr) (hkeeps : Keeps ρ create)
    (o : RelopOptions) (hsafe : o.unsafeRelops = true) (ho : o.foldUnsignedRelops = false)
    (op : Relop) (hop : op ≠ .eq ∧ op ≠ .ne) (rt ty : Mtype) (hbits : 32 ≤ ty.bits)
    (k0 k1 : Expr) (h0 : OfType ty k0) (h1 : OfType ty k1) (hwf0 : WellFormed k0)
    (hwf1 : WellFormed k1) (hfit : NoOverflow ρ (.compare op rt ty k0 k1)) :
    (∀ r, simpRelop o create op rt ty k0 k1 = .yes r →
        eval ρ r = eval ρ (.compare op rt ty k0 k1)) ↔ ¬ NegatesMinimum op ty k0 k1:= by
  constructor
  · intro hall hneg
    obtain ⟨rfl, hop', hc, hc1, t, j, v, rfl, hv⟩ := hneg
    obtain rfl : t = .I4 := h0.1
    have hhead : relopMinMax op rt .I4 k1.constVal = none := by
      have hmax : ¬ isTypeMax .I4 k1.constVal = true := fun h => by
        have hval := of_decide_eq_true h
        omega
      unfold relopMinMax
      rcases hop' with rfl | rfl <;> simp [hmax]
    obtain ⟨r, hr⟩ := relopMpy_yes k1.constVal v create op rt .I4 j
      (fun h => by rw [h] at hv; cases hv) (fun h => by have := h.1; omega)
    have hwrong := hall r (by
      unfold simpRelop
      rw [if_neg (show ¬ (Expr.binary .mpy .I4 j (.intconst .I4 v)).isConst = true from
        Bool.false_ne_true), show relopWithConst o create op rt .I4
        (.binary .mpy .I4 j (.intconst .I4 v)) k1 = .yes r by
          unfold relopWithConst
          rw [if_pos hc1, hhead]
          exact (if_pos ⟨rfl, .inl rfl, hsafe⟩).trans hr])
    have hone : Mtype.I4.wrap (eval ρ (.intconst .I4 v)) = -1 := by
      rw [eval, hv]
      decide
    have hmin1 : Mtype.I4.wrap (eval ρ k1) = -2 ^ 31 := by
      rw [(const_value rfl hc1 h1.rtype hwf1).1, hc]
    have hholds := hfit.1.2.2 rfl
    have hexact := (eval_exact rfl hfit.1).2.2 rfl
    unfold Bop.Fits at hholds
    dsimp only at hholds
    rw [hone] at hholds hexact
    rw [(eval_relopMpy hkeeps hr).2, hc, hv, if_neg (by decide), eval_compare, wrap_eval_binary,
      hexact, hmin1] at hwrong
    -- minus the factor is not the minimum, and so the factor is none too
    have hrange := Mtype.I4.holds_wrap (eval ρ j)
    unfold Mtype.Holds at hholds hrange
    norm_num [Mtype.isUnsigned, Mtype.bits] at hholds hrange
    have hiff := iff_of_truth_eq hwrong
    rcases hop' with rfl | rfl
    · rw [show Mtype.I4.wrap (quotientBound .gt (-2 ^ 31) (-1)) = -2 ^ 31 by decide] at hiff
      simp only [Relop.Rel, Relop.commute] at hiff
      omega
    · rw [show Mtype.I4.wrap (quotientBound .le (-2 ^ 31) (-1)) = -2 ^ 31 by decide] at hiff
      simp only [Relop.Rel, Relop.commute] at hiff
      omega
  · intro hneg r hr
    unfold simpRelop at hr
    split at hr
    · cases hr
    split at hr
    · -- no constant was moved
      split at hr
      · rename_i e he
        obtain rfl := Tried.yes.inj hr
        exact relopRight_right hkeeps ho h1 hwf1 hfit.2 he
      · split at hr
        · rename_i e he
          obtain rfl := Tried.yes.inj hr
          exact relopLeft_right hkeeps ho h0 hwf0 hfit.1 he
        · cases hr
    · unfold relopWithConst at hr
      split at hr
      · rename_i hc1
        split at hr
        · rename_i e he
          obtain rfl := Tried.yes.inj hr
          rw [relopMinMax_right he (ty.holds_wrap (eval ρ k0)), eval_compare]
          cases k1 with
          | intconst t v =>
            obtain rfl : t = ty := h1
            rw [eval, Mtype.wrap_wrap, Expr.constVal_intconst]
          | _ => cases hc1
        · rename_i hnone
          refine relopConst_right hkeeps ho hop hbits h0 h1.rtype hc1 hwf0 hwf1 hfit.1 ?_ hr
          intro hmin
          obtain ⟨hty, hc, hk0⟩ := hmin
          subst hty
          have hismin : isTypeMin .I4 k1.constVal = true := decide_eq_true hc
          unfold relopMinMax at hnone
          refine hneg ⟨rfl, ?_, hc, hc1, hk0⟩
          cases op with
          | eq => exact absurd rfl hop.1
          | ne => exact absurd rfl hop.2
          | lt => rw [if_pos ⟨hismin, rfl⟩] at hnone; cases hnone
          | ge => rw [if_neg (fun h => by cases h.2), if_pos ⟨hismin, rfl⟩] at hnone; cases hnone
          | gt => exact .inl rfl
          | le => exact .inr rfl
      · cases hr

theorem simpRelop_right_iff_three : ∃ r, simpRelop ⟨true, false⟩ id .lt .I4 .I4
        (.binary .mpy .I4 (.leaf .other .I4 .I4 0) (.intconst .I4 3)) (.intconst .I4 10) = .yes r ∧
      eval ⟨fun _ => 3, true⟩ r = eval ⟨fun _ => 3, true⟩ (.compare .lt .I4 .I4
        (.binary .mpy .I4 (.leaf .other .I4 .I4 0) (.intconst .I4 3)) (.intconst .I4 10)) := by
  refine ⟨_, rfl, (simpRelop_right_iff ⟨fun _ => 3, true⟩ id (keeps_id _) ⟨true, false⟩ rfl rfl .lt
    ⟨nofun, nofun⟩ .I4 .I4 (by decide) (.binary .mpy .I4 (.leaf .other .I4 .I4 0) (.intconst .I4 3))
    (.intconst .I4 10) ⟨rfl, fun _ => ⟨rfl, rfl⟩⟩ rfl ⟨trivial, ⟨fun _ => by decide, nofun⟩⟩
    ⟨fun _ => by decide, nofun⟩ ⟨⟨trivial, trivial, fun _ => ?_⟩, trivial⟩).mpr ?_ _ rfl⟩
  · unfold Bop.Fits
    decide
  · intro hneg
    exact absurd hneg.2.1 (by decide)

/-- -5 > -2147483648 becomes 5 < -2147483648. -/
theorem negated_minimum_wrong : ¬ ∀ (ρ : Env) (create : Expr → Expr), Keeps ρ create →
    ∀ o : RelopOptions, o.unsafeRelops = true → o.foldUnsignedRelops = false →
    ∀ op : Relop, op ≠ .eq ∧ op ≠ .ne → ∀ rt ty : Mtype, 32 ≤ ty.bits →
    ∀ k0 k1 : Expr, OfType ty k0 → OfType ty k1 → WellFormed k0 → WellFormed k1 →
      NoOverflow ρ (.compare op rt ty k0 k1) → ∀ r, simpRelop o create op rt ty k0 k1 = .yes r →
        eval ρ r = eval ρ (.compare op rt ty k0 k1) := by
  intro hall
  have hwrong := hall ⟨fun _ => 5, true⟩ id (keeps_id _) ⟨true, false⟩ rfl rfl .gt ⟨nofun, nofun⟩
    .I4 .I4 (by decide) (.binary .mpy .I4 (.leaf .other .I4 .I4 0) (.intconst .I4 (-1#64)))
    (.intconst .I4 (-2147483648#64)) ⟨rfl, fun _ => ⟨rfl, rfl⟩⟩ rfl
    ⟨trivial, ⟨fun _ => by decide, nofun⟩⟩ ⟨fun _ => by decide, nofun⟩
    ⟨⟨trivial, trivial, fun _ => by unfold Bop.Fits; decide⟩, trivial⟩
    (.compare .lt .I4 .I4 (.leaf .other .I4 .I4 0) (.intconst .I4 2147483648#64)) (by decide)
  revert hwrong
  decide

end Simp.Whirl
