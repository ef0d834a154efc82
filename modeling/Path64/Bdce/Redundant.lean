import Path64.Bdce.Transfer

/-! # Redundant extensions

`Redundant_cvtl` decides from the operators and types of a tree whether
a sign or zero extension of its value changes nothing. The theorem says
exactly when its answer can be trusted. -/

namespace Bdce

open Bool Nat BitMask

/-! ## Model -/

/-- What `Redundant_cvtl` reads besides the tree. -/
structure Annot where
  split64 : Bool
  livebits : Expr → BitVec 64
  usecnt : Expr → Nat

/-- The node is in use and no bit beyond `bits` is live: it is going to be deleted itself. -/
def Annot.deletes (an : Annot) (e : Expr) (bits : BitVec 64) : Bool :=
  decide (0 < an.usecnt e) && an.livebits e &&& ~~~bits == 0

/-- The answer for a value that is zero or one. -/
def boolRedundant (signXtd : Bool) (fromBit : Nat) : Bool := !signXtd || fromBit != 1

/-- The answer for a constant: extend it and compare. -/
def constRedundant (signXtd : Bool) (toBit fromBit : Nat) (val : BitVec 64) : Bool :=
  if toBit = 64 then
    let shifted := val <<< (64 - fromBit)
    (if signXtd then shifted.sshiftRight (64 - fromBit) else shifted >>> (64 - fromBit)) == val
  else
    let val32 := val.setWidth 32
    let shifted := val32 <<< (32 - fromBit)
    val32 == if signXtd then shifted.sshiftRight (32 - fromBit) else shifted >>> (32 - fromBit)

/-- The answer for a load from memory. -/
def loadRedundant (split64 signXtd : Bool) (toBit fromBit : Nat) (ty : LoadType) : Bool :=
  if split64 && toBit == 64 then false
  else if ty.dsctyp.size < 32 ∧ toBit = 64 then
    !signXtd && !ty.signExtd && decide (ty.dsctyp.size ≤ fromBit)
  else if signXtd = ty.signExtd then decide (ty.dsctyp.size ≤ fromBit)
  else !ty.signExtd && decide (ty.dsctyp.size < fromBit)

/-- The answer for a `CVTL`. -/
def cvtlRedundant (signXtd : Bool) (toBit fromBit : Nat) (w : Width) : Bool :=
  if w.dtyp.signed = signXtd then
    if !w.dtyp.signed then decide (w.bits ≤ fromBit)
    else decide (w.bits ≤ fromBit) && decide (toBit ≤ w.dtyp.size)
  else !w.dtyp.signed && decide (w.bits < fromBit)

/-- The answer for an `EXTRACT_BITS`. -/
def extractRedundant (signXtd : Bool) (fromBit : Nat) (f : BitField) : Bool :=
  if f.size ≤ fromBit then
    if f.dtyp.signed = signXtd then true
    else if f.size < fromBit then !f.dtyp.signed else false
  else false

/-- The answer for a conjunction: the constant that is found first is small enough. -/
def bandRedundant (signXtd : Bool) (fromBit : Nat) (x y : Expr) : Bool :=
  if signXtd then false
  else match x.constVal?, y.constVal? with
    | some c, _ => decide (c.toNat ≤ 2 ^ fromBit - 1)
    | none, some c => decide (c.toNat ≤ 2 ^ fromBit - 1)
    | none, none => false

/-- The answer for an arithmetic shift right. -/
def ashrRedundant (signXtd : Bool) (fromBit : Nat) (t : Rtype) (y : Expr) : Bool :=
  match y.constVal? with
  | some c => decide ((t.size : Int) - c.toInt ≤ fromBit) && decide (fromBit < t.size) &&
      t.signed == signXtd
  | none => false

def redundantCvtl (an : Annot) (signXtd : Bool) (toBit fromBit : Nat) : Expr → Bool
  | .const c =>
    if c.dtyp = .B then boolRedundant signXtd fromBit
    else if an.split64 && decide (c.dtyp.size ≤ 32) && decide (32 < toBit) then false
    else constRedundant signXtd toBit fromBit c.val
  | .lda _ _ => false
  | .var v =>
    if v.ty.dtyp = .B then boolRedundant signXtd fromBit
    else if v.dedicated || v.preg then false
    else loadRedundant an.split64 signXtd toBit fromBit v.ty
  | .defVar v rhs =>
    if v.ty.dtyp = .B then boolRedundant signXtd fromBit
    else if v.dedicated then false
    else if v.preg then
      if v.ty.dtyp.size = 32 then false else redundantCvtl an signXtd toBit fromBit rhs
    else loadRedundant an.split64 signXtd toBit fromBit v.ty
  | .iload ty _ _ _ =>
    if ty.dtyp = .B then boolRedundant signXtd fromBit
    else loadRedundant an.split64 signXtd toBit fromBit ty
  | .un (.cvtl w) x =>
    if an.deletes (.un (.cvtl w) x) (bitmaskOfSize w.bits) then false
    else cvtlRedundant signXtd toBit fromBit w
  | .un (.cvt dtyp dsctyp) x =>
    if dtyp.size ≤ dsctyp.size then false
    else if an.deletes (.un (.cvt dtyp dsctyp) x) dsctyp.bits then false
    else dtyp.signed == signXtd && decide (dsctyp.size ≤ fromBit)
  | .un (.cvtB dtyp) x =>
    if an.deletes (.un (.cvtB dtyp) x) (bitsInType .B) then false
    else dtyp.signed == signXtd && decide (Mtype.B.size ≤ fromBit)
  | .un (.extractBits f) _ => extractRedundant signXtd fromBit f
  | .un (.lnot _ _) _ => boolRedundant signXtd fromBit
  | .un _ _ => false
  | .bin (.relation _ _ _) _ _ => boolRedundant signXtd fromBit
  | .bin (.logical _ _) _ _ => boolRedundant signXtd fromBit
  | .bin (.bitwise .band _) x y => bandRedundant signXtd fromBit x y
  | .bin (.shift .ashr t) _ y => ashrRedundant signXtd fromBit t y
  | .bin (.rrotate u) x _ =>
    if signXtd then false
    else if u.dsctyp.size ≤ fromBit then redundantCvtl an signXtd toBit fromBit x else false
  | .bin _ _ _ => false
  | .select _ _ _ _ _ => false

section
-- derives the equations
attribute [local simp] redundantCvtl
end

/-- The sign or zero extension from `fromBit` bits. -/
def extendFrom (signXtd : Bool) (fromBit : Nat) (v : BitVec 64) : BitVec 64 :=
  if signXtd then sext fromBit v else low fromBit v

/-- The extension to `toBit` bits leaves `v` as it is. -/
def Unchanged (signXtd : Bool) (toBit fromBit : Nat) (v : BitVec 64) : Prop :=
  AgreeOn (bitmaskOfSize toBit) (extendFrom signXtd fromBit v) v

/-! ## Values that an extension leaves alone -/

variable {t : Rtype} {ty : LoadType} {x y : Expr} {c : BitVec 64}

section Extension

variable {signXtd : Bool} {toBit fromBit n m : Nat} {v a : BitVec 64}

theorem unchanged_iff (hfrom : 0 < fromBit) (hto : toBit ≤ 64) : Unchanged signXtd toBit fromBit v ↔
      ∀ i, fromBit ≤ i → i < toBit → v.getLsbD i = (signXtd && v.getLsbD (fromBit - 1)) := by
  have hbit : ∀ i, i < toBit → (extendFrom signXtd fromBit v).getLsbD i =
      if i < fromBit then v.getLsbD i else signXtd && v.getLsbD (fromBit - 1) := by
    intro i hi
    unfold extendFrom
    cases signXtd with
    | true =>
      rw [if_pos rfl, getLsbD_sext hfrom, decide_eq_true (show i < 64 by omega), Bool.true_and]
      by_cases hlt : i < fromBit
      · rw [if_pos hlt, Nat.min_eq_left (by omega)]
      · rw [if_neg hlt, Nat.min_eq_right (by omega), Bool.true_and]
    | false =>
      rw [if_neg (by simp), getLsbD_low]
      by_cases hlt : i < fromBit
      · simp [hlt]
      · simp [hlt]
  constructor
  · intro h i hi hlt
    rw [← h i (by simp; omega), hbit i hlt, if_neg (by omega)]
  · intro h i hi
    have hlt : i < toBit := by
      simp at hi
      exact hi.1
    rw [hbit i hlt]
    by_cases hlo : i < fromBit
    · rw [if_pos hlo]
    · rw [if_neg hlo, h i (by omega) hlt]

theorem unchanged_of_clear (hto : toBit ≤ 64) (hfrom : 0 < fromBit) (h : Clear n v)
    (hn : n < fromBit ∨ (n ≤ fromBit ∧ signXtd = false)) : Unchanged signXtd toBit fromBit v:= by
  rw [unchanged_iff hfrom hto]
  intro i hi _
  rw [h i (by omega)]
  rcases hn with hn | ⟨_, hs⟩
  · rw [h (fromBit - 1) (by omega), Bool.and_false]
  · rw [hs, Bool.false_and]

/-- The bits from `n - 1` up to `m` are the same. -/
def Copies (n m : Nat) (v : BitVec 64) : Prop :=
  ∀ i, n ≤ i → i < m → v.getLsbD i = v.getLsbD (n - 1)

theorem unchanged_of_copies (hto : toBit ≤ 64) (hn : 0 < n) (h : Copies n m v) (hle : n ≤ fromBit)
    (hlt : fromBit < toBit) (hm : toBit ≤ m) : Unchanged true toBit fromBit v := by
  rw [unchanged_iff (by omega) hto]
  intro i hi hi'
  rw [h i (by omega) (by omega), Bool.true_and]
  rcases Nat.lt_or_ge (fromBit - 1) n with hlow | hhigh
  · rw [show fromBit - 1 = n - 1 by omega]
  · rw [h (fromBit - 1) hhigh (by omega)]

theorem unchanged_bool (hto : toBit ≤ 64) (hfrom : 0 < fromBit) (h : Clear 1 v)
    (hr : boolRedundant signXtd fromBit = true) : Unchanged signXtd toBit fromBit v := by
  apply unchanged_of_clear hto hfrom h
  unfold boolRedundant at hr
  cases signXtd with
  | false => exact .inr ⟨hfrom, rfl⟩
  | true =>
    simp at hr
    omega

theorem clear_fieldValue (t : Rtype) (hs : t.signed = false) : Clear n (fieldValue t n a) := by
  intro i hi
  simp only [fieldValue, write, getLsbD_low, hs]
  simp [show ¬ i < n by omega]

theorem getLsbD_fieldValue (hs : t.signed = true) (hn : 0 < n) {i : Nat}
    (hi : i < t.size) : (fieldValue t n a).getLsbD i = a.getLsbD (min i (n - 1)) := by
  have hle := t.size_le
  simp only [fieldValue, write, getLsbD_low, hs, if_true]
  rw [getLsbD_sext hn]
  simp [hi, show i < 64 by omega]

theorem copies_fieldValue (hs : t.signed = true) (hn : 0 < n) (hle : n ≤ t.size) :
    Copies n t.size (fieldValue t n a) := by
  intro i hi hlt
  rw [getLsbD_fieldValue hs hn hlt, getLsbD_fieldValue hs hn (by omega),
    min_eq_right (by omega), min_eq_right (by omega)]

end Extension

/-! ## The cases of the source -/

section Cases

variable {signXtd : Bool} {toBit fromBit : Nat}

/-- The shift test on a constant says that the conversion leaves it as it is. -/
theorem unchanged_of_shifts (hfrom : 0 < fromBit) (hlt : fromBit < toBit)
    (hto : toBit = 32 ∨ toBit = 64) {val : BitVec 64}
    (h : constRedundant signXtd toBit fromBit val = true) : Unchanged signXtd toBit fromBit val:= by
  rw [unchanged_iff hfrom (by omega)]
  intro i hi hi'
  rcases hto with rfl | rfl
  · -- the comparison is one of 32-bit words
    simp only [constRedundant, show ¬ (32 = 64) by decide, if_false, beq_iff_eq] at h
    have hbit := congrArg (fun w => BitVec.getLsbD w i) h
    cases signXtd with
    | true =>
      simp only [if_true, BitVec.getLsbD_setWidth, BitVec.getLsbD_sshiftRight] at hbit
      rw [if_neg (by omega), BitVec.msb_eq_getLsbD_last, BitVec.getLsbD_shiftLeft,
        BitVec.getLsbD_setWidth, show 32 - 1 - (32 - fromBit) = fromBit - 1 by omega] at hbit
      simpa [hi', show ¬ 32 ≤ i by omega, show ¬ 31 < 32 - fromBit by omega,
        show fromBit - 1 < 32 by omega] using hbit
    | false =>
      simp only [false_eq_true, if_false, BitVec.getLsbD_setWidth, BitVec.getLsbD_ushiftRight,
        BitVec.getLsbD_shiftLeft] at hbit
      simpa [hi', show ¬ 32 - fromBit + i < 32 by omega] using hbit
  · simp only [constRedundant, if_true, beq_iff_eq] at h
    have hbit := congrArg (fun w => BitVec.getLsbD w i) h
    cases signXtd with
    | true =>
      simp only [if_true, BitVec.getLsbD_sshiftRight] at hbit
      rw [if_neg (by omega), BitVec.msb_eq_getLsbD_last, BitVec.getLsbD_shiftLeft,
        show 64 - 1 - (64 - fromBit) = fromBit - 1 by omega] at hbit
      simpa [show ¬ 64 ≤ i by omega, show ¬ 63 < 64 - fromBit by omega] using hbit.symm
    | false =>
      simp only [false_eq_true, if_false, BitVec.getLsbD_ushiftRight,
        BitVec.getLsbD_shiftLeft] at hbit
      simpa [show ¬ 64 - fromBit + i < 64 by omega] using hbit.symm

theorem signExtended_spec {dtyp dsctyp : Mtype} (valid : loadValid dtyp dsctyp = true)
    (hB : dtyp ≠ .B) : (signExtended dtyp dsctyp = true → dsctyp.signed = true ∧
      (dsctyp.size < 32 ∧ 32 ≤ dtyp.size ∨ dtyp.size = 64)) ∧
    (signExtended dtyp dsctyp = false → dsctyp.signed = true → dtyp.size ≤ dsctyp.size) := by
  revert valid hB
  cases dtyp <;> cases dsctyp <;> decide

theorem clear_load (hB : ty.dtyp ≠ .B) (h : ty.signExtd = false) (c : BitVec 64) :
    Clear ty.dsctyp.size (ty.value c) := by
  intro i hi
  unfold LoadType.value
  rw [getLsbD_low, getLsbD_extend]
  by_cases hs : ty.dsctyp.signed = true
  · -- a signed load that is not sign-extended fills its result type
    have hsize : ty.dtyp.size ≤ ty.dsctyp.size := (signExtended_spec ty.valid hB).2 h hs
    simp [show ¬ i < ty.dtyp.size by omega]
  · rw [if_neg hs]
    simp [show ¬ i < ty.dsctyp.size by omega]

theorem copies_load (hB : ty.dtyp ≠ .B) (h : ty.signExtd = true) (c : BitVec 64) :
    Copies ty.dsctyp.size ty.dtyp.size (ty.value c) := by
  have hs : ty.dsctyp.signed = true := ((signExtended_spec ty.valid hB).1 h).1
  have hpos := ty.dsctyp.size_pos
  have hle := ty.dtyp.size_le
  intro i hi hlt
  unfold LoadType.value
  rw [getLsbD_low, getLsbD_low, getLsbD_extend, getLsbD_extend, if_pos hs, if_pos hs,
    min_eq_right (by omega), min_eq_right (by omega)]
  simp [hlt, show i < 64 by omega, show ty.dsctyp.size - 1 < ty.dtyp.size by omega,
    show ty.dsctyp.size - 1 < 64 by omega]

theorem unchanged_load (hfrom : 0 < fromBit) (hlt : fromBit < toBit)
    (hto : toBit = 32 ∨ toBit = 64) {split64 : Bool} (hB : ty.dtyp ≠ .B)
    (c : BitVec 64) (h : loadRedundant split64 signXtd toBit fromBit ty = true) :
    Unchanged signXtd toBit fromBit (ty.value c) := by
  have hto64 : toBit ≤ 64 := by omega
  unfold loadRedundant at h
  by_cases hsplit : (split64 && toBit == 64) = true
  · rw [if_pos hsplit] at h
    exact absurd h (by simp)
  rw [if_neg hsplit] at h
  by_cases hsmall : ty.dsctyp.size < 32 ∧ toBit = 64
  · rw [if_pos hsmall] at h
    simp only [and_eq_true, not_eq_true', decide_eq_true_eq] at h
    obtain ⟨⟨hsign, hext⟩, hle⟩ := h
    exact unchanged_of_clear hto64 hfrom (clear_load hB hext c) (.inr ⟨hle, hsign⟩)
  rw [if_neg hsmall] at h
  by_cases heq : signXtd = ty.signExtd
  · rw [if_pos heq, decide_eq_true_eq] at h
    cases hext : ty.signExtd with
    | false =>
      exact unchanged_of_clear hto64 hfrom (clear_load hB hext c) (.inr ⟨h, heq.trans hext⟩)
    | true =>
      -- a sign-extended load of 32 bits has 64 bits
      have hfull := ((signExtended_spec ty.valid hB).1 hext).2
      rw [heq, hext]
      exact unchanged_of_copies hto64 ty.dsctyp.size_pos (copies_load hB hext c) h hlt (by omega)
  · rw [if_neg heq] at h
    simp only [and_eq_true, not_eq_true', decide_eq_true_eq] at h
    exact unchanged_of_clear hto64 hfrom (clear_load hB h.1 c) (.inl h.2)

theorem unchanged_cvtl (hfrom : 0 < fromBit) (hlt : fromBit < toBit) (hto : toBit ≤ 64)
    {w : Width} (a : BitVec 64) (h : cvtlRedundant signXtd toBit fromBit w = true) :
    Unchanged signXtd toBit fromBit (fieldValue w.dtyp w.bits a) := by
  unfold cvtlRedundant at h
  by_cases heq : w.dtyp.signed = signXtd
  · rw [if_pos heq] at h
    cases hs : w.dtyp.signed with
    | false =>
      simp only [hs, Bool.not_false, if_true, decide_eq_true_eq] at h
      exact unchanged_of_clear hto hfrom (clear_fieldValue _ hs) (.inr ⟨h, by rw [← heq, hs]⟩)
    | true =>
      simp only [hs, Bool.not_true, Bool.false_eq_true, if_false, Bool.and_eq_true,
        decide_eq_true_eq] at h
      rw [← heq, hs]
      exact unchanged_of_copies hto w.pos (copies_fieldValue hs w.pos w.le) h.1 hlt h.2
  · rw [if_neg heq] at h
    simp only [and_eq_true, not_eq_true', decide_eq_true_eq] at h
    exact unchanged_of_clear hto hfrom (clear_fieldValue _ h.1) (.inl h.2)

/-- A conjunction that passes the test is left as it is by the conversion. -/
theorem unchanged_band (hfrom : 0 < fromBit) (hto : toBit ≤ 64) (t : Rtype)
    (ρ : Env) (h : bandRedundant signXtd fromBit x y = true) :
    Unchanged signXtd toBit fromBit (eval ρ (.bin (.bitwise .band t) x y)) := by
  unfold bandRedundant at h
  cases signXtd with
  | true => simp at h
  | false =>
    rw [if_neg (by simp)] at h
    have hsmall : ∀ c : BitVec 64, c.toNat ≤ 2 ^ fromBit - 1 → Clear fromBit c := by
      intro c hc i hi
      have hpow : 2 ^ fromBit ≤ 2 ^ i := Nat.pow_le_pow_right (by omega) hi
      have hpos : 0 < 2 ^ fromBit := Nat.two_pow_pos _
      exact Nat.testBit_lt_two_pow (by omega)
    have hclear : Clear fromBit (eval ρ x) ∨ Clear fromBit (eval ρ y) := by
      cases hx : x.constVal? with
      | some c =>
        rw [hx] at h
        rw [eval_constVal hx]
        exact .inl (hsmall c (of_decide_eq_true h))
      | none =>
        cases hy : y.constVal? with
        | some c =>
          rw [hx, hy] at h
          rw [eval_constVal hy]
          exact .inr (hsmall c (of_decide_eq_true h))
        | none =>
          rw [hx, hy] at h
          simp at h
    have hvalue : Clear fromBit (eval ρ (.bin (.bitwise .band t) x y)) := by
      intro i hi
      show (low t.size (eval ρ x &&& eval ρ y)).getLsbD i = false
      rw [getLsbD_low, BitVec.getLsbD_and]
      rcases hclear with hc | hc
      · simp [hc i hi]
      · simp [hc i hi]
    exact unchanged_of_clear hto hfrom hvalue (.inr ⟨le_refl _, rfl⟩)

end Cases

/-! ## When the answer is right -/

/-- Bit `i` of the value of `x` is zero in every state. -/
def AlwaysClear (x : Expr) (i : Nat) : Prop := ∀ ρ, (eval ρ x).getLsbD i = false

/-- Bit `i` of the shift right of `x` by `c`, modulo the width. -/
def ashrBit (t : Rtype) (c : BitVec 64) (v : BitVec 64) (i : Nat) : Bool :=
  decide (i < t.size) && v.getLsbD (min (c.toNat % t.size + i) (t.size - 1))

/-- When the answer for an arithmetic shift right by `c` is right; only the machine reduces the
count. -/
def ashrOk (signXtd : Bool) (toBit fromBit : Nat) (t : Rtype) (x : Expr) (c : BitVec 64) : Prop :=
  if c.toNat < t.size then (signXtd = true ∧ toBit ≤ t.size) ∨ AlwaysClear x (t.size - 1)
  else ∀ ρ i, fromBit ≤ i → i < toBit →
    ashrBit t c (eval ρ x) i = (signXtd && ashrBit t c (eval ρ x) (fromBit - 1))

/-- When the answer of `Redundant_cvtl` is right. -/
def RedundantOk (an : Annot) (signXtd : Bool) (toBit fromBit : Nat) : Expr → Prop
  | .defVar v rhs =>
    v.ty.dtyp ≠ .B → v.dedicated = false → v.preg = true → v.ty.dtyp.size ≠ 32 →
      RedundantOk an signXtd toBit fromBit rhs
  | .un (.cvt dtyp dsctyp) x =>
    -- a widening to the other signedness
    dsctyp.size < dtyp.size → dtyp.signed ≠ dsctyp.signed → dtyp.signed = signXtd →
      an.deletes (.un (.cvt dtyp dsctyp) x) dsctyp.bits = false → 32 ≤ fromBit →
      (signXtd = true → fromBit = 32) → AlwaysClear x 31
  | .un (.cvtB dtyp) x =>
    dtyp.signed = true → signXtd = true → fromBit = 1 →
      an.deletes (.un (.cvtB dtyp) x) (bitsInType .B) = false → AlwaysClear x 0
  | .un (.extractBits f) x =>
    -- a signed field of 32 bits extended to 64
    f.dtyp.signed = true → signXtd = true → f.dtyp.size < toBit → f.size ≤ fromBit →
      fromBit ≤ f.dtyp.size → AlwaysClear x (f.ofst + (f.size - 1))
  | .bin (.shift .ashr t) x y =>
    ashrRedundant signXtd fromBit t y = true →
      ∀ c, y.constVal? = some c → ashrOk signXtd toBit fromBit t x c
  | _ => True

section
-- derives the equations
attribute [local simp] RedundantOk
end

section Answer

variable {an : Annot} {signXtd : Bool} {toBit fromBit : Nat}

theorem value_preg {v : Var} (hp : v.preg = true) (hB : v.ty.dtyp ≠ .B)
    (h32 : v.ty.dtyp.size ≠ 32) (a : BitVec 64) : v.ty.value a = a := by
  have h64 : v.ty.dtyp.size = 64 := by
    have hvalid := v.ty.valid
    revert hvalid hB h32
    cases v.ty.dtyp <;> simp [loadValid, Mtype.size]
  have hdsc : v.ty.dsctyp.size = 64 := by rw [v.whole hp, h64]
  apply BitVec.eq_of_getLsbD_eq
  intro i hi
  unfold LoadType.value
  rw [getLsbD_low, getLsbD_extend, h64, hdsc, min_eq_left (by omega)]
  simp [hi]

theorem getLsbD_eval_ashr (hc : y.constVal? = some c) (ρ : Env) (i : Nat) :
    (eval ρ (.bin (.shift .ashr t) x y)).getLsbD i = ashrBit t c (eval ρ x) i := by
  show (low t.size (Shift.eval t.size .ashr (eval ρ x) ((eval ρ y).toNat % t.size))).getLsbD i = _
  unfold ashrBit
  rw [getLsbD_low, eval_constVal hc]
  by_cases hi : i < t.size
  · rw [getLsbD_ashr t.size_pos t.size_le _ _ hi]
  · simp [hi]

section

variable (hfrom : 0 < fromBit) (hlt : fromBit < toBit) (hto : toBit ≤ 64)
include hfrom hlt hto

/-- An arithmetic shift by a constant: when the answer is right. -/
theorem ashr_iff (hc : y.constVal? = some c) (h : ashrRedundant signXtd fromBit t y = true) :
    (∀ ρ, Unchanged signXtd toBit fromBit (eval ρ (.bin (.shift .ashr t) x y))) ↔
      ashrOk signXtd toBit fromBit t x c := by
  simp only [unchanged_iff hfrom hto, getLsbD_eval_ashr hc]
  unfold ashrOk
  by_cases hin : c.toNat < t.size
  · rw [if_pos hin]
    have hle := t.size_le
    have hcInt : c.toInt = c.toNat := by
      rw [BitVec.toInt_eq_toNat_cond, if_pos (by omega)]
    simp only [ashrRedundant, hc, hcInt, and_eq_true, decide_eq_true_eq, beq_iff_eq] at h
    obtain ⟨⟨hcount, hfw⟩, _⟩ := h
    -- all the bits in question are copies of the sign bit
    have htop : ∀ (v : BitVec 64) i, fromBit - 1 ≤ i →
        ashrBit t c v i = (decide (i < t.size) && v.getLsbD (t.size - 1)) := by
      intro v i hi
      unfold ashrBit
      rw [mod_eq_of_lt hin, min_eq_right (by omega)]
    constructor
    · intro hall
      by_cases hgood : signXtd = true ∧ toBit ≤ t.size
      · exact .inl hgood
      · refine .inr (fun ρ => ?_)
        cases hs : signXtd with
        | true =>
          have hbit := hall ρ t.size (by omega) (by rw [hs] at hgood; simp at hgood; exact hgood)
          rw [htop _ _ (by omega), htop _ _ (by omega), hs] at hbit
          simpa [show fromBit - 1 < t.size by omega] using hbit
        | false =>
          have hbit := hall ρ fromBit (le_refl _) hlt
          rw [htop _ _ (by omega), hs] at hbit
          simpa [hfw] using hbit
    · intro hok ρ i hi hi'
      rw [htop _ _ (by omega), htop _ _ (by omega)]
      rcases hok with ⟨hs, hsize⟩ | hclear
      · rw [hs]
        simp [show i < t.size by omega, show fromBit - 1 < t.size by omega]
      · rw [hclear ρ]
        simp
  · rw [if_neg hin]

/-- A conversion: the answer looks at the lengths of the types only, the condition at the bits that
come in. -/
theorem cvt_iff (dtyp dsctyp : Rtype) (x : Expr) :
    (redundantCvtl an signXtd toBit fromBit (.un (.cvt dtyp dsctyp) x) = true →
      ∀ ρ, Unchanged signXtd toBit fromBit (eval ρ (.un (.cvt dtyp dsctyp) x))) ↔
      RedundantOk an signXtd toBit fromBit (.un (.cvt dtyp dsctyp) x) := by
  simp only [redundantCvtl, RedundantOk]
  by_cases hwide : dtyp.size ≤ dsctyp.size
  · rw [if_pos hwide]
    exact ⟨fun _ h => absurd h (by omega), fun _ h => absurd h (by simp)⟩
  rw [if_neg hwide]
  cases hdel : an.deletes (.un (.cvt dtyp dsctyp) x) dsctyp.bits with
  | true => exact ⟨fun _ _ _ _ h => absurd h (by simp), fun _ h => absurd h (by simp)⟩
  | false =>
    rw [if_neg (by simp)]
    have hd : dtyp.size = 64 := by
      have := dtyp.size_eq
      have := dsctyp.size_eq
      omega
    have hs : dsctyp.size = 32 := by
      have := dtyp.size_eq
      have := dsctyp.size_eq
      omega
    have hbit : ∀ ρ i, i < 64 → (eval ρ (.un (.cvt dtyp dsctyp) x)).getLsbD i =
        if dsctyp.signed then (eval ρ x).getLsbD (min i 31)
        else decide (i < 32) && (eval ρ x).getLsbD i := by
      intro ρ i hi
      show (low dtyp.size (extend dsctyp.mtype (eval ρ x))).getLsbD i = _
      rw [getLsbD_low, getLsbD_extend, hd, show dsctyp.mtype.size = 32 from hs,
        decide_eq_true hi, Bool.true_and, Bool.true_and]
      rfl
    simp only [unchanged_iff hfrom hto, and_eq_true, beq_iff_eq, decide_eq_true_eq, hs]
    constructor
    · intro hall _ hmixed hsign _ h32 hexact ρ
      cases hx : signXtd with
      | true =>
        -- zero-extended, then sign-extended from bit 31
        have hus : dsctyp.signed = false := by
          rw [hsign, hx] at hmixed
          simpa using hmixed
        have h := hall ⟨hsign, h32⟩ ρ 32 (by have := hexact hx; omega) (by omega)
        rw [hbit ρ 32 (by decide), hbit ρ (fromBit - 1) (by omega), hexact hx, hx, hus] at h
        simpa using h
      | false =>
        have hus : dsctyp.signed = true := by
          rw [hsign, hx] at hmixed
          simpa using hmixed
        have h := hall ⟨hsign, h32⟩ ρ fromBit (le_refl _) hlt
        rw [hbit ρ fromBit (by omega), hx, hus, if_pos rfl, min_eq_right (by omega)] at h
        simpa using h
    · intro hok hred ρ i hi hi'
      obtain ⟨hsign, h32⟩ := hred
      rw [hbit ρ i (by omega), hbit ρ (fromBit - 1) (by omega)]
      cases hus : dsctyp.signed with
      | true =>
        rw [if_pos rfl, if_pos rfl, min_eq_right (by omega), min_eq_right (by omega)]
        cases hx : signXtd with
        | true => simp
        | false =>
          rw [hok (by omega) (by rw [hsign, hx, hus]; decide) hsign trivial h32 (by simp [hx]) ρ]
          simp
      | false =>
        rw [if_neg (by simp), if_neg (by simp)]
        cases hx : signXtd with
        | false => simp [show ¬ i < 32 by omega]
        | true =>
          by_cases hexact : fromBit = 32
          · have hclear := hok (by omega) (by rw [hsign, hx, hus]; decide) hsign trivial
              h32 (fun _ => hexact) ρ
            rw [show fromBit - 1 = 31 by omega, hclear]
            simp [show ¬ i < 32 by omega]
          · simp [show ¬ i < 32 by omega, show ¬ fromBit - 1 < 32 by omega]

theorem cvtB_iff (dtyp : Rtype) (x : Expr) :
    (redundantCvtl an signXtd toBit fromBit (.un (.cvtB dtyp) x) = true →
      ∀ ρ, Unchanged signXtd toBit fromBit (eval ρ (.un (.cvtB dtyp) x))) ↔
      RedundantOk an signXtd toBit fromBit (.un (.cvtB dtyp) x) := by
  simp only [redundantCvtl, RedundantOk]
  have hle := dtyp.size_eq
  have hbit : ∀ ρ i, (eval ρ (.un (.cvtB dtyp) x)).getLsbD i =
      (decide (i < 1) && (eval ρ x).getLsbD i) := by
    intro ρ i
    show (low dtyp.size (low 1 (eval ρ x))).getLsbD i = _
    rw [getLsbD_low, getLsbD_low]
    by_cases hi : i < 1
    · simp [hi, show i < dtyp.size by omega]
    · simp [hi]
  cases hdel : an.deletes (.un (.cvtB dtyp) x) (bitsInType .B) with
  | true => exact ⟨fun _ _ _ _ h => absurd h (by simp), fun _ h => absurd h (by simp)⟩
  | false =>
    rw [if_neg (by simp)]
    simp only [unchanged_iff hfrom hto, and_eq_true, beq_iff_eq, decide_eq_true_eq, hbit]
    constructor
    · intro hall hs hx hone _ ρ
      have h := hall ⟨by rw [hs, hx], by simp [Mtype.size]; omega⟩ ρ 1 (by omega) (by omega)
      simpa [hone, hx] using h
    · intro hok hred ρ i hi _
      cases hx : signXtd with
      | false => simp [show ¬ i < 1 by omega]
      | true =>
        by_cases hone : fromBit = 1
        · have hclear := hok (by rw [hred.1, hx]) hx hone trivial ρ
          rw [show fromBit - 1 = 0 by omega, hclear]
          simp [show ¬ i < 1 by omega]
        · simp [show ¬ i < 1 by omega, show ¬ fromBit - 1 < 1 by omega]

/-- A field extraction: when the answer is right. -/
theorem extract_iff (f : BitField) (x : Expr) :
    (redundantCvtl an signXtd toBit fromBit (.un (.extractBits f) x) = true →
      ∀ ρ, Unchanged signXtd toBit fromBit (eval ρ (.un (.extractBits f) x))) ↔
      RedundantOk an signXtd toBit fromBit (.un (.extractBits f) x) := by
  simp only [redundantCvtl, RedundantOk, extractRedundant]
  have hle := f.le
  have hpos := f.pos
  by_cases hsize : f.size ≤ fromBit
  · rw [if_pos hsize]
    cases hs : f.dtyp.signed with
    | false =>
      -- an unsigned field is clear above its bits
      refine ⟨fun _ h => absurd h (by simp), fun _ hred ρ => ?_⟩
      apply unchanged_of_clear hto hfrom (n := f.size) (clear_fieldValue _ hs)
      cases hx : signXtd with
      | false => exact .inr ⟨hsize, rfl⟩
      | true =>
        rw [hx, if_neg (by simp)] at hred
        by_cases hlt' : f.size < fromBit
        · exact .inl hlt'
        · rw [if_neg hlt'] at hred
          exact absurd hred (by simp)
    | true =>
      cases hx : signXtd with
      | false =>
        refine ⟨fun _ _ h => absurd h (by simp), fun _ hred => ?_⟩
        by_cases hlt' : f.size < fromBit
        · simp [hlt'] at hred
        · simp [hlt'] at hred
      | true =>
        have hbit : ∀ ρ i, i < f.dtyp.size → (eval ρ (.un (.extractBits f) x)).getLsbD i =
            (eval ρ x).getLsbD (f.ofst + min i (f.size - 1)) := by
          intro ρ i hi
          show (fieldValue f.dtyp f.size (eval ρ x >>> f.ofst)).getLsbD i = _
          rw [getLsbD_fieldValue hs f.pos hi, BitVec.getLsbD_ushiftRight]
        have hclear : ∀ ρ, Clear f.dtyp.size (eval ρ (.un (.extractBits f) x)) := fun ρ =>
          clear_unOp (.extractBits f) (eval ρ x)
        rw [if_pos rfl]
        constructor
        · intro hall _ _ hto' _ hfrom' ρ
          have h := hall rfl ρ
          rw [unchanged_iff hfrom hto] at h
          have htop := h f.dtyp.size (by omega) hto'
          rw [hclear ρ _ (le_refl _), hbit ρ _ (by omega), min_eq_right (by omega)] at htop
          simpa using htop.symm
        · intro hok _ ρ
          by_cases hin : toBit ≤ f.dtyp.size
          · exact unchanged_of_copies hto f.pos (copies_fieldValue hs f.pos (by omega)) hsize hlt hin
          · by_cases hfd : fromBit ≤ f.dtyp.size
            · have hzero := hok rfl rfl (by omega) hsize hfd ρ
              rw [unchanged_iff hfrom hto]
              intro i hi _
              rw [hbit ρ (fromBit - 1) (by omega), min_eq_right (by omega), hzero]
              by_cases hid : i < f.dtyp.size
              · rw [hbit ρ i hid, min_eq_right (by omega), hzero]
                simp
              · rw [hclear ρ i (by omega)]
                simp
            · exact unchanged_of_clear hto hfrom (hclear ρ) (.inl (by omega))
  · rw [if_neg hsize]
    exact ⟨fun _ _ _ _ h => absurd h hsize, fun _ h => absurd h (by simp)⟩

end

theorem clear_one_load (h : ty.dtyp = .B) (c : BitVec 64) : Clear 1 (ty.value c) := by
  have hclear := clear_low ty.dtyp.size (extend ty.dsctyp c)
  rw [h] at hclear
  unfold LoadType.value
  rw [h]
  exact hclear

/-- By the recursion of `Redundant_cvtl` over the tree; each operator has its own equivalence
above. -/
theorem redundantCvtl_right_iff (hto : toBit = 32 ∨ toBit = 64) (hfrom : 0 < fromBit)
    (hlt : fromBit < toBit) (e : Expr) : (redundantCvtl an signXtd toBit fromBit e = true →
      ∀ ρ, Unchanged signXtd toBit fromBit (eval ρ e)) ↔ RedundantOk an signXtd toBit fromBit e:= by
  have hto64 : toBit ≤ 64 := by omega
  -- where the answer is always FALSE nothing is to be shown; those cases close at once
  induction e with
  | const c =>
    refine ⟨fun _ => trivial, fun _ h ρ => ?_⟩
    simp only [redundantCvtl] at h
    by_cases hB : c.dtyp = .B
    · rw [if_pos hB] at h
      apply unchanged_bool hto64 hfrom _ h
      show Clear 1 c.val
      rcases c.bool hB with hv | hv
      · rw [hv]
        exact clear_boolVal false
      · rw [hv]
        exact clear_boolVal true
    · rw [if_neg hB] at h
      by_cases hsplit : (an.split64 && decide (c.dtyp.size ≤ 32) && decide (32 < toBit)) = true
      · rw [if_pos hsplit] at h
        exact absurd h (by simp)
      · rw [if_neg hsplit] at h
        exact unchanged_of_shifts hfrom hlt hto h
  | lda t id => exact ⟨fun _ => trivial, fun _ h => absurd h (by simp [redundantCvtl])⟩
  | var v =>
    refine ⟨fun _ => trivial, fun _ h ρ => ?_⟩
    simp only [redundantCvtl] at h
    by_cases hB : v.ty.dtyp = .B
    · rw [if_pos hB] at h
      exact unchanged_bool hto64 hfrom (clear_one_load hB _) h
    · rw [if_neg hB] at h
      by_cases hreg : (v.dedicated || v.preg) = true
      · rw [if_pos hreg] at h
        exact absurd h (by simp)
      · rw [if_neg hreg] at h
        exact unchanged_load hfrom hlt hto hB _ h
  | defVar v rhs ih =>
    simp only [redundantCvtl, RedundantOk]
    by_cases hB : v.ty.dtyp = .B
    · rw [if_pos hB]
      exact ⟨fun _ h => absurd hB h,
        fun _ h ρ => unchanged_bool hto64 hfrom (clear_one_load hB _) h⟩
    rw [if_neg hB]
    cases hded : v.dedicated with
    | true => exact ⟨fun _ _ h => absurd h (by simp), fun _ h => absurd h (by simp)⟩
    | false =>
      rw [if_neg (by simp)]
      cases hp : v.preg with
      | false =>
        rw [if_neg (by simp)]
        exact ⟨fun _ _ _ h => absurd h (by simp), fun _ h ρ => unchanged_load hfrom hlt hto hB _ h⟩
      | true =>
        rw [if_pos rfl]
        by_cases h32 : v.ty.dtyp.size = 32
        · rw [if_pos h32]
          exact ⟨fun _ _ _ _ h => absurd h32 h, fun _ h => absurd h (by simp)⟩
        · -- the value of the preg is the one of its definition
          rw [if_neg h32]
          simp only [eval, value_preg hp hB h32]
          exact ⟨fun h _ _ _ _ => ih.mp h, fun h => ih.mpr (h hB trivial trivial h32)⟩
  | iload ty pointer mem base =>
    refine ⟨fun _ => trivial, fun _ h ρ => ?_⟩
    simp only [redundantCvtl] at h
    by_cases hB : ty.dtyp = .B
    · rw [if_pos hB] at h
      exact unchanged_bool hto64 hfrom (clear_one_load hB _) h
    · rw [if_neg hB] at h
      exact unchanged_load hfrom hlt hto hB _ h
  | un op x =>
    cases op with
    | cvtl w =>
      refine ⟨fun _ => trivial, fun _ h ρ => ?_⟩
      simp only [redundantCvtl] at h
      cases hdel : an.deletes (.un (.cvtl w) x) (bitmaskOfSize w.bits) with
      | true =>
        rw [hdel, if_pos rfl] at h
        exact absurd h (by simp)
      | false =>
        rw [hdel, if_neg (by simp)] at h
        exact unchanged_cvtl hfrom hlt hto64 _ h
    | cvt dtyp dsctyp => exact cvt_iff hfrom hlt hto64 dtyp dsctyp x
    | cvtB dtyp => exact cvtB_iff hfrom hlt hto64 dtyp x
    | extractBits f => exact extract_iff hfrom hlt hto64 f x
    | lnot dtyp dsctyp =>
      exact ⟨fun _ => trivial, fun _ h ρ => unchanged_bool hto64 hfrom (clear_boolVal _) h⟩
    | neg t => exact ⟨fun _ => trivial, fun _ h => absurd h (by simp [redundantCvtl])⟩
    | paren t => exact ⟨fun _ => trivial, fun _ h => absurd h (by simp [redundantCvtl])⟩
    | bnot t => exact ⟨fun _ => trivial, fun _ h => absurd h (by simp [redundantCvtl])⟩
    | abs t => exact ⟨fun _ => trivial, fun _ h => absurd h (by simp [redundantCvtl])⟩
  | bin op x y =>
    cases op with
    | relation k dtyp dsctyp =>
      exact ⟨fun _ => trivial, fun _ h ρ => unchanged_bool hto64 hfrom (clear_boolVal _) h⟩
    | logical k t =>
      exact ⟨fun _ => trivial, fun _ h ρ => unchanged_bool hto64 hfrom (clear_boolVal _) h⟩
    | bitwise k t =>
      cases k with
      | band =>
        exact ⟨fun _ => trivial, fun _ h ρ => unchanged_band hfrom hto64 t ρ h⟩
      | _ => exact ⟨fun _ => trivial, fun _ h => absurd h (by simp [redundantCvtl])⟩
    | shift k t =>
      cases k with
      | ashr =>
        simp only [redundantCvtl, RedundantOk]
        constructor
        · intro h hred c hc
          exact (ashr_iff hfrom hlt hto64 hc hred).mp (h hred)
        · intro h hred
          cases hc : y.constVal? with
          | none => simp [ashrRedundant, hc] at hred
          | some c => exact (ashr_iff hfrom hlt hto64 hc hred).mpr (h hred c hc)
      | _ => exact ⟨fun _ => trivial, fun _ h => absurd h (by simp [redundantCvtl])⟩
    | rrotate u =>
      refine ⟨fun _ => trivial, fun _ h ρ => ?_⟩
      simp only [redundantCvtl] at h
      cases signXtd with
      | true => simp at h
      | false =>
        rw [if_neg (by simp)] at h
        by_cases hsize : u.dsctyp.size ≤ fromBit
        · exact unchanged_of_clear hto64 hfrom (clear_low _ _) (.inr ⟨hsize, rfl⟩)
        · rw [if_neg hsize] at h
          exact absurd h (by simp)
    | _ => exact ⟨fun _ => trivial, fun _ h => absurd h (by simp [redundantCvtl])⟩
  | select dtyp descB c x y =>
    exact ⟨fun _ => trivial, fun _ h => absurd h (by simp [redundantCvtl])⟩

/-- The answer of `Redundant_cvtl` is right in every state of the leaves exactly where `RedundantOk`
says so. -/
theorem redundantCvtl_sound_iff (an : Annot) (signXtd : Bool) (toBit fromBit : Nat)
    (hto : toBit = 32 ∨ toBit = 64) (hfrom : 0 < fromBit) (hlt : fromBit < toBit) (e : Expr) :
    (∀ ρ, redundantCvtl an signXtd toBit fromBit e = true →
      Unchanged signXtd toBit fromBit (eval ρ e)) ↔ RedundantOk an signXtd toBit fromBit e:= by
  rw [← redundantCvtl_right_iff hto hfrom hlt]
  exact ⟨fun h hred ρ => h ρ hred, fun h ρ hred => h hred ρ⟩

/-- A `U4` variable of four bytes. -/
def u4Var (id : Nat) : Var :=
  { id := id, ty := { dtyp := .U4, dsctyp := .U4, valid := rfl }, dedicated := false, real := true,
    preg := false, byteSize := 4, whole := by simp, fits := by simp [Mtype.size] }

/-- An annotation of a tree that is all live. -/
def liveAnnot : Annot :=
  { split64 := false, livebits := fun _ => BitVec.allOnes 64, usecnt := fun _ => 1 }

/-- `I4CVTL 8` of a variable. -/
def charTree : Expr :=
  .un (.cvtl Width.char) (.var (u4Var 0))

theorem redundantCvtl_sound_iff_charTree : redundantCvtl liveAnnot true 32 16 charTree = true ∧
      ∀ ρ, Unchanged true 32 16 (eval ρ charTree) := by
  have hred : redundantCvtl liveAnnot true 32 16 charTree = true := by decide
  exact ⟨hred, fun ρ => (redundantCvtl_sound_iff liveAnnot true 32 16 (.inl rfl) (by decide)
    (by decide) charTree).mpr trivial ρ hred⟩

/-- `I8U4CVT` of a variable. -/
def widenTree : Expr := .un (.cvt .I8 .U4) (.var (u4Var 0))

/-- The conversion of `0x80000000` from `U4` to `I8` is taken for a sign extension, which would give
a negative number. -/
theorem redundantCvtl_trusts_widenTree :
    ¬ ∀ (an : Annot) (signXtd : Bool) (toBit fromBit : Nat) (e : Expr) (ρ : Env),
      toBit = 32 ∨ toBit = 64 → 0 < fromBit → fromBit < toBit →
      redundantCvtl an signXtd toBit fromBit e = true →
        Unchanged signXtd toBit fromBit (eval ρ e) := by
  intro h
  have hun := h liveAnnot true 64 32 widenTree
    { var := fun _ => 0x80000000#64, lda := fun _ => 0, mem := fun _ _ => 0 } (.inr rfl)
    (by decide) (by decide) (by decide)
  revert hun
  unfold Unchanged
  decide

end Answer

end Bdce
