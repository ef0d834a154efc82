import Path64.Simp.Shift

/-! # Conversions

`simp_cvt`: an integer conversion of a load, a mask, a shift or another
conversion. Two conversions are merged if the type between them holds
every value of the operand; it is not asked whether the inner conversion
reads the operand at a type of the other sign. -/

namespace Simp.Whirl

/-! ## The rules -/

/-- The types that a type is converted to without loss. -/
def Mtype.precise : Mtype → List Mtype
  | I1 => [I1, I2, I4, I8]
  | I2 => [I2, I4, I8]
  | I4 => [I4, I8]
  | I8 => [I8]
  | U1 => [U1, U2, U4, U8]
  | U2 => [U2, U4, U8]
  | U4 => [I8]
  | U8 => []

def convertPrecise (t1 t2 : Mtype) : Bool := t1.precise.contains t2

/-- The load that converts what it loads; pseudo registers are not loaded at another type. -/
def cvtLoad (isVolatile : Nat → Bool) (ty desc : Mtype) : Expr → Option Expr
  | .leaf kind t src id =>
    if (kind = .ldid false ∨ kind = .iload) ∧ isVolatile id = false ∧ t = desc ∧
        (src.bits ≤ t.bits ↔ t.bits ≤ ty.bits) ∧ src.isUnsigned = ty.isUnsigned then
      some (.leaf kind ty src id)
    else none
  | _ => none

/-- The masks and the shifts by a constant that a conversion to four bytes is dropped over. -/
def upperClear (ty : Mtype) : Expr → Bool
  | .binary op _ _ (.intconst _ v) =>
    op == .band && decide (v.toNat ≤ 0x7fffffff) || op == .lshr && decide (33 ≤ v.toInt) ||
      ty == .I4 && op == .ashr && decide (32 ≤ v.toInt)
  | _ => false

/-- A conversion of a conversion. There is no conversion of a type to itself. -/
def mergeCvt (create : Expr → Expr) (ty : Mtype) : Expr → Option Expr
  | .cvt inter src k =>
    if convertPrecise (valueType k) inter then
      if ty ≠ src then some (create (.cvt ty src k)) else some k
    else none
  | _ => none

/-- `simp_cvt` on the integers of WHIRL; `keepCvt` is `WHIRL_Keep_Cvt_On`. -/
def simpCvt (keepCvt : Bool) (isVolatile : Nat → Bool) (create : Expr → Expr) (ty desc : Mtype)
    (k0 : Expr) : Option Expr :=
  if keepCvt = false ∧ desc = .I4 ∧ (ty = .I8 ∨ ty = .U8) then some k0
  else
    match cvtLoad isVolatile ty desc k0 with
    | some r => some r
    | none =>
      if ty.bits = 32 ∧ desc.bits = 64 ∧ upperClear ty k0 = true then some k0
      else mergeCvt create ty k0

/-! ## Numbers in two types -/

section numbers
variable {a b ty m : Mtype} {x : Int}

theorem Mtype.wrap_wrap_of_le (h : a.bits ≤ b.bits) (x : Int) : a.wrap (b.wrap x) = a.wrap x := by
  have hdvd : (2 : Int) ^ a.bits ∣ 2 ^ b.bits := pow_dvd_pow 2 h
  rw [wrap_eq_iff]
  calc b.wrap x % 2 ^ a.bits = b.wrap x % 2 ^ b.bits % 2 ^ a.bits :=
        (Int.emod_emod_of_dvd _ hdvd).symm
    _ = x % 2 ^ b.bits % 2 ^ a.bits := by rw [b.wrap_emod]
    _ = x % 2 ^ a.bits := Int.emod_emod_of_dvd _ hdvd

theorem Mtype.IsRegister.bits_cases (h : ty.IsRegister) : ty.bits = 32 ∨ ty.bits = 64 := by
  revert h
  cases ty <;> decide

theorem Mtype.holds_I8 (hm : m.bits = 32) (h : m.Holds x) : I8.Holds x := by
  have hnum : ∀ t : Mtype, t.Holds x ↔ if t.isUnsigned then 0 ≤ x ∧ x < 2 ^ t.bits
      else -2 ^ (t.bits - 1) ≤ x ∧ x < 2 ^ (t.bits - 1) := fun _ => Iff.rfl
  rw [hnum, hm] at h
  rw [hnum, if_neg nofun, show I8.bits = 64 from rfl]
  split at h <;> omega

theorem Mtype.wrap_widened_iff (hty : ty.bits = 64) (hm : m.bits = 32) (x : Int) :
    ty.wrap (m.wrap x) = ty.wrap x ↔ m.Holds (I8.wrap x) := by
  have hI8 : ty.wrap (m.wrap x) = ty.wrap x ↔ I8.wrap (m.wrap x) = I8.wrap x := by
    rw [wrap_eq_iff, wrap_eq_iff, hty]
    rfl
  rw [hI8, wrap_of_holds (holds_I8 hm (m.holds_wrap x))]
  constructor
  · intro h
    rw [← h]
    exact m.holds_wrap x
  · intro h
    have hle : m.bits ≤ I8.bits := by
      rw [hm]
      decide
    rw [← wrap_wrap_of_le hle x, wrap_of_holds h]

theorem Mtype.holds_of_le (hsign : a.isUnsigned = b.isUnsigned) (hle : a.bits ≤ b.bits)
    (h : a.Holds x) : b.Holds x := by
  have hpow : (2 : Int) ^ a.bits ≤ 2 ^ b.bits := pow_le_pow_right₀ (by decide) hle
  have ha := a.two_pow_half
  have hb := b.two_pow_half
  unfold Holds at h ⊢
  rw [hsign] at h
  split at h <;> rename_i hu <;> simp only [hu, if_true, if_false, Bool.false_eq_true] <;> omega

end numbers

/-! ## The values -/

/-- What `simp_cvt` returns, at its type, is the value of the conversion. -/
def SameCvt (ρ : Env) (ty desc : Mtype) (k0 r : Expr) : Prop :=
  ty.wrap (eval ρ r) = eval ρ (.cvt ty desc k0)

/-- Whatever `simp_cvt` returns has the value of the conversion. -/
def CvtRight (keepCvt : Bool) (isVolatile : Nat → Bool) (ρ : Env) (create : Expr → Expr)
    (ty desc : Mtype) (k0 : Expr) : Prop :=
  ∀ r, simpCvt keepCvt isVolatile create ty desc k0 = some r → SameCvt ρ ty desc k0 r

/-- Two conversions to eight bytes pass through four bytes only where these hold the number. -/
def MergeSound (ρ : Env) (ty desc : Mtype) : Expr → Prop
  | .cvt inter src k =>
    convertPrecise (valueType k) inter = true → ty.bits = 64 →
      (desc.bits = 32 → desc.Holds (Mtype.I8.wrap (src.wrap (eval ρ k)))) ∧
      (desc.bits = 64 → inter.bits = 32 → inter.Holds (Mtype.I8.wrap (src.wrap (eval ρ k))))
  | _ => True

/-- A conversion from `I4` to eight bytes is removed only where the operand is a number of `I4`. -/
def CvtSound (keepCvt : Bool) (ρ : Env) (ty desc : Mtype) (k0 : Expr) : Prop :=
  if keepCvt = false ∧ desc = .I4 ∧ (ty = .I8 ∨ ty = .U8) then
    Mtype.I4.Holds (Mtype.I8.wrap (eval ρ k0))
  else MergeSound ρ ty desc k0

section rules
variable {ρ : Env} {create : Expr → Expr} {isVolatile : Nat → Bool} {ty desc : Mtype} {k0 r : Expr}

theorem eval_cvt (ρ : Env) (ty desc : Mtype) (k : Expr) :
    eval ρ (.cvt ty desc k) = ty.wrap (desc.wrap (eval ρ k)) := by
  rw [eval]

theorem cvtLoad_same (hty : ty.IsRegister) (ht : Typed k0)
    (h : cvtLoad isVolatile ty desc k0 = some r) : SameCvt ρ ty desc k0 r := by
  unfold SameCvt
  cases k0 with
  | leaf kind t src id =>
    rw [cvtLoad] at h
    split at h
    · rename_i hcond
      obtain ⟨hkind, -, rfl, hsize, hsign⟩ := hcond
      obtain rfl := Option.some.inj h
      have hload : t.IsRegister ∧ src.isUnsigned = t.isUnsigned ∧
          (∀ u, eval ρ (.leaf kind u src id) = u.wrap (src.wrap (ρ.leaf id))) := by
        rcases hkind with rfl | rfl
        · exact ⟨ht.1, ht.2, fun _ => by simp only [eval]⟩
        · exact ⟨ht.1, ht.2, fun _ => by simp only [eval]⟩
      obtain ⟨ht4, hst, hval⟩ := hload
      -- the sizes are in order, or the load would be wider than a register
      have hle : src.bits ≤ t.bits := by
        rcases ht4.bits_cases with h32 | h64
        · exact hsize.mpr (by rw [h32]; exact hty)
        · rw [h64]
          exact src.bits_le
      have hin : t.Holds (src.wrap (ρ.leaf id)) :=
        Mtype.holds_of_le hst hle (src.holds_wrap _)
      rw [eval_cvt, hval, hval, Mtype.wrap_wrap, Mtype.wrap_wrap, Mtype.wrap_of_holds hin]
    · exact absurd h (Option.some_ne_none r).symm
  | intconst | unary | cvt | cvtl | binary | compare | select | extract | compose =>
    exact absurd h (Option.some_ne_none r).symm

theorem mergeCvt_right_iff (hc : Keeps ρ create) (hty : ty.IsRegister) (hdesc : desc.IsRegister)
    (ht : Typed k0) :
    (∀ r, mergeCvt create ty k0 = some r → SameCvt ρ ty desc k0 r) ↔ MergeSound ρ ty desc k0 := by
  cases k0 with
  | cvt inter src k =>
    obtain ⟨hinter, -, -⟩ := ht
    rw [mergeCvt, MergeSound]
    cases hprec : convertPrecise (valueType k) inter with
    | false => exact iff_of_true (fun r hr => absurd hr nofun) nofun
    | true =>
      generalize hz : src.wrap (eval ρ k) = z
      have hsame : (∀ r, (if true = true then
            if ty ≠ src then some (create (.cvt ty src k)) else some k else none) = some r →
            SameCvt ρ ty desc (.cvt inter src k) r) ↔
          ty.wrap z = ty.wrap (desc.wrap (inter.wrap z)) := by
        have hnode : eval ρ (.cvt ty desc (.cvt inter src k)) =
            ty.wrap (desc.wrap (inter.wrap z)) := by rw [eval_cvt, eval_cvt, hz]
        unfold SameCvt
        rw [hnode, if_pos rfl]
        split
        · rw [show (∀ r, some (create (.cvt ty src k)) = some r →
              ty.wrap (eval ρ r) = ty.wrap (desc.wrap (inter.wrap z))) ↔ _ from
              ⟨fun h => h _ rfl, fun h r hr => Option.some.inj hr ▸ h⟩,
            hc, eval_cvt, Mtype.wrap_wrap, hz]
        · rename_i heq
          obtain rfl := not_not.mp heq
          rw [show (∀ r, some k = some r →
              ty.wrap (eval ρ r) = ty.wrap (desc.wrap (inter.wrap z))) ↔ _ from
              ⟨fun h => h _ rfl, fun h r hr => Option.some.inj hr ▸ h⟩,
            ← hz, Mtype.wrap_wrap]
      rw [hsame]
      have hdi : desc.bits ≤ inter.bits → desc.wrap (inter.wrap z) = desc.wrap z :=
        fun h => Mtype.wrap_wrap_of_le h z
      rcases hty.bits_cases with h32 | h64
      · -- four bytes are left alone by wider types
        have hd : ty.bits ≤ desc.bits := by rw [h32]; exact hdesc
        have hi : ty.bits ≤ inter.bits := by rw [h32]; exact hinter
        rw [Mtype.wrap_wrap_of_le hd, Mtype.wrap_wrap_of_le hi]
        exact iff_of_true rfl fun _ h => absurd (h32.symm.trans h) (by decide)
      · rcases hdesc.bits_cases with hd32 | hd64
        · rw [hdi (by rw [hd32]; exact hinter), eq_comm, Mtype.wrap_widened_iff h64 hd32]
          exact ⟨fun h _ _ => ⟨fun _ => h, fun hd => absurd (hd32.symm.trans hd) (by decide)⟩,
            fun h => (h rfl h64).1 hd32⟩
        · rw [Mtype.wrap_wrap_of_le (by rw [h64, hd64])]
          rcases hinter.bits_cases with hi32 | hi64
          · rw [eq_comm, Mtype.wrap_widened_iff h64 hi32]
            exact ⟨fun h _ _ => ⟨fun hd => absurd (hd64.symm.trans hd) (by decide), fun _ _ => h⟩,
              fun h => (h rfl h64).2 hd64 hi32⟩
          · rw [Mtype.wrap_wrap_of_le (by rw [h64, hi64])]
            exact iff_of_true rfl fun _ _ =>
              ⟨fun hd => absurd (hd64.symm.trans hd) (by decide),
                fun _ hi => absurd (hi64.symm.trans hi) (by decide)⟩
  | intconst | leaf | unary | cvtl | binary | compare | select | extract | compose =>
    exact iff_of_true (fun r hr => absurd hr nofun) trivial

end rules

/-- Simplifying a conversion keeps its value, unless a number that does not fit is taken for one of
`I4`, or passes through four bytes. -/
theorem simpCvt_right_iff (keepCvt : Bool) (isVolatile : Nat → Bool) (ρ : Env)
    (create : Expr → Expr) (hc : Keeps ρ create) (ty desc : Mtype) (hty : ty.IsRegister)
    (hdesc : desc.IsRegister) (k0 : Expr) (ht : Typed k0) :
    CvtRight keepCvt isVolatile ρ create ty desc k0 ↔ CvtSound keepCvt ρ ty desc k0 := by
  unfold CvtRight CvtSound simpCvt
  split
  · rename_i hcond
    obtain ⟨-, rfl, hwide⟩ := hcond
    have h64 : ty.bits = 64 := by rcases hwide with rfl | rfl <;> rfl
    rw [← Mtype.wrap_widened_iff h64 rfl, ← eval_cvt, eq_comm]
    exact ⟨fun h => h k0 rfl, fun h r hr => Option.some.inj hr ▸ h⟩
  · cases hload : cvtLoad isVolatile ty desc k0 with
    | some l =>
      apply iff_of_true
      · intro r hr
        obtain rfl := Option.some.inj hr
        exact cvtLoad_same hty ht hload
      · cases k0 with
        | leaf => trivial
        | intconst | unary | cvt | cvtl | binary | compare | select | extract | compose =>
          exact absurd hload nofun
    | none =>
      dsimp only
      split
      · rename_i hmask
        apply iff_of_true
        · intro r hr
          obtain rfl := Option.some.inj hr
          show ty.wrap (eval ρ k0) = _
          rw [eval_cvt, Mtype.wrap_wrap_of_le (by rw [hmask.1, hmask.2.1]; decide)]
        · cases k0 with
          | binary => trivial
          | intconst | leaf | unary | cvt | cvtl | compare | select | extract | compose =>
            exact absurd hmask.2.2 nofun
      · exact mergeCvt_right_iff hc hty hdesc ht

theorem simpCvt_right_byte : ∃ r,
    simpCvt true (fun _ => false) id .I8 .I4 (.cvt .I4 .I8 (.leaf .iload .I8 .I1 0)) = some r ∧
      SameCvt ⟨fun _ => -1, true⟩ .I8 .I4 (.cvt .I4 .I8 (.leaf .iload .I8 .I1 0)) r := by
  have hfits : CvtSound true ⟨fun _ => -1, true⟩ .I8 .I4
      (.cvt .I4 .I8 (.leaf .iload .I8 .I1 0)) := by
    intro _ _
    exact ⟨fun _ => by decide, fun h => absurd h (by decide)⟩
  exact ⟨_, rfl, (simpCvt_right_iff true (fun _ => false) ⟨fun _ => -1, true⟩ id (keeps_id _) .I8
    .I4 (by decide) (by decide) (.cvt .I4 .I8 (.leaf .iload .I8 .I1 0))
    ⟨by decide, by decide, by decide, rfl⟩).mpr hfits _ rfl⟩

/-- The zero extension of a negative `I4` is lost where its conversion to `I4` is. -/
theorem simpCvt_not_right :
    ¬ ∀ (keepCvt : Bool) (isVolatile : Nat → Bool) (ρ : Env) (create : Expr → Expr)
      (_ : Keeps ρ create) (ty desc : Mtype) (_ : ty.IsRegister) (_ : desc.IsRegister) (k0 : Expr)
      (_ : Typed k0), CvtRight keepCvt isVolatile ρ create ty desc k0 := by
  intro hall
  have h := hall true (fun _ => false) ⟨fun _ => -1, true⟩ id (keeps_id _) .I8 .I4 (by decide)
    (by decide) (.cvt .I4 .U4 (.leaf .iload .I4 .I4 0)) ⟨by decide, by decide, by decide, rfl⟩ _ rfl
  exact absurd h (by unfold SameCvt; decide)

end Simp.Whirl
