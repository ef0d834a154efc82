import Path64.Bdce.Expr

/-! # How live bits pass from a node to its operands

`Mark_tree_bits_live` computes, for each operator, which bits of the
operands it makes live from the live bits of the result. Here are these
masks, and for each operator that equal live bits of the operands give
equal live bits of the result. Three masks miss bits; `BinOp.Safe` says
when that does not matter. -/

namespace Bdce

open Nat BitVec BitMask

/-! ## Masks -/

def bitsInType (t : Mtype) : BitVec 64 := bitmaskOfSize t.size

def Rtype.bits (t : Rtype) : BitVec 64 := bitsInType t.mtype

def fillLowerBits (bitmask : BitVec 64) : BitVec 64 :=
  let b := bitmask ||| bitmask >>> 32
  let b := b ||| b >>> 16
  let b := b ||| b >>> 8
  let b := b ||| b >>> 4
  let b := b ||| b >>> 2
  b ||| b >>> 1

/-- `Bits_in_coderep_result`. -/
def bitsInResult : Expr → BitVec 64
  | .un (.cvt dtyp dsctyp) _ => bitmaskOfSize (max dtyp.size dsctyp.size)
  | .un (.cvtB dtyp) _ => bitmaskOfSize (max dtyp.size Mtype.B.size)
  | e => bitsInType e.dtyp

/-- `Bits_in_var`. -/
def Var.bits (v : Var) : BitVec 64 :=
  if v.dedicated || !v.real then BitVec.allOnes 64
  else if v.preg then bitsInType .I8
  else if v.byteSize ≠ 0 then bitmaskOfSize (8 * v.byteSize)
  else bitsInType v.ty.dsctyp

/-- `1 << (n - 1)` of type `int`, widened: at 32 bits it is negative. -/
def intBit (n : Nat) : BitVec 64 :=
  if n = 32 then 0xFFFFFFFF80000000#64 else 1#64 <<< (n - 1)

/-- The mask `bit` when `live` has a bit from `n` on. -/
def ifAbove (live : BitVec 64) (n : Nat) (bit : BitVec 64) : BitVec 64 :=
  if live >>> n ≠ 0 then bit else 0

/-- The sign bit of a loaded value, live when a bit beyond the descriptor type is. -/
def loadSignBit (dsctyp : Mtype) (live : BitVec 64) : BitVec 64 :=
  if dsctyp.signed || dsctyp.size == 32 then ifAbove live dsctyp.size (intBit dsctyp.size) else 0

/-- The bits of a variable that a use with these live bits makes live. -/
def Var.live (v : Var) (live : BitVec 64) : BitVec 64 :=
  live &&& v.bits ||| loadSignBit v.ty.dsctyp live

/-- The same for an indirect load. -/
def LoadType.live (ty : LoadType) (live : BitVec 64) : BitVec 64 :=
  live &&& bitsInType ty.dsctyp ||| loadSignBit ty.dsctyp live

/-- The 31st bit, live when a 32-bit operation has a live bit beyond it. -/
def keepBit31 (t : Rtype) (live : BitVec 64) : BitVec 64 :=
  if t.size = 32 then ifAbove live 32 (intBit 32) else 0

/-- The live bits of a field of `n` bits whose value is extended by its sign. -/
def fieldLive (signed : Bool) (n : Nat) (live : BitVec 64) : BitVec 64 :=
  live &&& bitmaskOfSize n ||| if signed then ifAbove live n (1#64 <<< (n - 1)) else 0

/-- The live bits of a bitwise operation of type `t`. -/
def bitwiseLive (t : Rtype) (live : BitVec 64) : BitVec 64 :=
  live &&& t.bits ||| keepBit31 t live

/-- The operators whose operand is visited on the first visit only, with all its bits live. -/
def UnOp.gated : UnOp → Bool
  | .abs _ | .lnot _ _ => true
  | _ => false

/-- The live bits of the operand of a unary operator. -/
def UnOp.kidBits (op : UnOp) (live : BitVec 64) : BitVec 64 :=
  match op with
  | .cvtl w => fieldLive w.dtyp.signed w.bits live
  | .cvt dtyp dsctyp =>
    live &&& dtyp.bits &&& dsctyp.bits |||
      if dsctyp = .I4 ∨ dtyp.size = 32 then ifAbove live 32 (intBit 32) else 0
  | .cvtB _ => 1#64
  | .neg t => fillLowerBits live &&& t.bits
  | .extractBits f => fieldLive f.dtyp.signed f.size live <<< f.ofst
  | .paren t | .bnot t => bitwiseLive t live
  | .abs t => t.bits
  | .lnot _ dsctyp => bitsInType dsctyp

def BinOp.gated : BinOp → Bool
  | .whole _ _ | .relation _ _ _ | .logical _ _ => true
  | _ => false

/-- The operators that look at the bits of the present call only. -/
def BinOp.usesCall : BinOp → Bool
  | .shift _ _ => true
  | _ => false

/-- The mask that a constant operand leaves of the live bits of the other one. -/
def Bitwise.known (k : Bitwise) (other : Expr) (live : BitVec 64) : BitVec 64 :=
  match k, other.constVal? with
  | .band, some c => live &&& c
  | .bior, some c | .bnor, some c => live &&& ~~~c
  | _, _ => live

/-- The count of a shift as the analysis takes it: five bits for a 32-bit shift right; its own
shifts are 64-bit ones. -/
def shiftAmt (k : Shift) (t : Rtype) (c : BitVec 64) : BitVec 64 :=
  match k with
  | .shl => c
  | .lshr | .ashr => if t.size < 64 then 31#64 &&& c else c

/-- The mark for the sign bit that an arithmetic shift right copies. -/
def signLivebits (t : Rtype) (amt live : BitVec 64) : BitVec 64 :=
  if t.size < 64 then
    if amt.sle 31#64 then ifAbove live ((31#64 - amt).toNat % 64) 0x10000000#64 else 0
  else
    if amt.sle 63#64 then ifAbove live ((63#64 - amt).toNat % 64) 0x1000000000000000#64 else 0

/-- The live bits of the operand shifted by the constant `c`. -/
def shiftLive (k : Shift) (t : Rtype) (c live : BitVec 64) : BitVec 64 :=
  let amt := shiftAmt k t c
  match k with
  | .shl => (live &&& t.bits) >>> (amt.toNat % 64) &&& t.bits
  | .lshr => (live &&& t.bits) <<< (amt.toNat % 64) &&& t.bits
  | .ashr => (live &&& t.bits) <<< (amt.toNat % 64) &&& t.bits ||| signLivebits t amt live

/-- The live bits of the first operand. -/
def BinOp.kidBits0 (op : BinOp) (y : Expr) (live : BitVec 64) : BitVec 64 :=
  match op with
  | .arith _ t => fillLowerBits live &&& t.bits
  | .bitwise k t => k.known y (bitwiseLive t live)
  | .shift k t =>
    match y.constVal? with
    | some c => shiftLive k t c live
    | none => t.bits
  | .rrotate u => live &&& u.dtyp.bits
  | .composeBits f => live &&& ~~~(bitmaskOfSize f.size <<< f.ofst)
  | .whole _ t => t.bits
  | .relation _ _ dsctyp => bitsInType dsctyp
  | .logical _ t => bitsInType t

/-- The live bits of the second operand. -/
def BinOp.kidBits1 (op : BinOp) (x : Expr) (live : BitVec 64) : BitVec 64 :=
  match op with
  | .arith _ t => fillLowerBits live &&& t.bits
  | .bitwise k t => k.known x (bitwiseLive t live)
  | .shift _ t => t.bits
  | .rrotate u => bitsInType u.dsctyp
  | .composeBits f => live >>> f.ofst &&& bitmaskOfSize f.size
  | .whole _ t => t.bits
  | .relation _ _ dsctyp => bitsInType dsctyp
  | .logical _ t => bitsInType t

/-- The operators whose result is one bit. -/
def UnOp.trim (op : UnOp) (live : BitVec 64) : BitVec 64 :=
  match op with
  | .lnot _ _ => live &&& 1#64
  | _ => live

def BinOp.trim (op : BinOp) (live : BitVec 64) : BitVec 64 :=
  match op with
  | .relation _ _ _ | .logical _ _ => live &&& 1#64
  | _ => live

/-! ## The masks are additive -/

theorem additive_ifAbove (n : Nat) (bit : BitVec 64) : Additive (fun live => ifAbove live n bit):=
  (additive_id.ushiftRight n).guard bit

theorem additive_ite {p : Prop} [Decidable p] {f g : BitVec 64 → BitVec 64}
    (hf : Additive f) (hg : Additive g) : Additive (fun m => if p then f m else g m) := by
  by_cases h : p
  · simpa only [if_pos h] using hf
  · simpa only [if_neg h] using hg

theorem additive_loadSignBit (t : Mtype) : Additive (loadSignBit t) :=
  additive_ite (additive_ifAbove _ _) (additive_const 0)

theorem additive_varLive (v : Var) : Additive v.live :=
  (additive_id.and _).or (additive_loadSignBit _)

theorem additive_loadLive (ty : LoadType) : Additive ty.live :=
  (additive_id.and _).or (additive_loadSignBit _)

theorem additive_fillLowerBits : Additive fillLowerBits := by
  have step : ∀ {f : BitVec 64 → BitVec 64} (k : Nat), Additive f →
      Additive (fun m => f m ||| f m >>> k) := fun k hf => hf.or (hf.ushiftRight k)
  exact step 1 (step 2 (step 4 (step 8 (step 16 (step 32 additive_id)))))

theorem additive_fieldLive (signed : Bool) (n : Nat) : Additive (fieldLive signed n) :=
  (additive_id.and _).or (additive_ite (additive_ifAbove _ _) (additive_const 0))

theorem additive_bitwiseLive (t : Rtype) : Additive (bitwiseLive t) :=
  (additive_id.and _).or (additive_ite (additive_ifAbove _ _) (additive_const 0))

theorem additive_unKidBits (op : UnOp) : Additive op.kidBits := by
  cases op with
  | cvtl w => exact additive_fieldLive _ _
  | cvt dtyp dsctyp =>
    exact ((additive_id.and _).and _).or (additive_ite (additive_ifAbove _ _) (additive_const 0))
  | cvtB dtyp => exact additive_const _
  | neg t => exact additive_fillLowerBits.and _
  | extractBits f => exact (additive_fieldLive _ _).shiftLeft _
  | paren t => exact additive_bitwiseLive t
  | bnot t => exact additive_bitwiseLive t
  | abs t => exact additive_const _
  | lnot dtyp dsctyp => exact additive_const _

theorem additive_known (k : Bitwise) (other : Expr) : Additive (k.known other) := by
  unfold Bitwise.known
  cases k <;> cases other.constVal? <;> first | exact additive_id | exact additive_id.and _

theorem additive_signLivebits (t : Rtype) (amt : BitVec 64) : Additive (signLivebits t amt) :=
  additive_ite (additive_ite (additive_ifAbove _ _) (additive_const 0))
    (additive_ite (additive_ifAbove _ _) (additive_const 0))

theorem additive_shiftLive (k : Shift) (t : Rtype) (c : BitVec 64) : Additive (shiftLive k t c):= by
  cases k with
  | shl => exact ((additive_id.and _).ushiftRight _).and _
  | lshr => exact ((additive_id.and _).shiftLeft _).and _
  | ashr => exact (((additive_id.and _).shiftLeft _).and _).or (additive_signLivebits _ _)

theorem additive_kidBits0 (op : BinOp) (y : Expr) : Additive (op.kidBits0 y) := by
  cases op with
  | arith k t => exact additive_fillLowerBits.and _
  | bitwise k t => exact (additive_known k y).comp (additive_bitwiseLive t)
  | shift k t =>
    unfold BinOp.kidBits0
    cases y.constVal? with
    | none => exact additive_const _
    | some c => exact additive_shiftLive k t c
  | rrotate u => exact additive_id.and _
  | composeBits f => exact additive_id.and _
  | whole k t => exact additive_const _
  | relation k dtyp dsctyp => exact additive_const _
  | logical k t => exact additive_const _

theorem additive_kidBits1 (op : BinOp) (x : Expr) : Additive (op.kidBits1 x) := by
  cases op with
  | arith k t => exact additive_fillLowerBits.and _
  | bitwise k t => exact (additive_known k x).comp (additive_bitwiseLive t)
  | shift k t => exact additive_const _
  | rrotate u => exact additive_const _
  | composeBits f => exact (additive_id.ushiftRight _).and _
  | whole k t => exact additive_const _
  | relation k dtyp dsctyp => exact additive_const _
  | logical k t => exact additive_const _

theorem additive_unTrim (op : UnOp) : Additive op.trim := by
  cases op <;> first | exact additive_id | exact additive_id.and _

theorem additive_binTrim (op : BinOp) : Additive op.trim := by
  cases op <;> first | exact additive_id | exact additive_id.and _

/-! ## Agreement on the operands gives agreement on the result -/

theorem getLsbD_bits (t : Rtype) (i : Nat) : t.bits.getLsbD i = decide (i < t.size):= by
  show (bitmaskOfSize t.size).getLsbD i = _
  rw [getLsbD_bitmaskOfSize]
  have hle := t.size_le
  by_cases hi : i < t.size
  · simp [hi, show i < 64 by omega]
  · simp [hi]

theorem getLsbD_fillLowerBits (m : BitVec 64) (i : Nat) :
    (fillLowerBits m).getLsbD i = true ↔ ∃ j, i ≤ j ∧ m.getLsbD j = true :=
  gathers_one_iff (gathers_width m).halve.halve.halve.halve.halve.halve i

variable {n i s : Nat} {t : Rtype} {D a b m a' b' : BitVec 64}

theorem getLsbD_ifAbove {live bit : BitVec 64} {j : Nat} (hi : n ≤ i)
    (hlive : live.getLsbD i = true) (hbit : bit.getLsbD j = true) :
    (ifAbove live n bit).getLsbD j = true := by
  have hne : live >>> n ≠ 0 := by
    rw [ne_zero_iff]
    exact ⟨i - n, by rw [getLsbD_ushiftRight, show n + (i - n) = i by omega]; exact hlive⟩
  unfold ifAbove
  rw [if_pos hne]
  exact hbit

theorem getLsbD_intBit (hn : n = 8 ∨ n = 16 ∨ n = 32) : (intBit n).getLsbD (n - 1) = true := by
  rcases hn with rfl | rfl | rfl <;> decide

theorem getLsbD_one_shiftLeft (hn : 0 < n) (hle : n ≤ 64) :
    (1#64 <<< (n - 1)).getLsbD (n - 1) = true := by
  rw [getLsbD_shiftLeft]
  simp
  omega

theorem agreeOn_write (h : AgreeOn (D &&& t.bits) a b) : AgreeOn D (write t a) (write t b) := by
  intro i hi
  unfold write
  rw [getLsbD_low, getLsbD_low]
  by_cases hlt : i < t.size
  · rw [h i (by rw [getLsbD_and, hi, getLsbD_bits]; simpa using hlt)]
  · simp [hlt]

theorem agreeOn_clear (ha : Clear n a) (hb : Clear n b)
    (h : AgreeOn (D &&& bitmaskOfSize n) a b) : AgreeOn D a b := by
  intro i hi
  have hi64 : i < 64 := lt_of_getLsbD hi
  by_cases hlt : i < n
  · exact h i (by simp [hi, hlt, hi64])
  · rw [ha i (by omega), hb i (by omega)]

theorem agreeOn_field (hn : 0 < n) (hle : n ≤ 64)
    (h : AgreeOn (fieldLive t.signed n D) a b) : AgreeOn D (fieldValue t n a) (fieldValue t n b) := by
  unfold fieldValue
  apply agreeOn_write
  intro i hi
  have hD : D.getLsbD i = true := and_sub_left _ _ i hi
  have hi64 : i < 64 := lt_of_getLsbD hD
  have hlow : i < n → a.getLsbD i = b.getLsbD i := by
    intro hlt
    apply h
    unfold fieldLive
    simp [hD, hlt, hi64]
  by_cases hs : t.signed = true
  · rw [if_pos hs, if_pos hs, getLsbD_sext hn, getLsbD_sext hn]
    by_cases hlt : i < n
    · rw [min_eq_left (by omega), hlow hlt]
    · rw [min_eq_right (by omega)]
      have hsign : a.getLsbD (n - 1) = b.getLsbD (n - 1) := by
        apply h
        unfold fieldLive
        rw [if_pos hs]
        exact sub_or_right _ _ _ (getLsbD_ifAbove (by omega) hD (getLsbD_one_shiftLeft hn hle))
      rw [hsign]
  · rw [if_neg hs, if_neg hs, getLsbD_low, getLsbD_low]
    by_cases hlt : i < n
    · rw [hlow hlt]
    · simp [hlt]

/-- Operands that agree on the bits marked for a load give values that agree on the bits asked
for. -/
theorem agreeOn_load (ty : LoadType)
    (hm : Sub (D &&& bitsInType ty.dsctyp ||| loadSignBit ty.dsctyp D &&& bitsInType ty.dsctyp) m)
    (h : AgreeOn m a b) : AgreeOn D (ty.value a) (ty.value b) := by
  apply agreeOn_clear (clear_low _ _) (clear_low _ _)
  intro i hi
  have hD : D.getLsbD i = true := and_sub_left _ _ i hi
  have hi64 : i < 64 := lt_of_getLsbD hD
  have hpos := ty.dsctyp.size_pos
  have hlow : i < ty.dsctyp.size → a.getLsbD i = b.getLsbD i := by
    intro hlt
    apply h
    apply hm
    apply sub_or_left
    simp [hD, bitsInType, hlt, hi64]
  rw [getLsbD_low, getLsbD_low, getLsbD_extend, getLsbD_extend]
  by_cases hs : ty.dsctyp.signed = true
  · rw [if_pos hs, if_pos hs]
    by_cases hlt : i < ty.dsctyp.size
    · rw [min_eq_left (by omega), hlow hlt]
    · rw [min_eq_right (by omega)]
      -- a bit beyond the descriptor type is a copy of the sign bit
      have hsize : ty.dsctyp.size = 8 ∨ ty.dsctyp.size = 16 ∨ ty.dsctyp.size = 32 := by
        revert hlt hs
        cases ty.dsctyp <;> simp [Mtype.size, Mtype.signed]
        omega
      have hsign : a.getLsbD (ty.dsctyp.size - 1) = b.getLsbD (ty.dsctyp.size - 1) := by
        apply h
        apply hm
        apply sub_or_right
        rw [getLsbD_and]
        have hbit : (loadSignBit ty.dsctyp D).getLsbD (ty.dsctyp.size - 1) = true := by
          unfold loadSignBit
          rw [hs, Bool.true_or, if_pos rfl]
          exact getLsbD_ifAbove (by omega) hD (getLsbD_intBit hsize)
        rw [hbit]
        simp [bitsInType]
        omega
      rw [hsign]
  · rw [if_neg hs, if_neg hs]
    by_cases hlt : i < ty.dsctyp.size
    · rw [hlow hlt]
    · simp [hlt]

theorem sub_bitwiseLive (t : Rtype) (D : BitVec 64) : Sub (D &&& t.bits) (bitwiseLive t D) :=
  sub_or_left _ _

/-- A conversion passes the demanded bits, and the sign bit where one above the source length is
demanded. -/
theorem agreeOn_cvt (dtyp dsctyp : Rtype) (h : AgreeOn ((UnOp.cvt dtyp dsctyp).kidBits D) a b) :
    AgreeOn D ((UnOp.cvt dtyp dsctyp).eval a) ((UnOp.cvt dtyp dsctyp).eval b) := by
  apply agreeOn_write
  intro i hi
  rw [getLsbD_and, getLsbD_bits, Bool.and_eq_true, decide_eq_true_eq] at hi
  obtain ⟨hD, hd⟩ := hi
  have hpos := dsctyp.size_pos
  have hlow : i < dsctyp.size → a.getLsbD i = b.getLsbD i := by
    intro hlt
    apply h
    apply sub_or_left
    simp [hD, getLsbD_bits, hd, hlt]
  rw [getLsbD_extend, getLsbD_extend]
  by_cases hs : dsctyp.mtype.signed = true
  · rw [if_pos hs, if_pos hs]
    by_cases hlt : i < dsctyp.size
    · rw [min_eq_left (show i ≤ dsctyp.mtype.size - 1 from le_sub_one_of_lt hlt), hlow hlt]
    · -- only a 32-bit signed operand has copies of its sign bit
      have hle := dtyp.size_le
      have hI4 : dsctyp = .I4 := by
        revert hlt hs
        cases dsctyp <;> simp [Rtype.size, Rtype.mtype, Mtype.size, Mtype.signed] at *
        omega
      subst hI4
      have hi32 : 32 ≤ i := by
        simp [Rtype.size, Rtype.mtype, Mtype.size] at hlt
        exact hlt
      have hsign : a.getLsbD 31 = b.getLsbD 31 := by
        apply h
        apply sub_or_right
        rw [if_pos (.inl rfl)]
        exact getLsbD_ifAbove hi32 hD (by decide)
      have hmin : min i (Mtype.size (Rtype.mtype .I4) - 1) = 31 := by
        simp [Rtype.mtype, Mtype.size]
        omega
      rw [hmin, hsign]
  · rw [if_neg hs, if_neg hs]
    by_cases hlt : i < dsctyp.size
    · rw [hlow hlt]
    · have hno : ¬ i < dsctyp.mtype.size := hlt
      simp [hno]

theorem downClosed_fill (t : Rtype) (D : BitVec 64) :
    DownClosed (D &&& t.bits) (fillLowerBits D &&& t.bits) := by
  intro i j hi hj
  rw [getLsbD_and, getLsbD_bits, Bool.and_eq_true, decide_eq_true_eq] at hi ⊢
  exact ⟨(getLsbD_fillLowerBits D j).mpr ⟨i, hj, hi.1⟩, by omega⟩

theorem agreeOn_un (op : UnOp) (h : AgreeOn (op.kidBits D) a b) :
    AgreeOn D (op.eval a) (op.eval b) := by
  cases op with
  | cvtl w => exact agreeOn_field w.pos (w.le.trans w.dtyp.size_le) h
  | cvt dtyp dsctyp => exact agreeOn_cvt dtyp dsctyp h
  | cvtB dtyp =>
    have heq : extend .B a = extend .B b := extend_congr h
    simp only [UnOp.eval, heq]
    exact AgreeOn.refl _ _
  | neg t => exact agreeOn_write (agreeOn_neg _ (downClosed_fill t D) h)
  | extractBits f =>
    have hle : f.size ≤ 64 := by
      have := f.le
      have := f.dtyp.size_le
      omega
    apply agreeOn_field f.pos hle
    intro i hi
    rw [getLsbD_ushiftRight, getLsbD_ushiftRight]
    by_cases hlt : f.ofst + i < 64
    · apply h
      simp only [UnOp.kidBits]
      rw [getLsbD_shiftLeft]
      simp [hlt, hi]
    · rw [getLsbD_of_ge _ _ (by omega), getLsbD_of_ge _ _ (by omega)]
  | paren t => exact agreeOn_write (h.mono (sub_bitwiseLive t D))
  | bnot t => exact agreeOn_write (h.mono (sub_bitwiseLive t D)).not
  | abs t =>
    have heq : intVal t.mtype a = intVal t.mtype b := intVal_congr h
    simp only [UnOp.eval, heq]
    exact AgreeOn.refl _ _
  | lnot dtyp dsctyp =>
    have heq : intVal dsctyp a = intVal dsctyp b := intVal_congr h
    simp only [UnOp.eval, heq]
    exact AgreeOn.refl _ _

/-! ## Shifts, rotations and the other binary operators -/

/-- When the mask of a shift by `c` has all the bits that the live bits come from. -/
def shiftSafe (k : Shift) (t : Rtype) (c live : BitVec 64) : Prop :=
  match k with
  | .lshr => True
  | .shl => c.toNat % 64 < t.size ∨ (live &&& t.bits) >>> (c.toNat % t.size) = 0
  | .ashr =>
    (live &&& t.bits) >>> (t.size - 1 - c.toNat % t.size) ≠ 0 →
      live.getLsbD (t.size - 1 - c.toNat % t.size) = true

/-- When the mask of a rotation has all the bits. -/
def rotateSafe (u : RotUnit) (y : Expr) (live : BitVec 64) : Prop :=
  match y.constVal? with
  | some c => ∀ i < u.dsctyp.size, live.getLsbD i = true →
      live.getLsbD ((i + c.toNat) % u.dsctyp.size) = true
  | none => live &&& bitsInType u.dsctyp = 0 ∨ live &&& bitsInType u.dsctyp = bitsInType u.dsctyp

/-- When the masks of a binary operator have all the bits. -/
def BinOp.Safe (op : BinOp) (y : Expr) (live : BitVec 64) : Prop :=
  match op with
  | .shift k t =>
    match y.constVal? with
    | some c => shiftSafe k t c live
    | none => True
  | .rrotate u => rotateSafe u y live
  | _ => True

theorem toNat_mod_congr (h : AgreeOn (bitmaskOfSize n) a b)
    (hn : n ≤ 64) (hs : s ∣ 2 ^ n) : a.toNat % s = b.toNat % s := by
  have hmod : a.toNat % 2 ^ n = b.toNat % 2 ^ n := by
    apply eq_of_testBit_eq
    intro i
    rw [testBit_mod_two_pow, testBit_mod_two_pow]
    by_cases hi : i < n
    · have := h i (by simp; omega)
      simp only [BitVec.getLsbD] at this
      rw [this]
    · simp [hi]
  rw [← mod_mod_of_dvd a.toNat hs, ← mod_mod_of_dvd b.toNat hs, hmod]

theorem Rtype.size_dvd (t : Rtype) : t.size ∣ 2 ^ t.size := by
  cases t <;> decide

theorem RotUnit.size_dvd (u : RotUnit) : u.dsctyp.size ∣ 2 ^ u.dsctyp.size := by
  cases u <;> decide

theorem getLsbD_ashr (hn : 0 < n) (hle : n ≤ 64) (a : BitVec 64) (s : Nat) (hi : i < n) :
    (Shift.eval n .ashr a s).getLsbD i = a.getLsbD (min (s + i) (n - 1)) := by
  simp only [Shift.eval]
  rw [getLsbD_sshiftRight, msb_eq_getLsbD_last]
  have hi64 : ¬ 64 ≤ i := by omega
  by_cases hsi : s + i < 64
  · rw [if_pos hsi, getLsbD_sext hn]
    simp [hi64, hsi]
  · rw [if_neg hsi, getLsbD_sext hn, min_eq_right (show n - 1 ≤ s + i by omega),
      min_eq_right (show n - 1 ≤ 64 - 1 by omega)]
    simp [hi64]

theorem getLsbD_lshr (n : Nat) (a : BitVec 64) (s i : Nat) :
    (Shift.eval n .lshr a s).getLsbD i = (decide (s + i < n) && a.getLsbD (s + i)) := by
  simp only [Shift.eval]
  rw [getLsbD_ushiftRight, getLsbD_low]

theorem getLsbD_shl (n : Nat) (a : BitVec 64) (s : Nat) (hi : i < 64) :
    (Shift.eval n .shl a s).getLsbD i = (decide (s ≤ i) && a.getLsbD (i - s)) := by
  simp only [Shift.eval]
  rw [getLsbD_shiftLeft]
  by_cases hs : i < s
  · simp [hs]
  · simp [hs, hi, show s ≤ i by omega]

theorem shiftAmt_toNat {k : Shift} (hk : k ≠ .shl) (t : Rtype) (c : BitVec 64) :
    (shiftAmt k t c).toNat % 64 = c.toNat % t.size := by
  have hamt : shiftAmt k t c = if t.size < 64 then 31#64 &&& c else c := by
    cases k <;> first | exact absurd rfl hk | rfl
  rw [hamt]
  rcases t.size_eq with h | h
  · rw [h, if_pos (by decide), toNat_and, Nat.and_comm]
    have hmod : c.toNat &&& (2 ^ 5 - 1) = c.toNat % 2 ^ 5 := Nat.and_two_pow_sub_one_eq_mod c.toNat 5
    have hthirty : (31#64).toNat = 2 ^ 5 - 1 := rfl
    rw [hthirty, hmod]
    omega
  · rw [h, if_neg (by decide)]

/-- A shift by a constant moves the demanded bits by the count; the sign bit of an arithmetic shift
is the case that needs `shiftSafe`. -/
theorem agreeOn_shift_const (k : Shift) (t : Rtype) (c : BitVec 64)
    (hs : shiftSafe k t c D) (h : AgreeOn (shiftLive k t c D) a b) :
    AgreeOn D (write t (k.eval t.size a (c.toNat % t.size)))
      (write t (k.eval t.size b (c.toNat % t.size))) := by
  apply agreeOn_write
  intro i hi
  rw [getLsbD_and, getLsbD_bits, Bool.and_eq_true, decide_eq_true_eq] at hi
  obtain ⟨hD, hlt⟩ := hi
  have hle := t.size_le
  have hs' : c.toNat % t.size < t.size := mod_lt _ t.size_pos
  generalize hcount : c.toNat % t.size = s at hs'
  have hright : ∀ k ≠ Shift.shl, ∀ j, D.getLsbD j = true → s + j < t.size →
      ((D &&& t.bits) <<< ((shiftAmt k t c).toNat % 64) &&& t.bits).getLsbD (s + j) = true := by
    intro k hk j hj hjlt
    rw [getLsbD_and, getLsbD_shiftLeft, shiftAmt_toNat hk, hcount, getLsbD_bits,
      getLsbD_and, getLsbD_bits, Nat.add_sub_cancel_left, hj]
    simp
    omega
  cases k with
  | shl =>
    rw [getLsbD_shl _ _ _ (by omega), getLsbD_shl _ _ _ (by omega)]
    by_cases hsi : s ≤ i
    · have hamt : c.toNat % 64 = s := by
        rcases hs with hs | hs
        · rcases t.size_eq with h32 | h64
          · rw [h32] at hs hcount
            omega
          · rw [h64] at hcount
            exact hcount
        · rw [eq_zero_iff] at hs
          have hbit := hs (i - s)
          rw [getLsbD_ushiftRight, hcount, show s + (i - s) = i by omega,
            getLsbD_and, hD, getLsbD_bits] at hbit
          simp [hlt] at hbit
      rw [h (i - s)]
      simp only [shiftLive, shiftAmt]
      rw [hamt, getLsbD_and, getLsbD_ushiftRight, show s + (i - s) = i by omega,
        getLsbD_and, hD, getLsbD_bits, getLsbD_bits]
      simp
      omega
    · simp [hsi]
  | lshr =>
    rw [getLsbD_lshr, getLsbD_lshr]
    by_cases hsi : s + i < t.size
    · rw [h (s + i) (hright .lshr (by decide) i hD hsi)]
    · simp [hsi]
  | ashr =>
    rw [getLsbD_ashr t.size_pos hle _ _ hlt, getLsbD_ashr t.size_pos hle _ _ hlt]
    by_cases hsi : s + i < t.size
    · rw [min_eq_left (by omega)]
      exact h _ (sub_or_left _ _ _ (hright .ashr (by decide) i hD hsi))
    · -- a copy of the sign bit, which the mask has only if the highest
      -- shifted bit is live
      rw [min_eq_right (by omega)]
      have hne : (D &&& t.bits) >>> (t.size - 1 - s) ≠ 0 := by
        rw [ne_zero_iff]
        refine ⟨i - (t.size - 1 - s), ?_⟩
        rw [getLsbD_ushiftRight,
          show t.size - 1 - s + (i - (t.size - 1 - s)) = i by omega, getLsbD_and, hD,
          getLsbD_bits]
        simpa using hlt
      have htop : D.getLsbD (t.size - 1 - s) = true := by
        have := hs
        simp only [shiftSafe, hcount] at this
        exact this hne
      have hmark := hright .ashr (by decide) (t.size - 1 - s) htop (by omega)
      rw [show s + (t.size - 1 - s) = t.size - 1 by omega] at hmark
      exact h _ (sub_or_left _ _ _ hmark)

theorem shift_congr (k : Shift) (t : Rtype) (h : AgreeOn t.bits a b) (s : Nat) :
    write t (k.eval t.size a s) = write t (k.eval t.size b s) := by
  have hle := t.size_le
  have hpos := t.size_pos
  apply eq_of_getLsbD_eq
  intro i _
  unfold write
  rw [getLsbD_low, getLsbD_low]
  by_cases hlt : i < t.size
  · have hbit : ∀ j, j < t.size → a.getLsbD j = b.getLsbD j := fun j hj =>
      h j (by rw [getLsbD_bits]; simpa using hj)
    cases k with
    | shl =>
      rw [getLsbD_shl _ _ _ (by omega), getLsbD_shl _ _ _ (by omega), hbit (i - s) (by omega)]
    | lshr =>
      rw [getLsbD_lshr, getLsbD_lshr]
      by_cases hsi : s + i < t.size
      · rw [hbit (s + i) hsi]
      · simp [hsi]
    | ashr =>
      rw [getLsbD_ashr hpos hle _ _ hlt, getLsbD_ashr hpos hle _ _ hlt,
        hbit (min (s + i) (t.size - 1)) (by omega)]
  · simp [hlt]

theorem getLsbD_rotateRight (hs : s < n) (hle : n ≤ 64) (a : BitVec 64) (i : Nat) :
    (rotateRight n a s).getLsbD i = (decide (i < n) && a.getLsbD ((i + s) % n)) := by
  unfold rotateRight
  rw [getLsbD_low, getLsbD_or, getLsbD_ushiftRight, getLsbD_low,
    getLsbD_shiftLeft]
  by_cases hi : i < n
  · by_cases hsi : s + i < n
    · rw [mod_eq_of_lt (show i + s < n by omega)]
      simp [hi, hsi, show i < n - s by omega, add_comm]
    · have hmod : (i + s) % n = i - (n - s) := by
        rw [mod_eq_sub_mod (by omega), mod_eq_of_lt (by omega)]
        omega
      rw [hmod]
      simp [hi, hsi, show ¬ i < n - s by omega, show i < 64 by omega]
  · simp [hi]

theorem agreeOn_rotate (u : RotUnit) (y : Expr)
    (hy : ∀ c, y.constVal? = some c → b = c ∧ b' = c) (hs : rotateSafe u y D)
    (ha : AgreeOn (D &&& u.dtyp.bits) a a') (hb : AgreeOn (bitsInType u.dsctyp) b b') :
    AgreeOn D ((BinOp.rrotate u).eval a b) ((BinOp.rrotate u).eval a' b') := by
  have hpos := u.dsctyp.size_pos
  have hle := u.dsctyp.size_le
  have hdle := u.dsctyp_le
  have hcount : b.toNat % u.dsctyp.size = b'.toNat % u.dsctyp.size :=
    toNat_mod_congr hb hle u.size_dvd
  intro i hi
  simp only [BinOp.eval]
  rw [← hcount, getLsbD_rotateRight (mod_lt _ hpos) hle,
    getLsbD_rotateRight (mod_lt _ hpos) hle]
  by_cases hlt : i < u.dsctyp.size
  · have hlive : D.getLsbD ((i + b.toNat % u.dsctyp.size) % u.dsctyp.size) = true := by
      rw [add_mod_mod]
      unfold rotateSafe at hs
      have hin : (D &&& bitsInType u.dsctyp).getLsbD i = true := by
        simp [hi, bitsInType, hlt]
        omega
      cases hc : y.constVal? with
      | some c =>
        rw [hc] at hs
        rw [(hy c hc).1]
        exact hs i hlt hi
      | none =>
        rw [hc] at hs
        rcases hs with hs | hs
        · rw [hs] at hin
          simp at hin
        · apply and_sub_left D (bitsInType u.dsctyp)
          rw [hs]
          have := mod_lt (i + b.toNat) hpos
          simp [bitsInType]
          omega
    have hmod : (i + b.toNat % u.dsctyp.size) % u.dsctyp.size < u.dtyp.size :=
      (mod_lt _ hpos).trans_le hdle
    rw [ha _ (by rw [getLsbD_and, hlive, getLsbD_bits, decide_eq_true hmod]; rfl)]
  · simp [hlt]

theorem agreeOn_compose (f : BitField)
    (ha : AgreeOn (D &&& ~~~(bitmaskOfSize f.size <<< f.ofst)) a a')
    (hb : AgreeOn (D >>> f.ofst &&& bitmaskOfSize f.size) b b') :
    AgreeOn D ((BinOp.composeBits f).eval a b) ((BinOp.composeBits f).eval a' b') := by
  apply agreeOn_write
  intro i hi
  have hD : D.getLsbD i = true := and_sub_left _ _ i hi
  have hi64 : i < 64 := lt_of_getLsbD hD
  rw [getLsbD_or, getLsbD_or]
  congr 1
  · rw [getLsbD_and, getLsbD_and]
    cases hm : (~~~(bitmaskOfSize f.size <<< f.ofst)).getLsbD i with
    | false => simp
    | true => rw [ha i (by rw [getLsbD_and, hD, hm]; rfl)]
  · rw [getLsbD_shiftLeft, getLsbD_shiftLeft]
    by_cases hlt : i < f.ofst
    · simp [hlt]
    · congr 1
      rw [getLsbD_and, getLsbD_and]
      cases hm : (bitmaskOfSize f.size).getLsbD (i - f.ofst) with
      | false => simp
      | true =>
        rw [hb (i - f.ofst) (by rw [getLsbD_and, getLsbD_ushiftRight,
          show f.ofst + (i - f.ofst) = i by omega, hD, hm]; rfl)]

/-- A constant operand of AND or OR frees the bits that it decides alone. -/
theorem agreeOn_bitwise (k : Bitwise) (x y : Expr)
    (hx : ∀ c, x.constVal? = some c → a = c ∧ a' = c)
    (hy : ∀ c, y.constVal? = some c → b = c ∧ b' = c)
    (ha : AgreeOn (k.known y m) a a') (hb : AgreeOn (k.known x m) b b') :
    AgreeOn m (k.eval a b) (k.eval a' b') := by
  -- without a constant both operands agree on all of `m`
  have hfree : y.constVal? = none → AgreeOn m a a' := by
    intro hc
    simpa [Bitwise.known, hc] using ha
  have hfree' : x.constVal? = none → AgreeOn m b b' := by
    intro hc
    simpa [Bitwise.known, hc] using hb
  cases hcx : x.constVal? with
  | some c =>
    obtain ⟨rfl, rfl⟩ := hx c hcx
    cases hcy : y.constVal? with
    | some d =>
      obtain ⟨rfl, rfl⟩ := hy d hcy
      exact AgreeOn.refl _ _
    | none =>
      simp only [Bitwise.known, hcx] at hb
      cases k with
      | band =>
        simp only [Bitwise.eval, and_comm a']
        exact hb.and_known (AgreeOn.refl _ _)
      | bior =>
        simp only [Bitwise.eval, or_comm a']
        exact hb.or_known (AgreeOn.refl _ _)
      | bnor =>
        simp only [Bitwise.eval, or_comm a']
        exact (hb.or_known (AgreeOn.refl _ _)).not
      | bxor => exact (AgreeOn.refl _ _).xor hb
  | none =>
    have hb' := hfree' hcx
    cases hcy : y.constVal? with
    | some d =>
      obtain ⟨rfl, rfl⟩ := hy d hcy
      simp only [Bitwise.known, hcy] at ha
      cases k with
      | band => exact ha.and_known (AgreeOn.refl _ _)
      | bior => exact ha.or_known (AgreeOn.refl _ _)
      | bnor => exact (ha.or_known (AgreeOn.refl _ _)).not
      | bxor => exact ha.xor (AgreeOn.refl _ _)
    | none =>
      have ha' := hfree hcy
      cases k with
      | band => exact ha'.and hb'
      | bior => exact ha'.or hb'
      | bnor => exact (ha'.or hb').not
      | bxor => exact ha'.xor hb'

/-- One lemma for all operators with two kids: agreement on the demanded bits of the kids gives it
for the result. -/
theorem agreeOn_bin (op : BinOp) (x y : Expr) (hx : ∀ c, x.constVal? = some c → a = c ∧ a' = c)
    (hy : ∀ c, y.constVal? = some c → b = c ∧ b' = c) (hs : op.Safe y D)
    (ha : AgreeOn (op.kidBits0 y D) a a') (hb : AgreeOn (op.kidBits1 x D) b b') :
    AgreeOn D (op.eval a b) (op.eval a' b') := by
  cases op with
  | arith k t =>
    have hdown := downClosed_fill t D
    cases k with
    | add => exact agreeOn_write (agreeOn_add _ hdown ha hb)
    | sub => exact agreeOn_write (agreeOn_sub _ hdown ha hb)
    | mpy => exact agreeOn_write (agreeOn_mul _ hdown ha hb)
  | bitwise k t =>
    exact agreeOn_write ((agreeOn_bitwise k x y hx hy ha hb).mono (sub_bitwiseLive t D))
  | shift k t =>
    have hcount : b.toNat % t.size = b'.toNat % t.size :=
      toNat_mod_congr hb t.size_le t.size_dvd
    cases hc : y.constVal? with
    | some c =>
      simp only [BinOp.kidBits0, hc] at ha
      simp only [BinOp.Safe, hc] at hs
      obtain ⟨rfl, rfl⟩ := hy c hc
      exact agreeOn_shift_const k t b' hs ha
    | none =>
      simp only [BinOp.kidBits0, hc] at ha
      simp only [BinOp.eval]
      rw [← hcount, shift_congr k t ha]
      exact AgreeOn.refl _ _
  | rrotate u => exact agreeOn_rotate u y hy hs ha hb
  | composeBits f => exact agreeOn_compose f ha hb
  | whole k t =>
    have ha' : intVal t.mtype a = intVal t.mtype a' := intVal_congr ha
    have hb' : intVal t.mtype b = intVal t.mtype b' := intVal_congr hb
    simp only [BinOp.eval, ha', hb']
    exact AgreeOn.refl _ _
  | relation k dtyp dsctyp =>
    have ha' : intVal dsctyp a = intVal dsctyp a' := intVal_congr ha
    have hb' : intVal dsctyp b = intVal dsctyp b' := intVal_congr hb
    simp only [BinOp.eval, ha', hb']
    exact AgreeOn.refl _ _
  | logical k t =>
    have ha' : intVal t a = intVal t a' := intVal_congr ha
    have hb' : intVal t b = intVal t b' := intVal_congr hb
    simp only [BinOp.eval, ha', hb']
    exact AgreeOn.refl _ _

theorem agreeOn_select (dtyp : Rtype) (descB : Bool) {c c' : BitVec 64}
    (hc : AgreeOn (bitsInType (selectDesc dtyp descB)) c c')
    (ha : AgreeOn (D &&& dtyp.bits) a a') (hb : AgreeOn (D &&& dtyp.bits) b b') :
    AgreeOn D (selectEval dtyp descB c a b) (selectEval dtyp descB c' a' b') := by
  unfold selectEval
  apply agreeOn_write
  rw [← intVal_congr hc]
  by_cases h : intVal (selectDesc dtyp descB) c ≠ 0
  · rw [if_pos h, if_pos h]
    exact ha
  · rw [if_neg h, if_neg h]
    exact hb

end Bdce
