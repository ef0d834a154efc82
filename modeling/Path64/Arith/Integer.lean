import Path64.Arith.Pieces

/-! # Multi-word integer arithmetic

`arith/math.c` and `AR_compare`: addition, subtraction, multiplication,
division and comparison of the 16-, 32- and 64-bit integers, signed and
unsigned. The pieces above a type's width, which every operation sets
to zero, are left out. -/

namespace Arith

open Parts Nat
open BitVec (ofBool eq_of_toNat_eq toNat_setWidth toNat_ofNat)
open Int (eq_ofNat_of_zero_le natAbs_neg)

/-! ## Types and status -/

/-- `AR_INT_SIZE`, for the sizes that are whole pieces. -/
inductive IntSize
  | size16
  | size32
  | size64

/-- How many pieces a size uses. -/
def IntSize.pieces : IntSize → Nat
  | size16 => 1
  | size32 => 2
  | size64 => 4

/-- The status bits the integer operations set. -/
structure Status where
  overflow : Bool := false
  zero : Bool := false
  negative : Bool := false
  semivalid : Bool := false

/-- `AR_status`, and its copies in the operations. -/
def arStatus {n : Nat} (signed : Bool) (x : Parts n) : Status :=
  if x.isZero then { zero := true }
  else if signed && x.sign then { negative := true }
  else {}

/-- `status |= other`. -/
def Status.or (s t : Status) : Status :=
  { overflow := s.overflow || t.overflow
    zero := s.zero || t.zero
    negative := s.negative || t.negative
    semivalid := s.semivalid || t.semivalid }

section operations
variable {n : Nat}

/-! ## Addition and subtraction -/

def arAddInteger (resultSigned opndSigned : Bool) (opnd1 opnd2 : Parts n) : Parts n × Status :=
  let r := add opnd1 opnd2 0
  let overflow :=
    if opndSigned = false then r.2 != 0
    -- same signs, and another sign of the result
    else opnd1.sign == opnd2.sign && opnd1.sign != r.1.sign
  (r.1, { arStatus resultSigned r.1 with overflow := overflow })

/-- `*flags = (sign << 3) | (zero << 2) | (overflow << 1) | carry`. -/
def szvc (sign zero overflow carry : Bool) : BitVec 32 :=
  (ofBool sign).setWidth 32 <<< 3 ||| (ofBool zero).setWidth 32 <<< 2 |||
    (ofBool overflow).setWidth 32 <<< 1 ||| (ofBool carry).setWidth 32

/-- `ar_subtract_integer`: the result, the status and the flags. -/
def arSubtractInteger (signed : Bool) (opnd1 opnd2 : Parts n) : Parts n × Status × BitVec 32 :=
  let r := sub opnd1 opnd2 0
  let carry := r.2 != 0
  -- different signs, and the result has not the first one's
  let overflow := opnd1.sign != opnd2.sign && opnd1.sign != r.1.sign
  (r.1, Status.or { overflow := if signed then overflow else carry } (arStatus signed r.1),
    szvc r.1.sign r.1.isZero overflow carry)

/-- `ar_negate_integer`: the complement and one. -/
def arNegateInteger (resultSigned opndSigned : Bool) (opnd : Parts n) : Parts n × Status :=
  let r := arAddInteger resultSigned opndSigned opnd.complement (single 1 n)
  let status :=
    if resultSigned = false then { r.2 with overflow := false }
    else if r.2.overflow && r.2.negative && r.1.val == card n / 2 then
      { r.2 with overflow := false, semivalid := true }
    else r.2
  (r.1, status)

/-! ## Multiplication -/

/-- `partialmult = part_a * part_b`: an `int` product in an `unsigned long`. -/
def partialMult (p q : BitVec 16) : BitVec 64 :=
  (p.setWidth 32 * q.setWidth 32).signExtend 64

/-- The low and the next piece of a partial product. -/
def lowPiece (partialmult : BitVec 64) : BitVec 16 := partialmult.setWidth 16

def highPiece (partialmult : BitVec 64) : BitVec 16 := (partialmult >>> 16).setWidth 16

/-- The accumulator of `ar_multiply_integer`, with `AR_STAT_OVERFLOW`. -/
structure Accum (n : Nat) where
  accum : Parts n
  overflow : Bool

/-- `if (c) status |= AR_STAT_OVERFLOW`. -/
def Accum.test (s : Accum n) (c : Bool) : Accum n := { s with overflow := s.overflow || c }

/-- `status |= ar_add_integer (&newaccum, &accum, &temp); accum = newaccum`. -/
def Accum.add (s : Accum n) (temp : Parts n) : Accum n :=
  let r := arAddInteger false false s.accum temp
  { accum := r.1, overflow := s.overflow || r.2.overflow }

/-- A step that is left out when the multiplicand's piece is zero. -/
def Accum.unlessZero (s : Accum n) (p : BitVec 16) (step : Accum n → Accum n) : Accum n :=
  if p ≠ 0#16 then step s else s

/-- The product of two 16-bit numbers. -/
def multiply16 : Parts 1 → Parts 1 → Accum 1
  | cons a nil, cons b nil =>
    { accum := cons (lowPiece (partialMult a b)) nil
      overflow := partialMult a b >>> 16 != 0#64 }

/-- A product for the top piece of a 32-bit number. -/
def top32 (p q : BitVec 16) (s : Accum 2) : Accum 2 :=
  (s.test (partialMult p q >>> 16 != 0#64)).add
    (cons 0#16 (cons (lowPiece (partialMult p q)) nil))

/-- The product of two 32-bit numbers. -/
def multiply32 : Parts 2 → Parts 2 → Accum 2
  | cons b (cons a nil), cons d (cons c nil) =>
    let s : Accum 2 :=
      { accum := cons (lowPiece (partialMult b d)) (cons (highPiece (partialMult b d)) nil)
        overflow := false }
    let s := s.unlessZero d fun s => s.unlessZero a (top32 a d)
    s.unlessZero c fun s =>
      let s := s.unlessZero b (top32 b c)
      s.unlessZero a fun s => s.test true

/-- A product that begins at the second piece of a 64-bit number. -/
def second64 (p q : BitVec 16) (s : Accum 4) : Accum 4 :=
  s.add (cons 0#16 (cons (lowPiece (partialMult p q)) (cons (highPiece (partialMult p q))
    (cons 0#16 nil))))

/-- A product that begins at the third piece. -/
def third64 (p q : BitVec 16) (s : Accum 4) : Accum 4 :=
  s.add (cons 0#16 (cons 0#16 (cons (lowPiece (partialMult p q))
    (cons (highPiece (partialMult p q)) nil))))

/-- A product for the top piece. -/
def top64 (p q : BitVec 16) (s : Accum 4) : Accum 4 :=
  (s.test (partialMult p q >>> 16 != 0#64)).add
    (cons 0#16 (cons 0#16 (cons 0#16 (cons (lowPiece (partialMult p q)) nil))))

/-- The product of two 64-bit numbers. -/
def multiply64 : Parts 4 → Parts 4 → Accum 4
  | cons d (cons c (cons b (cons a nil))), cons h (cons g (cons f (cons e nil))) =>
    let s : Accum 4 :=
      { accum := cons (lowPiece (partialMult d h)) (cons (highPiece (partialMult d h))
          (cons 0#16 (cons 0#16 nil)))
        overflow := false }
    let s := s.unlessZero h fun s =>
      let s := s.unlessZero c (second64 c h)
      let s := s.unlessZero b (third64 b h)
      s.unlessZero a (top64 a h)
    let s := s.unlessZero g fun s =>
      let s := s.unlessZero d (second64 d g)
      let s := s.unlessZero c (third64 c g)
      let s := s.unlessZero b (top64 b g)
      s.unlessZero a fun s => s.test true
    let s := s.unlessZero f fun s =>
      let s := s.unlessZero d (third64 d f)
      let s := s.unlessZero c (top64 c f)
      s.unlessZero (a ||| b) fun s => s.test true
    s.unlessZero e fun s =>
      let s := s.unlessZero d (top64 d e)
      s.unlessZero (a ||| b ||| c) fun s => s.test true

/-- The product of the pieces, for each size. -/
def multiplyParts : (z : IntSize) → Parts z.pieces → Parts z.pieces → Accum z.pieces
  | .size16 => multiply16
  | .size32 => multiply32
  | .size64 => multiply64

/-- An operand without its sign. -/
def magnitude (signed : Bool) (opnd : Parts n) : Parts n :=
  if signed && opnd.sign then (arNegateInteger signed signed opnd).1 else opnd

def arMultiplyInteger (z : IntSize) (signed : Bool) (opnd1 opnd2 : Parts z.pieces) :
    Parts z.pieces × Status :=
  let resultNegative := (signed && opnd1.sign) ^^ (signed && opnd2.sign)
  let s := multiplyParts z (magnitude signed opnd1) (magnitude signed opnd2)
  let result := if resultNegative then (arNegateInteger signed signed s.accum).1 else s.accum
  let overflow :=
    if resultNegative then s.overflow || (!result.sign && !result.isZero)
    else s.overflow || (result.sign && signed)
  (result, { arStatus signed result with overflow := overflow })

/-! ## Division -/

/-- The loop of `ar_divide_integer`: the quotient and what is left. -/
def divideLoop : Nat → Parts n → Parts n → Parts n → Parts n × Parts n
  | 0, accum, dividend, _ => (accum, dividend)
  | seqcount + 1, accum, dividend, divisor =>
    let accum := shiftl accum 1
    let temp := (arSubtractInteger false dividend divisor).1
    if temp.sign = false then
      divideLoop seqcount accum.setLow temp (shiftr divisor 1)
    else divideLoop seqcount accum dividend (shiftr divisor 1)

/-- The division of numbers without sign; `none` is `ar_internal_error`. -/
def divideParts (dividend divisor : Parts n) : Option (Parts n × Parts n) :=
  let shiftcount := (arSubtractInteger false (single divisor.leadz n) (single dividend.leadz n)).1
  if shiftcount.sign = false then
    if shiftcount.val ≥ 16 * n then none
    else some (divideLoop (shiftcount.val + 1) (zero n) dividend (shiftl divisor shiftcount.val))
  else some (zero n, dividend)

/-- `ar_divide_integer`: quotient, remainder and status. -/
def arDivideInteger (signed : Bool) (opnd1 opnd2 : Parts n) : Option (Parts n × Parts n × Status):=
  if opnd2.isZero then some (zero n, zero n, { overflow := true })
  else if opnd1.isZero then some (zero n, zero n, { zero := true })
  else
    (divideParts (magnitude signed opnd1) (magnitude signed opnd2)).map fun r =>
      (if signed && opnd1.sign != opnd2.sign then (arNegateInteger signed false r.1).1 else r.1,
        if signed && opnd1.sign then (arNegateInteger signed false r.2).1 else r.2, {})

def arDivide (signed : Bool) (opnd1 opnd2 : Parts n) : Option (Parts n × Status) :=
  (arDivideInteger signed opnd1 opnd2).map fun (result, _, status) =>
    -- a result that is not zero and has the wrong sign
    let overflow := signed && (!result.isZero && (opnd1.sign ^^ opnd2.sign ^^ result.sign))
    (result, { (status.or (arStatus signed result)) with
      overflow := status.overflow || overflow })

def arMod (signed : Bool) (opnd1 opnd2 : Parts n) : Option (Parts n × Status) :=
  (arDivideInteger signed opnd1 opnd2).map fun (_, result, divStatus) =>
    let status := divStatus.or (arStatus signed result)
    (result, { status with
      overflow := status.overflow || (signed && !status.zero && (result.sign ^^ opnd1.sign)) })

/-! ## Comparison -/

/-- `ar_compare_integer`, called by `AR_compare`. -/
def arCompareInteger (signed : Bool) (opnd1 opnd2 : Parts n) : Ordering :=
  let subtractflags := (arSubtractInteger signed opnd1 opnd2).2.2
  if signed then
    if (subtractflags ^^^ (subtractflags >>> 2)) &&& 2#32 ≠ 0#32 then .lt
    else if subtractflags &&& 4#32 ≠ 0#32 then .eq
    else .gt
  else
    if subtractflags &&& 1#32 ≠ 0#32 then .lt
    else if subtractflags &&& 4#32 ≠ 0#32 then .eq
    else .gt

/-! ## Values -/

/-- The value of an operand of a signed or an unsigned type. -/
def value (signed : Bool) (x : Parts n) : Int :=
  if signed && x.sign then x.val - card n else x.val

/-- The values of the type of `n` pieces. -/
def InType (n : Nat) (signed : Bool) (v : Int) : Prop :=
  if signed then -(card n / 2 : Nat) ≤ v ∧ v < (card n / 2 : Nat) else 0 ≤ v ∧ v < card n

end operations

/-! ## Values and wrapping -/

section values
variable {n : Nat}

theorem eq_emod {v a C k : Int} (h0 : 0 ≤ v) (h1 : v < C) (h : a = v + C * k) : v = a % C := by
  rw [h, Int.add_mul_emod_self_left, Int.emod_eq_of_lt h0 h1]

theorem sign_cases (x : Parts n) (hn : 0 < n) :
    (x.sign = true ∧ card n ≤ 2 * x.val) ∨ (x.sign = false ∧ 2 * x.val < card n) := by
  have hiff := sign_iff x hn
  cases hx : x.sign with
  | true => exact .inl ⟨rfl, hiff.mp hx⟩
  | false =>
    refine .inr ⟨rfl, ?_⟩
    by_contra hlt
    have := hiff.mpr (by omega)
    rw [hx] at this
    cases this

theorem value_eq (signed : Bool) (x : Parts n) : ∃ d : Int, value signed x = x.val - card n * d:= by
  unfold value
  by_cases h : (signed && x.sign) = true
  · exact ⟨1, by rw [if_pos h, Int.mul_one]⟩
  · exact ⟨0, by rw [if_neg h, Int.mul_zero, Int.sub_zero]⟩

theorem value_inType (hn : 0 < n) (signed : Bool) (x : Parts n) :
    InType n signed (value signed x) := by
  have hlt := val_lt x
  have heven := card_even hn
  unfold value InType
  rcases sign_cases x hn with ⟨hs, hx⟩ | ⟨hs, hx⟩ <;> cases signed <;> simp [hs] <;> omega

/-! ## Addition and subtraction are exact -/

theorem arAddInteger_val (rs os : Bool) (x y : Parts n) :
    ((arAddInteger rs os x y).1.val : Int) = ((x.val : Int) + y.val) % card n := by
  obtain ⟨hsum, hle⟩ := add_spec x y 0 (by omega)
  have hlt := val_lt (add x y 0).1
  refine eq_emod (k := ((add x y 0).2 : Int)) (by omega) ?_ ?_
  · change ((add x y 0).1.val : Int) < _
    omega
  · change _ = ((add x y 0).1.val : Int) + _
    rw [← Int.natCast_mul]
    omega

theorem arAddInteger_correct (hn : 0 < n) (signed : Bool) (x y : Parts n) :
    ((arAddInteger signed signed x y).1.val : Int) = (value signed x + value signed y) % card n ∧
      ((arAddInteger signed signed x y).2.overflow = true ↔
        ¬ InType n signed (value signed x + value signed y)) := by
  constructor
  · rw [arAddInteger_val]
    obtain ⟨d, hx⟩ := value_eq signed x
    obtain ⟨e, hy⟩ := value_eq signed y
    rw [hx, hy, show (x.val : Int) - card n * d + (y.val - card n * e)
      = (x.val : Int) + y.val + card n * (-d - e) by ring, Int.add_mul_emod_self_left]
  · obtain ⟨hsum, hle⟩ := add_spec x y 0 (by omega)
    have hx := val_lt x
    have hy := val_lt y
    have hr := val_lt (add x y 0).1
    have heven := card_even hn
    have hcarry : (add x y 0).2 = 0 ∨ (add x y 0).2 = 1 := by omega
    unfold InType value arAddInteger
    cases signed with
    | false =>
      rcases hcarry with hc | hc <;> rw [hc] at hsum <;> simp [hc] <;> omega
    | true =>
      rcases hcarry with hc | hc <;> rw [hc] at hsum <;>
        rcases sign_cases x hn with ⟨hsx, hx'⟩ | ⟨hsx, hx'⟩ <;>
        rcases sign_cases y hn with ⟨hsy, hy'⟩ | ⟨hsy, hy'⟩ <;>
        rcases sign_cases (add x y 0).1 hn with ⟨hsr, hr'⟩ | ⟨hsr, hr'⟩ <;>
        simp [hsx, hsy, hsr] <;> omega

theorem arSubtractInteger_val (signed : Bool) (x y : Parts n) :
    ((arSubtractInteger signed x y).1.val : Int) = ((x.val : Int) - y.val) % card n := by
  obtain ⟨hdiff, hle⟩ := sub_spec x y 0 (by omega)
  have hlt := val_lt (sub x y 0).1
  refine eq_emod (k := -((sub x y 0).2 : Int)) (by omega) ?_ ?_
  · change ((sub x y 0).1.val : Int) < _
    omega
  · change _ = ((sub x y 0).1.val : Int) + _
    rw [Int.mul_neg, ← Int.natCast_mul]
    omega

theorem arSubtractInteger_correct (hn : 0 < n) (signed : Bool) (x y : Parts n) :
    ((arSubtractInteger signed x y).1.val : Int) = (value signed x - value signed y) % card n ∧
      ((arSubtractInteger signed x y).2.1.overflow = true ↔
        ¬ InType n signed (value signed x - value signed y)) := by
  constructor
  · rw [arSubtractInteger_val]
    obtain ⟨d, hx⟩ := value_eq signed x
    obtain ⟨e, hy⟩ := value_eq signed y
    rw [hx, hy, show (x.val : Int) - card n * d - (y.val - card n * e)
      = (x.val : Int) - y.val + card n * (e - d) by ring, Int.add_mul_emod_self_left]
  · obtain ⟨hdiff, hle⟩ := sub_spec x y 0 (by omega)
    have hx := val_lt x
    have hy := val_lt y
    have hr := val_lt (sub x y 0).1
    have heven := card_even hn
    have hcarry : (sub x y 0).2 = 0 ∨ (sub x y 0).2 = 1 := by omega
    have hstatus : (arStatus signed (sub x y 0).1).overflow = false := by
      unfold arStatus
      split <;> [rfl; split <;> rfl]
    unfold InType value
    simp only [arSubtractInteger, Status.or, hstatus, Bool.or_false]
    cases signed with
    | false =>
      rcases hcarry with hc | hc <;> rw [hc] at hdiff <;> simp [hc] <;> omega
    | true =>
      rcases hcarry with hc | hc <;> rw [hc] at hdiff <;>
        rcases sign_cases x hn with ⟨hsx, hx'⟩ | ⟨hsx, hx'⟩ <;>
        rcases sign_cases y hn with ⟨hsy, hy'⟩ | ⟨hsy, hy'⟩ <;>
        rcases sign_cases (sub x y 0).1 hn with ⟨hsr, hr'⟩ | ⟨hsr, hr'⟩ <;>
        simp [hsx, hsy, hsr] <;> omega

theorem arNegateInteger_val (hn : 0 < n) (rs os : Bool) (x : Parts n) :
    ((arNegateInteger rs os x).1.val : Int) = (-(x.val : Int)) % card n := by
  have hcomp := val_complement x
  change ((arAddInteger rs os x.complement (single 1 n)).1.val : Int) = _
  rw [arAddInteger_val, val_single hn (by decide)]
  rw [show (x.complement.val : Int) + (1 : Nat) = -(x.val : Int) + card n * 1 by omega,
    Int.add_mul_emod_self_left]

theorem magnitude_val (hn : 0 < n) (signed : Bool) (x : Parts n) :
    (magnitude signed x).val = (value signed x).natAbs := by
  have hlt := val_lt x
  have heven := card_even hn
  have hC := card_pos n
  unfold magnitude value
  by_cases h : (signed && x.sign) = true
  · rw [if_pos h, if_pos h]
    have hneg := arNegateInteger_val hn signed signed x
    have hx : 0 < x.val := by
      rw [Bool.and_eq_true] at h
      have := (sign_iff x hn).mp h.2
      omega
    have hmod : (-(x.val : Int)) % card n = card n - x.val :=
      (eq_emod (k := -1) (by omega) (by omega) (by omega)).symm
    omega
  · rw [if_neg h, if_neg h]
    simp

theorem szvc_compare : ∀ signed s z v c : Bool, (if signed then
      if (szvc s z v c ^^^ (szvc s z v c >>> 2)) &&& 2#32 ≠ 0#32 then Ordering.lt
      else if szvc s z v c &&& 4#32 ≠ 0#32 then .eq
      else .gt
    else
      if szvc s z v c &&& 1#32 ≠ 0#32 then .lt
      else if szvc s z v c &&& 4#32 ≠ 0#32 then .eq
      else .gt)
      = if signed then (if s != v then .lt else if z then .eq else .gt)
        else (if c then .lt else if z then .eq else .gt) := by
  decide

theorem arCompareInteger_eq (signed : Bool) (x y : Parts n) : arCompareInteger signed x y =
      if signed then
        (if (sub x y 0).1.sign != (x.sign != y.sign && x.sign != (sub x y 0).1.sign) then .lt
        else if (sub x y 0).1.isZero then .eq else .gt)
      else (if (sub x y 0).2 != 0 then .lt else if (sub x y 0).1.isZero then .eq else .gt) :=
  szvc_compare _ _ _ _ _

theorem arCompareInteger_correct (hn : 0 < n) (signed : Bool) (x y : Parts n) :
    arCompareInteger signed x y = compare (value signed x) (value signed y) := by
  obtain ⟨hdiff, hle⟩ := sub_spec x y 0 (by omega)
  have hx := val_lt x
  have hy := val_lt y
  have hr := val_lt (sub x y 0).1
  have heven := card_even hn
  have hzero := isZero_iff (sub x y 0).1
  have hcarry : (sub x y 0).2 = 0 ∨ (sub x y 0).2 = 1 := by omega
  rw [arCompareInteger_eq]
  have hlt : ∀ a b : Int, a < b → compare a b = .lt := fun a b h => compare_lt_iff_lt.mpr h
  have hgt : ∀ a b : Int, b < a → compare a b = .gt := fun a b h => compare_gt_iff_gt.mpr h
  have heq : ∀ a b : Int, a = b → compare a b = .eq := fun a b h => compare_eq_iff_eq.mpr h
  unfold value
  rcases hcarry with hc | hc <;> rw [hc] at hdiff <;>
    cases hz : (sub x y 0).1.isZero <;> rw [hz] at hzero <;> simp only [true_iff, false_iff,
      Bool.false_eq_true] at hzero <;>
    rcases sign_cases x hn with ⟨hsx, hx'⟩ | ⟨hsx, hx'⟩ <;>
    rcases sign_cases y hn with ⟨hsy, hy'⟩ | ⟨hsy, hy'⟩ <;>
    rcases sign_cases (sub x y 0).1 hn with ⟨hsr, hr'⟩ | ⟨hsr, hr'⟩ <;>
    cases signed <;> simp [hsx, hsy, hsr, hc] <;>
    first
      | omega
      | (symm; apply hlt; omega)
      | (symm; apply hgt; omega)
      | (symm; apply heq; omega)

end values

/-! ## Multiplication is exact -/

section products
variable {n : Nat} {s : Accum n} {S t : Nat}

/-- The accumulator holds the sum so far, and the status tells whether it is too large. -/
def Sums (s : Accum n) (S : Nat) : Prop :=
  s.accum.val = S % card n ∧ (s.overflow = true ↔ card n ≤ S)

theorem Sums.testAdd {c : Bool} {u : Parts n} (h : Sums s S) (hval : u.val = t % card n)
    (hc : c = true ↔ card n ≤ t) : Sums ((s.test c).add u) (S + t) := by
  obtain ⟨haccum, hover⟩ := h
  obtain ⟨hsum, hle⟩ := add_spec s.accum u 0 (by omega)
  have hr := val_lt (Parts.add s.accum u 0).1
  have hC := card_pos n
  have hadd := arAddInteger_val false false s.accum u
  constructor
  · change (arAddInteger false false s.accum u).1.val = _
    rw [add_mod, ← haccum, ← hval]
    exact_mod_cast hadd
  · have hcarry : (((s.test c).add u).overflow = true) ↔
        (s.overflow = true ∨ c = true) ∨ (Parts.add s.accum u 0).2 ≠ 0 := by
      simp [Accum.add, Accum.test, arAddInteger]
    rw [hcarry, hover, hc]
    by_cases hS : card n ≤ S
    · simp [hS, show card n ≤ S + t by omega]
    · by_cases ht : card n ≤ t
      · simp [ht, show card n ≤ S + t by omega]
      · rw [mod_eq_of_lt (by omega)] at haccum hval
        have hbit : (Parts.add s.accum u 0).2 = 0 ∨ (Parts.add s.accum u 0).2 = 1 := by omega
        rcases hbit with hb | hb <;> rw [hb] at hsum ⊢ <;> simp [hS, ht] <;> omega

theorem Sums.addTemp {temp : Parts n} (h : Sums s S) (hval : temp.val = t) :
    Sums (s.add temp) (S + t) := by
  have hlt := val_lt temp
  have hadd := h.testAdd (c := false) (u := temp) (t := t)
    (by rw [mod_eq_of_lt (by omega), hval]) (by simp only [Bool.false_eq_true, false_iff]; omega)
  rw [show s.test false = s by simp [Accum.test]] at hadd
  exact hadd

theorem Sums.testTrue (h : Sums s S) (hdvd : t % card n = 0) (hle : card n ≤ t) :
    Sums (s.test true) (S + t) := by
  refine ⟨?_, ?_⟩
  · rw [add_mod, hdvd, add_zero, mod_mod]
    exact h.1
  · simp only [Accum.test, Bool.or_true, true_iff]
    omega

theorem Sums.unlessZero {p : BitVec 16} {g : Accum n → Accum n} (h : Sums s S)
    (hstep : p ≠ 0#16 → Sums (g s) (S + t)) (hzero : p.toNat = 0 → t = 0) :
    Sums (s.unlessZero p g) (S + t) := by
  unfold Accum.unlessZero
  by_cases hp : p = 0#16
  · rw [if_neg (by simpa using hp), hzero (by rw [hp]; rfl), add_zero]
    exact h
  · rw [if_pos hp]
    exact hstep hp

theorem toNat_pos_of_ne {p : BitVec 16} (hp : p ≠ 0#16) : 0 < p.toNat := by
  rw [pos_iff_ne_zero]
  intro h
  exact hp (eq_of_toNat_eq h)

section

variable (p q : BitVec 16)
include p q

theorem mul_toNat_lt : p.toNat * q.toNat < 4294967296 := by
  have hp := p.isLt
  have hq := q.isLt
  calc p.toNat * q.toNat ≤ 65535 * 65535 := Nat.mul_le_mul (by omega) (by omega)
    _ < 4294967296 := by decide

theorem partialMult_toNat : (partialMult p q).toNat = p.toNat * q.toNat ∨
      (partialMult p q).toNat = p.toNat * q.toNat + (2 ^ 64 - 2 ^ 32) ∧
        2 ^ 31 ≤ p.toNat * q.toNat := by
  have hlt := mul_toNat_lt p q
  have hp := p.isLt
  have hq := q.isLt
  have hprod : (p.setWidth 32 * q.setWidth 32).toNat = p.toNat * q.toNat := by
    rw [BitVec.toNat_mul, toNat_setWidth, toNat_setWidth,
      mod_eq_of_lt (show p.toNat < 2 ^ 32 by omega),
      mod_eq_of_lt (show q.toNat < 2 ^ 32 by omega)]
    exact mod_eq_of_lt hlt
  unfold partialMult
  rw [BitVec.toNat_signExtend, toNat_setWidth, hprod, BitVec.msb_eq_decide, hprod]
  by_cases hneg : 2 ^ (32 - 1) ≤ p.toNat * q.toNat
  · refine .inr ⟨?_, hneg⟩
    simp only [hneg, decide_true, if_true]
    omega
  · refine .inl ?_
    simp only [hneg, decide_false]
    change _ + 0 = _
    omega

theorem lowPiece_toNat : (lowPiece (partialMult p q)).toNat = p.toNat * q.toNat % 65536:= by
  unfold lowPiece
  rw [toNat_setWidth]
  rcases partialMult_toNat p q with h | ⟨h, _⟩
  · rw [h]
  · rw [h]
    omega

theorem highPiece_toNat : (highPiece (partialMult p q)).toNat = p.toNat * q.toNat / 65536:= by
  have hlt := mul_toNat_lt p q
  unfold highPiece
  rw [toNat_setWidth, BitVec.toNat_ushiftRight, shiftRight_eq_div_pow]
  rcases partialMult_toNat p q with h | ⟨h, _⟩ <;> rw [h] <;> omega

theorem partialMult_large : (partialMult p q >>> 16 != 0#64) = true ↔ 65536 ≤ p.toNat * q.toNat:= by
  rw [bne_iff_ne, ne_eq, ← BitVec.toNat_inj, BitVec.toNat_ushiftRight, shiftRight_eq_div_pow]
  change ¬ _ = 0 ↔ _
  rcases partialMult_toNat p q with h | ⟨h, h'⟩ <;> rw [h] <;> omega

end

theorem multiply16_sums (x y : Parts 1) : Sums (multiply16 x y) (x.val * y.val) := by
  cases x with
  | cons a x =>
    cases x
    cases y with
    | cons b y =>
      cases y
      have hlow := lowPiece_toNat a b
      refine ⟨?_, ?_⟩
      · simp only [multiply16, val, hlow, mul_zero, add_zero]
        rfl
      · simp only [multiply16, val, mul_zero, add_zero]
        exact partialMult_large a b

theorem Sums.top32 {s : Accum 2} (h : Sums s S) (p q : BitVec 16) :
    Sums (top32 p q s) (S + p.toNat * q.toNat * 65536) := by
  have hcard : card 2 = 4294967296 := rfl
  refine h.testAdd ?_ ?_
  · simp only [val, lowPiece_toNat, hcard, toNat_ofNat]
    omega
  · rw [partialMult_large, hcard]
    omega

/-- Two pieces by two: the partial products are added with every carry. -/
theorem multiply32_sums (x y : Parts 2) : Sums (multiply32 x y) (x.val * y.val) := by
  have hcard : card 2 = 4294967296 := rfl
  match x, y with
  | .cons b (.cons a .nil), .cons d (.cons c .nil) =>
    have hfirst : Sums (⟨.cons (lowPiece (partialMult b d))
        (.cons (highPiece (partialMult b d)) .nil), false⟩ : Accum 2) (b.toNat * d.toNat) := by
      have hlt := mul_toNat_lt b d
      refine ⟨?_, ?_⟩
      · simp only [val, lowPiece_toNat, highPiece_toNat, hcard]
        omega
      · simp only [Bool.false_eq_true, false_iff, hcard]
        omega
    have hd := hfirst.unlessZero (p := d)
      (g := fun s => s.unlessZero a (Arith.top32 a d)) (t := a.toNat * d.toNat * 65536)
      (fun _ => hfirst.unlessZero (fun _ => hfirst.top32 a d) (fun h => by rw [h]; simp))
      (fun h => by rw [h]; simp)
    have hc := hd.unlessZero (p := c)
      (g := fun s => (s.unlessZero b (Arith.top32 b c)).unlessZero a fun s => s.test true)
      (t := b.toNat * c.toNat * 65536 + a.toNat * c.toNat * 4294967296)
      (fun hcne => by
        have hb := hd.unlessZero (p := b) (fun _ => hd.top32 b c) (fun h => by rw [h]; simp)
        rw [← add_assoc]
        refine hb.unlessZero (fun hane => ?_) (fun h => by rw [h]; simp)
        -- the product of the top pieces is too large
        have hpos := mul_pos (toNat_pos_of_ne hane) (toNat_pos_of_ne hcne)
        exact hb.testTrue (by rw [hcard]; omega) (by rw [hcard]; omega))
      (fun h => by rw [h]; simp)
    have htotal : (Parts.cons b (.cons a .nil)).val * (Parts.cons d (.cons c .nil)).val
        = b.toNat * d.toNat + a.toNat * d.toNat * 65536
          + (b.toNat * c.toNat * 65536 + a.toNat * c.toNat * 4294967296) := by
      simp only [val]
      ring
    rw [htotal]
    exact hc

theorem Sums.second64 {s : Accum 4} (h : Sums s S) (p q : BitVec 16) :
    Sums (second64 p q s) (S + p.toNat * q.toNat * 65536) := by
  refine h.addTemp ?_
  simp only [val, lowPiece_toNat, highPiece_toNat, toNat_ofNat]
  omega

theorem Sums.third64 {s : Accum 4} (h : Sums s S) (p q : BitVec 16) :
    Sums (third64 p q s) (S + p.toNat * q.toNat * 4294967296) := by
  refine h.addTemp ?_
  simp only [val, lowPiece_toNat, highPiece_toNat, toNat_ofNat]
  omega

theorem card_four : card 4 = 18446744073709551616 := rfl

theorem Sums.top64 {s : Accum 4} (h : Sums s S) (p q : BitVec 16) :
    Sums (top64 p q s) (S + p.toNat * q.toNat * 281474976710656) := by
  refine h.testAdd ?_ ?_
  · simp only [val, lowPiece_toNat, card_four, toNat_ofNat]
    omega
  · rw [partialMult_large, card_four]
    omega

theorem Sums.beyond {s : Accum 4} {p q : BitVec 16} (h : Sums s S) (hq : q ≠ 0#16) (u : Nat)
    (hp : p ≠ 0#16 → u ≠ 0) (hzero : p = 0#16 → u = 0) : Sums (s.unlessZero p fun s => s.test true)
      (S + q.toNat * u * 18446744073709551616) := by
  refine h.unlessZero (fun hne => ?_) (fun hz => ?_)
  · have hpos := mul_pos (toNat_pos_of_ne hq) (pos_iff_ne_zero.mpr (hp hne))
    exact h.testTrue (by rw [card_four]; omega) (by rw [card_four]; omega)
  · rw [hzero (eq_of_toNat_eq hz)]
    simp

theorem or_ne_zero {p q : BitVec 16} (h : p ||| q ≠ 0#16) : p.toNat ≠ 0 ∨ q.toNat ≠ 0 := by
  by_contra hnone
  rw [not_or, not_not, not_not] at hnone
  refine h ?_
  rw [eq_of_toNat_eq (x := p) (y := 0#16) hnone.1,
    eq_of_toNat_eq (x := q) (y := 0#16) hnone.2]
  rfl

theorem or_eq_zero {p q : BitVec 16} (h : p ||| q = 0#16) : p.toNat = 0 ∧ q.toNat = 0 := by
  rw [BitVec.or_eq_zero_iff] at h
  rw [h.1, h.2]
  exact ⟨rfl, rfl⟩

/-- Four pieces by four: the partial products are added with every carry, also past the top
piece. -/
theorem multiply64_sums (x y : Parts 4) : Sums (multiply64 x y) (x.val * y.val) := by
  match x, y with
  | .cons d (.cons c (.cons b (.cons a .nil))), .cons h (.cons g (.cons f (.cons e .nil))) =>
    have hfirst : Sums (⟨.cons (lowPiece (partialMult d h)) (.cons (highPiece (partialMult d h))
        (.cons 0#16 (.cons 0#16 .nil))), false⟩ : Accum 4) (d.toNat * h.toNat) := by
      have hlt := mul_toNat_lt d h
      refine ⟨?_, ?_⟩
      · simp only [val, lowPiece_toNat, highPiece_toNat, card_four, toNat_ofNat]
        omega
      · simp only [Bool.false_eq_true, false_iff, card_four]
        omega
    -- the row of h
    have hh := hfirst.unlessZero (p := h)
      (g := fun s => ((s.unlessZero c (Arith.second64 c h)).unlessZero b
        (Arith.third64 b h)).unlessZero a (Arith.top64 a h))
      (t := c.toNat * h.toNat * 65536 + b.toNat * h.toNat * 4294967296
        + a.toNat * h.toNat * 281474976710656)
      (fun _ => by
        have h1 := hfirst.unlessZero (p := c) (fun _ => hfirst.second64 c h)
          (fun hz => by rw [hz]; simp)
        have h2 := h1.unlessZero (p := b) (fun _ => h1.third64 b h) (fun hz => by rw [hz]; simp)
        have h3 := h2.unlessZero (p := a) (fun _ => h2.top64 a h) (fun hz => by rw [hz]; simp)
        simpa only [add_assoc] using h3)
      (fun hz => by rw [hz]; simp)
    -- the row of g
    have hg := hh.unlessZero (p := g)
      (g := fun s => (((s.unlessZero d (Arith.second64 d g)).unlessZero c
        (Arith.third64 c g)).unlessZero b (Arith.top64 b g)).unlessZero a fun s => s.test true)
      (t := d.toNat * g.toNat * 65536 + c.toNat * g.toNat * 4294967296
        + b.toNat * g.toNat * 281474976710656 + g.toNat * a.toNat * 18446744073709551616)
      (fun hne => by
        have h1 := hh.unlessZero (p := d) (fun _ => hh.second64 d g) (fun hz => by rw [hz]; simp)
        have h2 := h1.unlessZero (p := c) (fun _ => h1.third64 c g) (fun hz => by rw [hz]; simp)
        have h3 := h2.unlessZero (p := b) (fun _ => h2.top64 b g) (fun hz => by rw [hz]; simp)
        have h4 := h3.beyond hne (p := a) a.toNat
          (fun hane => pos_iff_ne_zero.mp (toNat_pos_of_ne hane)) (fun hz => by rw [hz]; rfl)
        simpa only [add_assoc] using h4)
      (fun hz => by rw [hz]; simp)
    -- the row of f
    have hf := hg.unlessZero (p := f)
      (g := fun s => ((s.unlessZero d (Arith.third64 d f)).unlessZero c
        (Arith.top64 c f)).unlessZero (a ||| b) fun s => s.test true)
      (t := d.toNat * f.toNat * 4294967296 + c.toNat * f.toNat * 281474976710656
        + f.toNat * (b.toNat + 65536 * a.toNat) * 18446744073709551616)
      (fun hne => by
        have h1 := hg.unlessZero (p := d) (fun _ => hg.third64 d f) (fun hz => by rw [hz]; simp)
        have h2 := h1.unlessZero (p := c) (fun _ => h1.top64 c f) (fun hz => by rw [hz]; simp)
        have h3 := h2.beyond hne (p := a ||| b) (b.toNat + 65536 * a.toNat)
          (fun hor => by have := or_ne_zero hor; omega)
          (fun hor => by have := or_eq_zero hor; omega)
        simpa only [add_assoc] using h3)
      (fun hz => by rw [hz]; simp)
    -- the row of e
    have he := hf.unlessZero (p := e)
      (g := fun s => (s.unlessZero d (Arith.top64 d e)).unlessZero (a ||| b ||| c)
        fun s => s.test true)
      (t := d.toNat * e.toNat * 281474976710656
        + e.toNat * (c.toNat + 65536 * b.toNat + 4294967296 * a.toNat) * 18446744073709551616)
      (fun hne => by
        have h1 := hf.unlessZero (p := d) (fun _ => hf.top64 d e) (fun hz => by rw [hz]; simp)
        have h2 := h1.beyond hne (p := a ||| b ||| c)
          (c.toNat + 65536 * b.toNat + 4294967296 * a.toNat)
          (fun hor => by
            rcases or_ne_zero hor with hab | hc
            · have := or_ne_zero (p := a) (q := b) (fun hz => hab (by rw [hz]; rfl))
              omega
            · omega)
          (fun hor => by
            obtain ⟨hab, hc⟩ := or_eq_zero hor
            have := or_eq_zero (p := a) (q := b) (eq_of_toNat_eq hab)
            omega)
        simpa only [add_assoc] using h2)
      (fun hz => by rw [hz]; simp)
    refine (congrArg (Sums _) ?_).mp he
    simp only [val]
    ring

theorem multiplyParts_sums (z : IntSize) (x y : Parts z.pieces) :
    Sums (multiplyParts z x y) (x.val * y.val) := by
  cases z with
  | size16 => exact multiply16_sums x y
  | size32 => exact multiply32_sums x y
  | size64 => exact multiply64_sums x y

end products

section multiplication
variable {n : Nat}

/-- What an operation returns for the mathematical result `v`. -/
def Exact (signed : Bool) (r : Parts n × Status) (v : Int) : Prop :=
  (r.1.val : Int) = v % card n ∧ (r.2.overflow = true ↔ ¬ InType n signed v)

theorem value_sign (signed : Bool) (x : Parts n) :
    (signed && x.sign) = true ↔ value signed x < 0 := by
  have hlt := val_lt x
  unfold value
  by_cases h : (signed && x.sign) = true
  · simp only [h, if_true, true_iff]
    omega
  · simp only [h, Bool.false_eq_true, if_false, false_iff]
    omega

/-- From the product of magnitudes to the signed result: negation, overflow flag and sign, for all
sizes at once. -/
theorem signed_exact (hn : 0 < n) (signed neg tooBig : Bool) (m : Parts n) (S : Nat)
    (hneg : neg = true → signed = true) (hm : m.val = S % card n)
    (hover : tooBig = true ↔ card n ≤ S) (result : Parts n)
    (hresult : result = if neg then (arNegateInteger signed signed m).1 else m) :
    (result.val : Int) = (if neg then -(S : Int) else S) % card n ∧
      ((if neg then tooBig || (!result.sign && !result.isZero)
        else tooBig || (result.sign && signed)) = true
        ↔ ¬ InType n signed (if neg then -(S : Int) else S)) := by
  have hC := card_pos n
  have heven := card_even hn
  have hr := val_lt result
  have hzero := isZero_iff result
  cases neg with
  | true =>
    have hs : signed = true := hneg rfl
    subst hs
    simp only [if_true] at hresult ⊢
    have hval : (result.val : Int) = (-(S : Int)) % card n := by
      have hsplit := div_add_mod S (card n)
      rw [hresult, arNegateInteger_val hn, hm, show (-((S % card n : Nat) : Int))
        = -(S : Int) + card n * ((S / card n : Nat) : Int) by rw [← Int.natCast_mul]; omega,
        Int.add_mul_emod_self_left]
    refine ⟨hval, ?_⟩
    unfold InType
    rw [if_pos rfl, Bool.or_eq_true, hover]
    by_cases hlarge : card n ≤ S
    · simp only [hlarge, true_or, true_iff]
      omega
    · have hmod : (-(S : Int)) % card n = if S = 0 then 0 else (card n : Int) - S := by
        by_cases hS : S = 0
        · simp [hS]
        · rw [if_neg hS]
          exact (eq_emod (k := -1) (by omega) (by omega) (by omega)).symm
      rw [hmod] at hval
      rcases sign_cases result hn with ⟨hsr, hr'⟩ | ⟨hsr, hr'⟩ <;>
        cases hz : result.isZero <;> rw [hz] at hzero <;>
        simp only [true_iff, false_iff, Bool.false_eq_true] at hzero <;>
        simp only [hsr, hlarge] <;> split at hval <;> simp <;> omega
  | false =>
    simp only [Bool.false_eq_true, if_false] at hresult ⊢
    rw [hresult] at hr ⊢
    refine ⟨by rw [hm]; exact_mod_cast rfl, ?_⟩
    unfold InType
    rw [Bool.or_eq_true, hover]
    by_cases hlarge : card n ≤ S
    · cases signed <;> simp only [hlarge, true_or, true_iff] <;> simp <;> omega
    · rw [mod_eq_of_lt (by omega)] at hm
      rcases sign_cases m hn with ⟨hsr, hr'⟩ | ⟨hsr, hr'⟩ <;> cases signed <;>
        simp [hsr, hlarge] <;> omega

theorem arMultiplyInteger_correct (z : IntSize) (signed : Bool) (x y : Parts z.pieces) :
    Exact signed (arMultiplyInteger z signed x y) (value signed x * value signed y) := by
  have hn : 0 < z.pieces := by cases z <;> decide
  obtain ⟨hm, hover⟩ := multiplyParts_sums z (magnitude signed x) (magnitude signed y)
  have hx := value_sign signed x
  have hy := value_sign signed y
  rw [magnitude_val hn, magnitude_val hn] at hm hover
  have hsigned := signed_exact hn signed ((signed && x.sign) ^^ (signed && y.sign)) _ _ _
    (by cases signed <;> simp) hm hover _ rfl
  have hprod : value signed x * value signed y
      = if ((signed && x.sign) ^^ (signed && y.sign)) = true
        then -(((value signed x).natAbs * (value signed y).natAbs : Nat) : Int)
        else (((value signed x).natAbs * (value signed y).natAbs : Nat) : Int) := by
    push_cast
    cases hsx : (signed && x.sign) <;> cases hsy : (signed && y.sign) <;>
      rw [hsx] at hx <;> rw [hsy] at hy <;> simp only [true_iff, false_iff, Bool.false_eq_true,
        not_lt] at hx hy
    · rw [abs_of_nonneg hx, abs_of_nonneg hy]
      rfl
    · rw [abs_of_nonneg hx, abs_of_neg hy]
      simp
    · rw [abs_of_neg hx, abs_of_nonneg hy]
      simp
    · rw [abs_of_neg hx, abs_of_neg hy]
      simp
  unfold Exact
  rw [hprod]
  exact hsigned

end multiplication

/-! ## Division is exact -/

section division
variable {n : Nat}

theorem difference_sign (hn : 0 < n) (D V : Parts n) (h1 : D.val < V.val + card n / 2)
    (h2 : V.val ≤ D.val + card n / 2) :
    ((arSubtractInteger false D V).1.sign = false ↔ V.val ≤ D.val) ∧
      (V.val ≤ D.val → (arSubtractInteger false D V).1.val = D.val - V.val) := by
  have hD := val_lt D
  have hV := val_lt V
  have heven := card_even hn
  have hdiff := arSubtractInteger_val false D V
  by_cases hle : V.val ≤ D.val
  · have hmod : ((D.val : Int) - V.val) % card n = (D.val : Int) - V.val :=
      Int.emod_eq_of_lt (by omega) (by omega)
    rw [hmod] at hdiff
    refine ⟨iff_of_true ?_ hle, fun _ => by omega⟩
    rcases sign_cases (arSubtractInteger false D V).1 hn with ⟨_, hr⟩ | ⟨hs, _⟩
    · omega
    · exact hs
  · have hmod : ((D.val : Int) - V.val) % card n = (D.val : Int) - V.val + card n :=
      (eq_emod (k := -1) (by omega) (by omega) (by omega)).symm
    rw [hmod] at hdiff
    refine ⟨iff_of_false ?_ hle, fun h => absurd h hle⟩
    rcases sign_cases (arSubtractInteger false D V).1 hn with ⟨hs, _⟩ | ⟨_, hr⟩
    · rw [hs]
      decide
    · omega

/-- The division loop, by induction on the remaining shifts: what is left of the dividend stays
below twice the shifted divisor, and the quotient bits found so far stand above those to come. -/
theorem divideLoop_spec (hn : 0 < n) (v : Nat) (hv : 0 < v) : ∀ (k : Nat) (A D V : Parts n),
    V.val = v * 2 ^ k → D.val < 2 * V.val → D.val < V.val + card n / 2 →
    V.val ≤ D.val + card n / 2 → (A.val + 1) * 2 ^ (k + 1) ≤ card n →
    (divideLoop (k + 1) A D V).1.val = A.val * 2 ^ (k + 1) + D.val / v ∧
      (divideLoop (k + 1) A D V).2.val = D.val % v := by
  have heven := card_even hn
  intro k
  induction k with
  | zero =>
    -- the last step: what is left is below the divisor
    intro A D V hV hlt h1 h2 hA
    obtain ⟨hsign, hdiff⟩ := difference_sign hn D V h1 h2
    have hshift := val_shiftl A 1 (by omega)
    rw [pow_one, mod_eq_of_lt (by omega)] at hshift
    rw [pow_zero, mul_one] at hV
    simp only [divideLoop]
    by_cases hle : V.val ≤ D.val
    · rw [if_pos (hsign.mpr hle), hdiff hle, val_setLow _ hn (by omega), hshift]
      have hdiv : D.val / v = 1 := by
        rw [Nat.div_eq_iff hv]
        omega
      have hmod := div_add_mod D.val v
      rw [hdiv] at hmod ⊢
      omega
    · have hlt' : D.val < v := by omega
      rw [if_neg (fun h => hle (hsign.mp h)), hshift, div_eq_of_lt hlt', mod_eq_of_lt hlt']
      exact ⟨rfl, rfl⟩
  | succ k ih =>
    intro A D V hV hlt h1 h2 hA
    obtain ⟨hsign, hdiff⟩ := difference_sign hn D V h1 h2
    have hVlt := val_lt V
    have hpow : 2 ^ (k + 1 + 1) = 2 * 2 ^ (k + 1) := by rw [pow_succ _ (k + 1), mul_comm]
    have hroom : 2 * (A.val + 1) * 2 ^ (k + 1) ≤ card n := by
      rw [hpow] at hA
      calc 2 * (A.val + 1) * 2 ^ (k + 1) = (A.val + 1) * (2 * 2 ^ (k + 1)) := by ring
        _ ≤ card n := hA
    have htwo : 2 * (A.val + 1) ≤ card n :=
      Nat.le_trans (Nat.le_mul_of_pos_right _ (Nat.two_pow_pos _)) hroom
    have hshift := val_shiftl A 1 (by omega)
    rw [pow_one, mod_eq_of_lt (by omega)] at hshift
    have hhalf := val_shiftr V 1 (by omega)
    have hVhalf : V.val = 2 * (v * 2 ^ k) := by
      rw [hV, pow_succ]
      ring
    rw [Nat.pow_one, hVhalf, Nat.mul_div_cancel_left _ (by decide)] at hhalf
    rw [divideLoop]
    by_cases hle : V.val ≤ D.val
    · -- the divisor fits: a quotient bit of 1
      rw [if_pos (hsign.mpr hle)]
      have hset := val_setLow (shiftl A 1) hn (by omega)
      have hD' := hdiff hle
      obtain ⟨hq, hr⟩ := ih (shiftl A 1).setLow (arSubtractInteger false D V).1 (shiftr V 1) hhalf
        (by omega) (by omega) (by omega) (by
          rw [hset, hshift]
          calc (A.val * 2 + 1 + 1) * 2 ^ (k + 1) = 2 * (A.val + 1) * 2 ^ (k + 1) := by ring
            _ ≤ card n := hroom)
      have hsplit : D.val = (arSubtractInteger false D V).1.val + v * 2 ^ (k + 1) := by
        rw [hD', ← hV]
        omega
      rw [hq, hr, hsplit, add_mul_div_left _ _ hv, add_mul_mod_self_left, hset, hshift, hpow]
      refine ⟨by ring, rfl⟩
    · -- it does not: a bit of 0
      rw [if_neg (fun h => hle (hsign.mp h))]
      obtain ⟨hq, hr⟩ := ih (shiftl A 1) D (shiftr V 1) hhalf (by omega) (by omega) (by omega) (by
        rw [hshift]
        refine le_trans (mul_le_mul_right _ ?_) hroom
        omega)
      rw [hq, hr, hshift, hpow]
      exact ⟨by ring, rfl⟩

/-- Aligning the divisor under the dividend establishes the bounds of the loop. -/
theorem divideParts_spec (hn : 0 < n) (hn4 : n ≤ 4) (D V : Parts n) (hD : D.val ≠ 0)
    (hV : V.val ≠ 0) :
    ∃ q r, divideParts D V = some (q, r) ∧ q.val = D.val / V.val ∧ r.val = D.val % V.val := by
  obtain ⟨hd, hdlo, hdhi⟩ := leadz_spec D hD
  obtain ⟨hv, hvlo, hvhi⟩ := leadz_spec V hV
  have heven := card_even hn
  have hbig : 65536 ≤ card n := by
    obtain ⟨m, rfl⟩ := exists_eq_succ_of_ne_zero (show n ≠ 0 by omega)
    rw [card_succ]
    have := card_pos m
    omega
  have hcount := arSubtractInteger_val false (single V.leadz n) (single D.leadz n)
  rw [val_single hn (by omega), val_single hn (by omega)] at hcount
  obtain ⟨hsign, hdiff⟩ := difference_sign hn (single V.leadz n) (single D.leadz n)
    (by rw [val_single hn (by omega), val_single hn (by omega)]; omega)
    (by rw [val_single hn (by omega), val_single hn (by omega)]; omega)
  rw [val_single hn (by omega), val_single hn (by omega)] at hsign hdiff
  unfold divideParts
  simp only
  by_cases hle : D.leadz ≤ V.leadz
  · have hsc := hdiff hle
    rw [if_pos (hsign.mpr hle), hsc, if_neg (by omega)]
    obtain ⟨c, hc⟩ : ∃ c, c = V.leadz - D.leadz := ⟨_, rfl⟩
    obtain ⟨T, hT⟩ : ∃ T, T = 2 ^ (16 * n - 1 - D.leadz) := ⟨_, rfl⟩
    rw [← hc]
    have htop : 2 ^ (16 * n - D.leadz) = 2 * T := by
      rw [hT, show 16 * n - D.leadz = 16 * n - 1 - D.leadz + 1 by omega, pow_succ, mul_comm]
    have hcard : 2 * T ≤ card n := by
      rw [← htop]
      exact Nat.pow_le_pow_right (by decide) (Nat.sub_le _ _)
    have hlo : T ≤ V.val * 2 ^ c := by
      calc T = 2 ^ (16 * n - 1 - V.leadz) * 2 ^ c := by
            rw [hT, ← pow_add]
            congr 1
            omega
        _ ≤ V.val * 2 ^ c := mul_le_mul_right _ hvlo
    have hhi : V.val * 2 ^ c < 2 * T := by
      calc V.val * 2 ^ c < 2 ^ (16 * n - V.leadz) * 2 ^ c :=
            Nat.mul_lt_mul_of_pos_right hvhi (Nat.two_pow_pos _)
        _ = 2 * T := by
            rw [← htop, ← pow_add]
            congr 1
            omega
    have hshift := val_shiftl V c (by omega)
    rw [mod_eq_of_lt (by omega)] at hshift
    rw [← hT] at hdlo
    rw [htop] at hdhi
    obtain ⟨hq, hr⟩ := divideLoop_spec hn V.val (pos_iff_ne_zero.mpr hV) c (zero n) D
      (shiftl V c) hshift (by omega) (by omega) (by omega) (by
        rw [val_zero, zero_add, one_mul]
        exact Nat.pow_le_pow_right (by decide) (by omega))
    rw [val_zero, zero_mul, zero_add] at hq
    exact ⟨_, _, rfl, hq, hr⟩
  · rw [if_neg (fun h => hle (hsign.mp h))]
    have hlt : D.val < V.val := by
      calc D.val < 2 ^ (16 * n - D.leadz) := hdhi
        _ ≤ 2 ^ (16 * n - 1 - V.leadz) := Nat.pow_le_pow_right (by decide) (by omega)
        _ ≤ V.val := hvlo
    exact ⟨_, _, rfl, by rw [val_zero, div_eq_of_lt hlt], (mod_eq_of_lt hlt).symm⟩

end division

section quotients
variable {n : Nat}

theorem arStatus_overflow (signed : Bool) (x : Parts n) : (arStatus signed x).overflow = false := by
  unfold arStatus
  split
  · rfl
  · split <;> rfl

theorem value_eq_zero (signed : Bool) (x : Parts n) : value signed x = 0 ↔ x.val = 0 := by
  have hlt := val_lt x
  have hC := card_pos n
  have hsign := value_sign signed x
  unfold value at hsign ⊢
  by_cases h : (signed && x.sign) = true
  · simp only [h, if_true] at hsign ⊢
    constructor
    · omega
    · intro hx
      -- zero has no sign
      have hn : 0 < n := by
        rcases Nat.eq_zero_or_pos n with rfl | hn
        · cases x
          simp [sign] at h
        · exact hn
      rw [Bool.and_eq_true] at h
      have := (sign_iff x hn).mp h.2
      omega
  · simp only [h, Bool.false_eq_true, if_false]
    omega

/-- The signed division divides magnitudes and sets the signs after: the quotient is truncated, the
remainder has the sign of the dividend. -/
theorem arDivideInteger_spec (hn : 0 < n) (hn4 : n ≤ 4) (signed : Bool) (x y : Parts n)
    (hy : value signed y ≠ 0) :
    ∃ q r st, arDivideInteger signed x y = some (q, r, st) ∧ st.overflow = false ∧
      (st.zero = true → r.isZero = true) ∧
      (q.val : Int) = (value signed x).tdiv (value signed y) % card n ∧
      (r.val : Int) = (value signed x).tmod (value signed y) % card n := by
  have hyval : y.val ≠ 0 := fun h => hy ((value_eq_zero signed y).mpr h)
  have hyzero : y.isZero = false := by
    rw [← Bool.not_eq_true, isZero_iff]
    exact hyval
  have hC := card_pos n
  unfold arDivideInteger
  rw [hyzero]
  -- a dividend of zero is answered before the loop
  by_cases hx : x.isZero = true
  · have hxv : value signed x = 0 := (value_eq_zero signed x).mpr ((isZero_iff x).mp hx)
    refine ⟨zero n, zero n, { zero := true }, by simp [hx], rfl, fun _ => ?_, ?_, ?_⟩
    · rw [isZero_iff, val_zero]
    · rw [hxv, val_zero]
      simp
    · rw [hxv, val_zero]
      simp
  · have hxv : value signed x ≠ 0 := by
      intro h
      exact hx ((isZero_iff x).mpr ((value_eq_zero signed x).mp h))
    obtain ⟨q, r, heq, hq, hr⟩ := divideParts_spec hn hn4 (magnitude signed x) (magnitude signed y)
      (by rw [magnitude_val hn]; omega) (by rw [magnitude_val hn]; omega)
    rw [magnitude_val hn, magnitude_val hn] at hq hr
    have hsx := value_sign signed x
    have hsy := value_sign signed y
    refine ⟨_, _, _, by rw [if_neg (by simp), if_neg hx, heq]; rfl, rfl,
      fun h => (by cases h), ?_, ?_⟩
    · -- the quotient
      have hneg : (signed && x.sign != y.sign) = true ↔
          ((signed && x.sign) ^^ (signed && y.sign)) = true := by
        cases signed <;> cases x.sign <;> cases y.sign <;> decide
      have htdiv : (value signed x).tdiv (value signed y) = if (signed && x.sign != y.sign) = true
            then -(((value signed x).natAbs / (value signed y).natAbs : Nat) : Int)
            else (((value signed x).natAbs / (value signed y).natAbs : Nat) : Int) := by
        simp only [hneg]
        cases hbx : (signed && x.sign) <;> cases hby : (signed && y.sign) <;>
          rw [hbx] at hsx <;> rw [hby] at hsy <;> simp only [true_iff, false_iff,
            Bool.false_eq_true, not_lt] at hsx hsy
        · obtain ⟨a, ha⟩ := eq_ofNat_of_zero_le hsx
          obtain ⟨b, hb⟩ := eq_ofNat_of_zero_le hsy
          rw [ha, hb]
          rfl
        · obtain ⟨a, ha⟩ := eq_ofNat_of_zero_le hsx
          obtain ⟨b, hb⟩ := eq_ofNat_of_zero_le (show 0 ≤ -value signed y by omega)
          rw [ha, show value signed y = -(b : Int) by omega, Int.tdiv_neg, natAbs_neg]
          rfl
        · obtain ⟨a, ha⟩ := eq_ofNat_of_zero_le (show 0 ≤ -value signed x by omega)
          obtain ⟨b, hb⟩ := eq_ofNat_of_zero_le hsy
          rw [hb, show value signed x = -(a : Int) by omega, Int.neg_tdiv, natAbs_neg]
          rfl
        · obtain ⟨a, ha⟩ := eq_ofNat_of_zero_le (show 0 ≤ -value signed x by omega)
          obtain ⟨b, hb⟩ := eq_ofNat_of_zero_le (show 0 ≤ -value signed y by omega)
          rw [show value signed x = -(a : Int) by omega, show value signed y = -(b : Int) by omega,
            Int.neg_tdiv, Int.tdiv_neg, natAbs_neg, natAbs_neg, Int.neg_neg]
          rfl
      rw [htdiv, ← hq]
      by_cases h : (signed && x.sign != y.sign) = true
      · rw [if_pos h, if_pos h, arNegateInteger_val hn]
      · rw [if_neg h, if_neg h]
        have hlt := val_lt q
        exact (Int.emod_eq_of_lt (Int.natCast_nonneg _) (by exact_mod_cast hlt)).symm
    · -- the remainder
      have htmod : (value signed x).tmod (value signed y) = if (signed && x.sign) = true
            then -(((value signed x).natAbs % (value signed y).natAbs : Nat) : Int)
            else (((value signed x).natAbs % (value signed y).natAbs : Nat) : Int) := by
        have habs : (value signed x).tmod (value signed y)
            = (value signed x).tmod ((value signed y).natAbs : Int) := by
          rcases Int.natAbs_eq (value signed y) with hv | hv
          · rw [← hv]
          · rw [show ((value signed y).natAbs : Int) = -value signed y by omega, Int.tmod_neg]
        rw [habs]
        by_cases h : (signed && x.sign) = true
        · rw [if_pos h]
          have hneg := hsx.mp h
          obtain ⟨a, ha⟩ := eq_ofNat_of_zero_le (show 0 ≤ -value signed x by omega)
          rw [show value signed x = -(a : Int) by omega, Int.neg_tmod, natAbs_neg]
          rfl
        · rw [if_neg h]
          have hpos : 0 ≤ value signed x := by
            rw [← not_lt]
            exact fun hlt => h (hsx.mpr hlt)
          obtain ⟨a, ha⟩ := eq_ofNat_of_zero_le hpos
          rw [ha]
          rfl
      rw [htmod, ← hr]
      by_cases h : (signed && x.sign) = true
      · rw [if_pos h, if_pos h, arNegateInteger_val hn]
      · rw [if_neg h, if_neg h]
        have hlt := val_lt r
        exact (Int.emod_eq_of_lt (Int.natCast_nonneg _) (by exact_mod_cast hlt)).symm

theorem tdiv_range (hn : 0 < n) (signed : Bool) (x y : Parts n) (hy : value signed y ≠ 0) :
    if signed then
      -(card n / 2 : Nat) ≤ (value signed x).tdiv (value signed y) ∧
        (value signed x).tdiv (value signed y) ≤ (card n / 2 : Nat)
    else 0 ≤ (value signed x).tdiv (value signed y) ∧
      (value signed x).tdiv (value signed y) < card n := by
  have hx := value_inType hn signed x
  have hyin := value_inType hn signed y
  have habs : ((value signed x).tdiv (value signed y)).natAbs ≤ (value signed x).natAbs := by
    rw [Int.natAbs_tdiv]
    exact div_le_self _ _
  unfold InType at hx hyin
  cases signed with
  | true =>
    simp only [if_true] at hx ⊢
    omega
  | false =>
    simp only [Bool.false_eq_true, if_false] at hx hyin ⊢
    have hnonneg := Int.tdiv_nonneg hx.1 hyin.1
    omega

theorem tdiv_sign (a b : Int) (hb : b ≠ 0) :
    (a.tdiv b < 0 → (a < 0 ↔ 0 < b)) ∧ (0 < a.tdiv b → (a < 0 ↔ b < 0)) := by
  rcases Int.lt_trichotomy a 0 with ha | ha | ha <;> rcases Int.lt_or_gt_of_ne hb with hb' | hb'
  · have := Int.tdiv_nonneg_of_nonpos_of_nonpos (Int.le_of_lt ha) (Int.le_of_lt hb')
    omega
  · have h := Int.tdiv_nonneg (show 0 ≤ -a by omega) (Int.le_of_lt hb')
    rw [Int.neg_tdiv] at h
    omega
  · rw [ha]
    simp
  · rw [ha]
    simp
  · have h := Int.tdiv_nonneg (Int.le_of_lt ha) (show 0 ≤ -b by omega)
    rw [Int.tdiv_neg] at h
    omega
  · have := Int.tdiv_nonneg (Int.le_of_lt ha) (Int.le_of_lt hb')
    omega

section

variable (hn : 0 < n) (hn4 : n ≤ 4) (signed : Bool) (x y : Parts n) (hy : value signed y ≠ 0)
include hn hn4 signed x y hy

theorem arDivide_correct : ∃ r, arDivide signed x y = some r ∧
      Exact signed r ((value signed x).tdiv (value signed y)) := by
  obtain ⟨q, r, st, heq, hst, _, hq, _⟩ := arDivideInteger_spec hn hn4 signed x y hy
  refine ⟨_, by rw [arDivide, heq]; rfl, hq, ?_⟩
  have hrange := tdiv_range hn signed x y hy
  obtain ⟨hneg, hpos⟩ := tdiv_sign (value signed x) (value signed y) hy
  have hsx := value_sign signed x
  have hsy := value_sign signed y
  have hlt := val_lt q
  have heven := card_even hn
  have hzero := isZero_iff q
  obtain ⟨v, hv⟩ : ∃ v, v = (value signed x).tdiv (value signed y) := ⟨_, rfl⟩
  rw [← hv] at hq hrange hneg hpos ⊢
  simp only [hst, Bool.false_or]
  unfold InType
  cases signed with
  | false =>
    simp only [Bool.false_eq_true, if_false, Bool.false_and] at hrange ⊢
    simp only [false_iff, not_not]
    exact hrange
  | true =>
    simp only [if_true, Bool.true_and] at hrange hsx hsy ⊢
    have hmod : v % card n = if v < 0 then v + card n else v := by
      by_cases hvneg : v < 0
      · rw [if_pos hvneg]
        exact (eq_emod (k := -1) (by omega) (by omega) (by omega)).symm
      · rw [if_neg hvneg]
        exact Int.emod_eq_of_lt (by omega) (by omega)
    rw [hmod] at hq
    cases hz : q.isZero <;> rw [hz] at hzero <;>
      simp only [true_iff, false_iff, Bool.false_eq_true] at hzero <;>
      cases hbx : x.sign <;> rw [hbx] at hsx <;> cases hby : y.sign <;> rw [hby] at hsy <;>
      simp only [true_iff, false_iff, Bool.false_eq_true, not_lt] at hsx hsy <;>
      rcases sign_cases q hn with ⟨hs, hq'⟩ | ⟨hs, hq'⟩ <;> simp [hs] <;> split at hq <;> omega

theorem arMod_correct : ∃ r, arMod signed x y = some r ∧
      Exact signed r ((value signed x).tmod (value signed y)) := by
  obtain ⟨q, r, st, heq, hst, hstz, _, hr⟩ := arDivideInteger_spec hn hn4 signed x y hy
  refine ⟨_, by rw [arMod, heq]; rfl, hr, ?_⟩
  have hx := value_inType hn signed x
  have hsx := value_sign signed x
  have hlt := val_lt r
  have heven := card_even hn
  have hzero := isZero_iff r
  obtain ⟨v, hv⟩ : ∃ v, v = (value signed x).tmod (value signed y) := ⟨_, rfl⟩
  -- the remainder has the dividend's sign, and is not larger
  have habs : v.natAbs ≤ (value signed x).natAbs := by
    rw [hv, Int.natAbs_tmod]
    exact mod_le _ _
  have hnonneg : 0 ≤ value signed x → 0 ≤ v := fun h => hv ▸ Int.tmod_nonneg _ h
  have hnonpos : value signed x ≤ 0 → v ≤ 0 := fun h => by
    have hneg := Int.tmod_nonneg (value signed y) (show 0 ≤ -value signed x by omega)
    rw [Int.neg_tmod] at hneg
    omega
  rw [← hv] at hr ⊢
  unfold InType at hx ⊢
  have hstatus : (st.or (arStatus signed r)).overflow = false := by
    simp [Status.or, hst, arStatus_overflow]
  have hzeroBit : (st.or (arStatus signed r)).zero = r.isZero := by
    cases hz : r.isZero with
    | true => simp [Status.or, arStatus, hz]
    | false =>
      have hstf : st.zero = false := by
        cases hb : st.zero with
        | false => rfl
        | true =>
          rw [hstz hb] at hz
          cases hz
      simp only [Status.or, arStatus, hz, hstf]
      split
      · rename_i h
        cases h
      · split <;> rfl
  simp only [hstatus, hzeroBit, Bool.false_or]
  cases signed with
  | false =>
    simp only [Bool.false_eq_true, if_false, Bool.false_and] at hx ⊢
    simp only [false_iff, not_not]
    have := hnonneg hx.1
    omega
  | true =>
    simp only [if_true, Bool.true_and] at hx hsx ⊢
    have hmod : v % card n = if v < 0 then v + card n else v := by
      by_cases hvneg : v < 0
      · rw [if_pos hvneg]
        exact (eq_emod (k := -1) (by omega) (by omega) (by omega)).symm
      · rw [if_neg hvneg]
        exact Int.emod_eq_of_lt (by omega) (by omega)
    rw [hmod] at hr
    cases hz : r.isZero <;> rw [hz] at hzero <;>
      simp only [true_iff, false_iff, Bool.false_eq_true] at hzero <;>
      cases hbx : x.sign <;> rw [hbx] at hsx <;>
      simp only [true_iff, false_iff, Bool.false_eq_true, not_lt] at hsx <;>
      rcases sign_cases r hn with ⟨hs, hr'⟩ | ⟨hs, hr'⟩ <;> simp [hs] <;> split at hr <;> omega

end

end quotients

/-! ## Integer arithmetic is exact -/

/-- Every operation, on operands of one type. -/
theorem integerArithmetic_exact (z : IntSize) (signed : Bool) (x y : Parts z.pieces) :
    Exact signed (arAddInteger signed signed x y) (value signed x + value signed y) ∧
      Exact signed ((arSubtractInteger signed x y).1, (arSubtractInteger signed x y).2.1)
        (value signed x - value signed y) ∧
      Exact signed (arMultiplyInteger z signed x y) (value signed x * value signed y) ∧
      (value signed y ≠ 0 → (∃ r, arDivide signed x y = some r ∧
          Exact signed r ((value signed x).tdiv (value signed y))) ∧
        ∃ r, arMod signed x y = some r ∧ Exact signed r ((value signed x).tmod (value signed y))) ∧
      arCompareInteger signed x y = compare (value signed x) (value signed y) := by
  have hn : 0 < z.pieces := by cases z <;> decide
  have hn4 : z.pieces ≤ 4 := by cases z <;> decide
  exact ⟨arAddInteger_correct hn signed x y, arSubtractInteger_correct hn signed x y,
    arMultiplyInteger_correct z signed x y,
    fun hy => ⟨arDivide_correct hn hn4 signed x y hy, arMod_correct hn hn4 signed x y hy⟩,
    arCompareInteger_correct hn signed x y⟩

theorem integerArithmetic_exact_least :
    ∃ r, arDivide (n := 2) true (.cons 0#16 (.cons 0x8000#16 .nil))
        (.cons 0xFFFF#16 (.cons 0xFFFF#16 .nil)) = some r ∧
      Exact true r ((-2147483648 : Int).tdiv (-1)) :=
  ((integerArithmetic_exact .size32 true (.cons 0#16 (.cons 0x8000#16 .nil))
    (.cons 0xFFFF#16 (.cons 0xFFFF#16 .nil))).2.2.2.1 (by decide)).1

/-! ## Quotient and remainder belong together -/

theorem val_injective {n : Nat} : Function.Injective (val : Parts n → Nat) := by
  intro x
  induction x with
  | nil =>
    intro y _
    cases y
    rfl
  | cons p x ih =>
    intro y h
    cases y with
    | cons q y =>
      change p.toNat + 65536 * x.val = q.toNat + 65536 * y.val at h
      have hp := p.isLt
      have hq := q.isLt
      rw [BitVec.eq_of_toNat_eq (show p.toNat = q.toNat by omega), ih (show x.val = y.val by omega)]

/-- The quotient multiplied back plus the remainder is the dividend, in every type and also where
the quotient wraps. -/
theorem arDivide_arMod (z : IntSize) (signed : Bool) (x y : Parts z.pieces)
    (hy : value signed y ≠ 0) : ∃ q r, arDivide signed x y = some q ∧ arMod signed x y = some r ∧
      (arAddInteger signed signed (arMultiplyInteger z signed q.1 y).1 r.1).1 = x := by
  have hn : 0 < z.pieces := by cases z <;> decide
  have hn4 : z.pieces ≤ 4 := by cases z <;> decide
  obtain ⟨q, hq, hqv, -⟩ := arDivide_correct hn hn4 signed x y hy
  obtain ⟨r, hr, hrv, -⟩ := arMod_correct hn hn4 signed x y hy
  refine ⟨q, r, hq, hr, val_injective (Int.ofNat_inj.mp ?_)⟩
  rw [arAddInteger_val, (arMultiplyInteger_correct z signed q.1 y).1, hrv, ← Int.add_emod]
  obtain ⟨d, hd⟩ := value_eq signed q.1
  obtain ⟨e, he⟩ := value_eq signed x
  have hsum := Int.tdiv_mul_add_tmod (value signed x) (value signed y)
  have hlt := val_lt x
  rw [hqv, Int.emod_def] at hd
  -- what the two values leave out are multiples of the number of words
  refine (eq_emod (k := -e - ((value signed x).tdiv (value signed y) / card z.pieces + d) *
    value signed y) (by omega) (by omega) ?_).symm
  rw [hd]
  calc _ = (value signed x).tdiv (value signed y) * value signed y +
        (value signed x).tmod (value signed y) - card z.pieces *
          (((value signed x).tdiv (value signed y) / card z.pieces + d) * value signed y) := by ring
    _ = _ := by
      rw [hsum, he]
      ring

theorem arDivide_arMod_least : ∃ q r, arDivide true (.cons 0x8000#16 .nil) (.cons 0xFFFF#16 .nil) =
    some q ∧ arMod true (.cons 0x8000#16 .nil) (.cons 0xFFFF#16 .nil) = some r ∧
      (arAddInteger true true (arMultiplyInteger .size16 true q.1 (.cons 0xFFFF#16 .nil)).1 r.1).1 =
        .cons 0x8000#16 .nil :=
  arDivide_arMod .size16 true _ _ (by decide)

end Arith
