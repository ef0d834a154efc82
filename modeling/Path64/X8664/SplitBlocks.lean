import Path64.X8664.Split

/-! # 64-bit operations on register pairs: extensions, blocks, comparisons

The expansions whose code has several basic blocks, or whose result is
not the one of the 64-bit operation for all sources, and all the
expansions together. -/

namespace X8664

open BitVec Option

/-! ## Code in pieces -/

theorem run_append (a b : List Instr) (skip : Option Nat) (s : State) :
    run (a ++ b) skip s = (run a skip s).bind fun r => run b r.2 r.1 := by
  induction a generalizing skip s with
  | nil => rfl
  | cons i is ih =>
    cases skip with
    | none =>
      cases i with
      | jcc c l => simp [ih, bind_assoc]
      | label l => simp [ih]
      | _ => simp [-Instr.exec, ih, bind_assoc]
    | some l =>
      cases i with
      | label l' => simp [ih]
      | _ => simp [ih]

variable {a d t ah c spare other : TN} {s s' : State} {r k : Nat} {v : BitVec 64}
  {src q src1 : RegSrc} {src2 : Src}

theorem produces_append {a b : List Instr} (h : run a none s = some (s', none))
    {r : TN} : Produces (a ++ b) s r v ↔ Produces b s' r v := by
  unfold Produces exec
  rw [run_append, h]
  rfl

theorem Produces.unique {code : List Instr} {r : TN} {v' : BitVec 64}
    (h : Produces code s r v) (h' : Produces code s r v') : v = v' := by
  obtain ⟨t, ht, rfl⟩ := h
  obtain ⟨t', ht', rfl⟩ := h'
  rw [ht] at ht'
  cases ht'
  rfl

theorem run_lda (site : Nat) (h : t.hi ≠ d) (s : State) :
    run (expandSplitUop site .lda d (.pair t)) none s
      = some ((s.write d (s.read 32 t)).write d.hi (s.read 32 t.hi), none) := by
  simp [expandSplitUop, h]

theorem produces_lda (site : Nat) (h : t.hi ≠ d) (hd : d ≠ d.hi) (s : State) :
    Produces (expandSplitUop site .lda d (.pair t)) s d (s.pairVal t) := by
  refine ⟨(s.write d (s.read 32 t)).write d.hi (s.read 32 t.hi), ?_, ?_⟩
  · rw [exec, run_lda site h]
    rfl
  · simp [hd]

/-! ## Shifts by a register -/

@[simp] theorem TN.hi_ne (t : TN) : t.hi ≠ t := by
  intro h
  have := congrArg sizeOf h
  simp at this

@[simp] theorem TN.ne_hi (t : TN) : t ≠ t.hi := fun h => TN.hi_ne t h.symm

/-- The two halves of a value. -/
def hiHalf (v : BitVec 64) : BitVec 32 := (v >>> 32).setWidth 32

def loHalf (v : BitVec 64) : BitVec 32 := v.setWidth 32

theorem pair_hiHalf_loHalf (v : BitVec 64) : pair (hiHalf v) (loHalf v) = v := pair_halves v

theorem hiHalf_pair (h l : BitVec 32) : hiHalf (pair h l) = h :=
  (pair_inj.mp (pair_hiHalf_loHalf (pair h l))).1

theorem loHalf_pair (h l : BitVec 32) : loHalf (pair h l) = l :=
  (pair_inj.mp (pair_hiHalf_loHalf (pair h l))).2

theorem shift_then (dir : ShiftDir) (d : TN) (s : State) : ∃ s', run (match dir with
        | .left => [.mov 32 d.hi d, .ldc 32 d 0]
        | .aright => [.mov 32 d d.hi, .bin .sar 32 d.hi d.hi (.lit 31)]
        | .lright => [.mov 32 d d.hi, .ldc 32 d.hi 0]) none s = some (s', none) ∧
      s'.pairVal d = dir.apply (s.pairVal d) 32 := by
  cases dir with
  | left =>
    refine ⟨_, rfl, ?_⟩
    simpa using shl_pair_ge (s.read 32 d.hi) (s.read 32 d) 0
  | aright =>
    refine ⟨_, rfl, ?_⟩
    have h31 : count 31#32 = 31 := rfl
    simpa [h31] using ashr_pair_ge (s.read 32 d.hi) (s.read 32 d) 0
  | lright =>
    refine ⟨_, rfl, ?_⟩
    simpa using lshr_pair_ge (s.read 32 d.hi) (s.read 32 d) 0

/-- The value after the shifts; with its count in the low half (`own`) a right shift reads it again.
-/
def ShiftDir.entry (dir : ShiftDir) (own : Bool) (v : BitVec 64) (c : BitVec 32) : BitVec 64 :=
  let x := dir.apply v (c.toNat % 32)
  if own = true ∧ dir ≠ .left then
    pair (hiHalf (dir.apply v ((loHalf x).toNat % 32))) (loHalf x)
  else x

/-- What the blocks of a shift by a register compute. -/
def ShiftDir.blocks (dir : ShiftDir) (own : Bool) (v : BitVec 64) (c : BitVec 32) : BitVec 64 :=
  let y := dir.entry own v c
  if (if own then loHalf y else c) &&& 32#32 = 0#32 then y else dir.apply y 32

theorem shift_entry (dir : ShiftDir) (ha : a ≠ d.hi) (hah : ah ≠ d)
    (hc : c ≠ d.hi) (s : State) : ∃ s', run (match dir with
        | .left => [.shd true d.hi ah a c, .bin .shl 32 d a c]
        | .aright => [.shd false d a ah c, .bin .sar 32 d.hi ah c]
        | .lright => [.shd false d a ah c, .bin .shr 32 d.hi ah c]) none s = some (s', none) ∧
      s'.pairVal d = dir.entry (c = d) (pair (s.read 32 ah) (s.read 32 a)) (s.read 32 c) ∧
      ∀ t, t ≠ d → t ≠ d.hi → s'.read 32 t = s.read 32 t := by
  have hlt : ∀ b : BitVec 32, count b < 32 := fun b => Nat.mod_lt _ (by decide)
  have hmod : ∀ b : BitVec 32, count b % 64 = count b := fun b =>
    Nat.mod_eq_of_lt (by have := hlt b; omega)
  have hk : ∀ b : BitVec 32, b.toNat % 32 = count b := fun _ => rfl
  cases dir with
  | left =>
    refine ⟨_, rfl, ?_, fun t ht hth => by simp [ht, hth]⟩
    simp only [ShiftDir.entry, ne_eq, not_true_eq_false, and_false, if_false, ShiftDir.apply, hk,
      hmod]
    rw [← shl_pair_lt _ _ (hlt _)]
    simp [ha, hc]
  | aright =>
    refine ⟨_, rfl, ?_, fun t ht hth => by simp [ht, hth]⟩
    simp only [ShiftDir.entry, ShiftDir.apply, hk, hmod]
    rw [← ashr_pair_lt _ _ (hlt _), ← ashr_pair_lt _ _ (hlt _), loHalf_pair, hiHalf_pair]
    by_cases hown : c = d
    · simp [hown, hah]
    · simp [hown, hah]
  | lright =>
    refine ⟨_, rfl, ?_, fun t ht hth => by simp [ht, hth]⟩
    simp only [ShiftDir.entry, ShiftDir.apply, hk, hmod]
    rw [← lshr_pair_lt _ _ (hlt _), ← lshr_pair_lt _ _ (hlt _), loHalf_pair, hiHalf_pair]
    by_cases hown : c = d
    · simp [hown, hah]
    · simp [hown, hah]

theorem ShiftDir.blocks_other (dir : ShiftDir) (v : BitVec 64) (c : BitVec 32) :
    dir.blocks false v c = dir.apply v c.toNat := by
  have hbit : c &&& 32#32 = 0#32 ↔ c.toNat / 32 % 2 = 0 := by
    have hand : c &&& 32#32 = if c.toNat / 32 % 2 = 1 then 32#32 else 0#32 := by
      rw [show (32#32) = BitVec.twoPow 32 5 from rfl, and_twoPow, BitVec.getLsbD,
        Nat.testBit_eq_decide_div_mod_eq]
      simp
    rw [hand]
    rcases Nat.mod_two_eq_zero_or_one (c.toNat / 32) with h0 | h1
    · simp [h0]
    · simp [h1]
  have hmod : c.toNat % 32 % 64 = c.toNat % 32 := by omega
  have hsplit : c.toNat % 64 = c.toNat % 32 + 32 * (c.toNat / 32 % 2) := by omega
  unfold ShiftDir.blocks ShiftDir.entry
  simp only [Bool.false_eq_true, false_and, if_false, hbit]
  by_cases h : c.toNat / 32 % 2 = 0
  · rw [if_pos h]
    cases dir <;> simp [hmod, hsplit, h]
  · have h1 : c.toNat / 32 % 2 = 1 := by omega
    rw [if_neg h]
    cases dir with
    | left => simp [hmod, hsplit, h1, shiftLeft_add]
    | aright => simp [hmod, hsplit, h1, sshiftRight_add]
    | lright => simp [hmod, hsplit, h1, shiftRight_add]

/-- The shift in two words, with the branch on bit 5 of the count. -/
theorem shift_blocks (dir : ShiftDir) (ha : a ≠ d.hi) (hah : ah ≠ d)
    (hc : c ≠ d.hi) (s : State) : ∃ s', run ((match dir with
        | .left => [.shd true d.hi ah a c, .bin .shl 32 d a c]
        | .aright => [.shd false d a ah c, .bin .sar 32 d.hi ah c]
        | .lright => [.shd false d a ah c, .bin .shr 32 d.hi ah c]) ++
      [.test 32 c (.lit 32), .jcc .e 0] ++
      (match dir with
        | .left => [.mov 32 d.hi d, .ldc 32 d 0]
        | .aright => [.mov 32 d d.hi, .bin .sar 32 d.hi d.hi (.lit 31)]
        | .lright => [.mov 32 d d.hi, .ldc 32 d.hi 0]) ++
      [.label 0]) none s = some (s', none) ∧
      s'.pairVal d = dir.blocks (c = d) (pair (s.read 32 ah) (s.read 32 a)) (s.read 32 c) := by
  obtain ⟨s1, hrun1, hval1, hframe⟩ := shift_entry dir ha hah hc s
  obtain ⟨s2, hrun2, hval2⟩ := shift_then dir d
    (s1.setFlags (testFlags (s1.read 32 c &&& 32#32)))
  -- the count that is tested
  have hcount : s1.read 32 c = if c = d then loHalf (s1.pairVal d) else s.read 32 c := by
    by_cases hown : c = d
    · rw [if_pos hown, hown]
      exact (loHalf_pair _ _).symm
    · rw [if_neg hown, hframe c hown hc]
  have htest : run [.test 32 c (.lit 32), .jcc .e 0] none s1
      = some (s1.setFlags (testFlags (s1.read 32 c &&& 32#32)),
          if s1.read 32 c &&& 32#32 = 0#32 then some 0 else none) := by
    simp [Cond.eval, testFlags]
  simp only [run_append, hrun1, bind_some, htest]
  unfold ShiftDir.blocks
  simp only [decide_eq_true_eq, ← hval1]
  rw [← hcount]
  by_cases hbit : s1.read 32 c &&& 32#32 = 0#32
  · -- the jump passes over the second block
    refine ⟨s1.setFlags (testFlags (s1.read 32 c &&& 32#32)), ?_, ?_⟩
    · rw [if_pos hbit]
      cases dir <;> simp
    · rw [if_pos hbit]
      rfl
  · refine ⟨s2, ?_, ?_⟩
    · rw [if_neg hbit, hrun2]
      rfl
    · rw [if_neg hbit]
      exact hval2

theorem produces_copyBack (site k : Nat) (dedicated : Bool) {code : List Instr} {r : Nat}
    {s s' : State} (hrun : run code none s = some (s', none)) : Produces (code ++ if dedicated then
        expandSplitUop site .lda (.var r) (.pair (if dedicated then .tmp site k else .var r))
      else []) s (.var r) (s'.pairVal (if dedicated then .tmp site k else .var r)) := by
  rw [produces_append hrun]
  cases dedicated with
  | false => exact ⟨s', rfl, rfl⟩
  | true => exact produces_lda site (by simp) (by simp) s'

theorem splitShift_blocks (site : Nat) (dir : ShiftDir) (dedicated : Bool) {c : Nat}
    (hsrc : src.Named r) (s : State) :
    Produces (expandSplitShift site dir dedicated (.var r) src (.var c)) s (.var r)
      (dir.blocks (dedicated = false ∧ c = r) (src.val s) (s.read 32 (.var c))) := by
  have hd : ∀ t : TN, (∀ y, t ≠ .tmp site y) → t ≠ .var r →
      t ≠ if dedicated then TN.tmp site 1 else TN.var r := by
    intro t ht htr
    cases dedicated with
    | false => exact htr
    | true => exact ht 1
  have hown : decide (TN.var c = if dedicated then TN.tmp site 1 else TN.var r)
      = decide (dedicated = false ∧ c = r) := by
    cases dedicated <;> simp
  have hchi : TN.var c ≠ (if dedicated then TN.tmp site 1 else TN.var r).hi := by
    simp
  rcases RegSrc.named_cases hsrc with ⟨x, rfl⟩ | ⟨x, -, rfl⟩
  · obtain ⟨s', hrun, hval⟩ := shift_blocks dir (show TN.var x ≠ _ by simp)
      (hd (.hi (.var x)) (by simp) (by simp)) hchi s
    refine (produces_copyBack site 1 dedicated hrun).of_eq ?_
    rw [hval, hown]
    rfl
  · refine produces_ldc.mpr ?_
    obtain ⟨s', hrun, hval⟩ := shift_blocks dir (show TN.var x ≠ _ by simp)
      (show TN.tmp site 0 ≠ _ by cases dedicated <;> simp) hchi
      (s.write (.tmp site 0) (BitVec.ofInt 32 0))
    refine (produces_copyBack site 1 dedicated hrun).of_eq ?_
    rw [hval, hown]
    simp [setWidth_eq_pair]

theorem splitShift_iff (site : Nat) (dir : ShiftDir) (dedicated : Bool) {c : Nat}
    (hsrc : src.Named r) (s : State) :
    Produces (expandSplitShift site dir dedicated (.var r) src (.var c)) s (.var r)
        (dir.apply (src.val s) (s.read 32 (.var c)).toNat) ↔ dedicated = true ∨ c ≠ r ∨
        dir.blocks true (src.val s) (s.read 32 (.var c))
          = dir.apply (src.val s) (s.read 32 (.var c)).toNat := by
  have hok := splitShift_blocks site dir dedicated (c := c) hsrc s
  by_cases hown : dedicated = false ∧ c = r
  · rw [decide_eq_true hown] at hok
    constructor
    · intro h
      exact .inr (.inr (hok.unique h))
    · rintro (h | h | h)
      · rw [hown.1] at h
        cases h
      · exact absurd hown.2 h
      · exact hok.of_eq h
  · rw [decide_eq_false hown, ShiftDir.blocks_other] at hok
    refine iff_of_true hok ?_
    cases dedicated with
    | false => exact .inr (.inl fun h => hown ⟨rfl, h⟩)
    | true => exact .inl rfl

/-! ## Extensions -/

/-- A word with the sign in every bit. -/
def signWord (b : Bool) : BitVec 32 := if b then BitVec.allOnes 32 else 0#32

theorem getLsbD_signWord (b : Bool) (i : Nat) : (signWord b).getLsbD i = (decide (i < 32) && b):= by
  unfold signWord
  cases b with
  | false => simp
  | true => rw [if_pos rfl, getLsbD_allOnes, Bool.and_true]

theorem signWord_inj {b b' : Bool} : signWord b = signWord b' ↔ b = b' := by
  constructor
  · intro h
    have h0 : (signWord b).getLsbD 0 = (signWord b').getLsbD 0 := by rw [h]
    rwa [getLsbD_signWord, getLsbD_signWord] at h0
  · rintro rfl
    rfl

theorem sshiftRight_31 (w : BitVec 32) : w.sshiftRight 31 = signWord w.msb := by
  apply eq_of_getLsbD_eq
  intro i hi
  rw [getLsbD_sshiftRight, getLsbD_signWord]
  by_cases h0 : i = 0
  · subst h0
    simp [msb_eq_getLsbD_last]
  · simp [show ¬ 31 + i < 32 by omega, show ¬ 32 ≤ i by omega, hi]

theorem signExtend_eq_pair (u : BitVec k) (hk : k ≤ 32) :
    u.signExtend 64 = pair (signWord u.msb) (u.signExtend 32) := by
  apply eq_of_getLsbD_eq
  intro i hi
  rw [getLsbD_pair, getLsbD_signExtend, getLsbD_signExtend, getLsbD_signWord]
  by_cases h32 : i < 32
  · simp [h32, hi]
  · simp [h32, hi, show ¬ i < k by omega, show i - 32 < 32 by omega]

theorem setWidth_setWidth_eq_pair (hk : k ≤ 32) (v : BitVec 32) :
    (v.setWidth k).setWidth 64 = pair 0#32 ((v.setWidth k).setWidth 32) := by
  rw [← setWidth_eq_pair]
  apply eq_of_toNat_eq
  simp only [toNat_setWidth]
  have hlt : v.toNat % 2 ^ k < 2 ^ 32 :=
    lt_of_lt_of_le (Nat.mod_lt _ (Nat.two_pow_pos k)) (Nat.pow_le_pow_right (by omega) hk)
  omega

theorem Produces.iff_of_exec {code : List Instr} {t : State} (h : exec code s = some t)
    {r : TN} : Produces code s r v ↔ t.pairVal r = v := by
  unfold Produces
  rw [h]
  simp

/-- Whether the sign that is extended is that of the whole register. -/
def Cvtl.SignAgrees (top : Cvtl) (v : BitVec 32) : Prop :=
  top.signed = true → v.getLsbD (top.from - 1) = v.getLsbD 31

theorem cvtl_signed (hk : 0 < k) (hk' : k ≤ 32) (r x : Nat) (s : State) :
    Produces [.movx true k 32 (.var r) (.var x), .bin .sar 32 (.hi (.var r)) (.var x) (.lit 31)] s
        (.var r) (((s.read 32 (.var x)).setWidth k).signExtend 64) ↔
      x = r ∨ (s.read 32 (.var x)).getLsbD (k - 1) = (s.read 32 (.var x)).getLsbD 31 := by
  have hmsb : ((s.read 32 (.var x)).setWidth k).msb = (s.read 32 (.var x)).getLsbD (k - 1) := by
    rw [msb_eq_getLsbD_last, getLsbD_setWidth]
    simp [hk]
  have h31 : count 31#32 = 31 := rfl
  rw [signExtend_eq_pair _ hk', hmsb, Produces.iff_of_exec rfl]
  by_cases hx : x = r
  · -- the sign is that of the extended value
    subst hx
    have hext : (((s.read 32 (.var x)).setWidth k).signExtend 32).msb
        = (s.read 32 (.var x)).getLsbD (k - 1) := by
      rw [← hmsb, msb_eq_getLsbD_last, getLsbD_signExtend]
      by_cases h32 : 31 < k
      · obtain rfl : k = 32 := by omega
        simp [msb_eq_getLsbD_last]
      · simp [h32]
    simp [h31, sshiftRight_31, hext]
  · have hx' : ¬ r = x := fun h => hx h.symm
    have hlast : (s.read 32 (.var x)).msb = (s.read 32 (.var x)).getLsbD 31 :=
      msb_eq_getLsbD_last _
    rw [← hlast]
    simp [pair_inj, h31, sshiftRight_31, signWord_inj, hx, hx', eq_comm]

theorem splitCvtl_iff (top : Cvtl) (r x : Nat) (s : State) :
    Produces (expandSplitCvtl top (.var r) (.var x)) s (.var r) (top.apply (s.read 32 (.var x))) ↔
      x = r ∨ top.SignAgrees (s.read 32 (.var x)) := by
  cases top with
  | movsbq =>
    simpa only [expandSplitCvtl, Cvtl.SignAgrees, Cvtl.signed, Cvtl.from, Cvtl.apply, if_true,
      true_implies] using cvtl_signed (k := 8) (by decide) (by decide) r x s
  | movswq =>
    simpa only [expandSplitCvtl, Cvtl.SignAgrees, Cvtl.signed, Cvtl.from, Cvtl.apply, if_true,
      true_implies] using cvtl_signed (k := 16) (by decide) (by decide) r x s
  | movslq =>
    -- a copy, which is the extension of all 32 bits
    have hcopy : ∀ v : BitVec 32, (v.setWidth 32).signExtend 32 = v := by simp
    have hcode : exec (expandSplitCvtl .movslq (.var r) (.var x)) s
        = exec [.movx true 32 32 (.var r) (.var x), .bin .sar 32 (.hi (.var r)) (.var x) (.lit 31)]
            s := by
      simp [expandSplitCvtl]
    have := cvtl_signed (k := 32) (by decide) (by decide) r x s
    unfold Produces at this ⊢
    rw [hcode]
    simpa only [Cvtl.SignAgrees, Cvtl.signed, Cvtl.from, Cvtl.apply, if_true, true_implies] using
      this
  | movzbq =>
    refine iff_of_true ((Produces.iff_of_exec rfl).mpr ?_) (.inr fun h => by cases h)
    simpa [Cvtl.apply, Cvtl.signed, Cvtl.from] using (setWidth_setWidth_eq_pair (k := 8) (by decide) _).symm
  | movzwq =>
    refine iff_of_true ((Produces.iff_of_exec rfl).mpr ?_) (.inr fun h => by cases h)
    simpa [Cvtl.apply, Cvtl.signed, Cvtl.from] using (setWidth_setWidth_eq_pair (k := 16) (by decide) _).symm
  | mov32 =>
    refine iff_of_true ((Produces.iff_of_exec rfl).mpr ?_) (.inr fun h => by cases h)
    simpa [Cvtl.apply, Cvtl.signed, Cvtl.from] using (setWidth_setWidth_eq_pair (k := 32) (by decide) _).symm

/-! ## Absolute value and leading zeros -/

theorem run_neg (site : Nat) (h : t.hi ≠ d) (hd : d ≠ .tmp site 1) (s : State) :
    ∃ s', run (expandSplitUop site .neg d (.pair t)) none s = some (s', none) ∧
      s'.pairVal d = - s.pairVal t := by
  refine ⟨_, rfl, ?_⟩
  simpa [h, hd, subFlags] using neg_pair (s.read 32 t.hi) (s.read 32 t)

/-- The absolute value; that of the least value is itself. -/
def absVal (v : BitVec 64) : BitVec 64 := if v.msb then -v else v

theorem rel_ge_zero (w : BitVec 32) : Cond.rel w 0#32 .ge = !w.msb := by
  show BitVec.sle 0#32 w = !w.msb
  rw [sle_eq_decide, msb_eq_toInt, ← decide_not]
  exact decide_eq_decide.mpr (by simp)

theorem splitAbs_ok (site : Nat) (dedicated : Bool) (r x : Nat) (s : State) :
    Produces (expandSplitAbs site dedicated (.var r) (.var x)) s (.var r)
      (absVal (s.pairVal (.var x))) := by
  have hcopy := fun code s s' => @produces_copyBack site 2 dedicated code r s s'
  unfold expandSplitAbs
  have hd : (if dedicated then TN.tmp site 2 else TN.var r) ≠ .tmp site 1 := by
    cases dedicated <;> simp
  have hhi : (TN.var x).hi ≠ if dedicated then TN.tmp site 2 else TN.var r := by
    cases dedicated <;> simp
  generalize (if dedicated then TN.tmp site 2 else TN.var r) = d at *
  -- the state after the copy, in which the source is as it was
  obtain ⟨s1, hs1⟩ : ∃ s1, s1 = (s.write d (s.read 32 (.var x))).write d.hi
    (s.read 32 (TN.var x).hi) := ⟨_, rfl⟩
  have hlda := run_lda site hhi s
  rw [← hs1] at hlda
  have hdst : s1.pairVal d = s.pairVal (.var x) := by simp [hs1]
  have hsrc : s1.pairVal (.var x) = s.pairVal (.var x) := by simp [hs1, hhi]
  have hmsb : (s.pairVal (.var x)).msb = (s1.read 32 (TN.var x).hi).msb := by
    rw [← hsrc, State.pairVal, msb_pair]
  have htest : run [.test 32 (.hi (.var x)) (.tn (.hi (.var x))), .jcc .ge 0] none s1
      = some (s1.setFlags (testFlags (s1.read 32 (TN.var x).hi)),
          if (s1.read 32 (TN.var x).hi).msb then none else some 0) := by
    cases hm : (s1.read 32 (TN.var x).hi).msb <;> simp [eval_testFlags, rel_ge_zero, hm]
  obtain ⟨s2, hneg, hval⟩ := run_neg site hhi hd
    (s1.setFlags (testFlags (s1.read 32 (TN.var x).hi)))
  by_cases hm : (s1.read 32 (TN.var x).hi).msb = true
  · refine (hcopy _ s s2 ?_).of_eq ?_
    · simp only [run_append, hlda, bind_some, htest, hm, if_true, hneg]
      rfl
    · rw [hval, absVal, if_pos (hmsb.trans hm)]
      exact congrArg (- ·) hsrc
  · -- the branch to the exit is taken
    refine (hcopy _ s (s1.setFlags (testFlags (s1.read 32 (TN.var x).hi))) ?_).of_eq ?_
    · simp only [run_append, hlda, bind_some, htest, hm, Bool.false_eq_true, if_false]
      simp [expandSplitUop]
    · rw [absVal, if_neg (by rw [hmsb]; exact hm)]
      exact hdst

/-- The number of zeros above the highest bit; 64 for 0. -/
def zerosAbove (v : BitVec 64) : Nat := if v = 0 then 64 else 63 - v.toNat.log2

theorem run_cmovE (hasCmov : Bool) (l : Nat) (s : State) {z : Bool}
    (hz : s.flags.zf = some z) : ∃ s', run (expandCmovE hasCmov l d t) none s = some (s', none) ∧
      s'.read 32 d = (if z then s.read 32 t else s.read 32 d) ∧
      ∀ u, u ≠ d → s'.reg u = s.reg u := by
  cases hasCmov with
  | true =>
    cases z with
    | true => exact ⟨s.write d (s.reg t), by simp [expandCmovE, Cond.eval, hz],
        by simp [State.read], fun u hu => by simp [hu]⟩
    | false => exact ⟨s, by simp [expandCmovE, Cond.eval, hz], rfl, fun _ _ => rfl⟩
  | false =>
    cases z with
    | true => exact ⟨s.write d (s.read 32 t), by simp [expandCmovE, Cond.eval, hz],
        by simp, fun u hu => by simp [hu]⟩
    | false => exact ⟨s, by simp [expandCmovE, Cond.eval, hz], rfl, fun _ _ => rfl⟩

/-- The bit scan of the low word; with `safezero` a zero gives 127. -/
theorem run_lowBit (site : Nat) (hasCmov safezero : Bool) (x : Nat) (s : State) :
    ∃ s', run ((if safezero then [.ldc 32 (.tmp site 1) 127] else []) ++
        [.bsr (.tmp site 2) (.var x)] ++
        (if safezero then expandCmovE hasCmov 0 (.tmp site 2) (.tmp site 1) else [])) none s
          = some (s', none) ∧
      (s.read 32 (.var x) ≠ 0#32 →
        s'.read 32 (.tmp site 2) = BitVec.ofNat 32 (s.read 32 (.var x)).toNat.log2) ∧
      (s.read 32 (.var x) = 0#32 → safezero = true → s'.read 32 (.tmp site 2) = 127#32) ∧
      s'.read 32 (.hi (.var x)) = s.read 32 (.hi (.var x)) := by
  cases safezero with
  | false =>
    refine ⟨_, rfl, fun h => ?_, fun _ h => (Bool.false_ne_true h).elim, by simp⟩
    simp [h]
  | true =>
    -- the zero flag of the `bsr` decides
    obtain ⟨s1, hs1, hz, h1, h2, hhi⟩ : ∃ s1 : State,
        run [.ldc 32 (.tmp site 1) 127, .bsr (.tmp site 2) (.var x)] none s = some (s1, none) ∧
        s1.flags.zf = some (s.read 32 (.var x) == 0#32) ∧ s1.read 32 (.tmp site 1) = 127#32 ∧
        (s.read 32 (.var x) ≠ 0#32 →
          s1.read 32 (.tmp site 2) = BitVec.ofNat 32 (s.read 32 (.var x)).toNat.log2) ∧
        s1.read 32 (.hi (.var x)) = s.read 32 (.hi (.var x)) :=
      ⟨_, rfl, by simp, by simp, fun h => by simp [h], by simp⟩
    obtain ⟨s2, hrun, hval, hkeep⟩ := run_cmovE hasCmov 0 (d := .tmp site 2) (t := .tmp site 1) s1 hz
    refine ⟨s2, ?_, fun h => ?_, fun h _ => ?_, ?_⟩
    · simp only [if_true, run_append]
      rw [← run_append]
      simp only [List.singleton_append, hs1, bind_some, hrun]
    · rw [hval, beq_false_of_ne h]
      exact h2 h
    · rw [hval, h, beq_self_eq_true, if_pos rfl, h1]
    · rw [State.read, hkeep _ (by simp)]
      exact hhi

theorem xor_31 : ∀ b < 32, BitVec.ofNat 32 b ^^^ 31#32 = BitVec.ofNat 32 (31 - b) := by
  decide

theorem xor_32_31 : ∀ b < 32, BitVec.ofNat 32 b ^^^ 32#32 ^^^ 31#32 = BitVec.ofNat 32 (63 - b):= by
  decide

theorem log2_lt {v : BitVec 32} (h : v ≠ 0#32) : v.toNat.log2 < 32 := by
  have hne : v.toNat ≠ 0 := fun h0 => h (eq_of_toNat_eq h0)
  exact (Nat.log2_lt hne).mpr v.isLt

theorem zerosAbove_pair (h l : BitVec 32) :
    zerosAbove (pair h l) = if h ≠ 0#32 then 31 - h.toNat.log2
      else if l ≠ 0#32 then 63 - l.toNat.log2 else 64 := by
  have hzero : pair h l = pair 0#32 0#32 ↔ h = 0#32 ∧ l = 0#32 := pair_inj
  have hpair : pair 0#32 0#32 = 0 := rfl
  rw [hpair] at hzero
  unfold zerosAbove
  by_cases hh : h = 0#32
  · by_cases hl : l = 0#32
    · rw [if_pos (hzero.mpr ⟨hh, hl⟩), if_neg (not_not.mpr hh), if_neg (not_not.mpr hl)]
    · rw [if_neg (by rw [hzero]; exact fun h => hl h.2), if_neg (by simp [hh]), if_pos hl,
        toNat_pair, hh]
      simp
  · rw [if_neg (by rw [hzero]; exact fun h => hh h.1), if_pos hh, toNat_pair]
    have hne : h.toNat ≠ 0 := fun h0 => hh (eq_of_toNat_eq h0)
    have hlog : (h.toNat * 2 ^ 32 + l.toNat).log2 = h.toNat.log2 + 32 := by
      obtain ⟨hlo, hhi⟩ := (Nat.log2_eq_iff hne).mp rfl
      have hl := l.isLt
      refine (Nat.log2_eq_iff (by omega)).mpr ⟨?_, ?_⟩
      · rw [Nat.pow_add]
        omega
      · have hpow : 2 ^ (h.toNat.log2 + 32 + 1) = 2 ^ (h.toNat.log2 + 1) * 2 ^ 32 := by
          rw [← Nat.pow_add]
        omega
    rw [hlog]
    omega

theorem splitLeadingZeros_ok (site : Nat) (hasCmov safezero : Bool) (r x : Nat) (s : State)
    (hx : safezero = true ∨ s.pairVal (.var x) ≠ 0) :
    ∃ s', exec (expandSplitLeadingZeros site hasCmov safezero (.var r) (.var x)) s = some s' ∧
      s'.read 32 (.var r) = BitVec.ofNat 32 (zerosAbove (s.pairVal (.var x))) := by
  obtain ⟨s1, hrun1, hlow, hzero, hhi⟩ := run_lowBit site hasCmov safezero x s
  -- the high word decides next
  obtain ⟨s2, hs2, hz, h3, h4⟩ : ∃ s2 : State,
      run [.bin .xor 32 (.tmp site 3) (.tmp site 2) (.lit 32), .bsr (.tmp site 4) (.hi (.var x))]
        none s1 = some (s2, none) ∧
      s2.flags.zf = some (s1.read 32 (.hi (.var x)) == 0#32) ∧
      s2.read 32 (.tmp site 3) = s1.read 32 (.tmp site 2) ^^^ 32#32 ∧
      (s1.read 32 (.hi (.var x)) ≠ 0#32 → s2.read 32 (.tmp site 4)
        = BitVec.ofNat 32 (s1.read 32 (.hi (.var x))).toNat.log2) :=
    ⟨_, rfl, by simp, by simp, fun h => by simp [h]⟩
  obtain ⟨s3, hrun3, hval, -⟩ := run_cmovE hasCmov 1 (d := .tmp site 4) (t := .tmp site 3) s2 hz
  rw [hhi] at hz h4 hval
  refine ⟨(s3.write (.var r) (s3.read 32 (.tmp site 4) ^^^ 31#32)).setFlags
    (testFlags (s3.read 32 (.tmp site 4) ^^^ 31#32)), ?_, ?_⟩
  · simp only [expandSplitLeadingZeros, exec, run_append] at hrun1 ⊢
    rw [hrun1]
    simp only [bind_some, hs2, hrun3]
    rfl
  · rw [State.pairVal, zerosAbove_pair, read_setFlags, read_write _ _ _ _ (by decide), if_pos rfl,
      setWidth_eq, hval]
    by_cases hh : s.read 32 (.hi (.var x)) = 0#32
    · rw [hh, beq_self_eq_true, if_pos rfl, if_neg (not_not.mpr rfl), h3]
      by_cases hl : s.read 32 (.var x) = 0#32
      · have hsafe : safezero = true := by
          refine hx.resolve_right fun hne => hne ?_
          rw [State.pairVal, hh, hl]
          rfl
        rw [hzero hl hsafe, if_neg (not_not.mpr hl)]
        rfl
      · rw [hlow hl, if_pos hl]
        exact xor_32_31 _ (log2_lt hl)
    · rw [beq_false_of_ne hh, if_pos hh, h4 hh]
      exact xor_31 _ (log2_lt hh)

/-! ## Comparisons -/

/-- What a comparison of the given kind followed by a condition says. -/
def CmpOp.holds {n : Nat} (op : CmpOp) (c : Cond) (a b : BitVec n) : Bool :=
  match op with
  | .cmp => c.rel a b
  | .test => c.rel (a &&& b) 0

/-- The flags of a comparison. -/
def CmpOp.flags {n : Nat} (op : CmpOp) (a b : BitVec n) : Flags :=
  match op with
  | .cmp => subFlags a b
  | .test => testFlags (a &&& b)

theorem eval_flags (op : CmpOp) (c : Cond) (a b : BitVec 32) :
    c.eval (op.flags a b) = some (op.holds c a b) := by
  cases op with
  | cmp => exact eval_subFlags (.inl rfl) a b c
  | test => exact eval_testFlags (.inl rfl) (a &&& b) c

theorem run_cmpOp (op : CmpOp) (a : TN) (b : Opnd) (is : List Instr) (s : State) :
    run (op.instr 32 a b :: is) none s
      = run is none (s.setFlags (op.flags (s.read 32 a) (s.opnd 32 b))) := by
  cases op <;> rfl

theorem toInt_pair (h l : BitVec 32) : (pair h l).toInt = h.toInt * 2 ^ 32 + l.toNat := by
  rw [toInt_eq_toNat_cond, toInt_eq_toNat_cond, toNat_pair]
  have := h.isLt
  have := l.isLt
  split <;> split <;> omega

theorem rel_pair (c : CmpCond) (h l h' l' : BitVec 32) : c.cond.rel (pair h l) (pair h' l')
      = (c.hiYes.any (·.rel h h') || !c.hiNo.any (·.rel h h') && c.low.rel l l') := by
  have hn := toNat_pair h l
  have hn' := toNat_pair h' l'
  have hi := toInt_pair h l
  have hi' := toInt_pair h' l'
  have hl := l.isLt
  have hl' := l'.isLt
  rw [Bool.eq_iff_iff]
  cases c with
  | e => simp [CmpCond.cond, CmpCond.hiYes, CmpCond.hiNo, CmpCond.low, Cond.rel, pair_inj]
  | ne =>
    simp [CmpCond.cond, CmpCond.hiYes, CmpCond.hiNo, CmpCond.low, Cond.rel, pair_inj]
    tauto
  | l | le | g | ge =>
    -- the high halves are compared as signed words
    simp [CmpCond.cond, CmpCond.hiYes, CmpCond.hiNo, CmpCond.low, Cond.rel,
      slt_eq_decide, sle_eq_decide, ult_eq_decide, ule_eq_decide]
    omega
  | b | be | a | ae =>
    simp [CmpCond.cond, CmpCond.hiYes, CmpCond.hiNo, CmpCond.low, Cond.rel,
      ult_eq_decide, ule_eq_decide]
    omega

theorem holds_pair (op : CmpOp) (c : CmpCond) (h l h' l' : BitVec 32) :
    op.holds c.cond (pair h l) (pair h' l')
      = (c.hiYes.any (op.holds · h h') || !c.hiNo.any (op.holds · h h') && op.holds c.low l l') := by
  cases op with
  | cmp => exact rel_pair c h l h' l'
  | test =>
    have hzero : (0 : BitVec 64) = pair 0#32 0#32 := rfl
    show c.cond.rel (pair h l &&& pair h' l') 0 = _
    rw [← and_pair, hzero, rel_pair]
    rfl

theorem run_hiJump (op : CmpOp) (o : Option Cond) (a : TN) (b : Opnd) (l : Nat) (s : State) :
    ∃ f, run (match o with
        | some c => [op.instr 32 a b, .jcc c l]
        | none => []) none s
      = some (s.setFlags f,
          if o.any (op.holds · (s.read 32 a) (s.opnd 32 b)) then some l else none) := by
  cases o with
  | none => exact ⟨s.flags, rfl⟩
  | some c =>
    refine ⟨op.flags (s.read 32 a) (s.opnd 32 b), ?_⟩
    rw [run_cmpOp]
    simp only [run, flags_setFlags, eval_flags, bind_some, any_some]

theorem opnd_setFlags (s : State) (f : Flags) (n : Nat) (b : Opnd) :
    (s.setFlags f).opnd n b = s.opnd n b := by
  cases b <;> rfl

theorem run_skipJump (op : CmpOp) (o : Option Cond) (a : TN) (b : Opnd) (l k : Nat) (s : State) :
    run (match o with
        | some c => [op.instr 32 a b, .jcc c l]
        | none => []) (some k) s = some (s, some k) := by
  cases o with
  | none => rfl
  | some c => cases op <;> rfl

/-- The comparison of the high words, and of the low ones where the high ones are equal. -/
theorem run_compare (op : CmpOp) (set : CmpCond) (a ah : TN) (b bh : Opnd) (yes no : Nat)
    (hne : yes ≠ no) (s : State) : ∃ f, run ((match set.hiYes with
          | some c => [op.instr 32 ah bh, .jcc c yes]
          | none => []) ++
        (match set.hiNo with
          | some c => [op.instr 32 ah bh, .jcc c no]
          | none => []) ++
        [op.instr 32 a b, .jcc set.low yes, .label no]) none s
      = some (s.setFlags f,
          if op.holds set.cond (pair (s.read 32 ah) (s.read 32 a))
            (pair (s.opnd 32 bh) (s.opnd 32 b)) then some yes else none) := by
  obtain ⟨f1, hyes⟩ := run_hiJump op set.hiYes ah bh yes s
  obtain ⟨f2, hno⟩ := run_hiJump op set.hiNo ah bh no (s.setFlags f1)
  rw [read_setFlags, opnd_setFlags] at hno
  have hskip : ∀ (k : Nat) (s1 : State),
      run [op.instr 32 a b, .jcc set.low yes, .label no] (some k) s1
        = some (s1, if k = no then none else some k) := by
    intro k s1
    cases op <;> simp [CmpOp.instr]
  rw [holds_pair]
  simp only [run_append, hyes, bind_some]
  cases hy : set.hiYes.any (op.holds · (s.read 32 ah) (s.opnd 32 bh)) with
  | true =>
    refine ⟨f1, ?_⟩
    simp only [if_true, run_skipJump, bind_some, hskip, if_neg hne, Bool.true_or]
  | false =>
    simp only [Bool.false_eq_true, if_false, hno, bind_some, Bool.false_or]
    cases hn : set.hiNo.any (op.holds · (s.read 32 ah) (s.opnd 32 bh)) with
    | true =>
      refine ⟨f2, ?_⟩
      simp only [if_true, hskip, Bool.not_true, Bool.false_and, Bool.false_eq_true, if_false]
      rfl
    | false =>
      -- the high halves are equal as far as the condition goes
      refine ⟨op.flags (s.read 32 a) (s.opnd 32 b), ?_⟩
      simp only [Bool.false_eq_true, if_false, Bool.not_false, Bool.true_and]
      rw [run_cmpOp]
      simp only [run, read_setFlags, opnd_setFlags, flags_setFlags, eval_flags, bind_some]
      cases hl : op.holds set.low (s.read 32 a) (s.opnd 32 b) with
      | true => simp [hne]; rfl
      | false => simp; rfl

theorem pair_lit (v : BitVec 64) :
    pair (BitVec.ofInt 32 (litHi v)) (BitVec.ofInt 32 v.toInt) = v := by
  rw [ofInt_litHi, ofInt_toInt _ (by decide), pair_halves]

/-- A register source of which no TN is the given one. -/
def RegSrc.Avoids (q : RegSrc) (t : TN) : Prop :=
  match q with
  | .pair u => u ≠ t ∧ u.hi ≠ t
  | .low u => u ≠ t

def Src.Avoids (q : Src) (t : TN) : Prop :=
  match q with
  | .reg q => q.Avoids t
  | .lit _ => True

theorem RegSrc.val_frame (h : ∀ t, ¬ q.Avoids t → s'.reg t = s.reg t) : q.val s' = q.val s := by
  cases q with
  | pair u =>
    have h1 := h u fun hav => hav.1 rfl
    have h2 := h u.hi fun hav => hav.2 rfl
    simp [State.read, h1, h2]
  | low u =>
    have h1 := h u fun hav => hav rfl
    simp [State.read, h1]

theorem Src.val_frame {q : Src} {s s' : State} (h : ∀ t, ¬ q.Avoids t → s'.reg t = s.reg t) :
    q.val s' = q.val s := by
  cases q with
  | reg q => exact RegSrc.val_frame h
  | lit v => rfl

theorem run_upper (hq : q.Avoids spare) (s : State) :
    ∃ s', run (q.upper spare).1 none s = some (s', none) ∧
      pair (s'.read 32 (q.upper spare).2) (s'.read 32 q.lo) = q.val s ∧
      ∀ t, t ≠ spare → s'.reg t = s.reg t := by
  cases q with
  | pair u => exact ⟨s, rfl, rfl, fun _ _ => rfl⟩
  | low u =>
    have hu : u ≠ spare := hq
    exact ⟨s.write spare 0#32, rfl, by simp [hu, setWidth_eq_pair], fun t ht => by simp [ht]⟩

theorem run_cmpHalves {q : Src} (hq : q.Avoids spare) (s : State) :
    ∃ s', run (q.cmpHalves spare).1 none s = some (s', none) ∧
      pair (s'.opnd 32 (q.cmpHalves spare).2.2) (s'.opnd 32 (q.cmpHalves spare).2.1) = q.val s ∧
      ∀ t, t ≠ spare → s'.reg t = s.reg t := by
  cases q with
  | reg q => exact run_upper hq s
  | lit v => exact ⟨s, rfl, pair_lit v, fun _ _ => rfl⟩

theorem RegSrc.Named.avoids (h : q.Named r) (site k : Nat) : q.Avoids (.tmp site k) := by
  rcases RegSrc.named_cases h with ⟨x, rfl⟩ | ⟨x, -, rfl⟩ <;> simp [RegSrc.Avoids]

theorem Src.Named.avoids {r : Nat} {q : Src} (h : q.Named r) (site k : Nat) :
    q.Avoids (.tmp site k) := by
  cases q with
  | reg q => exact RegSrc.Named.avoids h site k
  | lit v => trivial

theorem RegSrc.Named.avoids_hi (h : q.Named r) (site k : Nat) : q.Avoids (.hi (.tmp site k)) := by
  rcases RegSrc.named_cases h with ⟨x, rfl⟩ | ⟨x, -, rfl⟩ <;> simp [RegSrc.Avoids]

theorem Src.Named.avoids_hi {r : Nat} {q : Src} (h : q.Named r) (site k : Nat) :
    q.Avoids (.hi (.tmp site k)) := by
  cases q with
  | reg q => exact RegSrc.Named.avoids_hi h site k
  | lit v => trivial

theorem upper_frame (hq : q.Avoids other)
    (hne : spare ≠ other) (h : ∀ t, t ≠ other → s'.reg t = s.reg t) :
    pair (s'.read 32 (q.upper spare).2) (s'.read 32 q.lo)
      = pair (s.read 32 (q.upper spare).2) (s.read 32 q.lo) := by
  cases q with
  | pair u => simp [State.read, h u hq.1, h u.hi hq.2]
  | low u =>
    have hu : u ≠ other := hq
    simp [State.read, h u hu, h spare hne]

theorem cmpHalves_frame {q : Src} (hq : q.Avoids other)
    (hne : spare ≠ other) (h : ∀ t, t ≠ other → s'.reg t = s.reg t) :
    pair (s'.opnd 32 (q.cmpHalves spare).2.2) (s'.opnd 32 (q.cmpHalves spare).2.1)
      = pair (s.opnd 32 (q.cmpHalves spare).2.2) (s.opnd 32 (q.cmpHalves spare).2.1) := by
  cases q with
  | reg q => exact upper_frame hq hne h
  | lit v => rfl

theorem splitBranch_ok (site : Nat) (op : CmpOp) {r1 r2 : Nat}
    (hsrc1 : src1.Named r1) (hsrc2 : src2.Named r2) (jmp : CmpCond) (targ : Nat) (s : State) :
    ∃ s', run (expandSplitBranch site op src1 src2 jmp targ) none s
      = some (s', if op.holds jmp.cond (src1.val s) (src2.val s) then some targ else none) := by
  have hyes : ∀ (a : TN) (b : Opnd),
      (if jmp ≠ .e then [op.instr 32 a b, Instr.jcc jmp.strict.cond targ] else [])
        = match jmp.hiYes with
          | some c => [op.instr 32 a b, Instr.jcc c targ]
          | none => [] := by
    intro a b
    cases jmp <;> rfl
  have hno : ∀ (a : TN) (b : Opnd),
      (if jmp ≠ .ne then [op.instr 32 a b, Instr.jcc jmp.invert.strict.cond (targ + 1)] else [])
        = match jmp.hiNo with
          | some c => [op.instr 32 a b, Instr.jcc c (targ + 1)]
          | none => [] := by
    intro a b
    cases jmp <;> rfl
  have hne : targ ≠ targ + 1 := by omega
  obtain ⟨s1, hrun2, hval2, hframe2⟩ := run_cmpHalves (hsrc2.avoids site 0) s
  obtain ⟨s2, hrun1, hval1, hframe1⟩ := run_upper (hsrc1.avoids site 1) s1
  have hsame : src1.val s1 = src1.val s := RegSrc.val_frame fun t ht =>
    hframe2 t fun h => ht (h ▸ hsrc1.avoids site 0)
  have hkeep := cmpHalves_frame (hsrc2.avoids site 1)
    (show TN.tmp site 0 ≠ .tmp site 1 by simp) hframe1
  obtain ⟨f, hcmp⟩ := run_compare op jmp src1.lo (src1.upper (.tmp site 1)).2
    (src2.cmpHalves (.tmp site 0)).2.1 (src2.cmpHalves (.tmp site 0)).2.2 targ (targ + 1) hne
    s2
  rw [hval1, hsame, hkeep, hval2] at hcmp
  refine ⟨s2.setFlags f, ?_⟩
  simp only [expandSplitBranch, hyes, hno, List.append_assoc] at hcmp ⊢
  rw [run_append, hrun2, bind_some, run_append, hrun1, bind_some]
  exact hcmp

/-- A source in place: its value is the one it had, and no TN to be written is its own. -/
structure Placed (site : Nat) (d : TN) (q : Src) (v : BitVec 64) (s : State) : Prop where
  val : q.val s = v
  result : q.Avoids d
  upper : q.Avoids (.tmp site 4) ∧ q.Avoids (.tmp site 5)

theorem run_apartReg (site k : Nat) (hk4 : k ≠ 4) (hk5 : k ≠ 5)
    (hq : q.Named r) (hd : d = .var r ∨ d = .tmp site 6) (s : State) :
    ∃ s', run (q.apart site k d).1 none s = some (s', none) ∧
      Placed site d (.reg (q.apart site k d).2) (q.val s) s' ∧
      ∀ t, t ≠ .tmp site k → t ≠ .hi (.tmp site k) → s'.reg t = s.reg t := by
  unfold RegSrc.apart
  by_cases hsame : d = q.lo
  · -- only a pair can be the result's
    obtain ⟨x, rfl⟩ : ∃ x, q = .pair (.var x) := by
      rcases RegSrc.named_cases hq with ⟨x, rfl⟩ | ⟨x, hx, rfl⟩
      · exact ⟨x, rfl⟩
      · rcases hd with rfl | rfl
        · exact (hx (by simpa using hsame.symm)).elim
        · cases hsame
    simp only [if_pos hsame]
    refine ⟨_, run_lda site (by simp) s, ⟨by simp, ?_, ?_⟩, fun t h1 h2 => by simp [h1, h2]⟩
    · rcases hd with rfl | rfl
      · simp [Src.Avoids, RegSrc.Avoids]
      · cases hsame
    · simp [Src.Avoids, RegSrc.Avoids, hk4, hk5]
  · simp only [if_neg hsame]
    refine ⟨s, rfl, ⟨rfl, ?_, hq.avoids site 4, hq.avoids site 5⟩, fun _ _ _ => rfl⟩
    rcases RegSrc.named_cases hq with ⟨x, rfl⟩ | ⟨x, -, rfl⟩
    · rcases hd with rfl | rfl
      · exact ⟨fun h => hsame h.symm, by simp⟩
      · exact ⟨by simp, by simp⟩
    · exact fun h => hsame h.symm

theorem run_apart (site k : Nat) (hk4 : k ≠ 4) (hk5 : k ≠ 5) {q : Src}
    (hq : q.Named r) (hd : d = .var r ∨ d = .tmp site 6) (s : State) :
    ∃ s', run (q.apart site k d).1 none s = some (s', none) ∧
      Placed site d (q.apart site k d).2 (q.val s) s' ∧
      ∀ t, t ≠ .tmp site k → t ≠ .hi (.tmp site k) → s'.reg t = s.reg t := by
  cases q with
  | reg q => exact run_apartReg site k hk4 hk5 hq hd s
  | lit v => exact ⟨s, rfl, ⟨rfl, trivial, trivial, trivial⟩, fun _ _ _ => rfl⟩

theorem apart_avoids (site : Nat) (hq : q.Named r) (d : TN) :
    (q.apart site 2 d).2.Avoids (.tmp site 3) ∧ (q.apart site 2 d).2.Avoids (.hi (.tmp site 3)) := by
  unfold RegSrc.apart
  by_cases hsame : d = q.lo
  · rw [if_pos hsame]
    simp [RegSrc.Avoids]
  · rw [if_neg hsame]
    exact ⟨hq.avoids site 3, hq.avoids_hi site 3⟩

theorem run_setCmp (site : Nat) (op : CmpOp) (set : CmpCond) {q1 : RegSrc} {q2 : Src}
    {v1 v2 : BitVec 64} (hd4 : d ≠ .tmp site 4) (hd5 : d ≠ .tmp site 5)
    (h1 : Placed site d (.reg q1) v1 s) (h2 : Placed site d q2 v2 s) :
    ∃ s', run ([.ldc 32 d 1] ++ (q1.upper (.tmp site 4)).1 ++ (q2.cmpHalves (.tmp site 5)).1 ++
        ((match set.hiYes with
            | some c => [op.instr 32 (q1.upper (.tmp site 4)).2 (q2.cmpHalves (.tmp site 5)).2.2,
                .jcc c 1]
            | none => []) ++
          (match set.hiNo with
            | some c => [op.instr 32 (q1.upper (.tmp site 4)).2 (q2.cmpHalves (.tmp site 5)).2.2,
                .jcc c 0]
            | none => []) ++
          [op.instr 32 q1.lo (q2.cmpHalves (.tmp site 5)).2.1, .jcc set.low 1, .label 0]) ++
        [.ldc 32 d 0, .label 1]) none s = some (s', none) ∧
      s'.read 32 d = if op.holds set.cond v1 v2 then 1#32 else 0#32 := by
  have hs1 : ∀ t, t ≠ d → (s.write d 1#32).reg t = s.reg t := fun t ht => by simp [ht]
  obtain ⟨s2, hrun2, hval1, hframe2⟩ := run_upper h1.upper.1 (s.write d 1#32)
  obtain ⟨s3, hrun3, hval2, hframe3⟩ := run_cmpHalves h2.upper.2 s2
  have hq1 : q1.val (s.write d 1#32) = v1 :=
    (RegSrc.val_frame fun t ht => hs1 t fun h => ht (h ▸ h1.result)).trans h1.val
  have hq2 : q2.val s2 = v2 := by
    refine (Src.val_frame fun t ht => ?_).trans h2.val
    rw [hframe2 t fun h => ht (h ▸ h2.upper.1), hs1 t fun h => ht (h ▸ h2.result)]
  have hkeep := upper_frame h1.upper.2 (show TN.tmp site 4 ≠ .tmp site 5 by simp) hframe3
  obtain ⟨f, hcmp⟩ := run_compare op set q1.lo (q1.upper (.tmp site 4)).2
    (q2.cmpHalves (.tmp site 5)).2.1 (q2.cmpHalves (.tmp site 5)).2.2 1 0 (by decide) s3
  rw [hkeep, hval1, hq1, hval2, hq2] at hcmp
  have hone : s3.read 32 d = 1#32 := by
    rw [State.read, hframe3 d hd5, hframe2 d hd4]
    simp
  -- the result is set to 1 first, and to 0 by the block that is jumped over
  have hfirst : run [.ldc 32 d 1] none s = some (s.write d 1#32, none) := rfl
  rw [run_append, run_append, run_append, run_append, hfirst, bind_some, hrun2,
    bind_some, hrun3, bind_some, hcmp, bind_some]
  cases hh : op.holds set.cond v1 v2 with
  | true => exact ⟨s3.setFlags f, rfl, hone⟩
  | false => exact ⟨(s3.setFlags f).write d 0#32, rfl, by simp⟩

theorem splitIntCmp_ok (site : Nat) (op : CmpOp)
    (hsrc1 : src1.Named r) (hsrc2 : src2.Named r) (set : CmpCond) (dedicated paired : Bool)
    (s : State) :
    ∃ s', exec (expandSplitIntCmp site op src1 src2 set dedicated paired (.var r)) s = some s' ∧
      s'.read 32 (.var r) = (if op.holds set.cond (src1.val s) (src2.val s) then 1#32 else 0#32) ∧
      (dedicated = false ∨ paired = true → s'.pairVal (.var r)
        = if op.holds set.cond (src1.val s) (src2.val s) then 1 else 0) := by
  obtain ⟨d, hd⟩ : ∃ d, d = if dedicated then TN.tmp site 6 else TN.var r := ⟨_, rfl⟩
  have hd' : d = .var r ∨ d = .tmp site 6 := by
    cases dedicated with
    | false => exact .inl hd
    | true => exact .inr hd
  have hdk : ∀ k, k ≠ 6 → d ≠ .tmp site k := by
    rcases hd' with rfl | rfl
    · simp
    · simpa using fun k hk => Ne.symm hk
  obtain ⟨s1, hrun1, h1, hframe1⟩ := run_apartReg site 2 (by decide) (by decide) hsrc1 hd' s
  obtain ⟨s2, hrun2, h2, hframe2⟩ := run_apart site 3 (by decide) (by decide) hsrc2 hd' s1
  have hv2 : src2.val s1 = src2.val s := Src.val_frame fun t ht =>
    hframe1 t (fun h => ht (h ▸ hsrc2.avoids site 2)) fun h => ht (h ▸ hsrc2.avoids_hi site 2)
  -- the second copy leaves the first source in place
  have hav := apart_avoids site hsrc1 d
  have h1' : Placed site d (.reg (src1.apart site 2 d).2) (src1.val s) s2 := by
    refine ⟨(Src.val_frame fun t ht => ?_).trans h1.val, h1.result, h1.upper⟩
    exact hframe2 t (fun h => ht (h ▸ hav.1)) fun h => ht (h ▸ hav.2)
  rw [hv2] at h2
  obtain ⟨s3, hrun3, hset⟩ := run_setCmp site op set (hdk 4 (by decide)) (hdk 5 (by decide)) h1' h2
  have htail : ∀ tail : List Instr,
      run ((src1.apart site 2 d).1 ++ ((src2.apart site 3 d).1 ++ (_ ++ tail))) none s
        = run tail none s3 := fun tail => by
    rw [run_append, hrun1, bind_some, run_append, hrun2, bind_some, run_append, hrun3]
    rfl
  have hrun : run (expandSplitIntCmp site op src1 src2 set dedicated paired (.var r)) none s
      = run (if dedicated then
          .mov 32 (.var r) d :: if paired then [.ldc 32 (.hi (.var r)) 0] else []
        else [.ldc 32 (.hi (.var r)) 0]) none s3 := by
    simp only [expandSplitIntCmp, ← hd, List.append_assoc] at htail ⊢
    exact htail _
  have hcode : ∃ s', exec (expandSplitIntCmp site op src1 src2 set dedicated paired (.var r)) s
        = some s' ∧ s'.read 32 (.var r) = s3.read 32 d ∧
      (dedicated = false ∨ paired = true → s'.read 32 (.hi (.var r)) = 0#32) := by
    unfold exec
    rw [hrun]
    cases dedicated with
    | false =>
      obtain rfl : d = .var r := hd
      exact ⟨_, rfl, by simp, fun _ => by simp⟩
    | true =>
      cases paired with
      | false => exact ⟨_, rfl, by simp, fun h => by simp at h⟩
      | true => exact ⟨_, rfl, by simp, fun _ => by simp⟩
  obtain ⟨s', hexec, hlow, hhigh⟩ := hcode
  refine ⟨s', hexec, hlow.trans hset, fun hp => ?_⟩
  rw [State.pairVal, hhigh hp, hlow, hset]
  cases op.holds set.cond (src1.val s) (src2.val s) <;> rfl

/-! ## Every expansion -/

/-- The calls of the expansions; the result is the pair of `.var r`. -/
inductive SplitCall where
  | uop (opr : Uop) (src : RegSrc)
  | intconst (signed : Bool) (v : BitVec 64)
  | bop (opr : Bop) (src1 : RegSrc) (src2 : Src)
  | multiply (src1 src2 : RegSrc)
  | shiftLit (dir : ShiftDir) (src : RegSrc) (n : Nat)
  | shift (dir : ShiftDir) (dedicated : Bool) (src : RegSrc) (c : Nat)
  | cvtl (top : Cvtl) (x : Nat)
  | abs (dedicated : Bool) (x : Nat)
  | leadingZeros (hasCmov safezero : Bool) (x : Nat)
  | intCmp (op : CmpOp) (src1 : RegSrc) (src2 : Src) (set : CmpCond) (dedicated paired : Bool)
  | branch (op : CmpOp) (src1 : RegSrc) (src2 : Src) (jmp : CmpCond) (targ : Nat)

/-- What the callers see to: sources are the caller's, literal counts below 64. -/
def SplitCall.Ok (r : Nat) : SplitCall → Prop
  | .uop _ src => src.Named r
  | .intconst _ _ => True
  | .bop _ src1 src2 => src1.Named r ∧ src2.Named r
  | .multiply src1 src2 => src1.Named r ∧ src2.Named r
  | .shiftLit _ src n => src.Named r ∧ n < 64
  | .shift _ _ src _ => src.Named r
  | .cvtl _ _ => True
  | .abs _ _ => True
  | .leadingZeros _ _ _ => True
  | .intCmp _ src1 src2 _ _ _ => src1.Named r ∧ src2.Named r
  | .branch _ src1 src2 _ _ => src1.Named r ∧ src2.Named r

/-- The emitted code, run from `s`, computes the 64-bit operation. -/
def SplitCall.Faithful (site r : Nat) (s : State) : SplitCall → Prop
  | .uop opr src =>
    Produces (expandSplitUop site opr (.var r) src) s (.var r) (opr.apply (src.val s))
  | .intconst signed v => Produces (expandSplitIntconst signed (.var r) v) s (.var r) v
  | .bop opr src1 src2 =>
    Produces (expandSplitBop site opr (.var r) src1 src2) s (.var r)
      (opr.apply (src1.val s) (src2.val s))
  | .multiply src1 src2 =>
    Produces (expandSplitMultiply site (.var r) src1 src2) s (.var r) (src1.val s * src2.val s)
  | .shiftLit dir src n =>
    Produces (expandSplitShiftLit site dir (.var r) src n) s (.var r) (dir.apply (src.val s) n)
  | .shift dir dedicated src c =>
    Produces (expandSplitShift site dir dedicated (.var r) src (.var c)) s (.var r)
      (dir.apply (src.val s) (s.read 32 (.var c)).toNat)
  | .cvtl top x =>
    Produces (expandSplitCvtl top (.var r) (.var x)) s (.var r) (top.apply (s.read 32 (.var x)))
  | .abs dedicated x =>
    Produces (expandSplitAbs site dedicated (.var r) (.var x)) s (.var r)
      (absVal (s.pairVal (.var x)))
  | .leadingZeros hasCmov safezero x =>
    -- without `safezero` the operation is not defined on 0
    safezero = true ∨ s.pairVal (.var x) ≠ 0 →
      ∃ s', exec (expandSplitLeadingZeros site hasCmov safezero (.var r) (.var x)) s = some s' ∧
        s'.read 32 (.var r) = BitVec.ofNat 32 (zerosAbove (s.pairVal (.var x)))
  | .intCmp op src1 src2 set dedicated paired =>
    ∃ s', exec (expandSplitIntCmp site op src1 src2 set dedicated paired (.var r)) s = some s' ∧
      s'.read 32 (.var r)
        = (if op.holds set.cond (src1.val s) (src2.val s) then 1#32 else 0#32) ∧
      (dedicated = false ∨ paired = true → s'.pairVal (.var r)
        = if op.holds set.cond (src1.val s) (src2.val s) then 1 else 0)
  | .branch op src1 src2 jmp targ =>
    ∃ s', run (expandSplitBranch site op src1 src2 jmp targ) none s
      = some (s', if op.holds jmp.cond (src1.val s) (src2.val s) then some targ else none)

/-- The calls that are right: no byte or word into another TN, no count in the result's. -/
def SplitCall.Condition (r : Nat) : SplitCall → Prop
  | .cvtl top x => x = r ∨ (top ≠ .movsbq ∧ top ≠ .movswq)
  | .shift _ dedicated _ c => dedicated = true ∨ c ≠ r
  | _ => True

/-- All registers 0 but for the low words of two. -/
def twoWords (x y : Nat) (a b : BitVec 32) : State where
  reg t := if t = .var y then b.setWidth 64 else if t = .var x then a.setWidth 64 else 0
  flags := .unknown
  junk := 0

theorem read_twoWords (x y : Nat) (a b : BitVec 32) (t : TN) :
    (twoWords x y a b).read 32 t = if t = .var y then b else if t = .var x then a else 0#32 := by
  unfold State.read twoWords
  show BitVec.setWidth 32 (ite _ _ _) = _
  by_cases hy : t = .var y
  · rw [if_pos hy, if_pos hy]
    simp
  · rw [if_neg hy, if_neg hy]
    by_cases hx : t = .var x
    · rw [if_pos hx, if_pos hx]
      simp
    · rw [if_neg hx, if_neg hx]
      rfl

theorem cvtl_disagrees {top : Cvtl} (htop : top = .movsbq ∨ top = .movswq) (r x : Nat) :
    ¬ top.SignAgrees ((twoWords r x 0#32 0x8080#32).read 32 (.var x)) := by
  intro h
  rw [read_twoWords, if_pos rfl] at h
  rcases htop with rfl | rfl
  · have := h rfl
    revert this
    decide
  · have := h rfl
    revert this
    decide

/-- A count in the result's TN: the value 1 is shifted by 32, or the value 33 by itself. -/
theorem shift_own_wrong (site : Nat) (dir : ShiftDir) (hsrc : src.Named r) :
    ∃ s, ¬ Produces (expandSplitShift site dir false (.var r) src (.var r)) s (.var r)
      (dir.apply (src.val s) (s.read 32 (.var r)).toNat) := by
  -- 1 shifted by 32, for a source in another TN
  have hother : ∀ x, x ≠ r → src.val (twoWords x r 1#32 32#32) = 1#64 →
      ¬ Produces (expandSplitShift site dir false (.var r) src (.var r)) (twoWords x r 1#32 32#32)
        (.var r) (dir.apply (src.val (twoWords x r 1#32 32#32))
          ((twoWords x r 1#32 32#32).read 32 (.var r)).toNat) := by
    intro x _ hval
    rw [splitShift_iff site dir false hsrc, hval, read_twoWords, if_pos rfl]
    cases dir <;> simp <;> decide
  rcases RegSrc.named_cases hsrc with ⟨x, rfl⟩ | ⟨x, hx, rfl⟩
  · by_cases hx : x = r
    · -- 33 shifted by itself
      subst hx
      refine ⟨twoWords x x 33#32 33#32, ?_⟩
      have hval : (RegSrc.pair (.var x)).val (twoWords x x 33#32 33#32) = 33#64 := by
        simp [read_twoWords]
        decide
      rw [splitShift_iff site dir false hsrc, hval, read_twoWords, if_pos rfl]
      cases dir <;> simp <;> decide
    · refine ⟨_, hother x hx ?_⟩
      simp [read_twoWords, hx]
      decide
  · refine ⟨_, hother x hx ?_⟩
    simp [read_twoWords, hx]

/-- The expansions of 64-bit operations are faithful for all operands, save for the calls that
extend a byte or a word by the sign of its whole register, and the shifts whose count is in the
result. -/
theorem splitCall_faithful_iff (site r : Nat) {call : SplitCall} (h : call.Ok r) :
    ((∀ s, call.Faithful site r s) ↔ call.Condition r) ∧ ∀ top x, call = .cvtl top x → ∀ s,
        (call.Faithful site r s ↔ x = r ∨ top.SignAgrees (s.read 32 (.var x))) := by
  refine ⟨?_, ?_⟩
  · cases call with
    | uop opr src => exact iff_of_true (fun s => splitUop_ok site opr r h s) trivial
    | intconst signed v => exact iff_of_true (fun s => splitIntconst_ok signed r v s) trivial
    | bop opr src1 src2 => exact iff_of_true (fun s => splitBop_ok site opr r h.1 h.2 s) trivial
    | multiply src1 src2 => exact iff_of_true (fun s => splitMultiply_ok site r h.1 h.2 s) trivial
    | shiftLit dir src n => exact iff_of_true (fun s => splitShiftLit_ok site dir r h.1 h.2 s) trivial
    | shift dir dedicated src c =>
      constructor
      · intro hall
        by_contra hcond
        obtain ⟨hded, hc⟩ := not_or.mp hcond
        obtain rfl := not_not.mp hc
        obtain rfl : dedicated = false := by simpa using hded
        obtain ⟨s, hs⟩ := shift_own_wrong site dir h
        exact hs (hall s)
      · intro hcond s
        exact (splitShift_iff site dir dedicated h s).mpr (hcond.imp_right .inl)
    | cvtl top x =>
      constructor
      · intro hall
        by_contra hcond
        obtain ⟨hx, htop⟩ := not_or.mp hcond
        have htop' : top = .movsbq ∨ top = .movswq := by tauto
        exact (splitCvtl_iff top r x _).mp (hall (twoWords r x 0#32 0x8080#32)) |>.elim hx
          (cvtl_disagrees htop' r x)
      · intro hcond s
        refine (splitCvtl_iff top r x s).mpr (hcond.imp_right fun htop hsigned => ?_)
        cases top <;> simp_all [Cvtl.signed, Cvtl.from]
    | abs dedicated x => exact iff_of_true (fun s => splitAbs_ok site dedicated r x s) trivial
    | leadingZeros hasCmov safezero x =>
      exact iff_of_true (fun s hx => splitLeadingZeros_ok site hasCmov safezero r x s hx) trivial
    | intCmp op src1 src2 set dedicated paired =>
      exact iff_of_true (fun s => splitIntCmp_ok site op h.1 h.2 set dedicated paired s) trivial
    | branch op src1 src2 jmp targ =>
      exact iff_of_true (fun s => splitBranch_ok site op h.1 h.2 jmp targ s) trivial
  · rintro top x rfl s
    exact splitCvtl_iff top r x s

theorem splitCall_faithful_iff_shift :
    ((∀ s, (SplitCall.shift .left false (.pair (.var 1)) 2).Faithful 0 0 s) ↔
      (SplitCall.shift .left false (.pair (.var 1)) 2).Condition 0) ∧
      ∀ top x, SplitCall.shift .left false (.pair (.var 1)) 2 = .cvtl top x → ∀ s,
        ((SplitCall.shift .left false (.pair (.var 1)) 2).Faithful 0 0 s ↔
          x = 0 ∨ top.SignAgrees (s.read 32 (.var x))) :=
  splitCall_faithful_iff 0 0 trivial

/-- The byte 128 in a register that is otherwise 0 is extended to 2 ^ 32 - 128. -/
theorem splitCvtl_byte_wrong : ¬ ∀ (site r : Nat) (call : SplitCall), call.Ok r →
    ∀ s, call.Faithful site r s := by
  intro h
  have hall := h 0 0 (.cvtl .movsbq 1) trivial (twoWords 0 1 0#32 0x80#32)
  obtain ⟨s', hs', hval⟩ := hall
  have hcode : exec (expandSplitCvtl .movsbq (.var 0) (.var 1)) (twoWords 0 1 0#32 0x80#32)
      = some s' := hs'
  have hhigh : s'.read 32 (.hi (.var 0)) = 0#32 := by
    have := congrArg (Option.map fun t => t.read 32 (.hi (.var 0))) hcode
    simpa [expandSplitCvtl, read_twoWords, count] using this.symm
  have hwant := congrArg hiHalf hval
  rw [State.pairVal, hiHalf_pair, hhigh, read_twoWords, if_pos rfl] at hwant
  revert hwant
  decide

end X8664
