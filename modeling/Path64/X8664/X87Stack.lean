import Mathlib.Algebra.Order.Group.Nat
import Mathlib.Data.Finset.Card

/-! # Compensation of x87 stacks

`Compensate_Stack` appends pops and exchanges to a new block between two
blocks whose x87 stacks differ. An instruction names a register by its
distance from the top; the source keeps the register at every place. -/

namespace X8664.X87

open Function Finset

/-! ## Model -/

/-- `X87_STACK_SIZE` -/
def stackSize : Nat := 8

/-- `Stack`, with `top + 1` for `top`, which is not `STACK_IS_WILD`. -/
structure Stack where
  size : Nat
  liveIn : Finset Nat
  liveOut : Finset Nat
  reg : Nat → Nat
  fits : size ≤ stackSize

/-- `TOP_fstp` and `TOP_fxch`, with the register of the operand and its `%st`. -/
inductive Op
  | fstp (reg st : Nat)
  | fxch (reg st : Nat)

namespace Stack

/-- `Pop_Stack_Reg` -/
def popReg (s : Stack) (idx : Nat) : Op × Stack :=
  (.fstp (s.reg idx) (s.size - 1 - idx),
    { s with size := s.size - 1, reg := update s.reg idx (s.reg (s.size - 1))
             fits := (Nat.sub_le _ _).trans s.fits })

/-- One half of `Swap`: nothing is appended for the top itself. -/
def exchange (s : Stack) (idx : Nat) : List Op × Stack :=
  let top := s.size - 1
  if top ≠ idx then
    ([.fxch (s.reg idx) (top - idx)],
      { s with reg := update (update s.reg top (s.reg idx)) idx (s.reg top) })
  else ([], s)

def swap (dst src : Nat) (s : Stack) : List Op × Stack :=
  let r := s.exchange src
  let t := r.2.exchange dst
  (r.1 ++ t.1, t.2)

/-- `Stacks_Are_Equivalent`, which does not compare the tops. -/
def areEquivalent (s1 s2 : Stack) : Bool :=
  s1.size = s2.size && (List.range (s1.size - 1)).all fun i => s1.reg i = s2.reg i

/-- The loop that pops, from place `i` on. -/
def popLoop (liveIn : Finset Nat) (s : Stack) (i : Nat) : List Op × Stack :=
  if i < s.size then
    if s.reg i ∉ liveIn then
      let p := s.popReg i
      let r := popLoop liveIn p.2 i
      (p.1 :: r.1, r.2)
    else popLoop liveIn s (i + 1)
  else ([], s)
termination_by s.size - i
decreasing_by
  · simp only [popReg]
    omega
  · omega

/-- The search for `x` from place `j` on, which gives up at the end of the array. -/
def search (s : Stack) (x : Nat) : Nat → Nat → Option Nat
  | 0, _ => none
  | fuel + 1, j => if s.reg j = x then some j else s.search x fuel (j + 1)

/-- One iteration of the loop that sorts. -/
def sortStep (tgt : Stack) (r : List Op × Stack) (i : Nat) : Option (List Op × Stack) :=
  if r.2.reg i = tgt.reg i then some r
  else (r.2.search (tgt.reg i) (stackSize - (i + 1)) (i + 1)).map fun j =>
    let t := r.2.swap i j
    (r.1 ++ t.1, t.2)

/-- `Compensate_Stack`: the code of the new block, if any; it fails at an assertion. -/
def compensate (tgt src : Stack) : Option (Option (List Op)) :=
  if areEquivalent tgt src then some none
  else if tgt.liveIn ⊆ src.liveOut then
    let r := popLoop tgt.liveIn src 0
    if r.2.size = tgt.size then
      ((List.range r.2.size).foldlM (sortStep tgt) r).map fun t => some t.1
    else none
  else none

end Stack

/-! ## The machine -/

/-- The values on the stack, from the bottom on. -/
structure Machine (α : Type*) where
  depth : Nat
  val : Nat → α

variable {α : Type*}

/-- `fstp` stores the top and pops it, `fxch` exchanges it. -/
def Machine.step (m : Machine α) : Op → Option (Machine α)
  | .fstp _ st =>
    if st < m.depth then
      some ⟨m.depth - 1, update m.val (m.depth - 1 - st) (m.val (m.depth - 1))⟩
    else none
  | .fxch _ st =>
    let top := m.depth - 1
    if st < m.depth then
      some ⟨m.depth, update (update m.val top (m.val (top - st))) (top - st) (m.val top)⟩
    else none

def Machine.exec (m : Machine α) (code : List Op) : Option (Machine α) :=
  code.foldlM Machine.step m

theorem Machine.exec_single (m : Machine α) (op : Op) : m.exec [op] = m.step op := by
  simp [exec]

/-- The registers of the stack have their values at their places. -/
def Matches (value : Nat → α) (s : Stack) (m : Machine α) : Prop :=
  m.depth = s.size ∧ ∀ i < s.size, m.val i = value (s.reg i)

namespace Stack

variable {s t src tgt : Stack} {i j n : Nat}

/-- The code leads from one stack to the other. -/
def Leads (α : Type*) (code : List Op) (s t : Stack) : Prop :=
  ∀ (value : Nat → α) m, Matches value s m → ∃ m', m.exec code = some m' ∧ Matches value t m'

theorem Leads.nil : Leads α [] s s := fun _ m h => ⟨m, rfl, h⟩

theorem Leads.append {c d : List Op} {u : Stack} (h : Leads α c s t) (h' : Leads α d t u) :
    Leads α (c ++ d) s u := by
  intro value m hm
  obtain ⟨m1, hc, hm1⟩ := h value m hm
  obtain ⟨m2, hd, hm2⟩ := h' value m1 hm1
  refine ⟨m2, ?_, hm2⟩
  rw [Machine.exec, List.foldlM_append]
  change m.exec c >>= _ = _
  rw [hc]
  exact hd

/-- The registers on the stack. -/
def regs (s : Stack) : Finset Nat := (range s.size).image s.reg

def Distinct (s : Stack) : Prop := Set.InjOn s.reg (range s.size)

theorem mem_regs {x : Nat} : x ∈ s.regs ↔ ∃ i < s.size, s.reg i = x := by
  simp [regs]

theorem Distinct.card (h : s.Distinct) : s.regs.card = s.size := by
  rw [regs, card_image_of_injOn h, card_range]

theorem distinct_of_card (h : s.regs.card = s.size) : s.Distinct :=
  card_image_iff.mp (h.trans (card_range _).symm)

/-! ## Pops and exchanges -/

theorem exchange_reg : (s.exchange i).2.reg = s.reg ∘ Equiv.swap (s.size - 1) i := by
  unfold exchange
  by_cases h : s.size - 1 = i
  · simp [h]
  · rw [Equiv.swap_comm, Equiv.comp_swap_eq_update]
    simp [h]

theorem exchange_size : (s.exchange i).2.size = s.size := by
  unfold exchange
  dsimp only
  split <;> rfl

section Step

variable (hi : i < s.size)
include hi

theorem popReg_leads : Leads α [(s.popReg i).1] s (s.popReg i).2 := by
  rintro value m ⟨hd, hv⟩
  have hst : s.size - 1 - i < m.depth := by omega
  have hplace : m.depth - 1 - (s.size - 1 - i) = i := by omega
  refine ⟨_, (m.exec_single _).trans (if_pos hst), ?_, fun j hj => ?_⟩
  · exact congrArg (· - 1) hd
  · dsimp only [popReg] at hj ⊢
    rw [hplace, hd]
    by_cases hji : j = i
    · subst hji
      rw [update_self, update_self]
      exact hv _ (by omega)
    · rw [update_of_ne hji, update_of_ne hji]
      exact hv j (by omega)

theorem popReg_regs (hs : s.Distinct) :
    (s.popReg i).2.Distinct ∧ (s.popReg i).2.regs = s.regs.erase (s.reg i) := by
  have hregs : (s.popReg i).2.regs = s.regs.erase (s.reg i) := by
    ext x
    rw [mem_erase, mem_regs, mem_regs]
    dsimp only [popReg]
    constructor
    · rintro ⟨j, hj, rfl⟩
      by_cases hji : j = i
      · subst hji
        rw [update_self]
        refine ⟨fun h => ?_, _, by omega, rfl⟩
        have := hs (by simp; omega) (by simpa) h
        omega
      · rw [update_of_ne hji]
        exact ⟨fun h => hji (hs (by simp; omega) (by simpa) h), j, by omega, rfl⟩
    · rintro ⟨hne, j, hj, rfl⟩
      have hji : j ≠ i := fun h => hne (h ▸ rfl)
      by_cases htop : j = s.size - 1
      · exact ⟨i, by omega, by rw [update_self, htop]⟩
      · exact ⟨j, by omega, update_of_ne hji _ _⟩
  refine ⟨distinct_of_card ?_, hregs⟩
  rw [hregs, card_erase_of_mem (mem_regs.mpr ⟨i, hi, rfl⟩), hs.card]
  rfl

theorem exchange_leads : Leads α (s.exchange i).1 s (s.exchange i).2 := by
  unfold exchange
  by_cases h : s.size - 1 = i
  · simpa [h] using Leads.nil
  · rintro value m ⟨hd, hv⟩
    simp only [ne_eq, h, not_false_eq_true, if_true]
    have hst : s.size - 1 - i < m.depth := by omega
    have hplace : m.depth - 1 - (s.size - 1 - i) = i := by omega
    refine ⟨_, (m.exec_single _).trans (if_pos hst), hd, fun j hj => ?_⟩
    dsimp only at hj ⊢
    rw [hplace, hd]
    by_cases hji : j = i
    · subst hji
      rw [update_self, update_self]
      exact hv _ (by omega)
    · rw [update_of_ne hji, update_of_ne hji]
      by_cases htop : j = s.size - 1
      · subst htop
        rw [update_self, update_self]
        exact hv i hi
      · rw [update_of_ne htop, update_of_ne htop]
        exact hv j hj

theorem exchange_regs : (s.exchange i).2.regs = s.regs := by
  have htop : s.size - 1 < s.size := by omega
  have hperm : (range s.size).image (Equiv.swap (s.size - 1) i) = range s.size := by
    refine eq_of_subset_of_card_le (image_subset_iff.mpr fun j hj => ?_) ?_
    · rw [Equiv.swap_apply_def]
      split_ifs <;> simp_all
    · rw [card_image_of_injective _ (Equiv.injective _)]
  rw [regs, exchange_size, exchange_reg, ← image_image, hperm, regs]

end Step

/-! ## The loops -/

theorem popLoop_spec (liveIn : Finset Nat) (s : Stack) (i : Nat) (hs : s.Distinct)
    (hlive : ∀ j < i, j < s.size → s.reg j ∈ liveIn) :
    Leads α (popLoop liveIn s i).1 s (popLoop liveIn s i).2 ∧
      (popLoop liveIn s i).2.Distinct ∧ (popLoop liveIn s i).2.regs = s.regs ∩ liveIn := by
  fun_induction popLoop liveIn s i with
  | case1 s i hi hreg p r ih =>
    obtain ⟨hd, hregs⟩ := popReg_regs hi hs
    obtain ⟨hl, hd', hr⟩ := ih hd fun j hj hj' => by
      dsimp only [p, popReg] at hj' ⊢
      rw [update_of_ne hj.ne]
      exact hlive j hj (by omega)
    refine ⟨(popReg_leads hi).append hl, hd', ?_⟩
    rw [hr, hregs, erase_inter, erase_eq_of_notMem fun h => hreg (mem_inter.mp h).2]
  | case2 s i hi hreg ih =>
    refine ih hs fun j hj hj' => ?_
    rcases Nat.lt_succ_iff_lt_or_eq.mp hj with h | rfl
    · exact hlive j h hj'
    · exact not_not.mp hreg
  | case3 s i hi =>
    refine ⟨Leads.nil, hs, (inter_eq_left.mpr fun x hx => ?_).symm⟩
    obtain ⟨j, hj, rfl⟩ := mem_regs.mp hx
    exact hlive j (hj.trans_le (not_lt.mp hi)) hj

theorem search_spec {x k : Nat} : ∀ (fuel j : Nat), j ≤ k → k < j + fuel → s.reg k = x →
    ∃ l, s.search x fuel j = some l ∧ j ≤ l ∧ l ≤ k ∧ s.reg l = x := by
  intro fuel
  induction fuel with
  | zero => exact fun j h h' => absurd h' (by omega)
  | succ fuel ih =>
    intro j hjk hk hx
    rw [search]
    by_cases hj : s.reg j = x
    · exact ⟨j, if_pos hj, le_rfl, hjk, hj⟩
    · have hne : j ≠ k := by
        rintro rfl
        exact hj hx
      obtain ⟨l, hl, hjl, hlk, hlx⟩ := ih (j + 1) (by omega) (by omega) hx
      exact ⟨l, by rw [if_neg hj, hl], by omega, hlk, hlx⟩

/-- The registers are those of the target, in its order below place `i`. -/
structure Sorted (tgt s : Stack) (i : Nat) : Prop where
  size : s.size = tgt.size
  regs : s.regs = tgt.regs
  below : ∀ j < i, s.reg j = tgt.reg j

/-- One exchange puts one more register into its place. -/
theorem sortStep_spec (ht : tgt.Distinct) {c : List Op} (h : Sorted tgt s i)
    (hi : i < tgt.size) (hl : Leads α c src s) :
    ∃ r, sortStep tgt (c, s) i = some r ∧ Leads α r.1 src r.2 ∧ Sorted tgt r.2 (i + 1) := by
  unfold sortStep
  by_cases heq : s.reg i = tgt.reg i
  · refine ⟨_, if_pos heq, hl, h.size, h.regs, fun j hj => ?_⟩
    rcases Nat.lt_succ_iff_lt_or_eq.mp hj with hj | rfl
    · exact h.below j hj
    · exact heq
  -- the register is above: the places below have other ones
  obtain ⟨k, hk, hkx⟩ := mem_regs.mp (h.regs ▸ mem_regs.mpr ⟨i, hi, rfl⟩)
  have hik : i + 1 ≤ k := by
    by_contra hle
    rcases Nat.lt_or_ge k i with hlt | hge
    · have := ht (by simp; omega) (by simpa) ((h.below k hlt).symm.trans hkx)
      omega
    · exact heq ((show k = i by omega) ▸ hkx)
  have hfits := s.fits
  have hsize := h.size
  obtain ⟨l, hl', hil, hlk, hlx⟩ := search_spec (stackSize - (i + 1)) (i + 1) hik (by omega) hkx
  have hls : l < s.size := hlk.trans_lt hk
  have his : i < (s.exchange l).2.size := by
    rw [exchange_size]
    omega
  refine ⟨_, (if_neg heq).trans (congrArg _ hl'), ?_, ?_, ?_, fun j hj => ?_⟩
  · exact hl.append ((exchange_leads hls).append (exchange_leads his))
  · exact exchange_size.trans (exchange_size.trans h.size)
  · exact (exchange_regs his).trans ((exchange_regs hls).trans h.regs)
  · dsimp only [swap]
    rw [exchange_reg, exchange_reg, exchange_size, comp_apply, comp_apply]
    rcases Nat.lt_succ_iff_lt_or_eq.mp hj with hj | rfl
    · have hstay : ∀ k, j < k → Equiv.swap (s.size - 1) k j = j := fun k hjk =>
        Equiv.swap_apply_of_ne_of_ne (by omega) hjk.ne
      rw [hstay i hj, hstay l (by omega)]
      exact h.below j hj
    · rw [Equiv.swap_apply_right, Equiv.swap_apply_left, hlx]

theorem sortLoop_spec (ht : tgt.Distinct) {c : List Op} (h : Sorted tgt s 0)
    (hl : Leads α c src s) : ∀ n ≤ tgt.size, ∃ r,
      (List.range n).foldlM (sortStep tgt) (c, s) = some r ∧ Leads α r.1 src r.2 ∧
        Sorted tgt r.2 n := by
  intro n
  induction n with
  | zero => exact fun _ => ⟨_, rfl, hl, h⟩
  | succ n ih =>
    intro hn
    obtain ⟨r, hr, hlr, hsr⟩ := ih (by omega)
    obtain ⟨r', hr', h'⟩ := sortStep_spec ht hsr hn hlr
    refine ⟨r', ?_, h'⟩
    rw [List.range_succ, List.foldlM_append, hr]
    simpa using hr'

/-! ## Compensation -/

def Identical (s t : Stack) : Prop := s.size = t.size ∧ ∀ i < s.size, s.reg i = t.reg i

theorem areEquivalent_identical (ht : tgt.Distinct) (hsub : tgt.regs ⊆ src.regs)
    (h : areEquivalent tgt src = true) : Identical tgt src := by
  simp only [areEquivalent, Bool.and_eq_true, decide_eq_true_eq, List.all_eq_true,
    List.mem_range] at h
  obtain ⟨hsize, hbelow⟩ := h
  refine ⟨hsize, fun i hi => ?_⟩
  rcases Nat.lt_or_ge i (tgt.size - 1) with hlt | hge
  · exact hbelow i hlt
  obtain ⟨k, hk, hkx⟩ := mem_regs.mp (hsub (mem_regs.mpr ⟨i, hi, rfl⟩))
  rcases Nat.lt_or_ge k (tgt.size - 1) with hlt | hge'
  · have := ht (by simp; omega) (by simpa) ((hbelow k hlt).trans hkx)
    omega
  · rw [← hkx, show k = i by omega]

/-- Nothing is inserted between identical stacks, and else the new block leads from the one to the
other. -/
theorem compensate_exact (α : Type*) (tgt src : Stack) (ht : tgt.Distinct) (hs : src.Distinct)
    (hlive : tgt.liveIn = tgt.regs) (hsub : tgt.regs ⊆ src.regs) (hout : tgt.liveIn ⊆ src.liveOut) :
    Identical tgt src ∧ compensate tgt src = some none ∨
      ∃ code, compensate tgt src = some (some code) ∧ Leads α code src tgt := by
  unfold compensate
  by_cases heq : areEquivalent tgt src = true
  · exact .inl ⟨areEquivalent_identical ht hsub heq, if_pos heq⟩
  obtain ⟨hl, hd, hregs⟩ := popLoop_spec (α := α) tgt.liveIn src 0 hs fun j hj => absurd hj (by omega)
  rw [hlive, inter_eq_right.mpr hsub] at hregs
  have hsize : (popLoop tgt.liveIn src 0).2.size = tgt.size := by
    rw [← hd.card, hlive, hregs, ht.card]
  obtain ⟨r, hr, hlr, hsr⟩ := sortLoop_spec ht ⟨hsize, hlive ▸ hregs, fun j hj => absurd hj (by omega)⟩
    hl tgt.size le_rfl
  refine .inr ⟨r.1, ?_, fun value m hm => ?_⟩
  · rw [if_neg heq, if_pos hout]
    simp only [hsize, if_true]
    rw [hr]
    rfl
  · obtain ⟨m', hm', hdep, hval⟩ := hlr value m hm
    refine ⟨m', hm', hdep.trans hsr.size, fun i hi => ?_⟩
    rw [hval i (hsr.size ▸ hi), hsr.below i hi]

/-- The stack with these registers, all live. -/
def ofList (l : List Nat) (h : l.length ≤ stackSize) : Stack :=
  ⟨l.length, l.toFinset, l.toFinset, fun i => l.getD i 0, h⟩

theorem compensate_exact_three :
    ∃ code, compensate (ofList [3, 1] (by decide)) (ofList [1, 2, 3] (by decide)) = some (some code) ∧
      Leads Nat code (ofList [1, 2, 3] (by decide)) (ofList [3, 1] (by decide)) := by
  refine (compensate_exact Nat _ _ ?_ ?_ ?_ ?_ ?_).resolve_left fun h => absurd h.1.1 (by decide)
  · exact distinct_of_card (by decide)
  · exact distinct_of_card (by decide)
  · decide
  · decide
  · decide

end Stack

end X8664.X87
