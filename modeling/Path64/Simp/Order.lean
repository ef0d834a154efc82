import Path64.Lib.FirstDiff
import Path64.Simp.Tree

/-! # The order of the simplifier's trees

`compareTrees` walks two trees in step and stops at the first difference.
`keys` writes down what it looks at, as a word, so that the comparison
becomes the comparison of two words by their first difference. -/

namespace Simp

open List FirstDiff

/-! ## What the comparison looks at -/

/-- What is looked at: a number, the low half of an address, or the end of a list of kids. -/
inductive Key where
  | num (n : Int)
  | ptr (low : BitVec 32)
  | stop
  deriving DecidableEq

/-- The comparison of two keys; those of different kinds never meet where trees are decided. -/
def keyCmp : Key → Key → Int
  | .num a, .num b => if a < b then -1 else if a > b then 1 else 0
  | .ptr a, .ptr b => (a - b).toInt
  | .stop, .stop => 0
  | .stop, _ => -1
  | _, .stop => 1
  | .num _, .ptr _ => -1
  | .ptr _, .num _ => 1

section
-- derives the equations
attribute [local simp] keyCmp
end

/-- The kids that are visited, in the order of the visits. -/
def visits (opcode kidCount : Nat) : List Nat :=
  match operatorOf opcode with
  | .intconst | .const | .ldid | .ldbits | .idname | .lda => []
  | .comma | .rcomma | .cselect | .stmt => []
  | .cvtl | .extractBits | .iload | .ildbits => [0]
  | .composeBits | .mload | .iloadx => [0, 1]
  | .array => arrayVisits (kidCount / 2)
  | _ => range kidCount

/-- What is written for a node itself, from its address, opcode, attributes and kid count. -/
abbrev Label := BitVec 64 → Nat → Attrs → Nat → List Key

/-- What the comparison looks at in a node. -/
def comparedLabel : Label := fun a opc x n =>
  .num opc :: if byAddress opc then [.ptr (a.setWidth 32)]
    else (comparedAttrs opc x n).map .num

/-- What the value of a node depends on, apart from its kids. -/
def entireLabel : Label := fun a opc x n =>
  .num opc :: if byAddress opc then [.num a.toNat]
    else .num n :: (comparedAttrs opc x n ++ uncomparedAttrs opc x).map .num

mutual

/-- A tree as a word: the label of the root, then the visited kids, closed by `stop`. -/
def walk (lab : Label) : Wn → List Key
  | .node a opc x kids =>
    lab a opc x kids.length ++
      closed .stop ((visits opc kids.length).map fun i => (walkKids lab kids).getD i [])

/-- The words of a list of kids. -/
def walkKids (lab : Label) : List Wn → List (List Key)
  | [] => []
  | k :: ks => walk lab k :: walkKids lab ks

end

/-- What the comparison looks at in a tree. -/
def keys : Wn → List Key := walk comparedLabel

/-- What the value of a tree depends on. -/
def entire : Wn → List Key := walk entireLabel

/-! ## The claim and the condition -/

/-- The comparison is a consistent order on a set of trees and identifies only equal values. -/
structure ConsistentOn (S : Set Wn) : Prop where
  defined : ∀ x ∈ S, ∀ y ∈ S, ∃ r, compareTrees x y = some r
  antisymm : ∀ x ∈ S, ∀ y ∈ S, ∀ r s, compareTrees x y = some r →
    compareTrees y x = some s → ¬(0 < r ∧ 0 < s) ∧ (r = 0 ↔ s = 0)
  trans : ∀ x ∈ S, ∀ y ∈ S, ∀ z ∈ S, ∀ r s t, compareTrees x y = some r →
    compareTrees y z = some s → compareTrees x z = some t → r ≤ 0 → s ≤ 0 →
    t ≤ 0 ∧ (r < 0 ∨ s < 0 → t < 0)
  sound : ∀ x ∈ S, ∀ y ∈ S, compareTrees x y = some 0 →
    ∀ (V : Type) (I : Interp V), eval I x = eval I y

/-- Two trees do not part at the end of one of two lists of kids. -/
def SameArity (x y : Wn) : Prop :=
  ∀ p q, firstDiff (keys x) (keys y) = some (p, q) → p ≠ .stop ∧ q ≠ .stop

/-- Two steps upwards of at most half the range, modulo 2^32, stay within half the range. -/
def NoWrap (x y z : Wn) : Prop :=
  ∀ a b c, firstDiff3 (keys x) (keys y) (keys z) = some (.ptr a, .ptr b, .ptr c) →
    (b - a).toNat ≤ 2 ^ 31 → (c - b).toNat ≤ 2 ^ 31 →
    (b - a).toNat + (c - b).toNat ≤ 2 ^ 31

/-- Trees that look alike to the comparison agree on what it does not look at. -/
def NothingHidden (x y : Wn) : Prop := keys x = keys y → entire x = entire y

/-- The condition of `NoWrap` at the keys where three trees part. -/
def noWrapAt : Option (Key × Key × Key) → Bool
  | some (.ptr a, .ptr b, .ptr c) =>
    decide ((b - a).toNat ≤ 2 ^ 31 → (c - b).toNat ≤ 2 ^ 31 →
      (b - a).toNat + (c - b).toNat ≤ 2 ^ 31)
  | _ => true

theorem noWrapAt_iff (x y z : Wn) :
    noWrapAt (firstDiff3 (keys x) (keys y) (keys z)) = true ↔ NoWrap x y z := by
  unfold NoWrap
  rcases firstDiff3 (keys x) (keys y) (keys z) with _ | ⟨p, q, r⟩
  · simp [noWrapAt]
  · cases p <;> cases q <;> cases r <;> simp [noWrapAt]
    omega

instance (x y z : Wn) : Decidable (NoWrap x y z) := decidable_of_iff _ (noWrapAt_iff x y z)

theorem sameArity_iff (x y : Wn) :
    (∀ d ∈ firstDiff (keys x) (keys y), d.1 ≠ .stop ∧ d.2 ≠ .stop) ↔ SameArity x y :=
  ⟨fun h p q hd => h (p, q) hd, fun h d hd => h d.1 d.2 hd⟩

instance (x y : Wn) : Decidable (SameArity x y) := decidable_of_iff _ (sameArity_iff x y)

instance (x y : Wn) : Decidable (NothingHidden x y) :=
  inferInstanceAs (Decidable (keys x = keys y → entire x = entire y))

/-- The trees of a set meet none of the three shortcomings. -/
structure Orderly (S : Set Wn) : Prop where
  sameArity : ∀ x ∈ S, ∀ y ∈ S, SameArity x y
  noWrap : ∀ x ∈ S, ∀ y ∈ S, ∀ z ∈ S, NoWrap x y z
  nothingHidden : ∀ x ∈ S, ∀ y ∈ S, NothingHidden x y

/-! ## Keys -/

theorem keyCmp_eq_zero (p q : Key) : keyCmp p q = 0 ↔ p = q := by
  cases p with
  | num a =>
    cases q with
    | num b =>
      simp only [keyCmp, Key.num.injEq]
      split_ifs <;> simp <;> omega
    | ptr b => simp [keyCmp]
    | stop => simp [keyCmp]
  | ptr a =>
    cases q with
    | num b => simp [keyCmp]
    | ptr b =>
      simp only [keyCmp, Key.ptr.injEq]
      constructor
      · intro h
        have h0 : a - b = 0#32 := BitVec.eq_of_toInt_eq (by rw [h]; rfl)
        rw [BitVec.sub_eq_iff_eq_add] at h0
        rw [h0, BitVec.zero_add]
      · rintro rfl
        rw [BitVec.sub_self]
        rfl
    | stop => simp [keyCmp]
  | stop => cases q <;> simp [keyCmp]

theorem toInt_sub_neg_iff (a b : BitVec 32) :
    (a - b).toInt < 0 ↔ 0 < (b - a).toNat ∧ (b - a).toNat ≤ 2 ^ 31 := by
  have ha := a.isLt
  have hb := b.isLt
  rw [BitVec.toInt_eq_toNat_cond, BitVec.toNat_sub, BitVec.toNat_sub]
  split_ifs <;> omega

theorem keyCmp_not_pos (p q : Key) : ¬(0 < keyCmp p q ∧ 0 < keyCmp q p) := by
  cases p with
  | num a =>
    cases q with
    | num b =>
      simp only [keyCmp]
      split_ifs <;> omega
    | ptr b => simp [keyCmp]
    | stop => simp [keyCmp]
  | ptr a =>
    cases q with
    | num b => simp [keyCmp]
    | ptr b =>
      have ha := a.isLt
      have hb := b.isLt
      simp only [keyCmp]
      rw [BitVec.toInt_eq_toNat_cond, BitVec.toInt_eq_toNat_cond,
        BitVec.toNat_sub, BitVec.toNat_sub]
      split_ifs <;> omega
    | stop => simp [keyCmp]
  | stop => cases q <;> simp [keyCmp]

theorem keyCmp_trans {p q r : Key} (h : ∀ a b c, p = .ptr a → q = .ptr b → r = .ptr c →
      keyCmp p q < 0 → keyCmp q r < 0 → keyCmp p r < 0)
    (hpq : keyCmp p q < 0) (hqr : keyCmp q r < 0) : keyCmp p r < 0 := by
  cases p with
  | num a =>
    cases q with
    | num b =>
      cases r with
      | num c =>
        simp only [keyCmp] at hpq hqr ⊢
        split_ifs at hpq hqr ⊢ <;> omega
      | ptr c => simp [keyCmp]
      | stop => simp [keyCmp] at hqr
    | ptr b => cases r <;> simp [keyCmp] at hqr ⊢
    | stop => simp [keyCmp] at hpq
  | ptr a =>
    cases q with
    | num b => simp [keyCmp] at hpq
    | ptr b =>
      cases r with
      | num c => simp [keyCmp] at hqr
      | ptr c => exact h a b c rfl rfl rfl hpq hqr
      | stop => simp [keyCmp] at hqr
    | stop => simp [keyCmp] at hpq
  | stop =>
    cases r with
    | stop => cases q <;> simp [keyCmp] at hpq hqr
    | num c => simp [keyCmp]
    | ptr c => simp [keyCmp]

/-! ## Trees as words -/

/-- A label begins with the opcode, and its length depends on nothing else. -/
structure Label.Uniform (lab : Label) : Prop where
  head : ∀ a opc x n, ∃ rest, lab a opc x n = .num opc :: rest
  length : ∀ a a' opc x x' n n', (lab a opc x n).length = (lab a' opc x' n').length

theorem comparedAttrs_length (opc : Nat) (x x' : Attrs) (n n' : Nat) :
    (comparedAttrs opc x n).length = (comparedAttrs opc x' n').length := by
  unfold comparedAttrs
  split <;> first | rfl | (split_ifs <;> rfl)

theorem uncomparedAttrs_length (opc : Nat) (x x' : Attrs) :
    (uncomparedAttrs opc x).length = (uncomparedAttrs opc x').length := by
  unfold uncomparedAttrs
  split <;> first | rfl | (split_ifs <;> rfl)

theorem comparedLabel_uniform : Label.Uniform comparedLabel where
  head _ _ _ _ := ⟨_, rfl⟩
  length a a' opc x x' n n' := by
    unfold comparedLabel
    split_ifs
    · rfl
    · simp [comparedAttrs_length opc x x' n n']

theorem entireLabel_uniform : Label.Uniform entireLabel where
  head _ _ _ _ := ⟨_, rfl⟩
  length a a' opc x x' n n' := by
    unfold entireLabel
    split_ifs
    · rfl
    · simp [comparedAttrs_length opc x x' n n', uncomparedAttrs_length opc x x']

theorem walkKids_eq_map (lab : Label) (ks : List Wn) : walkKids lab ks = ks.map (walk lab):= by
  induction ks with
  | nil => rfl
  | cons k ks ih => rw [walkKids, ih, map_cons]

variable {V : Type} {n i opc : Nat}

theorem evalKids_eq_map (I : Interp V) (ks : List Wn) : evalKids I ks = ks.map (eval I) := by
  induction ks with
  | nil => rfl
  | cons k ks ih => rw [evalKids, ih, map_cons]

theorem mem_arrayVisits : i ∈ arrayVisits n ↔ i < 2 * n + 1 := by
  simp only [arrayVisits, mem_cons, mem_flatMap, mem_range,
    not_mem_nil, or_false]
  constructor
  · rintro (rfl | ⟨j, hj, rfl | rfl⟩) <;> omega
  · intro h
    rcases Nat.eq_zero_or_pos i with h0 | h0
    · exact .inl h0
    · rcases Nat.lt_or_ge n i with hn | hn
      · exact .inr ⟨i - n - 1, by omega, .inl (by omega)⟩
      · exact .inr ⟨i - 1, by omega, .inr (by omega)⟩

theorem mem_visits (h : kidsFit opc n = true) :
    (i ∈ visits opc n → i < n) ∧ (byAddress opc = false → i < n → i ∈ visits opc n) := by
  unfold kidsFit at h
  unfold visits byAddress
  cases ho : operatorOf opc <;> rw [ho] at h <;> simp only [beq_iff_eq] at h <;>
    simp [mem_arrayVisits] <;> omega

theorem num_ne_num {m : Nat} (h : m ≠ n) : Key.num m ≠ Key.num n := by
  intro he
  exact h (Int.ofNat.inj (Key.num.inj he))

variable {lab : Label} {mem : BitVec 64 → Option Wn}

theorem opens_walk (hl : lab.Uniform) (t : Wn) : Opens Key.stop (walk lab t) := by
  cases t with
  | node a opc x kids =>
    obtain ⟨rest, hr⟩ := hl.head a opc x kids.length
    rw [walk, hr]
    exact ⟨.num opc, _, rfl, by simp⟩

/-- The words of the visited kids. -/
def visited (lab : Label) (opc : Nat) (kids : List Wn) : List (List Key) :=
  (visits opc kids.length).map fun i => (walkKids lab kids).getD i []

theorem walk_node (lab : Label) (a : BitVec 64) (opc : Nat) (x : Attrs) (kids : List Wn) :
    walk lab (.node a opc x kids) =
      lab a opc x kids.length ++ closed .stop (visited lab opc kids) := by
  rw [walk, visited]

theorem walkKids_getD (lab : Label) {kids : List Wn} (h : i < kids.length) :
    (walkKids lab kids).getD i [] = walk lab kids[i] := by
  simp [walkKids_eq_map, getD_eq_getElem?_getD, h]

theorem mem_visited {kids : List Wn} (h : kidsFit opc kids.length = true)
    {w : List Key} (hw : w ∈ visited lab opc kids) : ∃ k ∈ kids, w = walk lab k := by
  obtain ⟨i, hi, rfl⟩ := mem_map.mp hw
  have hlt : i < kids.length := (mem_visits h).1 hi
  exact ⟨kids[i], getElem_mem hlt, walkKids_getD lab hlt⟩

theorem aligned_walk (hl : lab.Uniform) (s : Wn) : ∀ t, InMemory mem s → InMemory mem t →
    Aligned (walk lab s) (walk lab t) := by
  induction s using Wn.treeInduct with
  | h a opc x kids ih =>
    intro t hs ht
    cases t with
    | node a' opc' x' kids' =>
      rw [InMemory, kidsInMemory_iff] at hs ht
      rw [walk_node, walk_node]
      by_cases ho : opc = opc'
      · subst ho
        refine Aligned.append (aligned_of_length (hl.length ..)) (aligned_closed ?_ ?_ ?_)
        · intro w hw
          obtain ⟨k, -, rfl⟩ := mem_visited hs.2.1 hw
          exact opens_walk hl k
        · intro w hw
          obtain ⟨k, -, rfl⟩ := mem_visited ht.2.1 hw
          exact opens_walk hl k
        · intro v hv w hw
          obtain ⟨k, hk, rfl⟩ := mem_visited hs.2.1 hv
          obtain ⟨k', hk', rfl⟩ := mem_visited ht.2.1 hw
          exact ih k hk k' (hs.2.2 k hk) (ht.2.2 k' hk')
      · obtain ⟨rest, hr⟩ := hl.head a opc x kids.length
        obtain ⟨rest', hr'⟩ := hl.head a' opc' x' kids'.length
        intro hn
        rw [hr, hr', cons_append, cons_append, firstDiff_cons_ne (num_ne_num ho)] at hn
        cases hn

/-! ## The comparison as a comparison of words -/

/-- What `compareTrees` makes of the first difference. -/
def Describes : Option (Key × Key) → Option Int → Prop
  | none, r => r = some 0
  | some (p, q), r => p ≠ .stop → r = if q = .stop then none else some (keyCmp p q)

/-- The comparison of two lists of attributes, then the rest. -/
def compareAttrs : List Int → List Int → Option Int → Option Int
  | a :: as, b :: bs, rest => compareBy a b (compareAttrs as bs rest)
  | _, _, rest => rest

theorem compareSeq_singleton (r : Option Int) : compareSeq [r] = r := by
  cases r with
  | none => rfl
  | some rv =>
    simp only [compareSeq]
    split_ifs with h
    · rfl
    · rw [not_not.mp h]

theorem compareTrees_node {a1 a2 : BitVec 64} (ha : a1 ≠ a2) (opc : Nat) (x1 x2 : Attrs)
    (kids1 kids2 : List Wn) : compareTrees (.node a1 opc x1 kids1) (.node a2 opc x2 kids2) =
      if byAddress opc then some (addressDiff a1 a2)
      else compareAttrs (comparedAttrs opc x1 kids1.length)
        (comparedAttrs opc x2 kids2.length)
        (compareSeq ((visits opc kids1.length).map fun i =>
          (compareKids kids1 kids2).getD i none)) := by
  rw [compareTrees]
  simp only [if_neg ha, gt_iff_lt, lt_irrefl, if_false, or_self]
  unfold byAddress comparedAttrs visits
  cases operatorOf opc <;>
    simp only [compareAttrs, map_nil, map_cons, compareSeq_singleton,
      compareSeq, if_true, if_false, Bool.false_eq_true] <;>
    first | rfl | (split_ifs <;> rfl)

theorem describes_attrs {as bs : List Int} (hlen : as.length = bs.length)
    {ks ls : List Key} {r : Option Int} (h : as = bs → Describes (firstDiff ks ls) r) :
    Describes (firstDiff (as.map Key.num ++ ks) (bs.map Key.num ++ ls)) (compareAttrs as bs r):= by
  induction as generalizing bs with
  | nil =>
    have hb : [] = bs := (length_eq_zero_iff.mp hlen.symm).symm
    subst hb
    exact h rfl
  | cons a as ih =>
    cases bs with
    | nil => cases hlen
    | cons b bs =>
      simp only [map_cons, cons_append, compareAttrs, compareBy]
      by_cases hab : a = b
      · subst hab
        rw [firstDiff_cons_self, if_neg (lt_irrefl a), if_neg (lt_irrefl a)]
        exact ih (Nat.succ.inj hlen) (fun he => h (by rw [he]))
      · rw [firstDiff_cons_ne (by simpa using hab)]
        intro _
        simp only [keyCmp, reduceCtorEq, if_false]
        split_ifs
        · rfl
        · rfl
        · omega

theorem describes_seq {f1 f2 : Nat → List Key} {rv : Nat → Option Int}
    {c r1 r2 : List Nat} (hend : r1 = [] ∨ r2 = [])
    (hopen1 : ∀ i ∈ r1, Opens Key.stop (f1 i)) (hopen2 : ∀ i ∈ r2, Opens Key.stop (f2 i))
    (halign : ∀ i ∈ c, Aligned (f1 i) (f2 i))
    (h : ∀ i ∈ c, Describes (firstDiff (f1 i) (f2 i)) (rv i)) (hrest : ∀ i ∈ r1, rv i = none) :
    Describes (firstDiff (closed .stop ((c ++ r1).map f1)) (closed .stop ((c ++ r2).map f2)))
      (compareSeq ((c ++ r1).map rv)) := by
  induction c with
  | nil =>
    simp only [nil_append]
    cases r1 with
    | nil =>
      cases r2 with
      | nil => simp [closed, Describes, compareSeq]
      | cons j r2 =>
        obtain ⟨k, ks, hk, hne⟩ := hopen2 j (by simp)
        rw [map_cons, closed_cons, hk]
        simp [closed, firstDiff_cons, Ne.symm hne, Describes]
    | cons i r1 =>
      rcases hend with hend | rfl
      · cases hend
      · obtain ⟨k, ks, hk, hne⟩ := hopen1 i (by simp)
        rw [map_cons, closed_cons, hk, map_cons, hrest i (by simp)]
        simp [closed, firstDiff_cons, hne, Describes, compareSeq]
  | cons i c ih =>
    have ih' := ih (fun j hj => halign j (by simp [hj])) (fun j hj => h j (by simp [hj]))
    have hi := h i (by simp)
    simp only [cons_append, map_cons, closed_cons]
    rw [firstDiff_append (halign i (by simp))]
    cases hd : firstDiff (f1 i) (f2 i) with
    | none =>
      rw [hd] at hi
      have hrv : rv i = some 0 := hi
      rw [Option.none_or, hrv]
      simpa [compareSeq] using ih'
    | some d =>
      obtain ⟨p, q⟩ := d
      have hne := firstDiff_ne hd
      rw [hd] at hi
      rw [Option.some_or]
      intro hp
      have hrv := hi hp
      by_cases hq : q = .stop
      · rw [if_pos hq] at hrv ⊢
        rw [hrv]
        rfl
      · rw [if_neg hq] at hrv ⊢
        rw [hrv, compareSeq, if_pos (fun h0 => hne ((keyCmp_eq_zero _ _).mp h0))]

theorem compareKids_getD (ks1 ks2 : List Wn) (i : Nat) :
    (∀ (h1 : i < ks1.length) (h2 : i < ks2.length),
      (compareKids ks1 ks2).getD i none = compareTrees ks1[i] ks2[i]) ∧
    (ks2.length ≤ i → (compareKids ks1 ks2).getD i none = none) := by
  induction ks1 generalizing ks2 i with
  | nil => simp [compareKids]
  | cons k1 ks1 ih =>
    cases ks2 with
    | nil => simp [compareKids]
    | cons k2 ks2 =>
      cases i with
      | zero => simp [compareKids]
      | succ i =>
        simp only [compareKids, length_cons, getD_cons_succ, getElem_cons_succ]
        refine ⟨fun h1 h2 => (ih ks2 i).1 (by omega) (by omega), fun h => (ih ks2 i).2 (by omega)⟩

theorem visits_split {n1 n2 : Nat} {x1 x2 : Attrs}
    (h : comparedAttrs opc x1 n1 = comparedAttrs opc x2 n2) :
    ∃ c r1 r2, visits opc n1 = c ++ r1 ∧ visits opc n2 = c ++ r2 ∧
      (r1 = [] ∨ r2 = []) ∧ ∀ i ∈ r1, n2 ≤ i := by
  have same : ∀ v : List Nat, ∃ c r1 r2, v = c ++ r1 ∧ v = c ++ r2 ∧
      (r1 = [] ∨ r2 = []) ∧ ∀ i ∈ r1, n2 ≤ i :=
    fun v => ⟨v, [], [], by simp, by simp, .inl rfl, by simp⟩
  have ranges : ∃ c r1 r2, range n1 = c ++ r1 ∧ range n2 = c ++ r2 ∧
      (r1 = [] ∨ r2 = []) ∧ ∀ i ∈ r1, n2 ≤ i := by
    rcases Nat.le_total n1 n2 with hle | hle
    · obtain ⟨d, rfl⟩ := Nat.exists_eq_add_of_le hle
      exact ⟨range n1, [], _, by simp, range_add, .inl rfl, by simp⟩
    · obtain ⟨d, rfl⟩ := Nat.exists_eq_add_of_le hle
      exact ⟨range n2, _, [], range_add, by simp, .inr rfl, by simp⟩
  unfold comparedAttrs at h
  unfold visits
  cases ho : operatorOf opc <;> rw [ho] at h <;> first | exact same _ | exact ranges | skip
  -- an ARRAY: the number of dimensions is among the attributes
  have hdim : n1 / 2 = n2 / 2 := by
    simp only [cons.injEq] at h
    omega
  simp only [hdim]
  exact same _

theorem visits_byAddress (h : byAddress opc = true) : visits opc n = [] := by
  unfold byAddress at h
  unfold visits
  cases ho : operatorOf opc <;> rw [ho] at h <;> first | rfl | cases h

theorem addressDiff_eq (a b : BitVec 64) :
    addressDiff a b = (a.setWidth 32 - b.setWidth 32).toInt := by
  unfold addressDiff
  congr 1
  apply BitVec.eq_of_toNat_eq
  simp only [BitVec.toNat_setWidth, BitVec.toNat_sub]
  omega

/-- The order on trees is the first difference of their key sequences; by induction on the first
tree. -/
theorem describes_compareTrees (s : Wn) : ∀ t, InMemory mem s → InMemory mem t →
    Describes (firstDiff (keys s) (keys t)) (compareTrees s t) := by
  induction s using Wn.treeInduct with
  | h a1 opc1 x1 kids1 ih =>
    intro t hs ht
    cases t with
    | node a2 opc2 x2 kids2 =>
      by_cases ha : a1 = a2
      · have he := hs.eq_of_addr ht ha
        rw [← he, firstDiff_self, compareTrees, if_pos rfl]
        rfl
      rw [InMemory, kidsInMemory_iff] at hs ht
      simp only [keys, walk_node, comparedLabel, cons_append]
      by_cases ho : opc1 = opc2
      · subst ho
        rw [firstDiff_cons_self, compareTrees_node ha]
        by_cases hb : byAddress opc1 = true
        · simp only [hb, if_true, visited, visits_byAddress hb, map_nil, addressDiff_eq]
          by_cases hlow : a1.setWidth 32 = a2.setWidth 32
          · rw [hlow, BitVec.sub_self, firstDiff_self]
            rfl
          · simp only [cons_append]
            rw [firstDiff_cons_ne (by simpa using hlow)]
            intro _
            rfl
        · simp only [hb, if_false, Bool.false_eq_true]
          refine describes_attrs (comparedAttrs_length ..) (fun hattrs => ?_)
          obtain ⟨c, r1, r2, hv1, hv2, hend, hr1⟩ := visits_split hattrs
          have lt1 : ∀ i ∈ c ++ r1, i < kids1.length :=
            fun i hi => (mem_visits hs.2.1).1 (by rw [hv1]; exact hi)
          have lt2 : ∀ i ∈ c ++ r2, i < kids2.length :=
            fun i hi => (mem_visits ht.2.1).1 (by rw [hv2]; exact hi)
          unfold visited
          rw [hv1, hv2]
          refine describes_seq hend ?_ ?_ ?_ ?_ ?_
          · intro i hi
            rw [walkKids_getD _ (lt1 i (by simp [hi]))]
            exact opens_walk comparedLabel_uniform _
          · intro i hi
            rw [walkKids_getD _ (lt2 i (by simp [hi]))]
            exact opens_walk comparedLabel_uniform _
          · intro i hi
            have h1 := lt1 i (by simp [hi])
            have h2 := lt2 i (by simp [hi])
            rw [walkKids_getD _ h1, walkKids_getD _ h2]
            exact aligned_walk comparedLabel_uniform _ _
              (hs.2.2 _ (getElem_mem h1)) (ht.2.2 _ (getElem_mem h2))
          · intro i hi
            have h1 := lt1 i (by simp [hi])
            have h2 := lt2 i (by simp [hi])
            rw [walkKids_getD _ h1, walkKids_getD _ h2, (compareKids_getD ..).1 h1 h2]
            exact ih _ (getElem_mem h1) _
              (hs.2.2 _ (getElem_mem h1)) (ht.2.2 _ (getElem_mem h2))
          · intro i hi
            exact (compareKids_getD ..).2 (hr1 i hi)
      · rw [firstDiff_cons_ne (num_ne_num ho), compareTrees, if_neg ha]
        intro _
        simp only [keyCmp, reduceCtorEq, if_false]
        split_ifs <;> first | rfl | omega

/-! ## Values -/

/-- Trees with equal fields have equal values. -/
theorem eval_eq_of_entire (I : Interp V) (s : Wn) : ∀ t,
    InMemory mem s → InMemory mem t → entire s = entire t → eval I s = eval I t := by
  induction s using Wn.treeInduct with
  | h a1 opc1 x1 kids1 ih =>
    intro t hs ht he
    cases t with
    | node a2 opc2 x2 kids2 =>
      rw [InMemory, kidsInMemory_iff] at hs ht
      simp only [entire, walk_node] at he
      have hopc : opc1 = opc2 := by
        by_contra hne
        exact num_ne_num hne (cons.inj he).1
      subst hopc
      obtain ⟨hlab, hkids⟩ :=
        (aligned_of_length (entireLabel_uniform.length ..)).append_inj he
      simp only [eval]
      unfold entireLabel at hlab
      by_cases hb : byAddress opc1 = true
      · simp only [hb, if_true, cons.injEq, Key.num.injEq, and_true, true_and,
          Int.natCast_inj] at hlab ⊢
        rw [BitVec.eq_of_toNat_eq hlab]
      · simp only [hb, if_false, Bool.false_eq_true, cons.injEq, Key.num.injEq,
          Int.natCast_inj, true_and] at hlab ⊢
        have hattrs := map_injective_iff.mpr (fun _ _ => Key.num.inj) hlab.2
        have hvisited := closed_inj
          (fun w hw => by
            obtain ⟨k, -, rfl⟩ := mem_visited hs.2.1 hw
            exact opens_walk entireLabel_uniform k)
          (fun w hw => by
            obtain ⟨k, -, rfl⟩ := mem_visited ht.2.1 hw
            exact opens_walk entireLabel_uniform k)
          (fun v hv w hw => by
            obtain ⟨k, hk, rfl⟩ := mem_visited hs.2.1 hv
            obtain ⟨k', hk', rfl⟩ := mem_visited ht.2.1 hw
            exact aligned_walk entireLabel_uniform k k' (hs.2.2 k hk) (ht.2.2 k' hk'))
          hkids
        rw [hattrs, evalKids_eq_map, evalKids_eq_map]
        congr 1
        refine ext_getElem (by simpa using hlab.1) (fun i h1 h2 => ?_)
        rw [length_map] at h1 h2
        rw [getElem_map, getElem_map]
        refine ih _ (getElem_mem h1) _ (hs.2.2 _ (getElem_mem h1))
          (ht.2.2 _ (getElem_mem h2)) ?_
        -- every kid is visited
        have hi : i ∈ visits opc1 kids1.length :=
          (mem_visits hs.2.1).2 (by simpa using hb) h1
        unfold visited at hvisited
        rw [← hlab.1] at hvisited
        have hw := map_inj_left.mp hvisited i hi
        rwa [walkKids_getD _ h1, walkKids_getD _ h2] at hw

/-- The interpretation that writes a tree down. -/
def writer : Interp (List Key) where
  op opc attrs kids :=
    .num opc :: .num kids.length :: attrs.map .num ++
      closed .stop ((visits opc kids.length).map fun i => kids.getD i [])
  run opc a := .num opc :: .num a.toNat :: [.stop]

theorem eval_writer (t : Wn) : eval writer t = entire t := by
  induction t using Wn.treeInduct with
  | h a opc x kids ih =>
    have hk : evalKids writer kids = walkKids entireLabel kids := by
      rw [evalKids_eq_map, walkKids_eq_map]
      exact map_congr_left ih
    rw [eval, hk, entire, walk, entireLabel]
    by_cases hb : byAddress opc = true
    · simp [hb, writer, visits_byAddress hb, closed]
    · simp [hb, writer, walkKids_eq_map]

/-! ## When the order is consistent -/

variable {x y z : Wn}

theorem compareTrees_eq_lexCmp (hx : InMemory mem x) (hy : InMemory mem y) (h : SameArity x y) :
    compareTrees x y = some (lexCmp keyCmp (keys x) (keys y)) := by
  have hd := describes_compareTrees x y hx hy
  unfold lexCmp
  cases hf : firstDiff (keys x) (keys y) with
  | none =>
    rw [hf] at hd
    exact hd
  | some d =>
    obtain ⟨p, q⟩ := d
    obtain ⟨hp, hq⟩ := h p q hf
    rw [hf] at hd
    rw [hd hp, if_neg hq]

theorem sameArity_of_defined (hx : InMemory mem x) (hy : InMemory mem y)
    (hxy : ∃ r, compareTrees x y = some r) (hyx : ∃ r, compareTrees y x = some r) :
    SameArity x y := by
  intro p q hf
  have hne := firstDiff_ne hf
  have hd := describes_compareTrees x y hx hy
  have hd' := describes_compareTrees y x hy hx
  rw [hf] at hd
  rw [firstDiff_swap, hf] at hd'
  constructor
  · rintro rfl
    obtain ⟨r, hr⟩ := hyx
    have hn := hd' hne.symm
    rw [if_pos rfl, hr] at hn
    cases hn
  · rintro rfl
    obtain ⟨r, hr⟩ := hxy
    have hn := hd hne
    rw [if_pos rfl, hr] at hn
    cases hn

theorem lexCmp_eq_zero_iff (hx : InMemory mem x) (hy : InMemory mem y) :
    lexCmp keyCmp (keys x) (keys y) = 0 ↔ keys x = keys y := by
  constructor
  · intro h
    refine aligned_walk comparedLabel_uniform x y hx hy ?_
    unfold lexCmp at h
    cases hf : firstDiff (keys x) (keys y) with
    | none => exact hf
    | some d =>
      obtain ⟨p, q⟩ := d
      rw [hf] at h
      exact absurd ((keyCmp_eq_zero p q).mp h) (firstDiff_ne hf)
  · intro h
    rw [h, lexCmp, firstDiff_self]

theorem lexCmp_not_pos :
    ¬(0 < lexCmp keyCmp (keys x) (keys y) ∧ 0 < lexCmp keyCmp (keys y) (keys x)) := by
  unfold lexCmp
  rw [firstDiff_swap (keys x) (keys y)]
  cases firstDiff (keys x) (keys y) with
  | none => simp
  | some d => exact keyCmp_not_pos d.1 d.2

theorem lexCmp_ptr_neg {a b : BitVec 32}
    (hf : a ≠ b → firstDiff (keys x) (keys y) = some (.ptr a, .ptr b))
    (hpos : 0 < (b - a).toNat) (hle : (b - a).toNat ≤ 2 ^ 31) :
    lexCmp keyCmp (keys x) (keys y) < 0 := by
  have hne : a ≠ b := by
    rintro rfl
    rw [BitVec.sub_self] at hpos
    exact absurd hpos (by decide)
  rw [lexCmp, hf hne]
  exact (toInt_sub_neg_iff a b).mpr ⟨hpos, hle⟩

/-- **Consistency.** The comparison is a consistent order on a set of trees in memory that
identifies only trees of equal value exactly when the trees do not part at the end of a list of
kids, do not part at addresses that spread too far, and hide nothing. -/
theorem compareTrees_consistent_iff (S : Set Wn) (hS : ∀ t ∈ S, InMemory mem t) :
    ConsistentOn S ↔ Orderly S := by
  constructor
  · intro h
    have arity : ∀ x ∈ S, ∀ y ∈ S, SameArity x y := fun x hx y hy =>
      sameArity_of_defined (hS x hx) (hS y hy) (h.defined x hx y hy) (h.defined y hy x hx)
    have cmp : ∀ x ∈ S, ∀ y ∈ S,
        compareTrees x y = some (lexCmp keyCmp (keys x) (keys y)) := fun x hx y hy =>
      compareTrees_eq_lexCmp (hS x hx) (hS y hy) (arity x hx y hy)
    refine ⟨arity, ?_, ?_⟩
    · -- an order that is transitive does not wrap around
      intro x hx y hy z hz a b c hf hab hbc
      by_contra hsum
      obtain ⟨hxy, hyz, hxz⟩ := firstDiff_of_firstDiff3 hf
      have h1 := lexCmp_ptr_neg (fun hne => hxy (by simpa using hne)) (by omega) hab
      have h2 := lexCmp_ptr_neg (fun hne => hyz (by simpa using hne)) (by omega) hbc
      have hlt := (h.trans x hx y hy z hz _ _ _ (cmp x hx y hy) (cmp y hy z hz)
        (cmp x hx z hz) h1.le h2.le).2 (.inl h1)
      by_cases hac : a = c
      · -- once around in two steps of half the range: x and y precede each other
        subst hac
        have h3 : lexCmp keyCmp (keys y) (keys x) < 0 := by
          refine lexCmp_ptr_neg (fun hne => ?_) (by omega) hbc
          rw [firstDiff_swap, hxy (by simpa using hne.symm)]
          rfl
        have hself := (h.trans x hx y hy x hx _ _ _ (cmp x hx y hy) (cmp y hy x hx)
          (cmp x hx x hx) h1.le h3.le).2 (.inl h1)
        rw [(lexCmp_eq_zero_iff (hS x hx) (hS x hx)).mpr rfl] at hself
        exact absurd hself (lt_irrefl 0)
      · rw [lexCmp, hxz (by simpa using hac)] at hlt
        have := (toInt_sub_neg_iff a c).mp hlt
        have ha := a.isLt
        have hb := b.isLt
        have hc := c.isLt
        simp only [BitVec.toNat_sub] at *
        omega
    · -- equal keys: the trees compare as equal, so they have one value
      intro x hx y hy hkeys
      have h0 : compareTrees x y = some 0 := by
        rw [cmp x hx y hy, (lexCmp_eq_zero_iff (hS x hx) (hS y hy)).mpr hkeys]
      have hv := h.sound x hx y hy h0 _ writer
      rwa [eval_writer, eval_writer] at hv
  · intro h
    have cmp : ∀ x ∈ S, ∀ y ∈ S,
        compareTrees x y = some (lexCmp keyCmp (keys x) (keys y)) := fun x hx y hy =>
      compareTrees_eq_lexCmp (hS x hx) (hS y hy) (h.sameArity x hx y hy)
    refine ⟨fun x hx y hy => ⟨_, cmp x hx y hy⟩, ?_, ?_, ?_⟩
    · -- the two directions have opposite signs
      intro x hx y hy r s hr hs
      rw [cmp x hx y hy, Option.some.injEq] at hr
      rw [cmp y hy x hx, Option.some.injEq] at hs
      subst hr hs
      refine ⟨lexCmp_not_pos, ?_⟩
      rw [lexCmp_eq_zero_iff (hS x hx) (hS y hy), lexCmp_eq_zero_iff (hS y hy) (hS x hx)]
      exact eq_comm
    · -- transitive: the pointer comparison is the one that could wrap
      intro x hx y hy z hz r s t hr hs ht
      rw [cmp x hx y hy, Option.some.injEq] at hr
      rw [cmp y hy z hz, Option.some.injEq] at hs
      rw [cmp x hx z hz, Option.some.injEq] at ht
      subst hr hs ht
      refine lexCmp_trans keyCmp_eq_zero
        (aligned_walk comparedLabel_uniform x y (hS x hx) (hS y hy))
        (aligned_walk comparedLabel_uniform y z (hS y hy) (hS z hz))
        (aligned_walk comparedLabel_uniform x z (hS x hx) (hS z hz)) ?_
      intro p q r hf
      refine keyCmp_trans ?_
      rintro a b c rfl rfl rfl hab hbc
      have hwrap := h.noWrap x hx y hy z hz a b c hf
      have hab' := (toInt_sub_neg_iff a b).mp hab
      have hbc' := (toInt_sub_neg_iff b c).mp hbc
      refine (toInt_sub_neg_iff a c).mpr ?_
      have hsum := hwrap hab'.2 hbc'.2
      have ha := a.isLt
      have hb := b.isLt
      have hc := c.isLt
      simp only [BitVec.toNat_sub] at *
      omega
    · intro x hx y hy h0 V I
      rw [cmp x hx y hy, Option.some.injEq, lexCmp_eq_zero_iff (hS x hx) (hS y hy)] at h0
      exact eval_eq_of_entire I x y (hS x hx) (hS y hy) (h.nothingHidden x hx y hy h0)

/-- The opcode of an operator at its types. -/
def opcodeOf (opr rtype desc : Nat) : Nat := opr + rtype * 2 ^ 8 + desc * 2 ^ 14

/-- `x + ({ ...; })` with I4 operands, its nodes laid out from an address. -/
def sumWithComma (a : BitVec 64) : Wn :=
  .node a (opcodeOf 2 4 20) {}
    [.node (a + 0x30) (opcodeOf 67 4 4) { stIdx := 7 } [],
     .node (a + 0x60) (opcodeOf 22 4 20) {} []]

/-- The memory that holds two trees and their kids. -/
def memoryOf (s t : Wn) : BitVec 64 → Option Wn := fun a =>
  let nodes := fun (u : Wn) => match u with | .node _ _ _ kids => u :: kids
  (nodes s ++ nodes t).find? fun u => u.addr == a

theorem compareTrees_consistent_sums :
    ConsistentOn {t | t = sumWithComma 0x1000 ∨ t = sumWithComma 0x2000} := by
  have hmem : ∀ t ∈ {t | t = sumWithComma 0x1000 ∨ t = sumWithComma 0x2000},
      InMemory (memoryOf (sumWithComma 0x1000) (sumWithComma 0x2000)) t := by
    rintro t (rfl | rfl)
    · exact ⟨rfl, rfl, ⟨rfl, rfl, trivial⟩, ⟨rfl, rfl, trivial⟩, trivial⟩
    · exact ⟨rfl, rfl, ⟨rfl, rfl, trivial⟩, ⟨rfl, rfl, trivial⟩, trivial⟩
  refine (compareTrees_consistent_iff _ hmem).mpr ⟨?_, ?_, ?_⟩
  · rintro x (rfl | rfl) y (rfl | rfl) <;> decide
  · rintro x (rfl | rfl) y (rfl | rfl) z (rfl | rfl) <;> decide
  · rintro x (rfl | rfl) y (rfl | rfl) <;> decide

/-- A bit field of a union `u`: `U4U1LDBITS` of one symbol at bit 0. -/
def unionField (a : BitVec 64) (bitSize : Int) : Wn :=
  .node a (opcodeOf 66 8 6) { stIdx := 7, bitSize := bitSize } []

/-- The bit-field loads of a state in which the byte of `u` is 0xFF. -/
def allOnes : Interp Int where
  op _ attrs _ :=
    match attrs with
    | [_, bitOffset, _, bitSize] => 0xFF / 2 ^ bitOffset.toNat % 2 ^ bitSize.toNat
    | _ => 0
  run _ _ := 0

/-- Two members of a union, of 3 and of 5 bits at the same bit offset, compare equal and have
different values. -/
theorem compareTrees_merges_bitSizes :
    ¬ ∀ (mem : BitVec 64 → Option Wn) (S : Set Wn), (∀ t ∈ S, InMemory mem t) → ConsistentOn S:= by
  intro h
  have hmem : ∀ t ∈ {t | t = unionField 0x1000 3 ∨ t = unionField 0x2000 5},
      InMemory (memoryOf (unionField 0x1000 3) (unionField 0x2000 5)) t := by
    rintro t (rfl | rfl) <;> exact ⟨rfl, rfl, trivial⟩
  have hc := h _ _ hmem
  have heq := hc.sound _ (.inl rfl) _ (.inr rfl) (by decide) Int allOnes
  exact absurd heq (by decide)

end Simp
