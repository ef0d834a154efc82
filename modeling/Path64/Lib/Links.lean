import Mathlib.Data.List.Nodup

/-! # Lists linked through an array

A list is its first index and a link from each index to the next; 0 ends
it. Several lists can share one array of links: then every index has at
most one owner. -/

namespace Links

open List Function

/-- The indices from `a` on along the links. -/
def Linked (next : Nat → Nat) : Nat → List Nat → Prop
  | a, [] => a = 0
  | a, x :: l => a = x ∧ x ≠ 0 ∧ Linked next (next x) l

/-- The loop that looks for the index before `e`. -/
def findPrev (next : Nat → Nat) (e : Nat) : Nat → Nat → Option Nat
  | 0, _ => none
  | fuel + 1, e₁ => if next e₁ ≠ e then findPrev next e fuel (next e₁) else some e₁

variable {next next' : Nat → Nat} {a e p : Nat} {l l' : List Nat}

@[simp] theorem linked_nil : Linked next a [] ↔ a = 0 := Iff.rfl

@[simp] theorem linked_cons {x : Nat} :
    Linked next a (x :: l) ↔ a = x ∧ x ≠ 0 ∧ Linked next (next x) l := Iff.rfl

/-! ## One list -/

section

variable (h : Linked next a l)
include h

theorem Linked.congr (hnext : ∀ x ∈ l, next' x = next x) : Linked next' a l:= by
  induction l generalizing a with
  | nil => exact h
  | cons x l ih =>
    obtain ⟨ha, hx, h⟩ := h
    refine ⟨ha, hx, ?_⟩
    rw [hnext x mem_cons_self]
    exact ih h fun y hy => hnext y (mem_cons_of_mem x hy)

theorem Linked.unique (h' : Linked next a l') : l = l' := by
  induction l generalizing a l' with
  | nil =>
    cases l' with
    | nil => rfl
    | cons x l' => exact absurd (h'.1.symm.trans h) h'.2.1
  | cons x l ih =>
    cases l' with
    | nil => exact absurd (h.1.symm.trans h') h.2.1
    | cons y l' =>
      obtain ⟨rfl, -, h⟩ := h
      obtain ⟨rfl, -, h'⟩ := h'
      rw [ih h h']

theorem Linked.suffix {x : Nat} (hx : x ∈ l) :
    ∃ l1 l2, l = l1 ++ x :: l2 ∧ Linked next x (x :: l2) := by
  induction l generalizing a with
  | nil => cases hx
  | cons y l ih =>
    obtain ⟨rfl, hy, h⟩ := h
    rcases mem_cons.mp hx with rfl | hx
    · exact ⟨[], l, rfl, rfl, hy, h⟩
    · obtain ⟨l1, l2, rfl, hl2⟩ := ih h hx
      exact ⟨a :: l1, l2, rfl, hl2⟩

theorem Linked.nodup : l.Nodup := by
  induction l generalizing a with
  | nil => exact nodup_nil
  | cons x l ih =>
    obtain ⟨rfl, hx, h⟩ := h
    refine nodup_cons.mpr ⟨fun hmem => ?_, ih h⟩
    obtain ⟨l1, l2, rfl, hl2⟩ := h.suffix hmem
    have hall : Linked next a (a :: (l1 ++ a :: l2)) := ⟨rfl, hx, h⟩
    have hlen := congrArg length (hl2.unique hall)
    simp only [length_cons, length_append] at hlen
    omega

theorem Linked.push (he : e ≠ 0) (hlink : next' e = a)
    (hnext : ∀ x ∈ l, next' x = next x) : Linked next' e (e :: l) :=
  ⟨rfl, he, hlink ▸ h.congr hnext⟩

theorem Linked.next_mem {x : Nat} (hx : x ∈ l) : next x = 0 ∨ next x ∈ l := by
  obtain ⟨l1, l2, rfl, -, -, hrest⟩ := h.suffix hx
  cases l2 with
  | nil => exact .inl hrest
  | cons y l2 => exact .inr (by simp [hrest.1])

/-- The index before `e` is linked to the one after `e`. -/
theorem Linked.unlink (hp : p ∈ l) (hpe : next p = e) (he : e ≠ 0)
    (hlink : next' p = next e) (hnext : ∀ x ∈ l, x ≠ p → x ≠ e → next' x = next x) :
    Linked next' a (l.erase e) := by
  induction l generalizing a with
  | nil => cases hp
  | cons x l ih =>
    have hnd := h.nodup
    obtain ⟨ha, hx, h⟩ := h
    have hxl := (nodup_cons.mp hnd).1
    by_cases hxp : x = p
    · subst hxp
      cases l with
      | nil => exact absurd (hpe.symm.trans h) he
      | cons y l =>
        obtain ⟨hy, -, hrest⟩ := h
        obtain rfl : e = y := hpe.symm.trans hy
        have hxe : x ≠ e := fun heq => hxl (heq ▸ mem_cons_self)
        have hel := (nodup_cons.mp (nodup_cons.mp hnd).2).1
        rw [erase_cons_tail (by simpa using hxe), erase_cons_head]
        refine ⟨ha, hx, hlink ▸ hrest.congr fun z hz => ?_⟩
        refine hnext z (mem_cons_of_mem _ (mem_cons_of_mem _ hz)) ?_ ?_
        · exact fun heq => hxl (heq ▸ mem_cons_of_mem _ hz)
        · exact fun heq => hel (heq ▸ hz)
    · have hpl := (mem_cons.mp hp).resolve_left (Ne.symm hxp)
      have hxe : x ≠ e := by
        rintro rfl
        obtain ⟨l1, l2, rfl, -, -, hp2⟩ := h.suffix hpl
        rw [hpe] at hp2
        cases l2 with
        | nil => exact he hp2
        | cons z l2 =>
          refine hxl ?_
          rw [hp2.1]
          simp
      rw [erase_cons_tail (by simpa using hxe)]
      refine ⟨ha, hx, ?_⟩
      rw [hnext x mem_cons_self hxp hxe]
      exact ih h hpl fun z hz => hnext z (mem_cons_of_mem x hz)

theorem findPrev_spec (he : e ∈ l) (hne : a ≠ e) {fuel : Nat}
    (hfuel : l.length ≤ fuel) : ∃ p ∈ l, findPrev next e fuel a = some p ∧ next p = e := by
  induction l generalizing a fuel with
  | nil => cases he
  | cons x l ih =>
    obtain ⟨rfl, -, h⟩ := h
    have hel := (mem_cons.mp he).resolve_left (Ne.symm hne)
    cases fuel with
    | zero => cases hfuel
    | succ fuel =>
      unfold findPrev
      by_cases hnext : next a = e
      · exact ⟨a, mem_cons_self, if_neg (not_not.mpr hnext), hnext⟩
      · obtain ⟨p, hp, hfind, hpe⟩ := ih h hel hnext (Nat.le_of_succ_le_succ hfuel)
        exact ⟨p, mem_cons_of_mem _ hp, by rw [if_pos hnext, hfind], hpe⟩

end

/-! ## A family of lists -/

/-- Lists that share their links; `live` are the keys in use. -/
structure Family {K : Type} (live : K → Prop) (head : K → Nat) (next : Nat → Nat)
    (owner : Nat → Option K) (lists : K → List Nat) : Prop where
  linked : ∀ k, live k → Linked next (head k) (lists k)
  mem : ∀ k, live k → ∀ x, x ∈ lists k ↔ owner x = some k

section Family

variable {K : Type} {live live' : K → Prop} {head head' : K → Nat} {owner owner' : Nat → Option K}
  {lists : K → List Nat} {k : K}

theorem Family.restrict (h : Family live head next owner lists) (hlive : ∀ j, live' j → live j) :
    Family live' head next owner lists :=
  ⟨fun j hj => h.linked j (hlive j hj), fun j hj => h.mem j (hlive j hj)⟩

variable [DecidableEq K]

section

variable (h : Family live head next owner lists)
include h

/-- An element put at the head of one list; the other lists stay. -/
theorem Family.push (hk : live k) (he : e ≠ 0)
    (hnew : owner e = none) (hhead : head' k = e) (hheads : ∀ j, live j → j ≠ k → head' j = head j)
    (hlink : next' e = head k) (hnext : ∀ x, x ≠ e → next' x = next x)
    (howner : ∀ x, owner' x = if x = e then some k else owner x) :
    Family live head' next' owner' (update lists k (e :: lists k)) := by
  have hfresh : ∀ j, live j → e ∉ lists j := by
    intro j hj hmem
    rw [(h.mem j hj e).mp hmem] at hnew
    cases hnew
  have hagree : ∀ j, live j → ∀ x ∈ lists j, next' x = next x :=
    fun j hj x hx => hnext x fun heq => hfresh j hj (heq ▸ hx)
  refine ⟨fun j hj => ?_, fun j hj x => ?_⟩
  · by_cases hjk : j = k
    · subst hjk
      rw [update_self, hhead]
      exact (h.linked j hj).push he hlink (hagree j hj)
    · rw [update_of_ne hjk, hheads j hj hjk]
      exact (h.linked j hj).congr (hagree j hj)
  · rw [howner]
    by_cases hjk : j = k
    · subst hjk
      rw [update_self, mem_cons, h.mem j hj]
      split
      · rename_i hx
        simp [hx]
      · rename_i hx
        simp [hx]
    · rw [update_of_ne hjk, h.mem j hj]
      split
      · rename_i hx
        simp [hx, hnew, Ne.symm hjk]
      · rfl

/-- An element taken out of its list, at the head or behind another one. -/
theorem Family.unlink (hk : live k) (he : e ≠ 0) (hown : owner e = some k)
    (hcut : (head k = e ∧ head' k = next e ∧ ∀ x, x ≠ e → next' x = next x) ∨
      ∃ p ∈ lists k, next p = e ∧ head' k = head k ∧ next' p = next e ∧
        ∀ x, x ≠ p → x ≠ e → next' x = next x)
    (hheads : ∀ j, live j → j ≠ k → head' j = head j)
    (howner : ∀ x, owner' x = if x = e then none else owner x) :
    Family live head' next' owner' (update lists k ((lists k).erase e)) := by
  have hmem := (h.mem k hk e).mpr hown
  have hnd := (h.linked k hk).nodup
  have hothers : ∀ j, live j → j ≠ k → ∀ x ∈ lists j, x ∉ lists k := by
    intro j hj hjk x hx hxk
    exact hjk (Option.some.inj (((h.mem j hj x).mp hx).symm.trans ((h.mem k hk x).mp hxk)))
  refine ⟨fun j hj => ?_, fun j hj x => ?_⟩
  · by_cases hjk : j = k
    · subst hjk
      rw [update_self]
      rcases hcut with ⟨hhead, hhead', hnext⟩ | ⟨p, hp, hpe, hhead', hlink, hnext⟩
      · -- the first of the list
        obtain ⟨l, hl⟩ : ∃ l, lists j = e :: l := by
          have hlinked := h.linked j hj
          cases hlist : lists j with
          | nil =>
            rw [hlist] at hmem
            cases hmem
          | cons x l =>
            rw [hlist, hhead] at hlinked
            exact ⟨l, by rw [hlinked.1]⟩
        have hlinked := h.linked j hj
        rw [hl] at hlinked hnd ⊢
        rw [erase_cons_head, hhead']
        exact hlinked.2.2.congr fun x hx => hnext x fun heq =>
          (nodup_cons.mp hnd).1 (heq ▸ hx)
      · rw [hhead']
        exact (h.linked j hj).unlink hp hpe he hlink fun x _ => hnext x
    · rw [update_of_ne hjk, hheads j hj hjk]
      refine (h.linked j hj).congr fun x hx => ?_
      have hxk := hothers j hj hjk x hx
      have hxe : x ≠ e := fun heq => hxk (heq ▸ hmem)
      rcases hcut with ⟨-, -, hnext⟩ | ⟨p, hp, -, -, -, hnext⟩
      · exact hnext x hxe
      · exact hnext x (fun heq => hxk (heq ▸ hp)) hxe
  · rw [howner]
    by_cases hjk : j = k
    · subst hjk
      rw [update_self, hnd.mem_erase_iff, h.mem j hj]
      split
      · rename_i hx
        simp [hx]
      · rename_i hx
        simp [hx]
    · rw [update_of_ne hjk, h.mem j hj]
      split
      · rename_i hx
        subst hx
        rw [hown]
        simp [Ne.symm hjk]
      · rfl

theorem Family.insert (hlive : ∀ j, live' j → live j ∨ j = k)
    (hnew : ¬ live k) (hnone : ∀ x, owner x ≠ some k) (hhead : head' k = 0)
    (hheads : ∀ j, live j → head' j = head j) :
    Family live' head' next owner (update lists k []) := by
  refine ⟨fun j hj => ?_, fun j hj x => ?_⟩
  · by_cases hjk : j = k
    · subst hjk
      rw [update_self, hhead]
      rfl
    · have hj' := (hlive j hj).resolve_right hjk
      rw [update_of_ne hjk, hheads j hj']
      exact h.linked j hj'
  · by_cases hjk : j = k
    · subst hjk
      rw [update_self]
      exact iff_of_false not_mem_nil (hnone x)
    · rw [update_of_ne hjk]
      exact h.mem j ((hlive j hj).resolve_right hjk) x

end

end Family

end Links
