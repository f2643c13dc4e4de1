import Mathlib.Data.List.Nodup
import Mathlib.Data.Set.Insert
import Mathlib.Tactic.Lemma

/-!
Items that are served in one order and delivered in another.

* `Outbox`: the items served, those that wait for their delivery, and those
  delivered, with the two steps `serve` and `deliver`.
* `Outbox.Sound`: each item served either waits or has been delivered, once.
* `Before`: an item comes before another one in a list. `Before.lt`: so do their
  places, if the list has no repetitions.
* `Prompt`: nothing that conflicts with the item and was served before it still
  waits. `InOrder`: conflicting items are delivered in the order of service.
* `InOrder.serve`, `InOrder.deliver`: the step lemmas; a delivery keeps the order
  if it is prompt.
-/

namespace Delivery

variable {α : Type*}

/-- The items served and delivered so far, in their orders, and those between. -/
structure Outbox (α : Type*) where
  served : List α
  waiting : Set α
  delivered : List α

def Outbox.serve (d : Outbox α) (a : α) : Outbox α where
  served := d.served ++ [a]
  waiting := insert a d.waiting
  delivered := d.delivered

def Outbox.deliver (d : Outbox α) (a : α) : Outbox α where
  served := d.served
  waiting := d.waiting \ {a}
  delivered := d.delivered ++ [a]

/-- Each item served either waits or has been delivered, once. -/
structure Outbox.Sound (d : Outbox α) : Prop where
  nodup : d.delivered.Nodup
  served_iff : ∀ a, a ∈ d.served ↔ a ∈ d.waiting ∨ a ∈ d.delivered
  disjoint : ∀ a ∈ d.waiting, a ∉ d.delivered

/-- `a` comes before `b` in the list. -/
def Before (l : List α) (a b : α) : Prop := ∃ i j : ℕ, i < j ∧ l[i]? = some a ∧ l[j]? = some b

/-- The conflicting items that were served before `a` do not wait any more. -/
def Prompt (conflict : α → α → Prop) (d : Outbox α) (a : α) : Prop :=
  ∀ b ∈ d.waiting, conflict b a → ¬ Before d.served b a

/-- Conflicting items are delivered in the order of service. -/
def InOrder (conflict : α → α → Prop) (d : Outbox α) : Prop :=
  ∀ a b, Before d.served a b → conflict a b → b ∈ d.delivered → Before d.delivered a b

section Lists

variable {l : List α} {a b c : α}

lemma Before.mem_left (h : Before l a b) : a ∈ l := by
  obtain ⟨i, j, -, ha, -⟩ := h
  exact List.mem_of_getElem? ha

lemma Before.mem_right (h : Before l a b) : b ∈ l := by
  obtain ⟨i, j, -, -, hb⟩ := h
  exact List.mem_of_getElem? hb

/-- In a list without repetitions there is one place for each item. -/
lemma Before.lt (h : Before l a b) (hl : l.Nodup) {i j : ℕ} (hi : l[i]? = some a)
    (hj : l[j]? = some b) : i < j := by
  obtain ⟨i', j', hlt, hi', hj'⟩ := h
  have heqi : i = i' :=
    (List.getElem?_inj (List.getElem?_eq_some_iff.mp hi).1 hl).mp (hi.trans hi'.symm)
  have heqj : j = j' :=
    (List.getElem?_inj (List.getElem?_eq_some_iff.mp hj).1 hl).mp (hj.trans hj'.symm)
  omega

lemma before_concat_iff : Before (l ++ [c]) a b ↔ Before l a b ∨ a ∈ l ∧ b = c := by
  constructor
  · rintro ⟨i, j, hij, ha, hb⟩
    have hj : j < (l ++ [c]).length := (List.getElem?_eq_some_iff.mp hb).1
    rw [List.length_append, List.length_singleton] at hj
    rw [List.getElem?_append_left (by omega)] at ha
    rcases Nat.lt_succ_iff_lt_or_eq.mp hj with hlt | rfl
    · rw [List.getElem?_append_left hlt] at hb
      exact Or.inl ⟨i, j, hij, ha, hb⟩
    · rw [List.getElem?_concat_length] at hb
      exact Or.inr ⟨List.mem_of_getElem? ha, (Option.some.inj hb).symm⟩
  · rintro (⟨i, j, hij, ha, hb⟩ | ⟨ha, rfl⟩)
    · have hi := (List.getElem?_eq_some_iff.mp ha).1
      have hj := (List.getElem?_eq_some_iff.mp hb).1
      refine ⟨i, j, hij, ?_, ?_⟩
      · rwa [List.getElem?_append_left hi]
      · rwa [List.getElem?_append_left hj]
    · obtain ⟨i, hi, hia⟩ := List.getElem_of_mem ha
      refine ⟨i, l.length, hi, ?_, List.getElem?_concat_length⟩
      rw [List.getElem?_append_left hi, List.getElem?_eq_getElem hi, hia]

end Lists

/-! ### The steps -/

section Steps

variable {d : Outbox α} {conflict : α → α → Prop} {a : α}

lemma Outbox.Sound.serve (h : d.Sound) (ha : a ∉ d.served) : (d.serve a).Sound where
  nodup := h.nodup
  served_iff b := by
    show b ∈ d.served ++ [a] ↔ b ∈ insert a d.waiting ∨ b ∈ d.delivered
    rw [List.mem_append, List.mem_singleton, h.served_iff, Set.mem_insert_iff, or_assoc, or_comm,
      or_assoc]
    tauto
  disjoint b hb hdelivered := by
    rcases Set.mem_insert_iff.mp hb with rfl | hb
    · exact ha ((h.served_iff b).mpr (Or.inr hdelivered))
    · exact h.disjoint b hb hdelivered

lemma Outbox.Sound.deliver (h : d.Sound) (ha : a ∈ d.waiting) : (d.deliver a).Sound where
  nodup := by
    show (d.delivered ++ [a]).Nodup
    rw [← List.concat_eq_append]
    exact h.nodup.concat (h.disjoint a ha)
  served_iff b := by
    show b ∈ d.served ↔ b ∈ d.waiting \ {a} ∨ b ∈ d.delivered ++ [a]
    rw [h.served_iff, Set.mem_sdiff, Set.mem_singleton_iff, List.mem_append, List.mem_singleton]
    by_cases hb : b = a
    · subst hb
      simp [ha]
    · simp [hb]
  disjoint b hb hdelivered := by
    obtain ⟨hwaiting, hne⟩ := hb
    rcases List.mem_append.mp hdelivered with hb | hb
    · exact h.disjoint b hwaiting hb
    · exact hne (List.mem_singleton.mp hb)

lemma InOrder.serve (h : InOrder conflict d) (hsound : d.Sound) (ha : a ∉ d.served) :
    InOrder conflict (d.serve a) := by
  intro b c hbefore hconflict hc
  rcases before_concat_iff.mp hbefore with hbefore | ⟨-, rfl⟩
  · exact h b c hbefore hconflict hc
  · exact absurd ((hsound.served_iff c).mpr (Or.inr hc)) ha

/-- **A prompt delivery keeps the order of service.** -/
lemma InOrder.deliver (h : InOrder conflict d) (hsound : d.Sound) (hprompt : Prompt conflict d a) :
    InOrder conflict (d.deliver a) := by
  intro b c hbefore hconflict hc
  refine before_concat_iff.mpr ?_
  rcases List.mem_append.mp hc with hc | hc
  · exact Or.inl (h b c hbefore hconflict hc)
  · rw [List.mem_singleton] at hc
    subst hc
    refine Or.inr ⟨?_, rfl⟩
    rcases (hsound.served_iff b).mp hbefore.mem_left with hwaiting | hdelivered
    · exact absurd hbefore (hprompt b hwaiting hconflict)
    · exact hdelivered

end Steps

end Delivery
