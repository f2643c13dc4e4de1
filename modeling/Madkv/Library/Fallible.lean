import Mathlib.Tactic.Lemma

/-!
Sequences of computations that may fail.

* `bind_of_eq_ok`, `exists_bind_ok`: a sequence whose first part is known to
  succeed.
* `bind_eq_ok`, `bind_eq_error`: what the success and the failure of a sequence say
  about its parts.
* `Yields`: what holds of a result, and what of an error. `Yields.foldlM`: the
  rule for a loop over a list, whose invariant may refer to the part done.
* `foldlM_append_of_ok`: a loop over two lists, one after the other.
  `foldlM_eq_self`: a loop that changes nothing.
-/

namespace Fallible

section Sequences

variable {ε α β : Type} {x : Except ε α} {f : α → Except ε β} {a : α} {b : β} {r : Except ε β}

lemma bind_of_eq_ok (hx : x = .ok a) (hf : f a = r) : (x >>= f) = r := by
  rw [hx]
  exact hf

lemma exists_bind_ok (hx : x = .ok a) (hf : ∃ b, f a = .ok b) : ∃ b, (x >>= f) = .ok b := by
  rw [hx]
  exact hf

lemma bind_eq_ok : (x >>= f) = .ok b ↔ ∃ a, x = .ok a ∧ f a = .ok b := by
  cases x with
  | error e =>
      refine ⟨fun h => (nomatch h), ?_⟩
      rintro ⟨a, ha, -⟩
      cases ha
  | ok a =>
      refine ⟨fun h => ⟨a, rfl, h⟩, ?_⟩
      rintro ⟨a', ha, hb⟩
      cases ha
      exact hb

/-- A sequence fails where its first part does or, after that, its second. -/
lemma bind_eq_error {e : ε} :
    (x >>= f) = .error e ↔ x = .error e ∨ ∃ a, x = .ok a ∧ f a = .error e := by
  cases x with
  | error e' =>
      constructor
      · rintro ⟨⟩
        exact Or.inl rfl
      · rintro (⟨⟨⟩⟩ | ⟨a, ha, -⟩)
        · rfl
        · cases ha
  | ok a =>
      refine ⟨fun h => Or.inr ⟨a, rfl, h⟩, ?_⟩
      rintro (h | ⟨a', ha, h⟩)
      · cases h
      · cases ha
        exact h

end Sequences

/-! ### Loops over lists -/

section Loops

variable {ε α β : Type} {Q : β → Prop} {R : ε → Prop} {x : Except ε β}

/-- Results satisfy `Q`, errors `R`. -/
def Yields (Q : β → Prop) (R : ε → Prop) : Except ε β → Prop
  | .ok b => Q b
  | .error e => R e

lemma Yields.bind {γ : Type} {P : γ → Prop} {f : β → Except ε γ} (h : Yields Q R x)
    (hf : ∀ b, Q b → Yields P R (f b)) : Yields P R (x >>= f) := by
  cases x with
  | ok b => exact hf b h
  | error e => exact h

/-- **The loop rule**: `Q done` holds between two rounds, where `done` is the part
of the list that the loop has gone through. -/
theorem Yields.foldlM {Q : List α → β → Prop} {f : β → α → Except ε β} (l done : List α) {b : β}
    (hb : Q done b)
    (hstep : ∀ done a b, a ∈ l → Q done b → Yields (Q (done ++ [a])) R (f b a)) :
    Yields (Q (done ++ l)) R (l.foldlM f b) := by
  induction l generalizing done b with
  | nil =>
      rw [List.append_nil]
      exact hb
  | cons a l ih =>
      rw [List.foldlM_cons]
      refine (hstep done a b List.mem_cons_self hb).bind fun b' hb' => ?_
      have hrest := ih (done ++ [a]) hb' fun done a' b ha' hb =>
        hstep done a' b (List.mem_cons_of_mem a ha') hb
      rwa [List.append_assoc, List.singleton_append] at hrest

lemma foldlM_append_of_ok {f : β → α → Except ε β} {l l' : List α} {b b' : β}
    (h : l.foldlM f b = .ok b') : (l ++ l').foldlM f b = l'.foldlM f b' := by
  rw [List.foldlM_append, h]
  rfl

lemma foldlM_eq_self {f : β → α → Except ε β} {l : List α} {b : β}
    (h : ∀ a ∈ l, f b a = .ok b) : l.foldlM f b = .ok b := by
  induction l with
  | nil => rfl
  | cons a l ih =>
      rw [List.foldlM_cons, h a List.mem_cons_self]
      exact ih fun a' ha' => h a' (List.mem_cons_of_mem a ha')

end Loops

end Fallible
