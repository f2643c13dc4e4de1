import Mathlib.Algebra.BigOperators.Group.List.Basic
import Mathlib.Data.List.ReduceOption
import Mathlib.Order.Bounds.Basic
import Mathlib.Order.MinMax

/-!
Folds over values of which some are missing.

* `foldl_merge`: the merge of optional values is the fold over those there are.
* `foldl_merge_isSome`: it is a value iff there is one to be merged.
* `foldl_min_isLeast`, `foldl_max_isGreatest`: the folds of minimum and maximum.
-/

namespace Folds

variable {α : Type*}

lemma foldl_merge_some (f : α → α → α) (a : α) (l : List (Option α)) :
    l.foldl (Option.merge f) (some a) = some (l.reduceOption.foldl f a) := by
  induction l generalizing a with
  | nil => rfl
  | cons o l ih =>
      cases o with
      | none => exact ih a
      | some b => exact ih (f a b)

/-- The first value there is, with the others merged into it. -/
lemma foldl_merge (f : α → α → α) (l : List (Option α)) : l.foldl (Option.merge f) none =
    l.reduceOption.head?.map fun a => l.reduceOption.tail.foldl f a := by
  induction l with
  | nil => rfl
  | cons o l ih =>
      cases o with
      | none => exact ih
      | some b => exact foldl_merge_some f b l

lemma foldl_merge_isSome (f : α → α → α) (l : List (Option α)) :
    (l.foldl (Option.merge f) none).isSome ↔ ∃ a, some a ∈ l := by
  simp only [foldl_merge, Option.isSome_map, List.isSome_head?, ← List.reduceOption_mem_iff]
  exact ⟨List.exists_mem_of_ne_nil _, fun ⟨_, ha⟩ => List.ne_nil_of_mem ha⟩

lemma foldl_or (b : Bool) (bs : List Bool) : bs.foldl (· || ·) b = (b || bs.any id) := by
  induction bs generalizing b with
  | nil => exact (Bool.or_false b).symm
  | cons b' bs ih => rw [List.foldl_cons, ih, List.any_cons, id, Bool.or_assoc]

section Order

variable [LinearOrder α]

lemma foldl_min_isLeast (a : α) (l : List α) : IsLeast {b | b ∈ a :: l} (l.foldl min a) :=
  List.min?_eq_some_iff.mp List.min?_cons'

lemma foldl_max_isGreatest (a : α) (l : List α) : IsGreatest {b | b ∈ a :: l} (l.foldl max a) :=
  List.max?_eq_some_iff.mp List.max?_cons'

end Order

end Folds
