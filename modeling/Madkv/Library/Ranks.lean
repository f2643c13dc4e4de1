import Mathlib.Data.Finset.Sort
import Mathlib.Data.List.Sort
import Mathlib.Tactic.Lemma

/-!
Places of elements in a finite set that is taken in ascending order.

* `filter_le_eq_take`: the elements up to one of a sorted list are the first ones.
* `card_filter_le`: up to the element with the index `i` there are `i + 1`.
* `card_filter_le_getD`: if there is none, and the greatest element is taken in its
  place, there are all of them, so that in both cases there are `min (i + 1)` of
  them and the number of all.
-/

namespace Ranks

variable {α : Type*} [LinearOrder α] {s : Finset α} {b top : α} {i : ℕ}

lemma filter_le_eq_take {l : List α} (hl : l.Pairwise (· < ·)) (hb : l[i]? = some b) :
    l.filter (fun a => decide (a ≤ b)) = l.take (i + 1) := by
  induction l generalizing i with
  | nil => cases hb
  | cons a l ih =>
      obtain ⟨hlt, hl⟩ := List.pairwise_cons.mp hl
      cases i with
      | zero =>
          obtain rfl : a = b := Option.some.inj hb
          have hrest : l.filter (fun c => decide (c ≤ a)) = [] :=
            List.filter_eq_nil_iff.mpr fun c hc => by simpa using hlt c hc
          rw [List.filter_cons_of_pos (by simp), hrest]
          rfl
      | succ i =>
          have hle : a ≤ b := (hlt b (List.mem_of_getElem? hb)).le
          rw [List.filter_cons_of_pos (by simpa using hle), ih hl hb]
          rfl

/-- The set in ascending order, up to one of its elements. -/
lemma card_filter_le (hb : s.sort[i]? = some b) : (s.filter (· ≤ b)).card = i + 1 := by
  have hfilter := filter_le_eq_take s.sortedLT_sort.pairwise hb
  have hcard : (s.filter (· ≤ b)).card = (s.sort.filter fun a => decide (a ≤ b)).length := by
    rw [← List.toFinset_card_of_nodup ((s.sort_nodup _).filter _), List.toFinset_filter,
      Finset.sort_toFinset]
    simp
  have hi : i < s.sort.length := (List.getElem?_eq_some_iff.mp hb).1
  rw [hcard, hfilter, List.length_take]
  omega

/-- **The `i`-th element or else the greatest** has `min (i + 1)` elements up to it,
as far as there are so many. -/
theorem card_filter_le_getD (htop : ∀ a ∈ s, a ≤ top) :
    (s.filter (· ≤ s.sort[i]?.getD top)).card = min (i + 1) s.card := by
  cases hb : s.sort[i]? with
  | some b =>
      have hi : i < s.sort.length := (List.getElem?_eq_some_iff.mp hb).1
      rw [Finset.length_sort] at hi
      rw [Option.getD_some, card_filter_le hb]
      omega
  | none =>
      have hi : s.sort.length ≤ i := List.getElem?_eq_none_iff.mp hb
      rw [Finset.length_sort] at hi
      rw [Option.getD_none, Finset.filter_true_of_mem htop]
      omega

end Ranks
