import Mathlib.Data.List.Basic
import Mathlib.Order.Lattice

/-!
The latest elements of a list, which has its elements in the order of their times, the
latest first.

* `lt_length_filter_iff`: how many there are from a time on.
* `find_le_iff`: when the latest element of a kind is not among the latest ones.
-/

namespace Latest

variable {α β : Type*} [LinearOrder β] {time : α → β} {l : List α} {a : α} {m : β} {k : ℕ}

/-- There are more than `k` elements from a time on iff the one at place `k` is not before
it. -/
lemma lt_length_filter_iff (h : l.Pairwise fun a b => time b < time a) :
    k < (l.filter fun a => decide (m ≤ time a)).length ↔ ∃ a, l[k]? = some a ∧ m ≤ time a := by
  induction l generalizing k with
  | nil => simp
  | cons c l ih =>
      obtain ⟨hc, hl⟩ := List.pairwise_cons.mp h
      by_cases hm : m ≤ time c
      · rw [List.filter_cons_of_pos (by simpa using hm), List.length_cons]
        cases k with
        | zero => simp [hm]
        | succ k => rw [Nat.succ_lt_succ_iff, ih hl, List.getElem?_cons_succ]
      · -- all others are before the time, too
        have hnone : l.filter (fun a => decide (m ≤ time a)) = [] := by
          refine List.filter_eq_nil_iff.mpr fun a ha => ?_
          rw [decide_eq_true_eq]
          exact fun hle => hm (hle.trans (hc a ha).le)
        rw [List.filter_cons_of_neg (by simpa using hm), hnone]
        refine ⟨fun hlt => absurd hlt (Nat.not_lt_zero k), ?_⟩
        rintro ⟨a, ha, hle⟩
        rcases List.mem_cons.mp (List.mem_of_getElem? ha) with rfl | hmem
        · exact absurd hle hm
        · exact absurd (hle.trans (hc a hmem).le) hm

/-- The latest element of a kind is at place `k` or later iff none before it is of the
kind. -/
lemma find_le_iff {p : α → Bool} (h : l.Pairwise fun a b => time b < time a) (ha : l[k]? = some a) :
    (∀ b, l.find? p = some b → time b ≤ time a) ↔ ∀ b ∈ l.take k, p b = false := by
  induction l generalizing k with
  | nil => cases ha
  | cons c l ih =>
      obtain ⟨hc, hl⟩ := List.pairwise_cons.mp h
      cases k with
      | zero =>
          obtain rfl : c = a := Option.some.inj ha
          refine ⟨fun _ b hb => absurd hb List.not_mem_nil, fun _ b hb => ?_⟩
          rcases List.mem_cons.mp (List.mem_of_find?_eq_some hb) with rfl | hmem
          · exact le_rfl
          · exact (hc b hmem).le
      | succ k =>
          rw [List.getElem?_cons_succ] at ha
          rw [List.take_succ_cons, List.forall_mem_cons]
          cases hp : p c with
          | true =>
              refine ⟨fun hle => ?_, fun hnone => absurd hnone.1 Bool.noConfusion⟩
              have hlt := hc a (List.mem_of_getElem? ha)
              exact absurd (hle c (List.find?_cons_of_pos hp)) (not_le.mpr hlt)
          | false =>
              rw [List.find?_cons_of_neg (by rw [hp]; exact Bool.false_ne_true), ih hl ha]
              exact (and_iff_right rfl).symm

end Latest
