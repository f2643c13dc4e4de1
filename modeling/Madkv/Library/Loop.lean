import Mathlib.Order.Basic
import Mathlib.Tactic.Lemma

/-!
Loops that may run forever.

A loop is a body on a state of an arbitrary type. One pass of it goes on with a
new state or stops with a result (`Pass`), and it may fail to complete, because
of a loop inside it that does not.

* `run`: the loop with a bound on the number of its passes.
* `run_mono`: a larger bound, and a body that completes more often, do not
  change a result; `run_unique`: so the result is unique.
* `exists_run_of_measure`: a loop ends if each pass completes and makes a
  measure smaller.
* `run_post`: what the passes keep gives what the result is like.
* `run_eq_none`: a loop does not end if no pass leaves a set of states;
  `run_eq_none_of_after`: or if it does not end from a later state.
-/

namespace Loop

/-- What one pass of a loop comes to. -/
inductive Pass (S R : Type*) where
  | again (s : S)
  | stop (r : R)

variable {S R : Type*}

/-- Run the loop for at most `fuel` passes. -/
def run (body : S → Option (Pass S R)) : ℕ → S → Option R
  | 0, _ => none
  | fuel + 1, s =>
      match body s with
      | none => none
      | some (.stop r) => some r
      | some (.again s') => run body fuel s'

variable {body body' : S → Option (Pass S R)} {s s' : S} {r : R} {fuel : ℕ}

lemma run_succ_of_stop (h : body s = some (.stop r)) : run body (fuel + 1) s = some r := by
  rw [run, h]

lemma run_succ_of_again (h : body s = some (.again s')) :
    run body (fuel + 1) s = run body fuel s' := by
  rw [run, h]

lemma run_succ_of_none (h : body s = none) : run body (fuel + 1) s = none := by
  rw [run, h]

/-- A result stands when there is more fuel, and the passes complete more
often. -/
lemma run_mono (hbody : ∀ s p, body s = some p → body' s = some p) {m n : ℕ} (hmn : m ≤ n)
    (h : run body m s = some r) : run body' n s = some r := by
  induction m generalizing n s with
  | zero => cases h
  | succ m ih =>
      obtain ⟨n, rfl⟩ : ∃ k, n = k + 1 := ⟨n - 1, by omega⟩
      cases hs : body s with
      | none =>
          rw [run_succ_of_none hs] at h
          cases h
      | some p =>
          have hs' := hbody s p hs
          cases p with
          | stop r' =>
              rw [run_succ_of_stop hs] at h
              rw [run_succ_of_stop hs', h]
          | again s' =>
              rw [run_succ_of_again hs] at h
              rw [run_succ_of_again hs']
              exact ih (by omega) h

lemma run_unique {m n : ℕ} {r' : R} (h : run body m s = some r) (h' : run body n s = some r') :
    r = r' := by
  have hm := run_mono (fun _ _ hp => hp) (Nat.le_max_left m n) h
  have hn := run_mono (fun _ _ hp => hp) (Nat.le_max_right m n) h'
  exact Option.some.inj (hm.symm.trans hn)

/-- **The variant rule**: passes that complete and make `μ` smaller come to an
end, with what the last one guarantees. -/
theorem exists_run_of_measure (Inv : S → Prop) (Post : R → Prop) (μ : S → ℕ)
    (hpass : ∀ s, Inv s → (∃ r, body s = some (.stop r) ∧ Post r)
      ∨ ∃ s', body s = some (.again s') ∧ Inv s' ∧ μ s' < μ s)
    (hinv : Inv s) (hfuel : μ s < fuel) : ∃ r, run body fuel s = some r ∧ Post r := by
  induction fuel generalizing s with
  | zero => exact absurd hfuel (Nat.not_lt_zero _)
  | succ fuel ih =>
      rcases hpass s hinv with ⟨r, hstop, hpost⟩ | ⟨s', hagain, hinv', hlt⟩
      · exact ⟨r, run_succ_of_stop hstop, hpost⟩
      · rw [run_succ_of_again hagain]
        exact ih hinv' (by omega)

/-- **The invariant rule**: what the passes keep, and what the last one makes of it. -/
theorem run_post (Inv : S → Prop) (Post : R → Prop)
    (hagain : ∀ s s', Inv s → body s = some (.again s') → Inv s')
    (hstop : ∀ s r, Inv s → body s = some (.stop r) → Post r)
    (hinv : Inv s) (hrun : run body fuel s = some r) : Post r := by
  induction fuel generalizing s with
  | zero => cases hrun
  | succ fuel ih =>
      cases hs : body s with
      | none =>
          rw [run_succ_of_none hs] at hrun
          cases hrun
      | some p =>
          cases p with
          | stop r' =>
              rw [run_succ_of_stop hs] at hrun
              cases hrun
              exact hstop s r hinv hs
          | again s' =>
              rw [run_succ_of_again hs] at hrun
              exact ih (hagain s s' hinv hs) hrun

/-- **The trap rule**: no number of passes ends a loop that stays in a set of
states. -/
theorem run_eq_none (Inv : S → Prop)
    (hpass : ∀ s, Inv s → body s = none ∨ ∃ s', body s = some (.again s') ∧ Inv s')
    (hinv : Inv s) (fuel : ℕ) : run body fuel s = none := by
  induction fuel generalizing s with
  | zero => rfl
  | succ fuel ih =>
      rcases hpass s hinv with hnone | ⟨s', hagain, hinv'⟩
      · exact run_succ_of_none hnone
      · rw [run_succ_of_again hagain]
        exact ih hinv'

/-- The state after a number of passes, if the loop is still under way. -/
def after (body : S → Option (Pass S R)) : ℕ → S → Option S
  | 0, s => some s
  | k + 1, s =>
      match body s with
      | some (.again s') => after body k s'
      | _ => none

lemma run_eq_none_of_after {k : ℕ} (h : after body k s = some s')
    (h' : ∀ fuel, run body fuel s' = none) (fuel : ℕ) : run body fuel s = none := by
  induction k generalizing s fuel with
  | zero =>
      cases h
      exact h' fuel
  | succ k ih =>
      rw [after] at h
      split at h
      · rename_i s'' hs
        cases fuel with
        | zero => rfl
        | succ fuel =>
            rw [run_succ_of_again hs]
            exact ih h fuel
      · cases h

end Loop
