import Mathlib.Order.GameAdd
import Madkv.Library.Execution

/-!
Systems side by side: one of them takes a step at a time.

* `SideBySide`: a step of the system in one place. `labelsOf`: the labels of its
  steps.
* `exec_component`: an execution side by side is an execution in each place.
* `sideBySide_acc`: systems that each come to an end do so side by side, on every
  schedule.
-/

namespace Execution

variable {S E : Type*} {step : S → E → S → Prop}

/-- The system in one place takes a step. -/
def SideBySide (step : S → E → S → Prop) (l : List S) (e : ℕ × E) (l' : List S) : Prop :=
  ∃ s s', l[e.1]? = some s ∧ step s e.2 s' ∧ l' = l.set e.1 s'

/-- The labels of the steps in one place. -/
def labelsOf (j : ℕ) (es : List (ℕ × E)) : List E :=
  es.filterMap fun e => if e.1 = j then some e.2 else none

variable {l l₀ l' : List S} {es : List (ℕ × E)} {e : ℕ × E} {j : ℕ} {s s₀ : S}

lemma labelsOf_self (h : e.1 = j) : labelsOf j (es ++ [e]) = labelsOf j es ++ [e.2] := by
  simp [labelsOf, h]

lemma labelsOf_other (h : e.1 ≠ j) : labelsOf j (es ++ [e]) = labelsOf j es := by
  simp [labelsOf, h]

lemma mem_labelsOf {e : E} : e ∈ labelsOf j es ↔ (j, e) ∈ es := by
  simp only [labelsOf, List.mem_filterMap, Prod.exists, Option.ite_none_right_eq_some,
    Option.some.injEq]
  constructor
  · rintro ⟨_, _, hmem, rfl, rfl⟩
    exact hmem
  · exact fun hmem => ⟨j, e, hmem, rfl, rfl⟩

lemma sideBySide_of {e : E} {s' : S} (hs : l[j]? = some s) (hstep : step s e s') :
    SideBySide step l (j, e) (l.set j s') :=
  ⟨s, s', hs, hstep, rfl⟩

/-- A step in one place leaves the other places alone. -/
lemma SideBySide.other (h : SideBySide step l e l') (hne : e.1 ≠ j) : l'[j]? = l[j]? := by
  obtain ⟨_, _, -, -, rfl⟩ := h
  exact List.getElem?_set_ne hne

lemma SideBySide.self (h : SideBySide step l e l') :
    ∃ s s', l[e.1]? = some s ∧ step s e.2 s' ∧ l'[e.1]? = some s' := by
  obtain ⟨s, s', hs, hstep, rfl⟩ := h
  have hlt := (List.getElem?_eq_some_iff.mp hs).1
  exact ⟨s, s', hs, hstep, List.getElem?_set_self hlt⟩

lemma SideBySide.length (h : SideBySide step l e l') : l'.length = l.length := by
  obtain ⟨_, _, -, -, rfl⟩ := h
  exact List.length_set

/-- **Each place on its own**: an execution side by side is an execution of the system
in each place. -/
theorem exec_component (h : Exec (SideBySide step) l₀ es l) (hs₀ : l₀[j]? = some s₀)
    (hs : l[j]? = some s) : Exec step s₀ (labelsOf j es) s := by
  induction h generalizing s with
  | nil =>
      obtain rfl : s₀ = s := Option.some.inj (hs₀.symm.trans hs)
      exact .nil
  | @snoc es l l' e _ hlast ih =>
      by_cases hj : e.1 = j
      · subst hj
        obtain ⟨s₁, s₂, hs₁, hstep, hs₂⟩ := hlast.self
        obtain rfl : s₂ = s := Option.some.inj (hs₂.symm.trans hs)
        rw [labelsOf_self rfl]
        exact (ih hs₁).snoc hstep
      · rw [labelsOf_other hj]
        exact ih (by rw [← hlast.other hj, hs])

/-- The places stay as many. -/
lemma exec_length (h : Exec (SideBySide step) l₀ es l) : l.length = l₀.length := by
  induction h with
  | nil => rfl
  | snoc _ hlast ih => rw [hlast.length, ih]

/-- **Side by side to the end**: if in each place the steps with labels in `L` cannot go
on forever, they cannot do so side by side. -/
theorem sideBySide_acc {L : E → Prop} (hacc : ∀ s ∈ l, Acc (fun s' s => Leads step L s s') s) :
    Acc (fun l' l => Leads (SideBySide step) (fun e => L e.2) l l') l := by
  induction l with
  | nil =>
      refine ⟨_, ?_⟩
      rintro l' ⟨e, -, s, s', hs, -⟩
      rw [List.getElem?_nil] at hs
      cases hs
  | cons s l ih =>
      obtain ⟨hs, hl⟩ := List.forall_mem_cons.mp hacc
      have hpair := hs.prod_gameAdd (ih hl)
      -- a step is one of the first place, or one of the others
      have hsub : ∀ p : S × List S, Acc (Prod.GameAdd (fun s' s => Leads step L s s')
          fun l' l => Leads (SideBySide step) (fun e => L e.2) l l') p →
          Acc (fun l' l => Leads (SideBySide step) (fun e => L e.2) l l') (p.1 :: p.2) := by
        intro p hp
        induction hp with
        | intro p _ ih =>
            refine ⟨_, ?_⟩
            rintro l' ⟨⟨i, e⟩, he, s₁, s', hs₁, hstep, rfl⟩
            cases i with
            | zero =>
                obtain rfl : p.1 = s₁ := by simpa using hs₁
                exact ih (s', p.2) (.fst ⟨e, he, hstep⟩)
            | succ i =>
                rw [List.getElem?_cons_succ] at hs₁
                exact ih (p.1, p.2.set i s') (.snd ⟨(i, e), he, s₁, s', hs₁, hstep, rfl⟩)
      exact hsub (s, l) hpair

end Execution
