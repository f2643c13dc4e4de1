import Mathlib.Data.List.Basic
import Mathlib.Tactic.Lemma

/-!
Executions of a labelled transition system.

* `Exec step s₀ es s`: the system goes from `s₀` to `s` by steps labelled `es`.
* `Exec.invariant`: what holds at the start and is kept by every step of an
  execution holds at its end, of the labels and the state together.
* `exists_atRest`: a system whose steps cannot go on forever comes to rest.
* `drive`: a deterministic system run on a list of inputs, with
  `exec_of_drive` turning the computed run into an execution.
-/

namespace Execution

variable {S E : Type*}

/-- The executions of `step` from `s₀`, with the labels of their steps. -/
inductive Exec (step : S → E → S → Prop) (s₀ : S) : List E → S → Prop
  | nil : Exec step s₀ [] s₀
  | snoc {es : List E} {s s' : S} {e : E} :
      Exec step s₀ es s → step s e s' → Exec step s₀ (es ++ [e]) s'

variable {step : S → E → S → Prop} {s₀ s : S} {es : List E}

/-- **The invariant rule**: the start and the step lemma give the run lemma. -/
theorem Exec.invariant {P : List E → S → Prop} (h : Exec step s₀ es s) (start : P [] s₀)
    (keep : ∀ es s e s', Exec step s₀ es s → P es s → step s e s' → P (es ++ [e]) s') :
    P es s := by
  induction h with
  | nil => exact start
  | snoc hpre hstep ih => exact keep _ _ _ _ hpre ih hstep

/-- The executions of a system that allows more steps. -/
lemma Exec.mono {step' : S → E → S → Prop} (h : Exec step s₀ es s)
    (hstep : ∀ s e s', step s e s' → step' s e s') : Exec step' s₀ es s := by
  induction h with
  | nil => exact .nil
  | snoc _ hlast ih => exact ih.snoc (hstep _ _ _ hlast)

lemma exec_append {fs : List E} {s' : S} (h : Exec step s₀ es s) (h' : Exec step s fs s') :
    Exec step s₀ (es ++ fs) s' := by
  induction h' with
  | nil => simpa using h
  | snoc _ hstep ih => rw [← List.append_assoc]; exact ih.snoc hstep

/-! ### Coming to rest -/

/-- No step with a label in `L` is possible. -/
def AtRest (step : S → E → S → Prop) (L : E → Prop) (s : S) : Prop :=
  ∀ e s', L e → ¬ step s e s'

/-- Steps with labels in `L` lead from the one state to the other. -/
def Leads (step : S → E → S → Prop) (L : E → Prop) (s s' : S) : Prop := ∃ e, L e ∧ step s e s'

lemma Leads.mono {L L' : E → Prop} {s' : S} (h : Leads step L s s') (hL : ∀ e, L e → L' e) :
    Leads step L' s s' := by
  obtain ⟨e, he, hstep⟩ := h
  exact ⟨e, hL e he, hstep⟩

/-- A system comes to rest if its steps cannot go on forever. -/
theorem exists_atRest {L : E → Prop} (h : Acc (fun s' s => Leads step L s s') s) :
    ∃ es s', Exec step s es s' ∧ (∀ e ∈ es, L e) ∧ AtRest step L s' := by
  induction h with
  | intro s _ ih =>
      by_cases hrest : AtRest step L s
      · exact ⟨[], s, .nil, fun e he => absurd he List.not_mem_nil, hrest⟩
      · simp only [AtRest, not_forall, not_not] at hrest
        obtain ⟨e, s₁, he, hstep⟩ := hrest
        obtain ⟨es, s', hrun, hes, hrest⟩ := ih s₁ ⟨e, he, hstep⟩
        have hfirst : Exec step s ([] ++ [e]) s₁ := Exec.nil.snoc hstep
        exact ⟨_, s', exec_append hfirst hrun, List.forall_mem_cons.mpr ⟨he, hes⟩, hrest⟩

/-! ### Systems driven by inputs -/

variable {I A : Type*}

/-- Run `next` on the inputs one after the other, collecting the labels. -/
def drive (next : S → I → Except A (S × E)) : S → List I → Except A (List E × S)
  | s, [] => .ok ([], s)
  | s, i :: is =>
      match next s i with
      | .error a => .error a
      | .ok (s', e) =>
          match drive next s' is with
          | .error a => .error a
          | .ok (es, s'') => .ok (e :: es, s'')

/-- A computed run whose steps the relation allows is an execution. -/
lemma exec_of_drive {next : S → I → Except A (S × E)}
    (hnext : ∀ s i s' e, next s i = .ok (s', e) → step s e s') :
    ∀ (is : List I) (s s' : S) (es : List E), drive next s is = .ok (es, s') →
      Exec step s es s'
  | [], s, s', es, h => by
      obtain ⟨rfl, rfl⟩ := Prod.mk.inj (Except.ok.inj h)
      exact .nil
  | i :: is, s, s', es, h => by
      rw [drive] at h
      split at h
      · cases h
      · rename_i s₁ e he
        split at h
        · cases h
        · rename_i fs s₂ hfs
          obtain ⟨rfl, rfl⟩ := Prod.mk.inj (Except.ok.inj h)
          have hfirst : Exec step s ([] ++ [e]) s₁ := Exec.nil.snoc (hnext _ _ _ _ he)
          exact exec_append hfirst (exec_of_drive hnext is s₁ s₂ fs hfs)

end Execution
