import Madkv.Fuzzer.SingleClient

/-!
Crossed answers: responses of another kind or with other keys than their calls.

The update goes into the history under the key of the call, while the check uses
the kind and the keys that the response tells. The loop compares the two only for
a Stop, which no client is called for.

* `FuzzRun.failed_iff_checks`, `FuzzRun.failed_iff`: a run fails by a Stop or by a
  response that is checkable and not justified, and in no other way.
* `crossed_reported_iff`: so a crossed answer is reported unless all checkable
  responses of the run are justified.
* `exists_crossed_accepted`: a whole run in which a Get is answered as if it were
  a Put.
-/

namespace Madkv

open Intervals

/-- The run has handed the response to `check_call`. -/
def Checked (evs : List Event) (g : Harvest) : Prop := ∃ verdict, (g.entry, verdict) ∈ checksOf evs

/-- Every client has an update acknowledged after the response. -/
def Checkable (cfg : FuzzConfig) (evs : List Event) (g : Harvest) : Prop :=
  g.tsResp < minAck cfg evs

/-- A client has answered Stop. -/
def StopSeen (evs : List Event) : Prop := ∃ cidx ts, Event.stopped cidx ts ∈ evs

variable {cfg : FuzzConfig} {evs : List Event} {s : FuzzState} {g : Harvest}

lemma stopSeen_concat {ev : Event} :
    StopSeen (evs ++ [ev]) ↔ StopSeen evs ∨ ∃ cidx ts, ev = .stopped cidx ts := by
  simp only [StopSeen, List.mem_append, List.mem_singleton, exists_or, eq_comm]

lemma checksOf_append {evs' : List Event} :
    checksOf (evs ++ evs') = checksOf evs ++ checksOf evs' := by
  simp [checksOf, harvests]

/-- What a run fails by: a Stop or a check. -/
lemma FuzzRun.failed_iff_checks (h : FuzzRun cfg evs s) :
    s.passed = false ↔ StopSeen evs ∨ ∃ p ∈ checksOf evs, p.2 = false := by
  refine h.invariant (P := fun evs s => s.passed = false ↔
    StopSeen evs ∨ ∃ p ∈ checksOf evs, p.2 = false) ?_ fun evs s ev s' hpre ih hstep => ?_
  · simp [FuzzState.init, StopSeen, checksOf]
  have hhist := FuzzRun.histInv (hpre.snoc hstep)
  obtain ⟨⟨-, hpass⟩, hcase⟩ := hstep.cases
  -- nothing has failed before the iteration
  have hbefore : ¬ (StopSeen evs ∨ ∃ p ∈ checksOf evs, p.2 = false) := by
    rw [← ih, hpass]
    exact Bool.true_eq_false_eq_False
  rw [not_or] at hbefore
  rw [stopSeen_concat, or_iff_right hbefore.1]
  cases hcase with
  | called hh =>
      have hpass' : s'.passed = true := by rw [hh.state]; exact hpass
      rw [hpass', checksOf_congr (harvests_called _ _ _ _), or_iff_left hbefore.2]
      simp
  | stopped hh =>
      obtain ⟨rest, hstate⟩ := hh.state
      exact iff_of_true (by rw [hstate]) (Or.inl ⟨_, _, rfl⟩)
  | @waited h rest updateInfo applied _ hh =>
      have hpass' : s'.passed = false ↔ h.returned ≠ none := by
        rw [hh.state]
        by_cases hret : h.returned = none <;> simp [hret, hpass]
      have hchecks := (hhist.returned h (by simp)).2
      have hstop : ¬ ∃ cidx ts, Event.waited h = .stopped cidx ts := by
        rintro ⟨_, _, heq⟩
        cases heq
      rw [hpass', Ne, hchecks, or_iff_right hstop, checksOf_append_waited]
      simp only [not_forall, Bool.not_eq_true, exists_prop, List.mem_append, or_and_right,
        exists_or]
      exact (or_iff_right hbefore.2).symm

/-- While nothing has failed, the checkable responses have been checked. -/
lemma FuzzRun.checks_of_checkable (h : FuzzRun cfg evs s) (hpass : s.passed = true)
    (hg : g ∈ harvests evs) (hts : Checkable cfg evs g) : (g.entry, true) ∈ checksOf evs := by
  rw [h.histInv.checks (h.histInv.passed hpass)]
  refine List.mem_map_of_mem (List.mem_filter.mpr ⟨mem_entries.mpr ⟨g, hg, rfl⟩, ?_⟩)
  exact decide_eq_true hts

/-- A run fails by a Stop or by a response that is checkable and not justified. -/
lemma FuzzRun.failed_iff (h : FuzzRun cfg evs s) : s.passed = false ↔
    StopSeen evs ∨ ∃ g ∈ harvests evs, Checkable cfg evs g ∧ ¬ Justified cfg evs g.entry := by
  have hverdicts := h.histInv.verdicts
  constructor
  · intro hfail
    refine (h.failed_iff_checks.mp hfail).imp_right fun hcheck => ?_
    obtain ⟨p, hp, hfalse⟩ := hcheck
    obtain ⟨hentry, hts, hverdict⟩ := hverdicts p hp
    obtain ⟨g, hg, heq⟩ := mem_entries.mp hentry
    rw [← heq] at hts hverdict
    refine ⟨g, hg, hts, fun hjust => ?_⟩
    rw [hverdict.mpr hjust] at hfalse
    cases hfalse
  · rintro (hstop | ⟨g, hg, hts, hnot⟩)
    · exact h.failed_iff_checks.mpr (Or.inl hstop)
    · by_contra hpass
      rw [Bool.not_eq_false] at hpass
      exact hnot ((hverdicts _ (h.checks_of_checkable hpass hg hts)).2.2.mp rfl)

/-- While nothing has failed, the responses checked are those that are checkable. -/
lemma FuzzRun.checked_iff (h : FuzzRun cfg evs s) (hpass : s.passed = true)
    (hg : g ∈ harvests evs) : Checked evs g ↔ Checkable cfg evs g := by
  constructor
  · rintro ⟨verdict, hcheck⟩
    exact (h.histInv.verdicts _ hcheck).2.1
  · exact fun hts => ⟨true, h.checks_of_checkable hpass hg hts⟩

/-- **When crossed answers are reported**: a run in which a response checked differs
in its kind or its keys from the call it answers is reported as failed, unless all
checkable responses are justified and no client has answered Stop. -/
theorem crossed_reported_iff (h : FuzzRun cfg evs s) :
    ((∃ g ∈ harvests evs, Checked evs g ∧ ¬ Matches g.call g.resp) → s.result = none) ↔
      (∀ g ∈ harvests evs, Checkable cfg evs g → Matches g.call g.resp) ∨ StopSeen evs
        ∨ ∃ g ∈ harvests evs, Checkable cfg evs g ∧ ¬ Justified cfg evs g.entry := by
  have hresult : s.result = none ↔ s.passed = false := by
    rw [FuzzState.result]
    cases s.passed <;> simp
  rw [hresult, ← h.failed_iff]
  cases hpass : s.passed with
  | false => simp
  | true =>
      simp only [reduceCtorEq, imp_false, not_exists, not_and, not_not, or_false]
      refine forall₂_congr fun g hg => ?_
      rw [h.checked_iff hpass hg]

/-- The Get is answered as if it were a Put, then a Put makes this checkable. -/
def crossedDraws : List Draws :=
  [drawCall 0 4 "", drawResp 0 (.put "a" false), drawCall 0 0 "x", drawResp 0 (.put "a" false)]

theorem crossed_reported_iff_crossed :
    ((∃ g ∈ harvests (runOf singleCfg crossedDraws).1,
        Checked (runOf singleCfg crossedDraws).1 g ∧ ¬ Matches g.call g.resp) →
          (runOf singleCfg crossedDraws).2.result = none) ↔
      (∀ g ∈ harvests (runOf singleCfg crossedDraws).1,
        Checkable singleCfg (runOf singleCfg crossedDraws).1 g → Matches g.call g.resp)
        ∨ StopSeen (runOf singleCfg crossedDraws).1
        ∨ ∃ g ∈ harvests (runOf singleCfg crossedDraws).1,
          Checkable singleCfg (runOf singleCfg crossedDraws).1 g
            ∧ ¬ Justified singleCfg (runOf singleCfg crossedDraws).1 g.entry :=
  crossed_reported_iff (fuzzRun_runOf singleCfg crossedDraws)

/-- A Get is answered as if it were a Put. The loop runs to its end and reports nothing. -/
theorem exists_crossed_accepted :
    ¬ ∀ (cfg : FuzzConfig) (evs : List Event) (s : FuzzState), 1000 ≤ cfg.numOps →
        FuzzRun cfg evs s → ¬ s.Running cfg →
        (∃ g ∈ harvests evs, Checked evs g ∧ ¬ Matches g.call g.resp) → s.result = none := by
  intro h
  have hrun : FuzzRun singleCfg (runOf singleCfg crossedDraws).1
      (.idle 4 2 (runOf singleCfg crossedDraws).2.history ⟨1, 0, 1, 0, 0, [[2]]⟩) :=
    fuzzRun_runOf singleCfg crossedDraws
  obtain ⟨evs, queue, hgets, -⟩ := exists_gets hrun rfl (by decide) (by decide) (some "x") 998
    (by decide) (by decide)
  have hmem : .waited ⟨0, .get "a", 1, 2, .put "a" false, none, []⟩
      ∈ (runOf singleCfg crossedDraws).1 := by decide
  have hcheck : (⟨1, 2, .put "a" false⟩, true) ∈ checksOf (runOf singleCfg crossedDraws).1 := by
    decide
  have hresult := h singleCfg _ _ (by decide) hgets (fun hrunning => lt_irrefl 1000 hrunning.1) ⟨_,
    mem_harvests.mpr (List.mem_append_left evs hmem),
    ⟨true, checksOf_append ▸ List.mem_append_left _ hcheck⟩, by decide⟩
  cases hresult

end Madkv
