import Madkv.Fuzzer.Main
import Madkv.Fuzzer.SingleClient
import Madkv.Fuzzer.Verdicts
import Madkv.Library.Latest
import Madkv.Runner.ColorPrint

/-!
What the fuzzer prints at the end of a round, and what it means (`Stats::print` and `main`
of the fuzzer).

* `Fails`, `unchecked`: how a run fails, and the responses that it has not checked.
* `LagsBehind`: a client without an update acknowledged lately. `unfair_iff`: this is what makes
  a round unfair.
* `FuzzRun.passed_iff`: the loop breaks iff the run fails. `FuzzRun.queueLen_eq`: what is
  left in the queue are the unchecked responses.
* `Stats.print`, `Verdict.print`: the lines printed, with the word for the result.
-/

namespace Madkv

open Decimals Python Words

section Runs

variable {cfg : FuzzConfig} {evs : List Event} {s : FuzzState}

/-- A client has stopped, or a response has been checked that the complete history does not
justify. -/
def Fails (cfg : FuzzConfig) (evs : List Event) : Prop :=
  (∃ j ts, .stopped j ts ∈ evs)
    ∨ ∃ e ∈ entries evs, e.tsResp < minAck cfg evs ∧ ¬ Justified cfg evs e

/-- The responses that have not been checked. -/
def unchecked (cfg : FuzzConfig) (evs : List Event) : List QueuedSpan :=
  (entries evs).filter fun e => decide (minAck cfg evs ≤ e.tsResp)

/-- The loop breaks on a Stop or on a report. -/
lemma FuzzRun.passed_iff_unreported (h : FuzzRun cfg evs s) :
    s.passed = true ↔ (∀ j ts, .stopped j ts ∉ evs) ∧ Unreported evs := by
  induction h with
  | nil => exact ⟨fun _ => ⟨fun _ _ => List.not_mem_nil, by simp [Unreported]⟩, fun _ => rfl⟩
  | @snoc evs s s' ev hpre hlast ih =>
      have hpass := hlast.cases.1.2
      obtain ⟨hstop, hquiet⟩ := ih.mp hpass
      cases hlast.cases.2 with
      | called hmade =>
          rw [hmade.state, Unreported, harvests_called]
          exact ⟨fun _ => ⟨fun j ts => by simp [hstop j ts], hquiet⟩, fun _ => hpass⟩
      | @stopped cidx _ hh =>
          obtain ⟨rest, hstate⟩ := hh.state
          rw [hstate]
          refine ⟨fun h => Bool.noConfusion h, fun h => ?_⟩
          exact absurd (List.mem_append_right _ (List.mem_singleton_self _))
            (h.1 cidx (s.timestamp + 1))
      | @waited g _ _ _ _ hh =>
          have hstate : s'.passed = if g.returned = none then s.passed else false := by
            rw [hh.state]
          have hnot : ∀ j ts, .stopped j ts ∉ evs ++ [.waited g] := fun j ts => by simp [hstop j ts]
          rw [hstate, Unreported, forall_harvests_waited]
          by_cases hg : g.returned = none
          · rw [if_pos hg]
            exact ⟨fun _ => ⟨hnot, hquiet, hg⟩, fun _ => hpass⟩
          · rw [if_neg hg]
            exact ⟨fun h => Bool.noConfusion h, fun h => absurd h.2.2 hg⟩

/-- Nothing is reported iff all responses that have been checked are justified. -/
lemma FuzzRun.unreported_iff (h : FuzzRun cfg evs s) : Unreported evs ↔
    ∀ e ∈ entries evs, e.tsResp < minAck cfg evs → Justified cfg evs e := by
  have hhist := h.histInv
  constructor
  · intro hquiet e he hmin
    have hcheck : (e, true) ∈ checksOf evs := by
      rw [hhist.checks hquiet]
      exact List.mem_map.mpr ⟨e, List.mem_filter.mpr ⟨he, decide_eq_true hmin⟩, rfl⟩
    exact (hhist.verdicts _ hcheck).2.2.mp rfl
  · intro hjustified g hg
    rw [(hhist.returned g hg).2]
    intro p hp
    obtain ⟨hmem, hmin, hverdict⟩ := hhist.verdicts p (List.mem_flatMap.mpr ⟨g, hg, hp⟩)
    exact hverdict.mpr (hjustified p.1 hmem hmin)

/-- **The loop breaks** iff the run fails. -/
lemma FuzzRun.passed_iff (h : FuzzRun cfg evs s) : s.passed = true ↔ ¬ Fails cfg evs := by
  rw [h.passed_iff_unreported, h.unreported_iff, Fails]
  simp only [not_or, not_exists, not_and, not_not]

/-- What is left in the queue. -/
lemma FuzzRun.queueLen_eq (h : FuzzRun cfg evs s) (hpass : s.passed = true) :
    s.history.queueLen = (unchecked cfg evs).length := by
  rw [History.queueLen, h.histInv.queue (h.histInv.passed hpass), unchecked]

end Runs

/-! ### Clients that lag behind -/

section Lags

variable {cfg : FuzzConfig} {evs : List Event} {s : FuzzState} {j k : ℕ} {g : Harvest}

/-- The last responses of a run, the latest first. -/
def latest (evs : List Event) : List Harvest := (harvests evs).reverse

/-- None of the last responses acknowledges an update of the client. -/
def LagsBehind (evs : List Event) (k j : ℕ) : Prop :=
  ∀ g ∈ (latest evs).take k, g.cidx = j → g.call.updateInfo = none

lemma TraceInv.latest_ordered (h : TraceInv cfg evs) :
    (latest evs).Pairwise fun g g' => g'.tsResp < g.tsResp := by
  rw [latest, List.pairwise_reverse]
  exact h.ordered

/-- The latest acknowledged update of a client is not later than a response iff the client lags
behind up to this one. -/
lemma TraceInv.lastAck_le_iff (h : TraceInv cfg evs) (hg : (latest evs)[k]? = some g) :
    lastAck evs j ≤ g.tsResp ↔ LagsBehind evs k j := by
  let p : Harvest → Bool := fun g' => decide (g'.cidx = j ∧ g'.call.updateInfo.isSome)
  have hack : lastAck evs j = (((latest evs).find? p).map Harvest.tsResp).getD 0 := by
    rw [lastAck, ← List.head?_reverse, ← List.filter_reverse, List.head?_filter]
    rfl
  have hle : lastAck evs j ≤ g.tsResp
      ↔ ∀ b, (latest evs).find? p = some b → b.tsResp ≤ g.tsResp := by
    rw [hack]
    cases (latest evs).find? p <;> simp
  rw [hle, Latest.find_le_iff h.latest_ordered hg, LagsBehind]
  refine forall₂_congr fun b _ => ?_
  simp only [p, decide_eq_false_iff_not, not_and, Option.not_isSome_iff_eq_none]

/-- **The responses that have not been checked** are many iff a client has lagged behind. -/
lemma TraceInv.lt_unchecked_iff (h : TraceInv cfg evs) : k < (unchecked cfg evs).length ↔
    k < (harvests evs).length ∧ ∃ j < cfg.numClis, LagsBehind evs k j := by
  have hlength : (unchecked cfg evs).length
      = ((latest evs).filter fun g => decide (minAck cfg evs ≤ g.tsResp)).length := by
    rw [unchecked, entries, List.filter_map, List.length_map, latest, List.filter_reverse,
      List.length_reverse]
    rfl
  rw [hlength, Latest.lt_length_filter_iff h.latest_ordered]
  constructor
  · rintro ⟨g, hg, hle⟩
    obtain ⟨j, hj, hack⟩ := minAck_le_iff.mp hle
    have hlt := (List.getElem?_eq_some_iff.mp hg).1
    rw [latest, List.length_reverse] at hlt
    exact ⟨hlt, j, hj, (h.lastAck_le_iff hg).mp hack⟩
  · rintro ⟨hlt, j, hj, hlags⟩
    have hlt' : k < (latest evs).length := by
      rw [latest, List.length_reverse]
      exact hlt
    have hg := List.getElem?_eq_getElem hlt'
    exact ⟨_, hg, minAck_le_iff.mpr ⟨j, hj, (h.lastAck_le_iff hg).mpr hlags⟩⟩

end Lags

/-- **What UNFAIR means**: nothing has failed, and there have been a thousand responses, but
none of the last 999 has acknowledged an update of some client, whether the client has not
completed its calls or has been given no Put, Swap or Delete. -/
theorem unfair_iff (cfg : FuzzConfig) (evs : List Event) (s : FuzzState)
    (hrun : FuzzRun cfg evs s) : (∃ remaining, verdict s.result = .unfair remaining) ↔
      ¬ Fails cfg evs ∧ 1000 ≤ (harvests evs).length ∧ ∃ j < cfg.numClis, LagsBehind evs 999 j := by
  by_cases hpass : s.passed = true
  · have hnot : ¬ Fails cfg evs := hrun.passed_iff.mp hpass
    have hlags := hrun.loopInv.toTraceInv.lt_unchecked_iff (k := 999)
    rw [FuzzState.result, if_pos hpass, hrun.queueLen_eq hpass, verdict]
    by_cases hle : (unchecked cfg evs).length ≥ remainThresh
    · rw [if_pos hle]
      exact ⟨fun _ => ⟨hnot, hlags.mp hle⟩, fun _ => ⟨_, rfl⟩⟩
    · rw [if_neg hle]
      exact ⟨fun ⟨_, heq⟩ => Verdict.noConfusion heq, fun h => absurd (hlags.mpr h.2) hle⟩
  · rw [FuzzState.result, if_neg hpass, verdict]
    refine ⟨fun ⟨_, heq⟩ => Verdict.noConfusion heq, fun h => ?_⟩
    exact absurd (hrun.passed_iff.mpr h.1) hpass

/-- A round of a thousand Gets is unfair. -/
theorem unfair_iff_gets : ∃ evs s, FuzzRun singleCfg evs s
    ∧ (∃ remaining, verdict s.result = .unfair remaining) ∧ 1000 ≤ (harvests evs).length
    ∧ LagsBehind evs 999 0 := by
  have hrun : FuzzRun singleCfg []
      (.idle 0 0 (History.new 1 [["a"]]) ⟨0, 0, 0, 0, 0, [[0]]⟩) := .nil
  obtain ⟨evs, queue, hgets, -, hlength⟩ := exists_gets hrun rfl (by decide)
    (fun e he => absurd he List.not_mem_nil) none 1000 (by decide) (by decide)
  have hqueue : queue.length = 1000 := hlength
  have hunfair : verdict (some queue.length) = .unfair 1000 := by
    rw [hqueue]
    rfl
  obtain ⟨-, hle, j, hj, hlags⟩ := (unfair_iff singleCfg _ _ hgets).mp ⟨1000, hunfair⟩
  obtain rfl : j = 0 := Nat.lt_one_iff.mp hj
  exact ⟨_, _, hgets, ⟨1000, hunfair⟩, hle, hlags⟩

/-! ### The lines -/

/-- `{:?}` of a vector of numbers. -/
def debugNumbers : List ℕ → Str
  | [] => "[]".toList
  | n :: ns => '[' :: (decimal n ++ (ns.flatMap (fun m => ", ".toList ++ decimal m) ++ [']']))

/-- The loop over the frequencies. -/
def freqLines (first : Bool) : List (List ℕ) → List Str
  | [] => []
  | freqs :: rest =>
      ((if first then "  Keys freq:  ".toList else "              ".toList) ++ debugNumbers freqs)
        :: freqLines false rest

def Stats.opsLine (stats : Stats) : Str :=
  "  Ops stats:  Put ".toList ++ (decimal stats.cntPut ++ ("  Swap ".toList
    ++ (decimal stats.cntSwap ++ ("  Get ".toList ++ (decimal stats.cntGet ++ ("  Scan ".toList
    ++ (decimal stats.cntScan ++ ("  Delete ".toList ++ decimal stats.cntDelete))))))))

def Stats.print (stats : Stats) : List Str := stats.opsLine :: freqLines true stats.keysFreq

/-- The word for a result, with its colour. -/
def Verdict.word : Verdict → String
  | .unfair _ => "UNFAIR"
  | .passed _ => "PASSED"
  | .failed => "FAILED"

def Verdict.tag : Verdict → Tag
  | .unfair _ => .red
  | .passed _ => .green
  | .failed => .red

section Print

variable (colors : Colors)

def Verdict.resultLine (v : Verdict) : Str :=
  colors.paint [.s, .yellow] "Fuzz testing result:".toList
    ++ (" ".toList ++ colors.paint [v.tag] v.word.toList)

def Verdict.detailLine : Verdict → Str
  -- too many remaining checks, meaning some clients were lagging too much behind others
  | .unfair remaining => "  Remaining checks queued:  ".toList ++ (decimal remaining
      ++ ("  ".toList ++ colors.paint [.s, .red] "too many!".toList))
  | .passed remaining =>
      "  Remaining checks queued:  ".toList ++ (decimal remaining ++ "  reasonable".toList)
  | .failed => "  Some check failed explicitly :-(".toList

def Verdict.print (v : Verdict) : List Str := [v.resultLine colors, v.detailLine colors]

/-- What `main` prints after the round. -/
def FuzzState.print (s : FuzzState) : List Str :=
  s.stats.print ++ (verdict s.result).print colors

end Print

section Characters

variable {colors : Colors} {stats : Stats} {v : Verdict} {c : Char} {freqs : List (List ℕ)}
  {ns : List ℕ} {first : Bool} {line lit : Str} {n : ℕ}

/-- The characters of the lines with the statistics. -/
def StatsChar (c : Char) : Prop :=
  c ∈ "Ops stats: Put Swap Get Scan Delete Keys freq: [, ]".toList ∨ c.isDigit = true

lemma statsChar_of_literal
    (hlit : ∀ d ∈ lit, d ∈ "Ops stats: Put Swap Get Scan Delete Keys freq: [, ]".toList)
    (hc : c ∈ lit) : StatsChar c := Or.inl (hlit c hc)

lemma statsChar_of_decimal (hc : c ∈ decimal n) : StatsChar c := Or.inr (isDigit_of_mem_decimal hc)

lemma statsChar_of_numbers (hc : c ∈ debugNumbers ns) : StatsChar c := by
  cases ns with
  | nil => exact statsChar_of_literal (by decide) hc
  | cons n ns =>
      rw [debugNumbers, List.mem_cons, List.mem_append, List.mem_append] at hc
      rcases hc with rfl | hc | hc | hc
      · exact Or.inl (by decide)
      · exact statsChar_of_decimal hc
      · obtain ⟨m, -, hc⟩ := List.mem_flatMap.mp hc
        rcases List.mem_append.mp hc with hc | hc
        · exact statsChar_of_literal (by decide) hc
        · exact statsChar_of_decimal hc
      · rw [List.mem_singleton.mp hc]
        exact Or.inl (by decide)

lemma statsChar_of_freqLines (hline : line ∈ freqLines first freqs) (hc : c ∈ line) :
    StatsChar c := by
  induction freqs generalizing first with
  | nil => cases hline
  | cons ns freqs ih =>
      rw [freqLines, List.mem_cons] at hline
      rcases hline with rfl | hline
      · rcases List.mem_append.mp hc with hc | hc
        · cases first
          · rw [if_neg Bool.false_ne_true] at hc
            exact statsChar_of_literal (by decide) hc
          · rw [if_pos rfl] at hc
            exact statsChar_of_literal (by decide) hc
        · exact statsChar_of_numbers hc
      · exact ih hline

/-- **The characters** that the statistics are printed with. -/
lemma statsChar_of_print (hline : line ∈ stats.print) (hc : c ∈ line) : StatsChar c := by
  rw [Stats.print, List.mem_cons] at hline
  rcases hline with rfl | hline
  · unfold Stats.opsLine at hc
    simp only [List.mem_append] at hc
    rcases hc with hc | hc | hc | hc | hc | hc | hc | hc | hc | hc
    · exact statsChar_of_literal (by decide) hc
    · exact statsChar_of_decimal hc
    · exact statsChar_of_literal (by decide) hc
    · exact statsChar_of_decimal hc
    · exact statsChar_of_literal (by decide) hc
    · exact statsChar_of_decimal hc
    · exact statsChar_of_literal (by decide) hc
    · exact statsChar_of_decimal hc
    · exact statsChar_of_literal (by decide) hc
    · exact statsChar_of_decimal hc
  · exact statsChar_of_freqLines hline hc

end Characters

end Madkv
