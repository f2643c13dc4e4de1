import Madkv.Bencher.Bench
import Madkv.Bencher.MergedStats
import Madkv.Bencher.Print

/-!
The types of operations in the statistics of a benchmark.

* `script_reported`: a driver's output gives numbers of the reported types of operations
  only, whatever is in it.
* `mem_latAvg_iff`: the merge has averages of the operations that some client has them of.
* `PhaseOf`: the statistics of a phase are those of the reports of its drivers.
-/

namespace Madkv.Bencher

open Execution Fallible

/-- There are numbers of the reported types of operations only. -/
def Perf.Reported {F : Type} (st : Perf F) : Prop := ∀ op ∈ st.latAvg, op ∈ reportedOps

section Lines

variable {F : Type} {parseFloat : String → Except RunnerError F} {asUsize : F → ℕ}
  {stats stats' : Perf F} {segs : List String} {op name header : String} {text : List Char}
  {ikeys ikeys' : Finset String} {call : Option KvCall} {calls : List KvCall} {ls : List Stream}
  {x : F} {stop : ℕ}

/-- The type of operations in a header. -/
lemma op_of_header (hheader : header ∈ ["[INSERT],", "[UPDATE],", "[READ],", "[SCAN],"])
    (hstop : checkedSub (utf8Size header.toList) 2 = .ok stop)
    (hop : slice header 1 stop = .ok op) : op ∈ reportedOps := by
  obtain ⟨-, rfl⟩ := checkedSub_eq_ok.mp hstop
  simp only [List.mem_cons, List.not_mem_nil, or_false] at hheader
  rcases hheader with rfl | rfl | rfl | rfl <;> cases hop <;> decide

lemma Perf.Reported.insert (h : stats.Reported) (hop : op ∈ reportedOps) :
    Perf.Reported { stats with latAvg := stats.latAvg.insert op x } := by
  intro op' hop'
  rcases (AList.mem_insert _).mp hop' with rfl | hop'
  · exact hop
  · exact h op' hop'

/-- A line with a number sets what it is the number of. -/
lemma exists_number {g : F → Perf F}
    (h : (do
      let num ← parseYcsbFloat parseFloat segs
      .ok (g num)) = .ok stats') : ∃ num, stats' = g num := by
  obtain ⟨num, -, h⟩ := bind_eq_ok.mp h
  exact ⟨num, (Except.ok.inj h).symm⟩

lemma recordOp_reported (h : stats.Reported) (hop : op ∈ reportedOps)
    (hrecord : recordOp parseFloat asUsize op name segs stats = .ok stats') : stats'.Reported := by
  rw [recordOp] at hrecord
  split_ifs at hrecord
  · obtain ⟨num, rfl⟩ := exists_number hrecord
    exact h
  · obtain ⟨num, rfl⟩ := exists_number hrecord
    exact h.insert hop
  · obtain ⟨num, rfl⟩ := exists_number hrecord
    exact h
  · obtain ⟨num, rfl⟩ := exists_number hrecord
    exact h
  · obtain ⟨num, rfl⟩ := exists_number hrecord
    exact h
  · cases hrecord
    exact h

lemma recordYcsbPerf_reported (h : stats.Reported)
    (hrecord : recordYcsbPerf parseFloat asUsize text stats = .ok stats') : stats'.Reported := by
  rw [recordYcsbPerf] at hrecord
  split at hrecord
  · split_ifs at hrecord
    · obtain ⟨num, rfl⟩ := exists_number hrecord
      exact h
    · obtain ⟨num, rfl⟩ := exists_number hrecord
      exact h
    · cases hrecord
      exact h
  · split_ifs at hrecord with hheader
    · obtain ⟨stop, hstop, hrecord⟩ := bind_eq_ok.mp hrecord
      obtain ⟨op, hop, hrecord⟩ := bind_eq_ok.mp hrecord
      split at hrecord
      · exact recordOp_reported h (op_of_header hheader hstop hop) hrecord
      · cases hrecord
        exact h
    · cases hrecord
      exact h
  · cases hrecord
    exact h

/-- **A line** keeps to the reported types of operations. -/
lemma feedALine_reported (h : stats.Reported)
    (hfeed : feedALine parseFloat asUsize text ikeys stats = .ok (call, ikeys', stats')) :
    stats'.Reported := by
  rw [feedALine] at hfeed
  by_cases hempty : (Words.trim isWhitespace text).isEmpty = true
  · rw [if_pos hempty] at hfeed
    cases hfeed
    exact h
  · rw [if_neg hempty] at hfeed
    obtain ⟨⟨call', ikeys₁⟩, -, hfeed⟩ := bind_eq_ok.mp hfeed
    cases call' with
    | some call' =>
        cases hfeed
        exact h
    | none =>
        simp only at hfeed
        split_ifs at hfeed
        · obtain ⟨stats₁, hrecord, hfeed⟩ := bind_eq_ok.mp hfeed
          cases hfeed
          exact recordYcsbPerf_reported h hrecord
        · cases hfeed
          exact h

/-- **A whole output** gives numbers of the reported types of operations only. -/
lemma script_reported (h : stats.Reported)
    (hscript : (script parseFloat asUsize ikeys stats ls).ending = .eof ikeys' stats') :
    stats'.Reported := by
  induction ls generalizing ikeys stats with
  | nil =>
      cases hscript
      exact h
  | cons line rest ih =>
      rw [script] at hscript
      cases hdecode : decode line with
      | none =>
          rw [hdecode] at hscript
          cases hscript
      | some text =>
          rw [hdecode] at hscript
          simp only at hscript
          cases hfeed : feedALine parseFloat asUsize text ikeys stats with
          | error e =>
              rw [hfeed] at hscript
              cases hscript
          | ok said =>
              obtain ⟨call, ikeys₁, stats₁⟩ := said
              rw [hfeed] at hscript
              exact ih (feedALine_reported h hfeed) hscript

end Lines

/-! ### The phases -/

/-- The numbers that are printed. -/
def Stats.perf (st : Stats) : Perf ℚ :=
  ⟨st.totalMs, st.tputAll, st.numOps, st.latAvg, st.latMin, st.latMax, st.latP99⟩

section Merge

variable {clients : List Stats} {st : Stats} {op : String}

/-- **The averages of the merge** are of the operations that some client has an average of. -/
lemma mem_latAvg_iff (hone : ∀ c ∈ clients, c.merged = 1) (h : mergeAll clients = some st) :
    op ∈ st.latAvg ↔ ∃ c ∈ clients, op ∈ c.latAvg := by
  have hreads : Reads (fun st => (st.latAvg.lookup op).isSome) (· || ·) := by
    intro st client st' hst hclient hmerge
    rw [Stats.merge, if_neg (by omega), if_neg (by omega)] at hmerge
    cases hmerge
    simp only [lookup_mergeMap]
    cases st.latAvg.lookup op <;> cases client.latAvg.lookup op <;> rfl
  cases clients with
  | nil =>
      cases h
      simp [Stats.new]
  | cons client rest =>
      have hfold := mergeAll_eq_foldl hreads hone h
      rw [Folds.foldl_or, List.any_map] at hfold
      rw [← AList.lookup_isSome, hfold, Bool.or_eq_true, List.any_eq_true]
      simp only [Function.comp, id, AList.lookup_isSome, List.mem_cons, exists_eq_or_imp]

end Merge

section Phases

variable {P : Type} {prog : Runner.Program P} {parseFloat : String → Except RunnerError ℚ}
  {asUsize : ℚ → ℕ} {ikeys ikeys' : Finset String} {stats : Stats} {report : Report ℚ}
  {threads : List (DriverThread prog parseFloat asUsize ikeys)}
  {waits : List (Except RunnerError (Option (Report ℚ)))}

lemma DriverThread.reported (x : DriverThread prog parseFloat asUsize ikeys)
    (h : x.feeder.report = some (some report)) : report.stats.Reported := by
  have hfollows := Feeder.Follows.run x.run
  rw [Feeder.Follows] at hfollows
  rw [Feeder.report] at h
  split at h
  · rename_i hphase
    rw [hphase] at hfollows
    cases h
    refine script_reported (fun op hop => ?_) (congrArg Script.ending hfollows.1)
    exact absurd hop (AList.notMem_empty op)
  · cases h
  · cases h

/-- The statistics of a phase are those of some clients, in this order. -/
structure PhaseOf (threads : List (DriverThread prog parseFloat asUsize ikeys))
    (clients : List Stats) (stats : Stats) : Prop where
  reports : ∃ reports : List (Report ℚ), clients = reports.map Report.toStats
    ∧ threads.map (·.feeder.report) = reports.map fun report => some (some report)
  merged : mergeAll clients = some stats
  one : ∀ c ∈ clients, c.merged = 1
  reportedOps : ∀ op ∈ stats.latAvg, op ∈ Bencher.reportedOps

/-- **The statistics of a phase** that succeeds. -/
lemma exists_phaseOf
    (hwaits : List.Forall₂ (fun x r => ∃ late, x.feeder.wait late = some r) threads waits)
    (hbench : ycsbBench waits = some (.ok (stats, ikeys'))) :
    ∃ clients, PhaseOf threads clients stats := by
  obtain ⟨-, hspec⟩ := benchLoop_spec .new ∅ hwaits
  obtain ⟨-, reports, hreports, hmerged⟩ := hspec _ hbench
  have hthread : ∀ report ∈ reports, ∃ x ∈ threads, x.feeder.report = some (some report) := by
    intro report hreport
    have hmem := List.mem_map_of_mem (f := fun r => some (some r)) hreport
    rw [← hreports] at hmem
    exact List.mem_map.mp hmem
  have hone : ∀ c ∈ reports.map Report.toStats, c.merged = 1 := by
    intro c hc
    obtain ⟨report, hreport, rfl⟩ := List.mem_map.mp hc
    obtain ⟨x, -, hx⟩ := hthread report hreport
    exact (x.report_eq hx).1
  refine ⟨_, ⟨reports, rfl, hreports⟩, hmerged, hone, fun op hop => ?_⟩
  obtain ⟨c, hc, hop⟩ := (mem_latAvg_iff hone hmerged).mp hop
  obtain ⟨report, hreport, rfl⟩ := List.mem_map.mp hc
  obtain ⟨x, -, hx⟩ := hthread report hreport
  exact x.reported hx op hop

end Phases

end Madkv.Bencher
