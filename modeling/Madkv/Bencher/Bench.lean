import Madkv.Bencher.Feeder

/-!
The two phases of a benchmark (`ycsb_bench` and `main` of the bencher).

* `Feeder.wait`: the wait for a driver. `ycsbBench`: the waits for all of them, with
  their statistics merged and their keys joined.
* `DriverThread`: a feeder thread of a phase, with the run that it is in.
* `scan_of_script`: on which key a Scan ends.
* `bench_phases`: the keys that the run phase starts with are those of the Puts of the
  load phase, and its Scans end on them or on keys that their client has inserted.
-/

namespace Madkv.Bencher

open Execution Words

/-! ### A phase -/

/-- Wait for the workload to finish, `late` once the time for it has passed. The result is
`none` as long as it waits. -/
def Feeder.wait {P F : Type} (late : Bool) (t : Feeder P F) :
    Option (Except RunnerError (Option (Report F))) :=
  match t.phase with
  | .returned _ => t.report.map .ok
  -- the signal is dropped with the thread
  | .panicked _ => some (.error Runner.disconnectedError)
  | _ => if late then some (.error Runner.timeoutError) else none

/-- The statistics of a client. -/
def Report.toStats (report : Report ℚ) : Stats where
  merged := report.merged
  totalMs := report.stats.totalMs
  tputAll := report.stats.tputAll
  numOps := report.stats.numOps
  latAvg := report.stats.latAvg
  latMin := report.stats.latMin
  latMax := report.stats.latMax
  latP99 := report.stats.latP99

/-- The loop over the drivers. There is no result if an assertion fails. -/
def benchLoop (stats : Stats) (ikeys : Finset String) :
    List (Except RunnerError (Option (Report ℚ))) →
      Option (Except RunnerError (Stats × Finset String))
  | [] => some (.ok (stats, ikeys))
  | .error e :: _ => some (.error e)
  | .ok none :: _ => some (.error (.io "a YCSB driver process failed"))
  | .ok (some report) :: waits => do
      let stats ← stats.merge report.toStats
      benchLoop stats (ikeys ∪ report.ikeys) waits

/-- YCSB benchmarking logic, by what the waits for the drivers return. -/
def ycsbBench (waits : List (Except RunnerError (Option (Report ℚ)))) :
    Option (Except RunnerError (Stats × Finset String)) :=
  benchLoop .new ∅ waits

/-- A feeder thread that starts with some keys, at some point of a run. -/
structure DriverThread {P : Type} (prog : Runner.Program P)
    (parseFloat : String → Except RunnerError ℚ) (asUsize : ℚ → ℕ) (ikeys : Finset String) where
  output : Stream
  events : List FeedEvent
  feeder : Feeder P ℚ
  run : FeedRun prog parseFloat asUsize .new ikeys output events feeder

section Phase

variable {P : Type} {prog : Runner.Program P} {parseFloat : String → Except RunnerError ℚ}
  {asUsize : ℚ → ℕ} {ikeys ikeys' : Finset String} {stats stats' : Stats}
  {waits : List (Except RunnerError (Option (Report ℚ)))} {report : Report ℚ} {late : Bool}

lemma report_of_wait {t : Feeder P ℚ} (h : t.wait late = some (.ok (some report))) :
    t.report = some (some report) := by
  rw [Feeder.wait] at h
  split at h
  · obtain ⟨ret, hret, heq⟩ := Option.map_eq_some_iff.mp h
    rw [hret, Except.ok.inj heq]
  · cases h
  · split_ifs at h
    cases h

lemma wait_of_report {F : Type} {t : Feeder P F} {ret : Option (Report F)}
    (h : t.report = some ret) : t.wait late = some (.ok ret) := by
  have hphase : ∃ err, t.phase = .returned err := by
    rw [Feeder.report] at h
    split at h
    · exact ⟨_, ‹_›⟩
    · exact ⟨_, ‹_›⟩
    · cases h
  obtain ⟨err, hphase⟩ := hphase
  rw [Feeder.wait, hphase]
  simp only
  rw [h]
  rfl

/-- The keys that the calls of some threads insert. -/
def insertedBy (threads : List (DriverThread prog parseFloat asUsize ikeys)) : Finset String :=
  putKeys (threads.flatMap fun x => fedOf x.events)

/-- A thread that reports has one client, which has answered the calls of all lines, and the
keys of its Puts beside those it had. -/
lemma DriverThread.report_eq (x : DriverThread prog parseFloat asUsize ikeys)
    (h : x.feeder.report = some (some report)) :
    report.merged = 1 ∧ report.ikeys = ikeys ∪ putKeys (fedOf x.events)
      ∧ fedOf x.events = translate ikeys ((lines x.output).filterMap decode)
      ∧ (fedOf x.events).length = (answersOf x.events).length := by
  have hfollows := Feeder.Follows.run x.run
  rw [Feeder.Follows] at hfollows
  rw [Feeder.report] at h
  split at h
  · rename_i hphase
    rw [hphase] at hfollows
    cases h
    obtain ⟨hcalls, hkeys⟩ := script_eof hfollows.1
    exact ⟨rfl, hkeys, hcalls, hfollows.2⟩
  · cases h
  · cases h

lemma merge_isSome (stats : Stats) (report : Report ℚ) (h : report.merged = 1) :
    ∃ merged, stats.merge report.toStats = some merged := by
  have hmerged : report.toStats.merged ≠ 0 := by
    rw [Report.toStats, h]
    exact one_ne_zero
  rw [Stats.merge, if_neg hmerged]
  split_ifs <;> exact ⟨_, rfl⟩

/-- **The loop over the drivers** of a phase fails no assertion, merges their statistics and
joins the keys that the threads have inserted. -/
lemma benchLoop_spec (stats : Stats) (ikeys' : Finset String)
    {threads : List (DriverThread prog parseFloat asUsize ikeys)}
    (hwaits : List.Forall₂ (fun x r => ∃ late, x.feeder.wait late = some r) threads waits) :
    benchLoop stats ikeys' waits ≠ none
      ∧ ∀ out, benchLoop stats ikeys' waits = some (.ok out) →
        ikeys ∪ out.2 = ikeys ∪ (ikeys' ∪ insertedBy threads)
          ∧ ∃ reports : List (Report ℚ),
            threads.map (·.feeder.report) = reports.map (fun report => some (some report))
              ∧ (reports.map Report.toStats).foldlM Stats.merge stats = some out.1 := by
  induction hwaits generalizing stats ikeys' with
  | nil =>
      refine ⟨fun h => (nomatch h), fun out hout => ?_⟩
      cases hout
      exact ⟨congrArg (ikeys ∪ ·) (Finset.union_empty ikeys').symm, [], rfl, rfl⟩
  | @cons x r threads waits hwait _ ih =>
      obtain ⟨late, hwait⟩ := hwait
      match r with
      | .error e => exact ⟨fun h => (nomatch h), fun out hout => (nomatch hout)⟩
      | .ok none => exact ⟨fun h => (nomatch h), fun out hout => (nomatch hout)⟩
      | .ok (some report) =>
          have hreport := report_of_wait hwait
          obtain ⟨hone, hkeys, -⟩ := x.report_eq hreport
          obtain ⟨merged, hmerged⟩ := merge_isSome stats report hone
          have hloop : benchLoop stats ikeys' (.ok (some report) :: waits)
              = benchLoop merged (ikeys' ∪ report.ikeys) waits := by
            rw [benchLoop, hmerged]
            rfl
          rw [hloop]
          obtain ⟨hsome, hspec⟩ := ih merged (ikeys' ∪ report.ikeys)
          refine ⟨hsome, fun out hout => ?_⟩
          obtain ⟨hout, reports, hreports, hfold⟩ := hspec out hout
          refine ⟨?_, report :: reports, ?_, ?_⟩
          · rw [hout, hkeys, insertedBy, insertedBy, List.flatMap_cons, putKeys_append]
            ext key
            simp only [Finset.mem_union]
            tauto
          · rw [List.map_cons, List.map_cons, hreport, hreports]
          · rw [List.map_cons, List.foldlM_cons, hmerged]
            exact hfold

end Phase

/-! ### Scans -/

section Scans

variable {F : Type} {parseFloat : String → Except RunnerError F} {asUsize : F → ℕ}
  {segs : List String} {ikeys ikeys' : Finset String} {stats : Perf F} {ls : List Stream}
  {keyStart keyEnd : String} {n : ℕ}

lemma Translated.scanEndsOn (h : Translated segs ikeys (some (.scan keyStart keyEnd)) ikeys') :
    ScanEndsOn ikeys keyEnd := by
  cases h with
  | scan hend => exact scanEndsOn_of_scanEnd hend

/-- **The Scans of a script** end on keys that it starts with, or that an earlier call of it
inserts, if there are any. -/
lemma scan_of_script
    (h : (script parseFloat asUsize ikeys stats ls).calls[n]? = some (.scan keyStart keyEnd)) :
    ScanEndsOn (ikeys ∪ putKeys ((script parseFloat asUsize ikeys stats ls).calls.take n))
      keyEnd := by
  induction ls generalizing ikeys stats n with
  | nil => cases h
  | cons line rest ih =>
      rw [script] at h ⊢
      cases hdecode : decode line with
      | none =>
          rw [hdecode] at h
          cases h
      | some text =>
          rw [hdecode] at h
          simp only at h ⊢
          cases hfeed : feedALine parseFloat asUsize text ikeys stats with
          | error e =>
              rw [hfeed] at h
              cases h
          | ok said =>
              obtain ⟨call, ikeys₁, stats₁⟩ := said
              have htranslated := interpretYcsbCall_eq_ok_iff.mp (feedALine_eq_ok hfeed)
              have hkeys := htranslated.putKeys
              have hunion : ∀ more, ikeys₁ ∪ more = ikeys ∪ (putKeys call.toList ∪ more) := by
                intro more
                rw [hkeys, Finset.union_assoc]
              rw [hfeed] at h
              simp only [Script.after] at h ⊢
              cases call with
              | none =>
                  rw [Option.toList_none, List.nil_append] at h ⊢
                  have hends := ih h
                  rw [hunion] at hends
                  simpa [putKeys] using hends
              | some call =>
                  rw [Option.toList_some, List.singleton_append] at h ⊢
                  cases n with
                  | zero =>
                      obtain rfl : call = .scan keyStart keyEnd := by simpa using h
                      simpa [putKeys] using htranslated.scanEndsOn
                  | succ n =>
                      have hends := ih h
                      rw [hunion, ← putKeys_append] at hends
                      exact hends

end Scans

/-- **The two phases**: no assertion fails while the threads of the load phase are waited
for. If the phase succeeds, each client has got the answers to all calls of its driver, the
statistics are those of all threads merged, and the keys passed on are those of the Puts
made. A Scan of the run phase then ends on one of them, or on a key that its own client has
inserted before it, if there are any. -/
theorem bench_phases {P : Type} (prog : Runner.Program P)
    (parseFloat : String → Except RunnerError ℚ) (asUsize : ℚ → ℕ)
    (load : List (DriverThread prog parseFloat asUsize ∅))
    (waits : List (Except RunnerError (Option (Report ℚ))))
    (hwaits : List.Forall₂ (fun x r => ∃ late, x.feeder.wait late = some r) load waits) :
    ycsbBench waits ≠ none
      ∧ ∀ stats ikeys, ycsbBench waits = some (.ok (stats, ikeys)) →
        (∀ x ∈ load, fedOf x.events = translate ∅ ((lines x.output).filterMap decode)
          ∧ (fedOf x.events).length = (answersOf x.events).length)
        ∧ (∃ reports : List (Report ℚ),
          load.map (·.feeder.report) = reports.map (fun report => some (some report))
            ∧ mergeAll (reports.map Report.toStats) = some stats)
        ∧ ikeys = insertedBy load
        ∧ ∀ (x : DriverThread prog parseFloat asUsize ikeys) (n : ℕ) (keyStart keyEnd : String),
          (fedOf x.events)[n]? = some (.scan keyStart keyEnd) →
          ScanEndsOn (ikeys ∪ putKeys ((fedOf x.events).take n)) keyEnd := by
  obtain ⟨hsome, hspec⟩ := benchLoop_spec .new ∅ hwaits
  refine ⟨hsome, fun stats ikeys hbench => ?_⟩
  obtain ⟨hkeys, reports, hreports, hmerged⟩ := hspec _ hbench
  refine ⟨fun x hx => ?_, ⟨reports, hreports, hmerged⟩, ?_, fun x n keyStart keyEnd hn => ?_⟩
  · have hmem : x.feeder.report ∈ load.map (·.feeder.report) := List.mem_map_of_mem hx
    rw [hreports] at hmem
    obtain ⟨report, -, hreport⟩ := List.mem_map.mp hmem
    exact (x.report_eq hreport.symm).2.2
  · simpa using hkeys
  · have hsub := (Feeder.Follows.run x.run).oneAtATime.1
    obtain ⟨rest, hrest⟩ := hsub
    have hlt := (List.getElem?_eq_some_iff.mp hn).1
    have hcall : (script parseFloat asUsize ikeys .new (lines x.output)).calls[n]?
        = some (.scan keyStart keyEnd) := by
      rw [← hrest, List.getElem?_append_left hlt, hn]
    have hends := scan_of_script hcall
    rwa [← hrest, List.take_append_of_le_length hlt.le] at hends

/-- A load phase with one thread, which inserts one key. -/
theorem bench_phases_insertion :
    ∃ (x : DriverThread Refcli.program noFloats (fun _ => 0) ∅) (stats : Stats),
      ycsbBench [.ok (some ⟨1, .new, {"t_k"}⟩)] = some (.ok (stats, {"t_k"}))
        ∧ fedOf x.events = translate ∅ ((lines insertion).filterMap decode)
        ∧ {"t_k"} = insertedBy [x] := by
  obtain ⟨es, t, hrun, hreport⟩ := exists_insertionRun (Perf.new (F := ℚ))
  obtain ⟨-, hphase⟩ := bench_phases Refcli.program noFloats (fun _ => 0)
    [⟨insertion, es, t, hrun⟩] [.ok (some ⟨1, .new, {"t_k"}⟩)]
    (.cons ⟨false, wait_of_report hreport⟩ .nil)
  have hbench : ycsbBench [.ok (some ⟨1, .new, {"t_k"}⟩)]
      = some (.ok (Report.toStats ⟨1, .new, {"t_k"}⟩, {"t_k"})) := by
    simp [ycsbBench, benchLoop, Stats.merge, Stats.new, Report.toStats]
  obtain ⟨hfed, -, hkeys, -⟩ := hphase _ _ hbench
  exact ⟨_, _, hbench, (hfed _ List.mem_cons_self).1, hkeys⟩

end Madkv.Bencher
