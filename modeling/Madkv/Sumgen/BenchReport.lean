import Madkv.Bencher.FeederProgress
import Madkv.Bencher.ReportedOps

/-!
The log of a benchmark, and what the report generator reads in it (`parse_bench_result` of
`sumgen`).

* `benchLine`: the loop over the lines. `parseBenchResult`: the whole.
-/

namespace Madkv.Sumgen

open Bencher Decimals Fallible Python Words

/-- Why a log is not read. -/
inductive ReportError where
  | raised (e : Error)
  | runtimeError (msg : String)

/-- What is read of a type of operations. -/
structure OpStats (F : Type) where
  ops : F
  avg : F
  p99 : F

/-- The variables of the loop. -/
structure BenchScan (F : Type) where
  tput : F
  lats : OpMap (OpStats F)
  inNumbers : Bool
  inRunSec : Bool

section Parse

variable {F : Type} (fl : Floats F)

/-- `float(segs[i])` -/
def numberAt (segs : List Str) (i : ℤ) : Except Error F := do
  let seg ← Python.index segs i
  fl.float seg

/-- A line of the log. -/
def benchLine (scan : BenchScan F) (line : Str) : Except Error (BenchScan F) :=
  let line := strip line
  if !scan.inNumbers && isIn "Benchmarking results:".toList line then
    .ok { scan with inNumbers := true }
  else if scan.inNumbers && !scan.inRunSec && isIn "[Run]".toList line then
    .ok { scan with inRunSec := true }
  else if scan.inRunSec then
    if isIn "Throughput".toList line then do
      let tput ← numberAt fl (fields line) (-2)
      .ok { scan with tput }
    else if endsWith line " us".toList then do
      let segs := fields line
      let op ← Python.index segs (-12)
      let ops ← numberAt fl segs (-10)
      let avg ← numberAt fl segs (-8)
      let p99 ← numberAt fl segs (-2)
      .ok { scan with lats := scan.lats.insert (String.ofList op) ⟨ops, avg, p99⟩ }
    else .ok scan
  else .ok scan

/-- The variables before the first line. -/
def BenchScan.init : BenchScan F := ⟨fl.ofNat 0, ∅, false, false⟩

/-- The throughput and the latencies in a log. -/
def parseBenchResult (path : String) (log : Str) :
    Except ReportError (F × OpMap (OpStats F)) :=
  match (fileLines log).foldlM (benchLine fl) (.init fl) with
  | .error e => .error (.raised e)
  | .ok scan =>
      if scan.lats.keys = [] then
        .error (.runtimeError ("cannot find expected stats in '" ++ path ++ "'"))
      else .ok (scan.tput, scan.lats)

end Parse

/-! ### The kinds of lines -/

/-- The numbers of an operation as far as they are printed. -/
def roundedStats {F : Type} (fl : Floats F) (lat : Latency F) : OpStats F where
  ops := fl.ofNat lat.ops
  avg := fl.rounded 2 lat.avg
  p99 := fl.rounded 0 lat.p99

section Lines

variable {F : Type} {fl : Floats F} {scan : BenchScan F} {line : Str} {c : Char} {x : F}
  {first : Bool} {op : String} {lat : Latency F}

lemma isIn_results (line : Str) : isIn "Benchmarking results:".toList (strip line)
    = isIn "Benchmarking results:".toList line :=
  isIn_strip (a := 'B') (b := ':') (by decide) (by decide) (by decide) (by decide)

lemma isIn_run (line : Str) : isIn "[Run]".toList (strip line) = isIn "[Run]".toList line :=
  isIn_strip (a := '[') (b := ']') (by decide) (by decide) (by decide) (by decide)

lemma isIn_throughput (line : Str) : isIn "Throughput".toList (strip line)
    = isIn "Throughput".toList line :=
  isIn_strip (a := 'T') (b := 't') (by decide) (by decide) (by decide) (by decide)

lemma blank_newline : Blank isSpace ['\n'] := by
  intro c hc
  rw [List.mem_singleton.mp hc]
  rfl

lemma fields_newline : fields (line ++ ['\n']) = fields line :=
  words_append_blank line blank_newline

/-- A line above the results is skipped. -/
lemma benchLine_above (hnumbers : scan.inNumbers = false) (hrun : scan.inRunSec = false)
    (hline : isIn "Benchmarking results:".toList line = false) :
    benchLine fl scan line = .ok scan := by
  unfold benchLine
  simp only [isIn_results, hline, hnumbers, hrun, Bool.and_false, Bool.false_and,
    Bool.false_eq_true, if_false]

lemma benchLine_results (hnumbers : scan.inNumbers = false)
    (hline : isIn "Benchmarking results:".toList line = true) :
    benchLine fl scan line = .ok { scan with inNumbers := true } := by
  unfold benchLine
  simp only [isIn_results, hline, hnumbers, Bool.not_false, Bool.and_true, if_true]

/-- A line of the load phase is skipped. -/
lemma benchLine_load (hnumbers : scan.inNumbers = true) (hrun : scan.inRunSec = false)
    (hline : isIn "[Run]".toList line = false) : benchLine fl scan line = .ok scan := by
  unfold benchLine
  simp only [isIn_run, hline, hnumbers, hrun, Bool.not_true, Bool.and_false, Bool.false_and,
    Bool.false_eq_true, if_false]

lemma benchLine_run (hnumbers : scan.inNumbers = true) (hrun : scan.inRunSec = false)
    (hline : isIn "[Run]".toList line = true) :
    benchLine fl scan line = .ok { scan with inRunSec := true } := by
  unfold benchLine
  simp only [isIn_run, hline, hnumbers, hrun, Bool.not_true, Bool.not_false, Bool.and_true,
    Bool.false_and, Bool.false_eq_true, if_false, if_true]

/-- The throughput is read. -/
lemma benchLine_tput (hnumbers : scan.inNumbers = true) (hrun : scan.inRunSec = true) :
    benchLine fl scan (tputLine fl x ++ ['\n']) = .ok { scan with tput := fl.rounded 2 x } := by
  have hline : isIn "Throughput".toList (tputLine fl x ++ ['\n']) = true := by
    rw [tputLine_eq]
    exact decide_eq_true ⟨"    ".toList, _, rfl⟩
  unfold benchLine
  simp only [isIn_throughput, hline, hnumbers, hrun, Bool.not_true, Bool.and_false,
    Bool.false_and, Bool.false_eq_true, if_false, if_true, fields_strip, fields_newline,
    fields_tputLine]
  exact bind_of_eq_ok (bind_of_eq_ok rfl (fl.float_format 2 x)) rfl

/-- The latencies of an operation are read. -/
lemma benchLine_latency (hnumbers : scan.inNumbers = true) (hrun : scan.inRunSec = true)
    (hop : op ∈ reportedOps) : benchLine fl scan (latencyLine fl first op lat ++ ['\n'])
      = .ok { scan with lats := scan.lats.insert op (roundedStats fl lat) } := by
  have hline : isIn "Throughput".toList (latencyLine fl first op lat ++ ['\n']) = false := by
    refine isIn_eq_false (c := 'h') (by decide) fun hc => ?_
    rcases List.mem_append.mp hc with hc | hc
    · exact absurd (mem_latencyLine hop hc) (by decide)
    · exact absurd hc (by decide)
  have hends : endsWith (strip (latencyLine fl first op lat ++ ['\n'])) " us".toList = true := by
    obtain ⟨l, hl, ho⟩ := exists_latencyLine_eq fl first op lat
    have hsplit : latencyLine fl first op lat ++ ['\n'] = l ++ ("  u".toList ++ 's' :: ['\n']) := by
      rw [hl, List.append_assoc]
      rfl
    have hnotBlank : ¬ Blank isSpace l := fun hblank => absurd (hblank 'o' ho) (by decide)
    have hunit : " us".toList <:+ "  u".toList ++ ['s'] := ⟨[' '], by decide⟩
    rw [hsplit, strip, trim_append hnotBlank (by decide) blank_newline]
    exact decide_eq_true (hunit.trans (List.suffix_append _ _))
  unfold benchLine
  simp only [isIn_throughput, hline, hends, hnumbers, hrun, Bool.not_true, Bool.and_false,
    Bool.false_and, Bool.false_eq_true, if_false, if_true, fields_strip, fields_newline,
    fields_latencyLine hop]
  have hnumber : ∀ {segs : List Str} {i : ℤ} {seg : Str} {y : F}, Python.index segs i = .ok seg →
      fl.float seg = .ok y → numberAt fl segs i = .ok y :=
    fun hseg hy => bind_of_eq_ok hseg hy
  refine bind_of_eq_ok (a := op.toList) ?_ (bind_of_eq_ok (hnumber ?_ (fl.float_decimal lat.ops))
    (bind_of_eq_ok (hnumber ?_ (fl.float_format 2 lat.avg))
      (bind_of_eq_ok (hnumber ?_ (fl.float_format 0 lat.p99)) ?_)))
  · cases first <;> rfl
  · cases first <;> rfl
  · cases first <;> rfl
  · cases first <;> rfl
  · rw [String.ofList_toList, roundedStats]

end Lines

/-! ### The lines of a phase -/

section Phases

variable {F : Type} {fl : Floats F} {colors : Colors} {scan : BenchScan F} {x : F} {c : Char}
  {first : Bool} {op : String} {lat : Latency F} {st : Perf F} {order : List String}
  {ls : List Str} {line phase : Str} {workload : Char} {numClis : ℕ}

lemma oneLine_of_forall {P : Char → Prop} (h : ∀ c ∈ line, P c) (hcr : ¬ P '\r')
    (hlf : ¬ P '\n') : OneLine line := by
  refine fun c hc => ⟨?_, ?_⟩
  · rintro rfl
    exact hcr (h _ hc)
  · rintro rfl
    exact hlf (h _ hc)

lemma oneLine_phaseLine (hcr : '\r' ∉ phase) (hlf : '\n' ∉ phase) :
    OneLine (phaseLine fl colors phase x) := by
  refine oneLine_of_forall (fun c => mem_phaseLine) ?_ ?_
  · rintro (h | h)
    · exact hcr h
    · exact absurd h (by decide)
  · rintro (h | h)
    · exact hlf h
    · exact absurd h (by decide)

/-- Each line of a phase is one line. -/
lemma oneLine_of_print (hprint : st.print fl colors phase order = some ls)
    (hops : ∀ op ∈ order, op ∈ reportedOps) (hcr : '\r' ∉ phase) (hlf : '\n' ∉ phase) :
    ∀ line ∈ ls, OneLine line := by
  obtain ⟨rest, hrest, rfl⟩ := print_eq_some hprint
  intro line hline
  rcases List.mem_cons.mp hline with rfl | hline
  · exact oneLine_phaseLine hcr hlf
  · rcases List.mem_cons.mp hline with rfl | hline
    · exact oneLine_of_forall (fun c => mem_tputLine) (by decide) (by decide)
    · obtain ⟨first, op, lat, hop, rfl⟩ := mem_printOps hrest hline
      exact oneLine_of_forall (fun c => mem_latencyLine (hops op hop)) (by decide) (by decide)

/-- The load phase does not look like the run phase. -/
lemma isIn_run_of_print (hprint : st.print fl colors "Load".toList order = some ls)
    (hops : ∀ op ∈ order, op ∈ reportedOps) (hline : line ∈ ls) :
    isIn "[Run]".toList (line ++ ['\n']) = false := by
  have hnot : ∀ {c : Char}, c ∈ "[Run]".toList → c ∉ line →
      isIn "[Run]".toList (line ++ ['\n']) = false := by
    refine fun {c} hc hnotin => isIn_eq_false hc fun hmem => ?_
    rcases List.mem_append.mp hmem with hmem | hmem
    · exact hnotin hmem
    · rw [List.mem_singleton.mp hmem] at hc
      exact absurd hc (by decide)
  obtain ⟨rest, hrest, rfl⟩ := print_eq_some hprint
  rcases List.mem_cons.mp hline with rfl | hline
  · exact hnot (c := 'u') (by decide) fun hc => absurd (mem_phaseLine hc) (by decide)
  · rcases List.mem_cons.mp hline with rfl | hline
    · exact hnot (c := '[') (by decide) fun hc => absurd (mem_tputLine hc) (by decide)
    · obtain ⟨first, op, lat, hop, rfl⟩ := mem_printOps hrest hline
      exact hnot (c := '[') (by decide) fun hc =>
        absurd (mem_latencyLine (hops op hop) hc) (by decide)

lemma isIn_run_phaseLine :
    isIn "[Run]".toList (phaseLine fl colors "Run".toList x ++ ['\n']) = true := by
  have hfield : alignLeft 6 ('[' :: ("Run".toList ++ [']'])) = "[Run]".toList ++ [' '] := by decide
  have hpaint : "[Run]".toList <:+: colors.paint [.cyan] ("[Run]".toList ++ [' ']) :=
    (List.prefix_append _ _).isInfix.trans (infix_paint ..)
  rw [phaseLine, hfield, List.append_assoc, List.append_assoc]
  exact decide_eq_true (hpaint.trans (List.infix_append' _ _ _))

lemma isIn_resultsLine : isIn "Benchmarking results:".toList
    (resultsLine colors workload numClis ++ ['\n']) = true := by
  rw [resultsLine, List.append_assoc]
  exact decide_eq_true ((infix_paint ..).trans (List.prefix_append _ _).isInfix)

/-- **The lines of the run phase** are read, each operation with its numbers. -/
lemma foldlM_printOps (hprint : st.printOps fl first order = some ls)
    (hops : ∀ op ∈ order, op ∈ reportedOps) (hnumbers : scan.inNumbers = true)
    (hrun : scan.inRunSec = true) : ∃ lats,
    (ls.map fun line => line ++ ['\n']).foldlM (benchLine fl) scan = .ok { scan with lats }
      ∧ ∀ op, lats.lookup op = if op ∈ order then (st.latency op).map (roundedStats fl)
        else scan.lats.lookup op := by
  induction order generalizing first ls scan with
  | nil =>
      cases hprint
      exact ⟨scan.lats, rfl, fun op => rfl⟩
  | cons op order ih =>
      obtain ⟨lat, rest, hlat, hrest, rfl⟩ := printOps_cons hprint
      have hline : benchLine fl scan (latencyLine fl first op lat ++ ['\n']) = _ :=
        benchLine_latency hnumbers hrun (hops op List.mem_cons_self)
      have hnumbers' : BenchScan.inNumbers { scan with
        lats := scan.lats.insert op (roundedStats fl lat) } = true := hnumbers
      obtain ⟨lats, hfold, hlookup⟩ :=
        ih hrest (fun op' hop' => hops op' (List.mem_cons_of_mem op hop')) hnumbers' hrun
      refine ⟨lats, ?_, fun op' => ?_⟩
      · rw [List.map_cons, List.foldlM_cons]
        exact bind_of_eq_ok hline hfold
      · rw [hlookup]
        by_cases hop : op' = op
        · subst hop
          rw [AList.lookup_insert, if_pos List.mem_cons_self, hlat]
          exact ite_self _
        · simp only [List.mem_cons, hop, false_or, AList.lookup_insert_ne hop]

end Phases

/-! ### The whole log -/

section Logs

variable {F : Type} {fl : Floats F} {colors : Colors} {workload : Char} {numClis : ℕ}
  {load run : Perf F} {orderLoad orderRun : List String} {ls : List Str} {before : Str}
  {path : String}

/-- The results are not in what is printed before them. -/
def NoResults (before : Str) : Prop :=
  ∀ line ∈ fileLines before, isIn "Benchmarking results:".toList line = false

lemma scan_before (h : NoResults before) :
    (fileLines before).foldlM (benchLine fl) (.init fl) = .ok (.init fl) :=
  foldlM_eq_self fun line hline => benchLine_above rfl rfl (h line hline)

/-- A log that does not come to its results is not read. -/
lemma parse_before (h : NoResults before) : parseBenchResult fl path before
    = .error (.runtimeError ("cannot find expected stats in '" ++ path ++ "'")) := by
  rw [parseBenchResult, scan_before h]
  rfl

/-- The lines of the results, one after another. -/
lemma exists_scan_results (hworkload : workload ∈ validWorkloads)
    (hload : ∀ op ∈ orderLoad, op ∈ reportedOps) (hrun : ∀ op ∈ orderRun, op ∈ reportedOps)
    (hprint : printResults fl colors workload numClis load run orderLoad orderRun = some ls) :
    ∃ lats, (fileLines (printed ls)).foldlM (benchLine fl) (.init fl)
        = .ok ⟨fl.rounded 2 run.tputAll, lats, true, true⟩
      ∧ ∀ op, lats.lookup op
          = (if op ∈ orderRun then (run.latency op).map (roundedStats fl) else none)
        ∧ (op ∈ orderRun → (run.latency op).isSome = true) := by
  obtain ⟨lsLoad, hlsLoad, h⟩ := Option.bind_eq_some_iff.mp hprint
  obtain ⟨lsRun, hlsRun, h⟩ := Option.bind_eq_some_iff.mp h
  cases h
  have hone : ∀ line ∈ resultsLine colors workload numClis :: (lsLoad ++ lsRun), OneLine line := by
    intro line hline
    rcases List.mem_cons.mp hline with rfl | hline
    · exact oneLine_of_forall (fun c => mem_resultsLine hworkload) (by decide) (by decide)
    · rcases List.mem_append.mp hline with hline | hline
      · exact oneLine_of_print hlsLoad hload (by decide) (by decide) line hline
      · exact oneLine_of_print hlsRun hrun (by decide) (by decide) line hline
  rw [fileLines_printed hone, List.map_cons, List.foldlM_cons, List.map_append]
  have hskip : (lsLoad.map fun line => line ++ ['\n']).foldlM (benchLine fl)
      { BenchScan.init fl with inNumbers := true }
        = .ok { BenchScan.init fl with inNumbers := true } := by
    refine foldlM_eq_self fun line hline => benchLine_load rfl rfl ?_
    obtain ⟨l, hl, rfl⟩ := List.mem_map.mp hline
    exact isIn_run_of_print hlsLoad hload hl
  obtain ⟨rest, hrest, rfl⟩ := print_eq_some hlsRun
  have hnumbers : BenchScan.inNumbers
      ⟨fl.rounded 2 run.tputAll, (∅ : OpMap (OpStats F)), true, true⟩ = true := rfl
  obtain ⟨lats, hfold, hlookup⟩ := foldlM_printOps hrest hrun hnumbers rfl
  refine ⟨lats, ?_, fun op => ?_⟩
  · refine bind_of_eq_ok (benchLine_results rfl isIn_resultsLine) ?_
    rw [foldlM_append_of_ok hskip, List.map_cons, List.map_cons, List.foldlM_cons]
    refine bind_of_eq_ok (benchLine_run rfl rfl isIn_run_phaseLine) ?_
    exact bind_of_eq_ok (benchLine_tput rfl rfl) hfold
  · rw [hlookup, AList.lookup_empty]
    exact ⟨rfl, latency_isSome_of_printOps hrest⟩

variable (path) in
/-- **The report generator reads what the benchmark prints**: the throughput and the latencies
of the run phase, to the decimal places printed, whatever the order of the hash maps and the
numbers of the load phase. -/
theorem parse_printResults (hworkload : workload ∈ validWorkloads)
    (hload : ∀ op ∈ orderLoad, op ∈ reportedOps) (hrun : ∀ op ∈ orderRun, op ∈ reportedOps)
    (horder : ∀ op, op ∈ orderRun ↔ op ∈ run.latAvg) (hends : EndsLine before)
    (hbefore : NoResults before)
    (hprint : printResults fl colors workload numClis load run orderLoad orderRun = some ls) :
    ∃ lats : OpMap (OpStats F), (∀ op, lats.lookup op = (run.latency op).map (roundedStats fl))
      ∧ (∀ op, op ∈ lats ↔ op ∈ run.latAvg)
      ∧ parseBenchResult fl path (before ++ printed ls) = if orderRun = []
        then .error (.runtimeError ("cannot find expected stats in '" ++ path ++ "'"))
        else .ok (fl.rounded 2 run.tputAll, lats) := by
  obtain ⟨lats, hscan, hlookup⟩ := exists_scan_results hworkload hload hrun hprint
  have hlatency : ∀ op, lats.lookup op = (run.latency op).map (roundedStats fl) := by
    intro op
    rw [(hlookup op).1]
    by_cases hop : op ∈ orderRun
    · rw [if_pos hop]
    · cases hlat : run.latency op with
      | none => exact ite_self _
      | some lat => exact absurd ((horder op).mpr (mem_latAvg_of_latency hlat)) hop
  have hmem : ∀ op, op ∈ lats ↔ op ∈ orderRun := by
    intro op
    rw [← AList.lookup_isSome, (hlookup op).1]
    by_cases hop : op ∈ orderRun
    · simp [hop, (hlookup op).2 hop]
    · simp [hop]
  have hkeys : lats.keys = [] ↔ orderRun = [] := by
    simp only [List.eq_nil_iff_forall_not_mem, ← AList.mem_keys, hmem]
  refine ⟨lats, hlatency, fun op => (hmem op).trans (horder op), ?_⟩
  rw [parseBenchResult, fileLines_append hends, foldlM_append_of_ok (scan_before hbefore), hscan]
  simp only [hkeys]

end Logs

/-! ### The clients of the run phase -/

/-- What is read about some clients, with the averages of their merged statistics. -/
structure Tells (fl : Floats ℚ) (clients : List Bencher.Stats) (stats : Bencher.Stats) (tput : ℚ)
    (lats : OpMap (OpStats ℚ)) : Prop where
  tput : tput = fl.rounded 2 (clients.map fun c => c.tputAll).sum
  mem : ∀ op, op ∈ lats ↔ ∃ c ∈ clients, op ∈ c.latAvg
  ops : ∀ op s, lats.lookup op = some s →
    s.ops = fl.ofNat (valuesOf Bencher.Stats.numOps clients op).sum
  avg : ∀ op s, lats.lookup op = some s →
    ∃ avg, stats.latAvg.lookup op = some avg ∧ s.avg = fl.rounded 2 avg
  p99 : ∀ op s, lats.lookup op = some s →
    ∃ p99, IsGreatest {p | p ∈ valuesOf Bencher.Stats.latP99 clients op} p99
      ∧ s.p99 = fl.rounded 0 p99

section Clients

variable {P : Type} {prog : Runner.Program P} {parseFloat : String → Except RunnerError ℚ}
  {asUsize : ℚ → ℕ} {ikeys : Finset String} {fl : Floats ℚ} {clients : List Bencher.Stats}
  {stats : Bencher.Stats} {threads : List (DriverThread prog parseFloat asUsize ikeys)}
  {lats : OpMap (OpStats ℚ)} {order : List String} {op : String} {s : OpStats ℚ}

lemma eq_empty_iff {T : Type} {m : OpMap T} : m = ∅ ↔ ∀ op, op ∉ m := by
  constructor
  · rintro rfl
    exact AList.notMem_empty
  · exact fun h => AList.ext (List.map_eq_nil_iff.mp (List.eq_nil_iff_forall_not_mem.mpr h))

/-- What has been printed for an operation. -/
lemma exists_latency (hlats : lats.lookup op = (stats.perf.latency op).map (roundedStats fl))
    (hs : lats.lookup op = some s) : ∃ ops avg p99, stats.numOps.lookup op = some ops
      ∧ stats.latAvg.lookup op = some avg ∧ stats.latP99.lookup op = some p99
      ∧ s = ⟨fl.ofNat ops, fl.rounded 2 avg, fl.rounded 0 p99⟩ := by
  rw [hlats] at hs
  obtain ⟨lat, hlat, rfl⟩ := Option.map_eq_some_iff.mp hs
  obtain ⟨ops, hops, hlat⟩ := Option.bind_eq_some_iff.mp hlat
  obtain ⟨avg, havg, hlat⟩ := Option.bind_eq_some_iff.mp hlat
  obtain ⟨min, -, hlat⟩ := Option.bind_eq_some_iff.mp hlat
  obtain ⟨max, -, hlat⟩ := Option.bind_eq_some_iff.mp hlat
  obtain ⟨p99, hp99, hlat⟩ := Option.bind_eq_some_iff.mp hlat
  cases hlat
  exact ⟨ops, avg, p99, hops, havg, hp99, rfl⟩

lemma tells_of_phaseOf (hphase : PhaseOf threads clients stats)
    (hlats : ∀ op, lats.lookup op = (stats.perf.latency op).map (roundedStats fl))
    (hmem : ∀ op, op ∈ lats ↔ op ∈ stats.latAvg) :
    Tells fl clients stats (fl.rounded 2 stats.perf.tputAll) lats := by
  have hclients : ∀ op, op ∈ lats ↔ ∃ c ∈ clients, op ∈ c.latAvg :=
    fun op => (hmem op).trans (mem_latAvg_iff hphase.one hphase.merged)
  cases hlist : clients with
  | nil =>
      subst hlist
      have hnone : ∀ op s, lats.lookup op ≠ some s := by
        intro op s hs
        obtain ⟨c, hc, -⟩ := (hclients op).mp (AList.lookup_isSome.mp (by rw [hs]; rfl))
        exact absurd hc List.not_mem_nil
      obtain rfl : Bencher.Stats.new = stats := Option.some.inj hphase.merged
      exact ⟨rfl, hclients, fun op s hs => absurd hs (hnone op s),
        fun op s hs => absurd hs (hnone op s), fun op s hs => absurd hs (hnone op s)⟩
  | cons client rest =>
      subst hlist
      have hmerges := mergesTo_cons hphase.one hphase.merged
      refine ⟨congrArg (fl.rounded 2) hmerges.tputAll, hclients, fun op s hs => ?_,
        fun op s hs => ?_, fun op s hs => ?_⟩
      · obtain ⟨ops, avg, p99, hops, -, -, rfl⟩ := exists_latency (hlats op) hs
        exact congrArg fl.ofNat ((hmerges.numOps op).2 ops hops)
      · obtain ⟨ops, avg, p99, -, havg, -, rfl⟩ := exists_latency (hlats op) hs
        exact ⟨avg, havg, rfl⟩
      · obtain ⟨ops, avg, p99, -, -, hp99, rfl⟩ := exists_latency (hlats op) hs
        exact ⟨p99, (hmerges.latP99 op).2 p99 hp99, rfl⟩

end Clients

/-- The lines of an output with the numbers of some reads. -/
def readLines : List Str :=
  ["[OVERALL], Throughput(ops/sec), 1".toList, "[READ], Operations, 1".toList,
    "[READ], AverageLatency(us), 1".toList, "[READ], MinLatency(us), 1".toList,
    "[READ], MaxLatency(us), 1".toList, "[READ], 99thPercentileLatency(us), 1".toList]

/-- A reader of numbers that takes each for one. -/
def ones (_ : String) : Except RunnerError ℚ := .ok 1

def readPerf : Perf ℚ := ⟨0, 1, AList.singleton "READ" 1, AList.singleton "READ" 1,
  AList.singleton "READ" 1, AList.singleton "READ" 1, AList.singleton "READ" 1⟩

/-- What is printed is taken line by line. -/
lemma lines_printed {ls : List Str} (h : ∀ line ∈ ls, '\n' ∉ line) :
    lines (ofText (printed ls)) = ls.map fun line => ofText (line ++ ['\n']) := by
  induction ls with
  | nil => rfl
  | cons line ls ih =>
      have hsplit : ofText (printed (line :: ls))
          = ofText (line ++ ['\n']) ++ ofText (printed ls) := by
        rw [printed, List.flatMap_cons, ofText, List.map_append]
        rfl
      have hne : ofText (line ++ ['\n']) ++ ofText (printed ls) ≠ [] := by
        simp [ofText]
      rw [hsplit, lines_eq_cons hne, takeLine_ofText (h line List.mem_cons_self), List.map_cons,
        ih fun l hl => h l (List.mem_cons_of_mem line hl)]

lemma script_reads :
    script ones (fun _ => 1) ∅ .new (lines (ofText (printed readLines)))
      = ⟨[], .eof ∅ readPerf⟩ := by
  rw [lines_printed (by decide)]
  rfl

end Madkv.Sumgen
