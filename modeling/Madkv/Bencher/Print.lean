import Madkv.Bencher.Ycsb
import Madkv.Runner.ColorPrint

/-!
What a benchmark prints at its end (`Stats::print` and `main` of the bencher).

* `phaseLine`, `tputLine`, `latencyLine`: the lines for the statistics of a phase.
  `Perf.print`: all of them, unless an operation lacks one of its numbers.
* `printResults`: the lines of both phases.
* `tputLine_eq`, `latencyLine_eq`: the words of a line and the gaps between them.
* `mem_phaseLine`, `mem_tputLine`, `mem_latencyLine`: the characters of a line.
-/

namespace Madkv.Bencher

open Decimals Python Words

/-- The types of operations that a driver reports numbers of. -/
def reportedOps : List String := ["INSERT", "UPDATE", "READ", "SCAN"]

/-- The numbers that are printed for a type of operations. -/
structure Latency (F : Type) where
  ops : ℕ
  avg : F
  min : F
  max : F
  p99 : F

section Print

variable {F : Type} (fl : Floats F) (colors : Colors)

/-- The look-ups for a type of operations, each of which panics on a missing one. -/
def Perf.latency (st : Perf F) (op : String) : Option (Latency F) := do
  let ops ← st.numOps.lookup op
  let avg ← st.latAvg.lookup op
  let min ← st.latMin.lookup op
  let max ← st.latMax.lookup op
  let p99 ← st.latP99.lookup op
  some ⟨ops, avg, min, max, p99⟩

/-- The line with the run time of a phase. -/
def phaseLine (phase : Str) (totalMs : F) : Str :=
  "  ".toList ++ (colors.paint [.cyan] (alignLeft 6 ('[' :: (phase ++ [']']))) ++ ("  ".toList
    ++ (alignRight 6 (fl.format 0 totalMs) ++ " ms".toList)))

/-- The line with the throughput. -/
def tputLine (tputAll : F) : Str :=
  "    Throughput:  ".toList ++ (alignRight 9 (fl.format 2 tputAll) ++ " ops/sec".toList)

/-- The line for a type of operations. -/
def latencyLine (first : Bool) (op : String) (lat : Latency F) : Str :=
  (if first then "    Latency:".toList else "            ".toList)
    ++ ("    ".toList ++ (alignLeft 6 op.toList
    ++ ("  ops ".toList ++ (alignRight 6 (decimal lat.ops)
    ++ ("  avg ".toList ++ (alignRight 9 (fl.format 2 lat.avg)
    ++ ("  min ".toList ++ (alignRight 6 (fl.format 0 lat.min)
    ++ ("  max ".toList ++ (alignRight 6 (fl.format 0 lat.max)
    ++ ("  p99 ".toList ++ (alignRight 6 (fl.format 0 lat.p99) ++ "  us".toList))))))))))))

/-- The loop over the types of operations. -/
def Perf.printOps (st : Perf F) (first : Bool) : List String → Option (List Str)
  | [] => some []
  | op :: rest => do
      let lat ← st.latency op
      let ls ← st.printOps false rest
      some (latencyLine fl first op lat :: ls)

/-- The lines of a phase, with the operations in the order of the hash map. -/
def Perf.print (phase : Str) (order : List String) (st : Perf F) : Option (List Str) := do
  let ls ← st.printOps fl true order
  some (phaseLine fl colors phase st.totalMs :: tputLine fl st.tputAll :: ls)

def validWorkloads : List Char := ['a', 'b', 'c', 'd', 'e', 'f']

/-- The line above the results. -/
def resultsLine (workload : Char) (numClis : ℕ) : Str :=
  colors.paint [.s, .yellow] "Benchmarking results:".toList ++ ("  ".toList
    ++ (colors.paint [.cyan] ("YCSB-".toList ++ [workload]) ++ ("  ".toList
    ++ colors.paint [.magenta] (decimal numClis ++ " clients".toList))))

/-- What `main` prints of the statistics of its phases. -/
def printResults (workload : Char) (numClis : ℕ) (load run : Perf F)
    (orderLoad orderRun : List String) : Option (List Str) := do
  let lsLoad ← load.print fl colors "Load".toList orderLoad
  let lsRun ← run.print fl colors "Run".toList orderRun
  some (resultsLine colors workload numClis :: (lsLoad ++ lsRun))

end Print

/-! ### The words of a line -/

section Lines

variable {F : Type} {fl : Floats F} {colors : Colors} {phase : Str} {x : F} {c : Char}
  {first : Bool} {op : String} {lat : Latency F} {workload : Char} {numClis : ℕ}

/-- The words of the line with the throughput. -/
def tputRows (fl : Floats F) (x : F) : List (Str × Str) :=
  [("    ".toList, "Throughput:".toList),
    ("  ".toList ++ List.replicate (9 - (fl.format 2 x).length) ' ', fl.format 2 x),
    (" ".toList, "ops/sec".toList)]

lemma tputLine_eq : tputLine fl x = spaced (tputRows fl x) := by
  have hhead : "    Throughput:  ".toList
      = "    ".toList ++ ("Throughput:".toList ++ "  ".toList) := rfl
  have hlast : " ops/sec".toList = " ".toList ++ "ops/sec".toList := rfl
  unfold tputLine tputRows
  simp only [spaced, alignRight, List.leftpad, List.flatMap_cons, List.flatMap_nil,
    List.append_nil, List.append_assoc, hhead, hlast]

/-- The words of a line with latencies, after its first word. -/
def latencyRows (fl : Floats F) (op : String) (lat : Latency F) : List (Str × Str) :=
  [(List.replicate (6 - op.toList.length) ' ' ++ "  ".toList, "ops".toList),
    (" ".toList ++ List.replicate (6 - (decimal lat.ops).length) ' ', decimal lat.ops),
    ("  ".toList, "avg".toList),
    (" ".toList ++ List.replicate (9 - (fl.format 2 lat.avg).length) ' ', fl.format 2 lat.avg),
    ("  ".toList, "min".toList),
    (" ".toList ++ List.replicate (6 - (fl.format 0 lat.min).length) ' ', fl.format 0 lat.min),
    ("  ".toList, "max".toList),
    (" ".toList ++ List.replicate (6 - (fl.format 0 lat.max).length) ' ', fl.format 0 lat.max),
    ("  ".toList, "p99".toList),
    (" ".toList ++ List.replicate (6 - (fl.format 0 lat.p99).length) ' ', fl.format 0 lat.p99),
    ("  ".toList, "us".toList)]

/-- Its first words. -/
def opRows (first : Bool) (op : String) : List (Str × Str) :=
  if first then [("    ".toList, "Latency:".toList), ("    ".toList, op.toList)]
  else [("                ".toList, op.toList)]

lemma latencyLine_eq :
    latencyLine fl first op lat = spaced (opRows first op ++ latencyRows fl op lat) := by
  have hops : "  ops ".toList = "  ".toList ++ ("ops".toList ++ " ".toList) := rfl
  have havg : "  avg ".toList = "  ".toList ++ ("avg".toList ++ " ".toList) := rfl
  have hmin : "  min ".toList = "  ".toList ++ ("min".toList ++ " ".toList) := rfl
  have hmax : "  max ".toList = "  ".toList ++ ("max".toList ++ " ".toList) := rfl
  have hp99 : "  p99 ".toList = "  ".toList ++ ("p99".toList ++ " ".toList) := rfl
  have hlast : "  us".toList = "  ".toList ++ "us".toList := rfl
  have hfirst : "    Latency:".toList = "    ".toList ++ "Latency:".toList := rfl
  have hother : "                ".toList = "            ".toList ++ "    ".toList := rfl
  unfold latencyLine opRows latencyRows
  cases first <;>
    simp only [spaced, alignRight, alignLeft, List.leftpad, List.rightpad, if_true,
      Bool.false_eq_true, if_false, List.flatMap_cons, List.flatMap_nil, List.flatMap_append,
      List.append_nil, List.append_assoc, hops, havg, hmin, hmax, hp99, hlast, hfirst, hother]

/-- The letters in the words of the lines. -/
def tputLetters : List Char := "Throughput:ops/sec".toList

def latencyLetters : List Char := "Latency:INSERTUPDATEREADSCANopsavgminmaxp99us".toList

lemma field_tputRows {row : Str × Str} (hrow : row ∈ tputRows fl x) : Field tputLetters row := by
  simp only [tputRows, List.mem_cons, List.not_mem_nil, or_false] at hrow
  rcases hrow with rfl | rfl | rfl
  · exact .word (by decide) (by decide) (by decide) (by decide)
  · exact .number (by decide) (by decide) (fl.format_ne_nil 2 x) (fl.numChar 2 x)
  · exact .word (by decide) (by decide) (by decide) (by decide)

lemma letters_of_reportedOps (hop : op ∈ reportedOps) :
    op.toList ≠ [] ∧ ∀ c ∈ op.toList, c ∈ latencyLetters := by
  revert op
  decide

lemma field_opRows (hop : op ∈ reportedOps) {row : Str × Str} (hrow : row ∈ opRows first op) :
    Field latencyLetters row := by
  obtain ⟨hne, hletters⟩ := letters_of_reportedOps hop
  cases first with
  | true =>
      simp only [opRows, if_true, List.mem_cons, List.not_mem_nil, or_false] at hrow
      rcases hrow with rfl | rfl
      · exact .word (by decide) (by decide) (by decide) (by decide)
      · exact .word (by decide) (by decide) hne hletters
  | false =>
      simp only [opRows, Bool.false_eq_true, if_false, List.mem_cons, List.not_mem_nil, or_false]
        at hrow
      subst hrow
      exact .word (by decide) (by decide) hne hletters

lemma field_latencyRows {row : Str × Str} (hrow : row ∈ latencyRows fl op lat) :
    Field latencyLetters row := by
  have hnum : ∀ prec y, Field latencyLetters
      (" ".toList ++ List.replicate (6 - (fl.format prec y).length) ' ', fl.format prec y) :=
    fun prec y => .number (by decide) (by decide) (fl.format_ne_nil prec y) (fl.numChar prec y)
  simp only [latencyRows, List.mem_cons, List.not_mem_nil, or_false] at hrow
  rcases hrow with rfl | rfl | rfl | rfl | rfl | rfl | rfl | rfl | rfl | rfl | rfl
  · refine .word (fun c hc => ?_) (List.append_ne_nil_of_right_ne_nil _ (by decide)) (by decide)
      (by decide)
    rcases List.mem_append.mp hc with hc | hc
    · exact List.eq_of_mem_replicate hc
    · exact (show ∀ c ∈ "  ".toList, c = ' ' by decide) c hc
  · exact .number (by decide) (by decide) Nat.toDigits_ne_nil
      fun c hc => Or.inl (isDigit_of_mem_decimal hc)
  · exact .word (by decide) (by decide) (by decide) (by decide)
  · exact .number (by decide) (by decide) (fl.format_ne_nil 2 _) (fl.numChar 2 _)
  · exact .word (by decide) (by decide) (by decide) (by decide)
  · exact hnum 0 lat.min
  · exact .word (by decide) (by decide) (by decide) (by decide)
  · exact hnum 0 lat.max
  · exact .word (by decide) (by decide) (by decide) (by decide)
  · exact hnum 0 lat.p99
  · exact .word (by decide) (by decide) (by decide) (by decide)

/-- The words of the line with the throughput. -/
lemma fields_tputLine : fields (tputLine fl x)
    = ["Throughput:".toList, fl.format 2 x, "ops/sec".toList] := by
  rw [tputLine_eq, fields, words_spaced (spaced_of_fields (fun row => field_tputRows) (by decide))]
  rfl

/-- The words of a line with latencies. -/
lemma fields_latencyLine (hop : op ∈ reportedOps) : fields (latencyLine fl first op lat)
    = (if first then ["Latency:".toList] else []) ++ [op.toList, "ops".toList, decimal lat.ops,
      "avg".toList, fl.format 2 lat.avg, "min".toList, fl.format 0 lat.min, "max".toList,
      fl.format 0 lat.max, "p99".toList, fl.format 0 lat.p99, "us".toList] := by
  have hfields : ∀ row ∈ opRows first op ++ latencyRows fl op lat, Field latencyLetters row :=
    fun row hrow => (List.mem_append.mp hrow).elim (field_opRows hop) field_latencyRows
  rw [latencyLine_eq, fields, words_spaced (spaced_of_fields hfields (by decide))]
  cases first <;> rfl

/-- A line with latencies ends with their unit, after some words. -/
lemma exists_latencyLine_eq (fl : Floats F) (first : Bool) (op : String) (lat : Latency F) :
    ∃ l, latencyLine fl first op lat = l ++ "  us".toList ∧ 'o' ∈ l := by
  refine ⟨spaced (opRows first op ++ (latencyRows fl op lat).dropLast), ?_, ?_⟩
  · have hlast : latencyRows fl op lat
        = (latencyRows fl op lat).dropLast ++ [("  ".toList, "us".toList)] := rfl
    rw [latencyLine_eq, hlast, List.dropLast_concat, ← List.append_assoc, spaced_append]
    rfl
  · have hops : 'o' ∈ "ops".toList := by decide
    exact mem_spaced.mpr ⟨_, List.mem_append_right _ List.mem_cons_self, Or.inr hops⟩

/-! ### The characters of a line -/

lemma mem_tputLine (hc : c ∈ tputLine fl x) : c = ' ' ∨ c ∈ tputLetters ∨ NumChar c := by
  rw [tputLine_eq] at hc
  exact mem_of_fields (fun row => field_tputRows) hc

lemma mem_latencyLine (hop : op ∈ reportedOps) (hc : c ∈ latencyLine fl first op lat) :
    c = ' ' ∨ c ∈ latencyLetters ∨ NumChar c := by
  rw [latencyLine_eq] at hc
  exact mem_of_fields
    (fun row hrow => (List.mem_append.mp hrow).elim (field_opRows hop) field_latencyRows) hc

lemma mem_phaseLine (hc : c ∈ phaseLine fl colors phase x) :
    c ∈ phase ∨ c ∈ " []ms".toList ∨ EscapeChar c ∨ NumChar c := by
  unfold phaseLine at hc
  simp only [List.mem_append] at hc
  rcases hc with hc | hc | hc | hc | hc
  · exact Or.inr (Or.inl (by revert c; decide))
  · rcases mem_paint hc with hc | hc
    · rcases mem_alignLeft hc with hc | rfl
      · rcases List.mem_cons.mp hc with rfl | hc
        · exact Or.inr (Or.inl (by decide))
        · rcases List.mem_append.mp hc with hc | hc
          · exact Or.inl hc
          · rw [List.mem_singleton.mp hc]
            exact Or.inr (Or.inl (by decide))
      · exact Or.inr (Or.inl (by decide))
    · exact Or.inr (Or.inr (Or.inl hc))
  · exact Or.inr (Or.inl (by revert c; decide))
  · rcases mem_alignRight hc with hc | rfl
    · exact Or.inr (Or.inr (Or.inr (fl.numChar 0 x c hc)))
    · exact Or.inr (Or.inl (by decide))
  · exact Or.inr (Or.inl (by revert c; decide))

lemma mem_resultsLine (hworkload : workload ∈ validWorkloads)
    (hc : c ∈ resultsLine colors workload numClis) :
    c ∈ "Benchmarking results:  YCSB-abcdef clients".toList ∨ EscapeChar c ∨ NumChar c := by
  have hliteral : ∀ {lit : Str},
      (∀ d ∈ lit, d ∈ "Benchmarking results:  YCSB-abcdef clients".toList) → c ∈ lit →
        c ∈ "Benchmarking results:  YCSB-abcdef clients".toList ∨ EscapeChar c ∨ NumChar c :=
    fun hlit hc => Or.inl (hlit c hc)
  unfold resultsLine at hc
  simp only [List.mem_append] at hc
  rcases hc with hc | hc | hc | hc | hc
  · exact (mem_paint hc).elim (hliteral (by decide)) fun h => Or.inr (Or.inl h)
  · exact hliteral (by decide) hc
  · refine (mem_paint hc).elim (fun hc => ?_) fun h => Or.inr (Or.inl h)
    rcases List.mem_append.mp hc with hc | hc
    · exact hliteral (by decide) hc
    · rw [List.mem_singleton.mp hc]
      exact Or.inl ((by decide : ∀ w ∈ validWorkloads,
        w ∈ "Benchmarking results:  YCSB-abcdef clients".toList) workload hworkload)
  · exact hliteral (by decide) hc
  · refine (mem_paint hc).elim (fun hc => ?_) fun h => Or.inr (Or.inl h)
    rcases List.mem_append.mp hc with hc | hc
    · exact Or.inr (Or.inr (Or.inl (isDigit_of_mem_decimal hc)))
    · exact hliteral (by decide) hc

/-! ### What the loop prints -/

variable {st : Perf F} {order : List String} {ls : List Str} {line : Str}

lemma printOps_cons (h : st.printOps fl first (op :: order) = some ls) :
    ∃ lat rest, st.latency op = some lat ∧ st.printOps fl false order = some rest
      ∧ ls = latencyLine fl first op lat :: rest := by
  obtain ⟨lat, hlat, h⟩ := Option.bind_eq_some_iff.mp h
  obtain ⟨rest, hrest, h⟩ := Option.bind_eq_some_iff.mp h
  cases h
  exact ⟨lat, rest, hlat, hrest, rfl⟩

/-- Each line of the loop is about one of the operations. -/
lemma mem_printOps (h : st.printOps fl first order = some ls) (hline : line ∈ ls) :
    ∃ first op lat, op ∈ order ∧ line = latencyLine fl first op lat := by
  induction order generalizing first ls with
  | nil =>
      cases h
      cases hline
  | cons op order ih =>
      obtain ⟨lat, rest, -, hrest, rfl⟩ := printOps_cons h
      rcases List.mem_cons.mp hline with rfl | hline
      · exact ⟨first, op, lat, List.mem_cons_self, rfl⟩
      · obtain ⟨first', op', lat', hop, rfl⟩ := ih hrest hline
        exact ⟨first', op', lat', List.mem_cons_of_mem op hop, rfl⟩

/-- An operation that is printed has all its numbers. -/
lemma latency_isSome_of_printOps (h : st.printOps fl first order = some ls) (hop : op ∈ order) :
    (st.latency op).isSome = true := by
  induction order generalizing first ls with
  | nil => cases hop
  | cons op' order ih =>
      obtain ⟨lat, rest, hlat, hrest, -⟩ := printOps_cons h
      rcases List.mem_cons.mp hop with rfl | hop
      · rw [hlat]
        rfl
      · exact ih hrest hop

lemma print_eq_some (h : st.print fl colors phase order = some ls) :
    ∃ rest, st.printOps fl true order = some rest
      ∧ ls = phaseLine fl colors phase st.totalMs :: tputLine fl st.tputAll :: rest := by
  obtain ⟨rest, hrest, h⟩ := Option.bind_eq_some_iff.mp h
  cases h
  exact ⟨rest, hrest, rfl⟩

/-- There are latencies of an operation only if there is an average. -/
lemma mem_latAvg_of_latency (h : st.latency op = some lat) : op ∈ st.latAvg := by
  obtain ⟨ops, -, h⟩ := Option.bind_eq_some_iff.mp h
  obtain ⟨avg, havg, -⟩ := Option.bind_eq_some_iff.mp h
  rw [← AList.lookup_isSome, havg]
  rfl

end Lines

end Madkv.Bencher
