import Madkv.Fuzzer.Outcome
import Madkv.Fuzzer.ReferenceClient
import Madkv.Sumgen.BenchReport

/-!
The log of a fuzz testing round, and what the report generator reads in it
(`parse_fuzz_result` of `sumgen`).

* `removeEscapes`: a text without the escape sequences of terminals. The colours of a text
  are removed from it (`removeEscapes_paint`).
* `parseFuzzResult`: the word for the result.
* `fuzz_report`: the word says how the run of the fuzz testing loop has ended.
-/

namespace Madkv.Sumgen

open Decimals Fallible Python Words

/-! ### Escape sequences -/

/-- `[@-Z\\-_]` -/
def isShort (c : Char) : Bool :=
  decide (0x40 ≤ c.toNat ∧ c.toNat ≤ 0x5A) || decide (0x5C ≤ c.toNat ∧ c.toNat ≤ 0x5F)

/-- `[0-?]` -/
def isParameter (c : Char) : Bool := decide (0x30 ≤ c.toNat ∧ c.toNat ≤ 0x3F)

/-- the class from the blank to the slash -/
def isIntermediate (c : Char) : Bool := decide (0x20 ≤ c.toNat ∧ c.toNat ≤ 0x2F)

/-- `[@-~]` -/
def isFinal (c : Char) : Bool := decide (0x40 ≤ c.toNat ∧ c.toNat ≤ 0x7E)

/-- What comes after an escape sequence, given what comes after its first character. -/
def afterEscape : Str → Option Str
  | [] => none
  | c :: s =>
      if isShort c then some s
      else if c = '[' then
        match (s.dropWhile isParameter).dropWhile isIntermediate with
        | d :: rest => if isFinal d then some rest else none
        | [] => none
      else none

lemma afterEscape_length {s rest : Str} (h : afterEscape s = some rest) :
    rest.length < s.length := by
  cases s with
  | nil => cases h
  | cons c s =>
      rw [afterEscape] at h
      split_ifs at h
      · cases h
        exact Nat.lt_succ_self _
      · have hle : ((s.dropWhile isParameter).dropWhile isIntermediate).length ≤ s.length :=
          ((List.dropWhile_sublist _).trans (List.dropWhile_sublist _)).length_le
        split at h
        · rename_i d rest' heq
          split_ifs at h
          cases h
          rw [heq, List.length_cons] at hle
          rw [List.length_cons]
          omega
        · cases h

/-- `ANSI_ESCAPE_RE.sub("", s)` -/
def removeEscapes : Str → Str
  | [] => []
  | c :: s =>
      if c = esc then
        match _h : afterEscape s with
        | some rest => removeEscapes rest
        | none => c :: removeEscapes s
      else c :: removeEscapes s
termination_by s => s.length
decreasing_by
  · exact (afterEscape_length _h).trans (Nat.lt_succ_self _)
  · exact Nat.lt_succ_self _
  · exact Nat.lt_succ_self _

section Escapes

variable {s x text params : Str} {codes : List Str} {colors : Colors} {tags : List Tag} {c : Char}

lemma isParameter_of_isDigit (h : c.isDigit = true) : isParameter c = true := by
  simp only [Char.isDigit, Bool.and_eq_true, decide_eq_true_eq, ge_iff_le,
    UInt32.le_iff_toNat_le] at h
  have hrange : 48 ≤ c.toNat ∧ c.toNat ≤ 57 := h
  exact decide_eq_true ⟨hrange.1, by omega⟩

lemma isParameter_of_code (h : c.isDigit = true ∨ c = ';') : isParameter c = true := by
  rcases h with h | rfl
  · exact isParameter_of_isDigit h
  · decide

/-- The sequence for a colour is removed. -/
lemma removeEscapes_escape (hparams : ∀ c ∈ params, c.isDigit = true ∨ c = ';') (s : Str) :
    removeEscapes (escape params ++ s) = removeEscapes s := by
  have hafter : afterEscape ('[' :: (params ++ ['m']) ++ s) = some s := by
    have hshort : isShort '[' = false := by decide
    have hdrop : (params ++ ['m'] ++ s).dropWhile isParameter = 'm' :: s := by
      rw [List.append_assoc, List.dropWhile_append_of_pos fun c hc =>
        isParameter_of_code (hparams c hc)]
      rfl
    have hinter : ('m' :: s).dropWhile isIntermediate = 'm' :: s := rfl
    have hfinal : isFinal 'm' = true := by decide
    rw [List.cons_append, afterEscape, hshort, hdrop, hinter]
    simp [hfinal]
  rw [escape, List.cons_append, removeEscapes, if_pos rfl]
  split
  · rename_i rest hrest
    rw [hafter] at hrest
    rw [Option.some.inj hrest]
  · rename_i hrest
    rw [hafter] at hrest
    cases hrest

lemma removeEscapes_flatMap (hcodes : ∀ params ∈ codes, ∀ c ∈ params, c.isDigit = true ∨ c = ';')
    (s : Str) : removeEscapes (codes.flatMap escape ++ s) = removeEscapes s := by
  induction codes with
  | nil => rfl
  | cons params codes ih =>
      rw [List.flatMap_cons, List.append_assoc,
        removeEscapes_escape (hcodes params List.mem_cons_self),
        ih fun p hp => hcodes p (List.mem_cons_of_mem params hp)]

/-- A text without escape sequences is kept. -/
lemma removeEscapes_append (h : esc ∉ x) : removeEscapes (x ++ s) = x ++ removeEscapes s := by
  induction x with
  | nil => rfl
  | cons c x ih =>
      rw [List.mem_cons, not_or] at h
      rw [List.cons_append, removeEscapes, if_neg (Ne.symm h.1), ih h.2, List.cons_append]

/-- **The colours of a text** are removed from it. -/
lemma removeEscapes_paint (h : esc ∉ text) : removeEscapes (colors.paint tags text) = text := by
  obtain ⟨opening, closing, hparams, heq⟩ := colors.codes tags text
  have hclosing : removeEscapes (closing.flatMap escape) = [] := by
    rw [← List.append_nil (closing.flatMap escape), removeEscapes_flatMap fun p hp =>
      hparams p (List.mem_append_right opening hp), removeEscapes]
  rw [heq, removeEscapes_flatMap fun p hp => hparams p (List.mem_append_left closing hp),
    removeEscapes_append h, hclosing, List.append_nil]

end Escapes

/-! ### The log -/

/-- The outcome in a log. -/
def parseFuzzResult (path : String) (log : Str) : Except ReportError Str :=
  match (fileLines log).find? fun line => isIn "Fuzz testing result:".toList (strip line) with
  | some line =>
      match Python.index (fields (strip line)) (-1) with
      | .ok word => .ok (removeEscapes word)
      | .error e => .error (.raised e)
  | none => .error (.runtimeError ("cannot find fuzzing outcome in '" ++ path ++ "'"))

/-- The outcome is not in what is printed before it. -/
def NoOutcome (before : Str) : Prop :=
  ∀ line ∈ fileLines before, isIn "Fuzz testing result:".toList line = false

section Logs

variable {colors : Colors} {stats : Stats} {v : Verdict} {before line : Str} {path : String}

lemma isIn_outcome (line : Str) : isIn "Fuzz testing result:".toList (strip line)
    = isIn "Fuzz testing result:".toList line :=
  isIn_strip (a := 'F') (b := ':') (by decide) (by decide) (by decide) (by decide)

lemma word_mem (v : Verdict) : v.word ∈ ["UNFAIR", "PASSED", "FAILED"] := by
  cases v <;> simp [Verdict.word]

/-- The word for a result is coloured, and has nothing else around it. -/
lemma word_paint (v : Verdict) : Word isSpace (colors.paint [v.tag] v.word.toList) := by
  refine ⟨fun hnil => ?_, fun c hc => ?_⟩
  · have hword : v.word.toList = [] := List.infix_nil.mp (hnil ▸ infix_paint colors [v.tag] _)
    exact (show ∀ w ∈ ["UNFAIR", "PASSED", "FAILED"], w.toList ≠ [] by decide) v.word (word_mem v)
      hword
  · rcases mem_paint hc with hc | rfl | rfl | hc | rfl | rfl
    · exact (show ∀ w ∈ ["UNFAIR", "PASSED", "FAILED"], ∀ c ∈ w.toList, isSpace c = false by decide)
        v.word (word_mem v) c hc
    · rfl
    · rfl
    · exact isSpace_of_isDigit hc
    · rfl
    · rfl

/-- The last word of the line with the result. -/
lemma fields_resultLine (colors : Colors) (v : Verdict) :
    ∃ ws, fields (strip (v.resultLine colors ++ ['\n']))
      = ws ++ [colors.paint [v.tag] v.word.toList] := by
  have hsplit : v.resultLine colors = colors.paint [.s, .yellow] "Fuzz testing result:".toList
      ++ ' ' :: colors.paint [v.tag] v.word.toList := rfl
  refine ⟨words isSpace (colors.paint [.s, .yellow] "Fuzz testing result:".toList), ?_⟩
  rw [fields_strip, fields_newline, fields, hsplit, words_append_cons _ _ rfl,
    words_word (word_paint v)]

lemma isIn_resultLine (v : Verdict) :
    isIn "Fuzz testing result:".toList (v.resultLine colors ++ ['\n']) = true := by
  rw [Verdict.resultLine, List.append_assoc]
  exact decide_eq_true ((infix_paint ..).trans (List.prefix_append _ _).isInfix)

/-- The statistics do not look like the result. -/
lemma isIn_stats (hline : line ∈ stats.print) :
    isIn "Fuzz testing result:".toList (line ++ ['\n']) = false := by
  refine isIn_eq_false (c := 'z') (by decide) fun hz => ?_
  rcases List.mem_append.mp hz with hz | hz
  · rcases statsChar_of_print hline hz with hz | hz <;> exact absurd hz (by decide)
  · exact absurd hz (by decide)

lemma oneLine_stats (hline : line ∈ stats.print) : OneLine line := by
  refine oneLine_of_forall (fun c => statsChar_of_print hline) ?_ ?_
  · rintro (h | h) <;> exact absurd h (by decide)
  · rintro (h | h) <;> exact absurd h (by decide)

lemma oneLine_escapeChar {c : Char} (h : EscapeChar c) : c ≠ '\r' ∧ c ≠ '\n' := by
  refine ⟨?_, ?_⟩
  · rintro rfl
    exact absurd h (by decide)
  · rintro rfl
    exact absurd h (by decide)

lemma oneLine_paint {tags : List Tag} {text : Str} (h : OneLine text) :
    OneLine (colors.paint tags text) := fun c hc =>
  (mem_paint hc).elim (h c) oneLine_escapeChar

lemma oneLine_decimal (n : ℕ) : OneLine (decimal n) := fun _ hc =>
  oneLine_escapeChar (.inr (.inr (.inl (isDigit_of_mem_decimal hc))))

lemma oneLine_result (hline : line ∈ v.print colors) : OneLine line := by
  have hword : OneLine v.word.toList :=
    (show ∀ w ∈ ["UNFAIR", "PASSED", "FAILED"], OneLine w.toList by decide) v.word (word_mem v)
  rw [Verdict.print, List.mem_cons, List.mem_singleton] at hline
  rcases hline with rfl | rfl
  · exact (oneLine_paint (by decide)).append (.append (by decide) (oneLine_paint hword))
  · have hqueued : OneLine "  Remaining checks queued:  ".toList := by decide
    cases v with
    | unfair n =>
        exact hqueued.append ((oneLine_decimal n).append (.append (by decide)
          (oneLine_paint (by decide))))
    | passed n => exact hqueued.append ((oneLine_decimal n).append (by decide))
    | failed => exact (show OneLine "  Some check failed explicitly :-(".toList by decide)

/-- A log that does not come to the result is not read. -/
lemma parseFuzz_before (h : NoOutcome before) : parseFuzzResult path before
    = .error (.runtimeError ("cannot find fuzzing outcome in '" ++ path ++ "'")) := by
  have hfind : (fileLines before).find? (fun line =>
      isIn "Fuzz testing result:".toList (strip line)) = none := by
    refine List.find?_eq_none.mpr fun line hline => ?_
    rw [isIn_outcome, h line hline]
    exact Bool.false_ne_true
  rw [parseFuzzResult, hfind]

/-- **The word for the result** is read. -/
lemma parseFuzz_print (hends : EndsLine before) (h : NoOutcome before) :
    parseFuzzResult path (before ++ printed (stats.print ++ v.print colors))
      = .ok v.word.toList := by
  have hone : ∀ line ∈ stats.print ++ v.print colors, OneLine line := fun line hline =>
    (List.mem_append.mp hline).elim oneLine_stats oneLine_result
  have hfind : (fileLines (before ++ printed (stats.print ++ v.print colors))).find? (fun line =>
      isIn "Fuzz testing result:".toList (strip line)) = some (v.resultLine colors ++ ['\n']) := by
    rw [fileLines_append hends, fileLines_printed hone, List.map_append, List.find?_append,
      List.find?_eq_none.mpr, Option.none_or, List.find?_append, List.find?_eq_none.mpr,
      Option.none_or]
    · exact List.find?_cons_of_pos ((isIn_outcome _).trans (isIn_resultLine v))
    · intro line hline
      obtain ⟨l, hl, rfl⟩ := List.mem_map.mp hline
      rw [isIn_outcome, isIn_stats hl]
      exact Bool.false_ne_true
    · intro line hline
      rw [isIn_outcome, h line hline]
      exact Bool.false_ne_true
  obtain ⟨ws, hws⟩ := fields_resultLine colors v
  rw [parseFuzzResult, hfind]
  simp only [hws, index_neg_one]
  rw [removeEscapes_paint]
  exact (show ∀ w ∈ ["UNFAIR", "PASSED", "FAILED"], esc ∉ w.toList by decide) v.word (word_mem v)

end Logs

end Madkv.Sumgen
