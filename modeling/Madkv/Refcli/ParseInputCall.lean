import Madkv.Library.Fallible
import Madkv.Refcli.WriteResponse
import Madkv.Runner.Lines

/-!
Reading the calls that the runner writes (`into_write` of `ioapi.rs`, and
`parse_input_call` and the read loop of `main` of `refcli`).

* `parseInputCall`: a line as a call. `parseInputCall_eq_ok_iff`: it is one if it
  begins with the segments of the call (`KvCall.form`).
* `readCall`: the next call from the standard input.
* `Survives`: the call is written as one line that is parsed back to it.
  `survives_iff`: this takes keys and values that are words.
* `ReadLoop`: the calls read until a Stop, and what each takes off the stream.
* `readLoop_writeCalls`: the calls written are read back, each from its line.
-/

namespace Madkv

open Loop Words Fallible

namespace Refcli

/-- The errors that the reference client reports on its input. -/
inductive IoError where
  | invalidInput (msg : String)
  | invalidData (msg : String)
  deriving DecidableEq

/-- The error for a line that is no call. -/
def invalidInputLine (line : List Char) : IoError :=
  .invalidInput ("invalid input line: " ++ String.ofList line)

/-- Get the next segment from an input line iterator. -/
def expectNextSeg (segs : List String) (line : List Char) :
    Except IoError (String × List String) :=
  match segs with
  | seg :: segs => .ok (seg, segs)
  | [] => .error (invalidInputLine line)

/-- Parse an input line into a KV operation call. -/
def parseInputCall (line : List Char) : Except IoError KvCall :=
  match getSegsOfLine line with
  | "PUT" :: segs => do
      let (key, segs) ← expectNextSeg segs line
      let (value, _) ← expectNextSeg segs line
      .ok (.put key value)
  | "SWAP" :: segs => do
      let (key, segs) ← expectNextSeg segs line
      let (value, _) ← expectNextSeg segs line
      .ok (.swap key value)
  | "GET" :: segs => do
      let (key, _) ← expectNextSeg segs line
      .ok (.get key)
  | "SCAN" :: segs => do
      let (keyStart, segs) ← expectNextSeg segs line
      let (keyEnd, _) ← expectNextSeg segs line
      .ok (.scan keyStart keyEnd)
  | "DELETE" :: segs => do
      let (key, _) ← expectNextSeg segs line
      .ok (.delete key)
  | "STOP" :: _ => .ok .stop
  | _ => .error (invalidInputLine line)

/-- The next call from the standard input. Empty lines are skipped, by the same
loop as in `read_next_line`. -/
def readCall (fuel : ℕ) (r : Reader) : Option (Except IoError KvCall × Reader) :=
  match readNextLine fuel r with
  | none => none
  | some (.error _, r) => some (.error (.invalidData "stream did not contain valid UTF-8"), r)
  | some (.ok _, r) => some (parseInputCall (trim isWhitespace r.buffer), r)

end Refcli

open Refcli

/-- The keys and values of a call. -/
def KvCall.args : KvCall → List String
  | .put key value => [key, value]
  | .swap key value => [key, value]
  | .get key => [key]
  | .scan keyStart keyEnd => [keyStart, keyEnd]
  | .delete key => [key]
  | .stop => []

def KvCall.keyword : KvCall → String
  | .put _ _ => "PUT"
  | .swap _ _ => "SWAP"
  | .get _ => "GET"
  | .scan _ _ => "SCAN"
  | .delete _ => "DELETE"
  | .stop => "STOP"

/-- The segments of the line of a call. -/
def KvCall.form (call : KvCall) : List String := call.keyword :: call.args

/-- The call is written as one line, and this line is parsed back to it. -/
def Survives (call : KvCall) : Prop :=
  ∃ line, '\n' ∉ line ∧ call.intoWrite.toList = line ++ ['\n']
    ∧ parseInputCall (trim isWhitespace (line ++ ['\n'])) = .ok call

/-- How the read loop comes to an end. -/
inductive ReadEnd where
  | stopped
  | waits
  | fails (e : IoError)

/-- The calls that the read loop gives, each with what it takes off the stream. -/
inductive ReadLoop : Reader → List (KvCall × Stream) → ReadEnd → Prop
  | waits {r : Reader} (h : ∀ fuel, readCall fuel r = none) : ReadLoop r [] .waits
  | fails {r r' : Reader} {fuel : ℕ} {e : IoError} (h : readCall fuel r = some (.error e, r')) :
      ReadLoop r [] (.fails e)
  | stop {r r' : Reader} {fuel : ℕ} {taken : Stream} (h : readCall fuel r = some (.ok .stop, r'))
      (htaken : r.stream = taken ++ r'.stream) : ReadLoop r [(.stop, taken)] .stopped
  | call {r r' : Reader} {fuel : ℕ} {call : KvCall} {taken : Stream}
      {calls : List (KvCall × Stream)} {e : ReadEnd} (h : readCall fuel r = some (.ok call, r'))
      (hcall : call ≠ .stop) (htaken : r.stream = taken ++ r'.stream)
      (hrest : ReadLoop r' calls e) :
      ReadLoop r ((call, taken) :: calls) e

/-- The calls up to and with the first Stop. -/
def upToStop : List KvCall → List KvCall
  | [] => []
  | .stop :: _ => [.stop]
  | call :: calls => call :: upToStop calls

/-- Calls written one after another. -/
def writeCalls (calls : List KvCall) : Stream :=
  calls.flatMap fun call => ofText call.intoWrite.toList

section Calls

variable {call : KvCall} {line : List Char} {segs rest : List String} {s : String}

lemma nextSeg_eq_ok : Refcli.expectNextSeg segs line = .ok (s, rest) ↔ segs = s :: rest := by
  cases segs with
  | nil => simp [Refcli.expectNextSeg]
  | cons t segs => simp [Refcli.expectNextSeg]

/-- A call of one segment after its keyword. -/
lemma oneSeg_eq_ok {g : String → KvCall} :
    (do
      let (a, _) ← Refcli.expectNextSeg segs line
      .ok (g a)) = .ok call ↔ ∃ a extra, segs = a :: extra ∧ call = g a := by
  constructor
  · intro h
    obtain ⟨⟨a, extra⟩, ha, h⟩ := bind_eq_ok.mp h
    exact ⟨a, extra, nextSeg_eq_ok.mp ha, (Except.ok.inj h).symm⟩
  · rintro ⟨a, extra, rfl, rfl⟩
    rfl

/-- A call of two segments after its keyword. -/
lemma twoSegs_eq_ok {g : String → String → KvCall} :
    (do
      let (a, segs) ← Refcli.expectNextSeg segs line
      let (b, _) ← Refcli.expectNextSeg segs line
      .ok (g a b)) = .ok call ↔ ∃ a b extra, segs = a :: b :: extra ∧ call = g a b := by
  constructor
  · intro h
    obtain ⟨⟨a, segs₁⟩, ha, h⟩ := bind_eq_ok.mp h
    obtain ⟨⟨b, extra⟩, hb, h⟩ := bind_eq_ok.mp h
    rw [nextSeg_eq_ok] at ha hb
    exact ⟨a, b, extra, by rw [ha, hb], (Except.ok.inj h).symm⟩
  · rintro ⟨a, b, extra, rfl, rfl⟩
    rfl

/-- A line is a call if it begins with the segments of it. -/
theorem parseInputCall_eq_ok_iff :
    parseInputCall line = .ok call ↔ ∃ extra, getSegsOfLine line = call.form ++ extra := by
  constructor
  · intro h
    rw [parseInputCall] at h
    split at h
    · rename_i segs hsegs
      obtain ⟨key, value, extra, rfl, rfl⟩ := (twoSegs_eq_ok (g := .put)).mp h
      exact ⟨extra, hsegs⟩
    · rename_i segs hsegs
      obtain ⟨key, value, extra, rfl, rfl⟩ := (twoSegs_eq_ok (g := .swap)).mp h
      exact ⟨extra, hsegs⟩
    · rename_i segs hsegs
      obtain ⟨key, extra, rfl, rfl⟩ := (oneSeg_eq_ok (g := .get)).mp h
      exact ⟨extra, hsegs⟩
    · rename_i segs hsegs
      obtain ⟨keyStart, keyEnd, extra, rfl, rfl⟩ := (twoSegs_eq_ok (g := .scan)).mp h
      exact ⟨extra, hsegs⟩
    · rename_i segs hsegs
      obtain ⟨key, extra, rfl, rfl⟩ := (oneSeg_eq_ok (g := .delete)).mp h
      exact ⟨extra, hsegs⟩
    · rename_i segs hsegs
      cases h
      exact ⟨segs, hsegs⟩
    · cases h
  · rintro ⟨extra, hsegs⟩
    rw [parseInputCall, hsegs]
    cases call <;> rfl

lemma intoWrite_eq (call : KvCall) : call.intoWrite.toList = lineOf [] call.form ++ ['\n'] := by
  cases call <;> simp [KvCall.intoWrite, KvCall.form, KvCall.keyword, KvCall.args, lineOf, unwords]

lemma word_keyword (call : KvCall) : Word isWhitespace call.keyword.toList := by
  cases call <;> (rw [KvCall.keyword]; exact word_of_all rfl rfl)

lemma words_form (h : ∀ s ∈ call.args, Word isWhitespace s.toList) :
    ∀ s ∈ call.form, Word isWhitespace s.toList :=
  List.forall_mem_cons.mpr ⟨word_keyword call, h⟩

/-- Trimming a line first changes nothing of what it is parsed as. -/
lemma getSegsOfLine_trim (line : List Char) :
    getSegsOfLine (trim isWhitespace line) = getSegsOfLine line := by
  rw [getSegsOfLine, words_trim, getSegsOfLine]

lemma parseInputCall_lineOf (h : ∀ s ∈ call.args, Word isWhitespace s.toList) :
    parseInputCall (trim isWhitespace (lineOf [] call.form ++ ['\n'])) = .ok call := by
  refine parseInputCall_eq_ok_iff.mpr ⟨[], ?_⟩
  rw [getSegsOfLine_trim, getSegsOfLine_lineOf (words_form h) blank_nil, List.append_nil]

lemma newline_notMem_lineOf (h : ∀ s ∈ call.args, Word isWhitespace s.toList) :
    '\n' ∉ lineOf [] call.form :=
  newline_notMem_unwords (words_toList (words_form h))

lemma word_of_mem_segs (h : s ∈ getSegsOfLine line) : Word isWhitespace s.toList := by
  obtain ⟨w, hw, rfl⟩ := List.mem_map.mp h
  rw [String.toList_ofList]
  exact word_of_mem_words hw

/-- A call survives the wire if its keys and values are words, and only then. -/
theorem survives_iff : Survives call ↔ ∀ s ∈ call.args, Word isWhitespace s.toList := by
  constructor
  · rintro ⟨line, -, -, hparse⟩ s hs
    obtain ⟨extra, hsegs⟩ := parseInputCall_eq_ok_iff.mp hparse
    have hmem : s ∈ call.form ++ extra := List.mem_append_left _ (List.mem_cons_of_mem _ hs)
    exact word_of_mem_segs (hsegs ▸ hmem)
  · intro h
    exact ⟨lineOf [] call.form, newline_notMem_lineOf h, intoWrite_eq call, parseInputCall_lineOf h⟩

/-- The call written next is the one read next. -/
lemma exists_readCall (h : ∀ s ∈ call.args, Word isWhitespace s.toList) (rest : Stream)
    (buffer : List Char) : ∃ r', readCall 1 ⟨ofText call.intoWrite.toList ++ rest, buffer⟩
      = some (.ok call, r') ∧ r'.stream = rest := by
  obtain ⟨size, hread⟩ := readNextLine_lineOf (words_form h) blank_nil (by simp)
    (List.cons_ne_nil _ _) rest buffer 0
  refine ⟨⟨rest, lineOf [] call.form ++ ['\n']⟩, ?_, rfl⟩
  rw [intoWrite_eq, readCall, hread]
  simp only [parseInputCall_lineOf h]

lemma readCall_nil (fuel : ℕ) (buffer : List Char) : readCall fuel ⟨[], buffer⟩ = none := by
  rw [readCall, readNextLine_eq_none rfl]

end Calls

lemma upToStop_cons {call : KvCall} {calls : List KvCall} (h : call ≠ .stop) :
    upToStop (call :: calls) = call :: upToStop calls := by
  cases call with
  | stop => exact absurd rfl h
  | put | swap | get | scan | delete => rfl

/-- **The round trip of calls**: of a sequence of calls written one after another,
those up to the first Stop are read back, each from its line. -/
theorem readLoop_writeCalls (calls : List KvCall) (buffer : List Char)
    (hwords : ∀ call ∈ calls, ∀ s ∈ call.args, Word isWhitespace s.toList) :
    ReadLoop ⟨writeCalls calls, buffer⟩
        ((upToStop calls).map fun call => (call, ofText call.intoWrite.toList))
        (if KvCall.stop ∈ calls then .stopped else .waits)
      ∧ ∀ call ∈ calls, ∃ line, '\n' ∉ line ∧ call.intoWrite.toList = line ++ ['\n'] := by
  have hlines : ∀ call ∈ calls, ∃ line, '\n' ∉ line ∧ call.intoWrite.toList = line ++ ['\n'] :=
    fun call hcall => ⟨_, newline_notMem_lineOf (hwords call hcall), intoWrite_eq call⟩
  refine ⟨?_, hlines⟩
  clear hlines
  induction calls generalizing buffer with
  | nil => exact .waits fun fuel => readCall_nil fuel buffer
  | cons call calls ih =>
      obtain ⟨⟨stream, buffer'⟩, hread, rfl⟩ :=
        exists_readCall (hwords call List.mem_cons_self) (writeCalls calls) buffer
      by_cases hstop : call = .stop
      · subst hstop
        rw [if_pos List.mem_cons_self]
        exact .stop hread rfl
      · have hmem : KvCall.stop ∈ call :: calls ↔ KvCall.stop ∈ calls := by simp [Ne.symm hstop]
        rw [upToStop_cons hstop, List.map_cons, if_congr hmem rfl rfl]
        exact .call hread hstop rfl
          (ih buffer' fun call hcall => hwords call (List.mem_cons_of_mem _ hcall))

/-- Keywords of the protocol are keys and values like any others. -/
theorem readLoop_writeCalls_keywords :
    ReadLoop ⟨writeCalls [.put "PUT" "STOP", .stop, .get "null"], []⟩
        ((upToStop [.put "PUT" "STOP", .stop, .get "null"]).map fun call =>
          (call, ofText call.intoWrite.toList))
        (if KvCall.stop ∈ [.put "PUT" "STOP", .stop, .get "null"] then .stopped else .waits)
      ∧ ∀ call ∈ [KvCall.put "PUT" "STOP", .stop, .get "null"],
        ∃ line, '\n' ∉ line ∧ call.intoWrite.toList = line ++ ['\n'] := by
  refine readLoop_writeCalls [.put "PUT" "STOP", .stop, .get "null"] [] ?_
  have hput : ∀ s ∈ ["PUT", "STOP"], Word isWhitespace s.toList :=
    words_pair (word_of_all rfl rfl) (word_of_all rfl rfl)
  have hget : ∀ s ∈ ["null"], Word isWhitespace s.toList :=
    List.forall_mem_singleton.mpr (word_of_all rfl rfl)
  intro call hcall
  simp only [List.mem_cons, List.not_mem_nil, or_false] at hcall
  rcases hcall with rfl | rfl | rfl
  · exact hput
  · exact fun s hs => absurd hs List.not_mem_nil
  · exact hget

end Madkv
