import Madkv.Library.Replies
import Madkv.Refcli.AcceptedLines
import Madkv.Refcli.Serving
import Madkv.Runner.Proc

/-!
The main loop of the reference client (`main` of `refcli`).

* `responseLines`: the lines that a response is written in.
* `Process`: where the loop is. `mainStep`: the next line read or written.
* `refcli`: the loop as a client program.
* `answer`: what it answers to a call, and the map it goes on with.
* `KvCall.Clean`, `KvResp.Clean`, `State.Clean`: the wire does not mistake the keys
  and values for something else. `answer_clean`: answers to clean calls are clean.
* `answers_writeResponse`: a clean response is read back, whatever follows it.
-/

namespace Madkv

open Words Refcli Runner Replies

namespace Refcli

/-- The lines that `write_response` writes, each by a `writeln!` of its own. -/
def responseLines : KvResp → List String
  | .put key found => ["PUT " ++ key ++ " " ++ (if found then "found" else "not_found")]
  | .swap key oldValue => ["SWAP " ++ key ++ " " ++ oldValue.getD "null"]
  | .get key value => ["GET " ++ key ++ " " ++ value.getD "null"]
  | .scan keyStart keyEnd entries =>
      ["SCAN " ++ keyStart ++ " " ++ keyEnd ++ " BEGIN"]
        ++ entries.map (fun (k, v) => "  " ++ k ++ " " ++ v) ++ ["SCAN END"]
  | .delete key found => ["DELETE " ++ key ++ " " ++ (if found then "found" else "not_found")]
  | .stop => ["STOP"]

/-- `writeln!` of a line. -/
def writeln (line : String) : Stream := ofText (line ++ "\n").toList

/-- Where the main loop is. -/
inductive Process where
  /-- waiting for a line, with the map of the loop -/
  | reads (state : State)
  /-- within `write_response`, with the lines still to be written; then the loop
  goes on with a map, or is left -/
  | writes (pending : List String) (next : Option State)
  /-- after `main` has returned, or a panic -/
  | exited

/-- What comes after a response: `to_stop` leaves the loop. -/
def afterResp (resp : KvResp) (state : State) : Option State :=
  if resp = .stop then none else some state

/-- The call read is handled: its response is to be written next. A panic ends the
process. -/
def handled (call : KvCall) (state : State) : Process :=
  match handleKvCall call state with
  | none => .exited
  | some (resp, state) => .writes (responseLines resp) (afterResp resp state)

/-- Read the next call or write the next line. The result is the process after it,
what is left of its input, and what it writes; it is `none` as long as there is no
call, and after the loop. -/
def mainStep (fuel : ℕ) : Process → Stream → Option (Process × Stream × Stream)
  | .reads state, stdin =>
      match readCall fuel ⟨stdin, []⟩ with
      | none => none
      | some (.error _, r) => some (.exited, r.stream, [])
      | some (.ok call, r) => some (handled call state, r.stream, [])
  | .writes (line :: pending) next, stdin => some (.writes pending next, stdin, writeln line)
  | .writes [] (some state), stdin => some (.reads state, stdin, [])
  | .writes [] none, stdin => some (.exited, stdin, [])
  | .exited, _ => none

/-- The reference client as a client program. At the end of its input it goes round in
`read_next_line`, which takes it for an empty line. -/
def program : Program Process where
  start := .reads ∅
  step p stdin p' stdin' out := ∃ fuel, mainStep fuel p stdin = some (p', stdin', out)
  stepEnd p stdin p' stdin' out := (∃ state, p = .reads state)
    ∧ (∀ fuel, mainStep fuel p stdin = none) ∧ p' = p ∧ stdin' = stdin ∧ out = []
  exited
    | .exited => true
    | _ => false

/-- The response to a call, and the map that the loop goes on with. -/
def answer (state : State) (call : KvCall) : Option (KvResp × Option State) :=
  (handleKvCall call state).map fun (resp, state) => (resp, afterResp resp state)

end Refcli

/-! ### Clean keys and values -/

/-- The value is not the marker of an absent one, and with its key not that of the
end of a listing. -/
structure CleanEntry (key value : String) : Prop where
  keyWord : Word isWhitespace key.toList
  valueWord : Word isWhitespace value.toList
  not_null : value ≠ "null"
  not_end : (key, value) ≠ ("SCAN", "END")

/-- The keys and values of a call that the wire does not mistake for anything else. -/
def KvCall.Clean : KvCall → Prop
  | .put key value => CleanEntry key value
  | .swap key value => CleanEntry key value
  | .get key => Word isWhitespace key.toList
  | .scan keyStart keyEnd => Word isWhitespace keyStart.toList ∧ Word isWhitespace keyEnd.toList
  | .delete key => Word isWhitespace key.toList
  | .stop => True

def KvResp.Clean : KvResp → Prop
  | .put key _ => Word isWhitespace key.toList
  | .swap key oldValue => Word isWhitespace key.toList ∧ ∀ v ∈ oldValue, CleanEntry key v
  | .get key value => Word isWhitespace key.toList ∧ ∀ v ∈ value, CleanEntry key v
  | .scan keyStart keyEnd entries =>
      Word isWhitespace keyStart.toList ∧ Word isWhitespace keyEnd.toList
        ∧ ∀ p ∈ entries, CleanEntry p.1 p.2
  | .delete key _ => Word isWhitespace key.toList
  | .stop => True

def Refcli.State.Clean (state : State) : Prop :=
  ∀ key value, state.get key = some value → CleanEntry key value

section Clean

variable {call : KvCall} {state state' : State} {resp : KvResp}

lemma KvCall.Clean.words (h : call.Clean) : ∀ s ∈ call.args, Word isWhitespace s.toList := by
  cases call with
  | put key value | swap key value => exact words_pair h.keyWord h.valueWord
  | scan keyStart keyEnd => exact words_pair h.1 h.2
  | get key | delete key => exact List.forall_mem_singleton.mpr h
  | stop => exact fun s hs => absurd hs List.not_mem_nil

lemma Refcli.State.clean_empty : State.Clean ∅ := by
  intro key value h
  rw [show State.get ∅ = KvMap.empty from State.toMap_empty] at h
  cases h

lemma Refcli.State.Clean.insert (h : state.Clean) {key value : String}
    (hentry : CleanEntry key value) : State.Clean (state.insert key value) := by
  intro k v hkv
  have hmap := congrFun (state.toMap_insert key value) k
  rw [State.toMap, hkv, Function.update_apply] at hmap
  split_ifs at hmap with heq
  · cases hmap
    exact heq ▸ hentry
  · exact h k v hmap.symm

lemma Refcli.State.Clean.remove (h : state.Clean) (key : String) :
    State.Clean (state.remove key) := by
  intro k v hkv
  have hmap := congrFun (state.toMap_remove key) k
  rw [State.toMap, hkv, Function.update_apply] at hmap
  split_ifs at hmap with heq
  exact h k v hmap.symm

/-- Clean calls are answered cleanly, and leave a clean map. -/
lemma handleKvCall_clean (hcall : call.Clean) (hstate : state.Clean)
    (h : handleKvCall call state = some (resp, state')) : resp.Clean ∧ state'.Clean := by
  cases call with
  | put key value =>
      cases h
      exact ⟨hcall.keyWord, hstate.insert hcall⟩
  | swap key value =>
      cases h
      exact ⟨⟨hcall.keyWord, fun v hv => hstate key v hv⟩, hstate.insert hcall⟩
  | get key =>
      cases h
      exact ⟨⟨hcall, fun v hv => hstate key v hv⟩, hstate⟩
  | scan keyStart keyEnd =>
      obtain ⟨entries, hrange, heq⟩ := Option.map_eq_some_iff.mp h
      cases heq
      refine ⟨⟨hcall.1, hcall.2, fun p hp => hstate p.1 p.2 ?_⟩, hstate⟩
      exact (((State.range_spec hrange).2 p.1 p.2).mp hp).2.2
  | delete key =>
      cases h
      exact ⟨hcall, hstate.remove key⟩
  | stop =>
      cases h
      exact ⟨trivial, hstate⟩

/-- The responses to clean calls are clean. -/
lemma replies_clean {calls : List KvCall} (hstate : state.Clean)
    (hcalls : ∀ call ∈ calls, call.Clean) :
    ∀ resp ∈ replies answer (some state) calls, resp.Clean := by
  induction calls generalizing state with
  | nil => simp
  | cons call calls ih =>
      have hrest := fun call' hcall' => hcalls call' (List.mem_cons_of_mem _ hcall')
      cases hanswer : answer state call with
      | none => simp [replies_cons_of_none hanswer]
      | some reply =>
          obtain ⟨resp, next⟩ := reply
          obtain ⟨⟨resp', state'⟩, hhandle, heq⟩ := Option.map_eq_some_iff.mp hanswer
          cases heq
          obtain ⟨hresp, hstate'⟩ :=
            handleKvCall_clean (hcalls call List.mem_cons_self) hstate hhandle
          rw [replies_cons hanswer, List.forall_mem_cons]
          refine ⟨hresp, ?_⟩
          rw [afterResp]
          split_ifs
          · simp
          · exact ih hstate' hrest

end Clean

/-! ### Written responses -/

section Written

variable {resp : KvResp} {form : List String} {keyStart keyEnd : String}
  {entries : List (String × String)}

lemma wholeLines_newline (s : String) : WholeLines (ofText (s ++ "\n").toList) := by
  rw [String.toList_append]
  exact wholeLines_line s.toList

lemma ofText_append (text text' : List Char) :
    ofText (text ++ text') = ofText text ++ ofText text' := by
  simp [ofText]

/-- The text of a response is that of its lines. -/
lemma flatMap_responseLines (resp : KvResp) :
    (responseLines resp).flatMap writeln = ofText (writeResponse resp).toList := by
  have hentries (entries : List (String × String)) :
      (entries.map (fun (k, v) => "  " ++ k ++ " " ++ v) ++ ["SCAN END"]).flatMap writeln =
        ofText (scanText entries) := by
    induction entries with
    | nil => rfl
    | cons p entries ih =>
        rw [scanText, ofText_append, ← ih]
        simp [writeln, ofText, lineOf, unwords]
  cases resp with
  | scan keyStart keyEnd entries =>
      rw [toList_writeResponse_scan, ofText_append, ← hentries, responseLines, List.append_assoc,
        List.flatMap_append]
      simp [writeln, ofText, lineOf, unwords]
  | put | swap | get | delete | stop => simp [responseLines, writeln, writeResponse]

lemma wholeLines_scanText (entries : List (String × String)) :
    WholeLines (ofText (scanText entries)) := by
  induction entries with
  | nil => exact wholeLines_line _
  | cons p entries ih =>
      rw [scanText, ofText_append]
      exact (wholeLines_line _).append ih

/-- A response is written in whole lines. -/
lemma wholeLines_writeResponse (resp : KvResp) :
    WholeLines (ofText (writeResponse resp).toList) := by
  cases resp with
  | scan keyStart keyEnd entries =>
      rw [toList_writeResponse_scan, ofText_append]
      exact (wholeLines_line _).append (wholeLines_scanText entries)
  | put | swap | get | delete => exact wholeLines_newline _
  | stop => exact wholeLines_line "STOP".toList

/-- A response of one line is read back. -/
lemma answers_oneLine (hform : HeadForm form (.resp resp))
    (hws : ∀ w ∈ form, Word isWhitespace w.toList) (hne : form ≠ [])
    (htext : (writeResponse resp).toList = lineOf [] form ++ ['\n']) (later : List Stream) :
    answers .head (liveLines (ofText (writeResponse resp).toList) ++ later)
      = some resp :: answers .head later := by
  have hline := liveLines_lineOf hws hne blank_nil (by simp) []
  rw [List.append_nil] at hline
  have hhead : headLine (ofText (lineOf [] form ++ ['\n'])) = some (.resp resp) :=
    headLine_eq_some_iff.mpr
      ⟨_, form, [], rfl, hform, by rw [getSegsOfLine_lineOf hws blank_nil, List.append_nil]⟩
  rw [htext, hline, List.cons_append, answers, hhead]
  rfl

lemma listLine_entry {key value : String} (h : CleanEntry key value) :
    listLine (ofText (lineOf [' ', ' '] [key, value] ++ ['\n'])) = some (some (key, value)) := by
  have hsegs := getSegsOfLine_lineOf (words_pair h.keyWord h.valueWord) blank_indent
  rw [listLine, decode_ofText, Option.bind_some, toOption_eq_some_iff, scanLine_entry_iff]
  refine ⟨fun hend => h.not_end ?_, [], hsegs⟩
  have htrim := getSegsOfLine_trim (lineOf [' ', ' '] [key, value] ++ ['\n'])
  rw [hend, hsegs] at htrim
  obtain ⟨hkey, hvalue⟩ := List.cons.inj htrim
  rw [← hkey, ← (List.cons.inj hvalue).1]
  rfl

/-- The rest of a listing is read back. -/
lemma answers_scanText (hentries : ∀ p ∈ entries, CleanEntry p.1 p.2)
    (before : List (String × String)) (later : List Stream) :
    answers (.listing keyStart keyEnd before) (liveLines (ofText (scanText entries)) ++ later)
      = some (.scan keyStart keyEnd (before ++ entries)) :: answers .head later := by
  induction entries generalizing before with
  | nil =>
      have hline := liveLines_lineOf words_end (by simp) blank_nil (by simp) []
      rw [List.append_nil] at hline
      rw [scanText, hline, List.append_nil]
      rfl
  | cons p entries ih =>
      obtain ⟨key, value⟩ := p
      have hentry := hentries (key, value) List.mem_cons_self
      have hpair := words_pair hentry.keyWord hentry.valueWord
      rw [scanText, ofText_append, liveLines_lineOf hpair (by simp) blank_indent (by simp),
        List.cons_append, answers, listLine_entry hentry]
      simp only
      rw [ih fun p hp => hentries p (List.mem_cons_of_mem _ hp), List.append_assoc,
        List.singleton_append]

/-- **A clean response is read back**, whatever lines follow it. -/
theorem answers_writeResponse (h : resp.Clean) (later : List Stream) :
    answers .head (liveLines (ofText (writeResponse resp).toList) ++ later)
      = some resp :: answers .head later := by
  have hword : ∀ {kw key : String} {value : String}, Word isWhitespace kw.toList →
      Word isWhitespace key.toList → Word isWhitespace value.toList →
      ∀ w ∈ [kw, key, value], Word isWhitespace w.toList :=
    fun hkw hkey hvalue => List.forall_mem_cons.mpr ⟨hkw, words_pair hkey hvalue⟩
  cases resp with
  | put key found =>
      exact answers_oneLine (.put key found) (hword (word_of_all rfl rfl) h (word_found found))
        (by simp) (by simp [writeResponse, lineOf, unwords]) later
  | delete key found =>
      exact answers_oneLine (.delete key found) (hword (word_of_all rfl rfl) h (word_found found))
        (by simp) (by simp [writeResponse, lineOf, unwords]) later
  | swap key oldValue =>
      have hvalue : Word isWhitespace (oldValue.getD "null").toList := by
        cases oldValue with
        | none => exact word_of_all rfl rfl
        | some v => exact (h.2 v rfl).valueWord
      have hform := HeadForm.swap key (oldValue.getD "null")
      rw [valueField_getD fun hnull => (h.2 "null" hnull).not_null rfl] at hform
      exact answers_oneLine hform (hword (word_of_all rfl rfl) h.1 hvalue) (by simp)
        (by simp [writeResponse, lineOf, unwords]) later
  | get key value =>
      have hvalue : Word isWhitespace (value.getD "null").toList := by
        cases value with
        | none => exact word_of_all rfl rfl
        | some v => exact (h.2 v rfl).valueWord
      have hform := HeadForm.get key (value.getD "null")
      rw [valueField_getD fun hnull => (h.2 "null" hnull).not_null rfl] at hform
      exact answers_oneLine hform (hword (word_of_all rfl rfl) h.1 hvalue) (by simp)
        (by simp [writeResponse, lineOf, unwords]) later
  | scan keyStart keyEnd entries =>
      have hws : ∀ w ∈ ["SCAN", keyStart, keyEnd, "BEGIN"], Word isWhitespace w.toList :=
        List.forall_mem_cons.mpr ⟨word_of_all rfl rfl,
          hword h.1 h.2.1 (word_of_all rfl rfl)⟩
      have hhead : headLine (ofText (lineOf [] ["SCAN", keyStart, keyEnd, "BEGIN"] ++ ['\n'])) =
          some (.scan keyStart keyEnd) :=
        headLine_eq_some_iff.mpr ⟨_, _, [], rfl, .scan keyStart keyEnd,
          by rw [getSegsOfLine_lineOf hws blank_nil, List.append_nil]⟩
      rw [toList_writeResponse_scan, ofText_append,
        liveLines_lineOf hws (by simp) blank_nil (by simp), List.cons_append, answers, hhead]
      exact answers_scanText h.2.2 [] later
  | stop =>
      exact answers_oneLine .stop (List.forall_mem_singleton.mpr (word_of_all rfl rfl)) (by simp)
        rfl later

lemma writeResponses_append (resps resps' : List KvResp) :
    writeResponses (resps ++ resps') = writeResponses resps ++ writeResponses resps' := by
  simp [writeResponses]

/-- Clean responses are read back in their order. -/
theorem answers_writeResponses {resps : List KvResp} (h : ∀ resp ∈ resps, resp.Clean) :
    answers .head (liveLines (writeResponses resps)) = resps.map some := by
  induction resps with
  | nil => rfl
  | cons resp resps ih =>
      have htext : writeResponses (resp :: resps) =
          ofText (writeResponse resp).toList ++ writeResponses resps := rfl
      rw [htext, liveLines_append (wholeLines_writeResponse resp),
        answers_writeResponse (h resp List.mem_cons_self),
        ih fun resp' hresp' => h resp' (List.mem_cons_of_mem _ hresp'), List.map_cons]

end Written

end Madkv
