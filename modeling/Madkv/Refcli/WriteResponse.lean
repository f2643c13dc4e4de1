import Madkv.Runner.Ioapi

/-!
Writing a response (`write_response` of `refcli`) and reading it back.

* `writeResponse`: the text of a response.
* `KvResp.Plain`, `KvResp.Unmarked`: keys and values are non-empty alphanumeric
  strings, and none of them takes the place of a marker of the format, the value
  `null` or the entry `SCAN END`.
* `ReadsBack`: reading response after response off a stream gives them back,
  each taking the text written for it.
* `readsBack_of_unmarked`: what `write_response` writes is read back, markers
  aside; `exists_not_readsBack` shows both markers misread.
-/

namespace Madkv

open Loop Words

namespace Refcli

/-- Produce an output KV response line. -/
def writeResponse : KvResp → String
  | .put key found => "PUT " ++ key ++ " " ++ (if found then "found" else "not_found") ++ "\n"
  | .swap key oldValue => "SWAP " ++ key ++ " " ++ oldValue.getD "null" ++ "\n"
  | .get key value => "GET " ++ key ++ " " ++ value.getD "null" ++ "\n"
  | .scan keyStart keyEnd entries =>
      "SCAN " ++ keyStart ++ " " ++ keyEnd ++ " BEGIN\n"
        ++ entries.foldr (fun (k, v) text => "  " ++ k ++ " " ++ v ++ "\n" ++ text) "SCAN END\n"
  | .delete key found =>
      "DELETE " ++ key ++ " " ++ (if found then "found" else "not_found") ++ "\n"
  | .stop => "STOP\n"

/-- Responses written one after another. -/
def writeResponses (resps : List KvResp) : Stream :=
  resps.flatMap fun resp => ofText (writeResponse resp).toList

end Refcli

open Refcli

/-- A non-empty ASCII alphanumeric string. -/
structure Alphanumeric (s : String) : Prop where
  ne_nil : s.toList ≠ []
  alphanum : ∀ c ∈ s.toList, c.isAlphanum = true

/-- The keys and the values of a response are alphanumeric. -/
def KvResp.Plain : KvResp → Prop
  | .put key _ => Alphanumeric key
  | .swap key oldValue => Alphanumeric key ∧ ∀ v ∈ oldValue, Alphanumeric v
  | .get key value => Alphanumeric key ∧ ∀ v ∈ value, Alphanumeric v
  | .scan keyStart keyEnd entries =>
      Alphanumeric keyStart ∧ Alphanumeric keyEnd
        ∧ ∀ p ∈ entries, Alphanumeric p.1 ∧ Alphanumeric p.2
  | .delete key _ => Alphanumeric key
  | .stop => True

/-- No value is the marker of an absent one, no entry that of the end of a
listing. -/
def KvResp.Unmarked : KvResp → Prop
  | .swap _ oldValue => oldValue ≠ some "null"
  | .get _ value => value ≠ some "null"
  | .scan _ _ entries => ("SCAN", "END") ∉ entries
  | _ => True

/-- Reading response after response gives `resps`, each read taking the text
written for it off the stream. -/
def ReadsBack : List KvResp → Reader → Prop
  | [], r => r.stream = []
  | resp :: resps, r =>
      ∃ fuel r', fromRead fuel r = some (.ok resp, r') ∧ r'.stream = writeResponses resps
        ∧ ReadsBack resps r'

/-! ### Written lines -/

lemma isWhitespace_of_alphanum {c : Char} (h : c.isAlphanum = true) : isWhitespace c = false := by
  change (decide (c.val ≥ 65 ∧ c.val ≤ 90) || (decide (c.val ≥ 97) && decide (c.val ≤ 122))
    || (decide (c.val ≥ 48) && decide (c.val ≤ 57))) = true at h
  simp only [Bool.or_eq_true, Bool.and_eq_true, decide_eq_true_eq, ge_iff_le,
    UInt32.le_iff_toNat_le] at h
  change (65 ≤ c.toNat ∧ c.toNat ≤ 90 ∨ 97 ≤ c.toNat ∧ c.toNat ≤ 122)
    ∨ 48 ≤ c.toNat ∧ c.toNat ≤ 57 at h
  simp only [isWhitespace, Bool.or_eq_false_iff, decide_eq_false_iff_not, beq_eq_false_iff_ne]
  omega

lemma word_of_all {w : List Char} (hne : w.isEmpty = false)
    (hall : (w.all fun c => !isWhitespace c) = true) : Word isWhitespace w :=
  ⟨by simpa using hne, fun c hc => by simpa using List.all_eq_true.mp hall c hc⟩

lemma alphanumeric_of_all {s : String} (hne : s.toList.isEmpty = false)
    (hall : s.toList.all Char.isAlphanum = true) : Alphanumeric s :=
  ⟨by simpa using hne, List.all_eq_true.mp hall⟩

lemma Alphanumeric.word {s : String} (h : Alphanumeric s) : Word isWhitespace s.toList :=
  ⟨h.ne_nil, fun c hc => isWhitespace_of_alphanum (h.alphanum c hc)⟩

/-- A word has no newline. -/
lemma newline_notMem_unwords {ws : List (List Char)} (hws : ∀ w ∈ ws, Word isWhitespace w) :
    '\n' ∉ unwords ' ' ws := by
  induction ws with
  | nil => simp [unwords]
  | cons w ws ih =>
      have hw : '\n' ∉ w := fun h => by
        have := (hws w (by simp)).solid _ h
        cases this
      cases ws with
      | nil => exact hw
      | cons w' ws =>
          have ih := ih fun v hv => hws v (by simp [hv])
          show '\n' ∉ w ++ ' ' :: unwords ' ' (w' :: ws)
          simp [hw, ih]

/-- A written line: its indentation, its words and the newline. -/
def lineOf (indent : List Char) (ws : List String) : List Char :=
  indent ++ unwords ' ' (ws.map String.toList)

section Line

variable {indent : List Char} {ws : List String}
  (hws : ∀ w ∈ ws, Word isWhitespace w.toList)

lemma blank_indent : Blank isWhitespace [' ', ' '] := by
  intro c hc
  have hc : c = ' ' := by simpa using hc
  rw [hc]
  rfl

lemma blank_newline : Blank isWhitespace ['\n'] := by
  intro c hc
  rw [List.mem_singleton.mp hc]
  rfl

include hws

lemma words_toList : ∀ w ∈ ws.map String.toList, Word isWhitespace w := by
  intro w hw
  obtain ⟨s, hs, rfl⟩ := List.mem_map.mp hw
  exact hws s hs

lemma words_lineOf (hindent : Blank isWhitespace indent) :
    words isWhitespace (lineOf indent ws ++ ['\n']) = ws.map String.toList := by
  rw [lineOf, List.append_assoc, words_blank_append hindent,
    words_unwords_append rfl (words_toList hws) blank_newline]

/-- The segments of a written line are its words. -/
lemma getSegsOfLine_lineOf (hindent : Blank isWhitespace indent) :
    getSegsOfLine (lineOf indent ws ++ ['\n']) = ws := by
  rw [getSegsOfLine, words_lineOf hws hindent, List.map_map]
  have hid : String.ofList ∘ String.toList = id := by
    funext s
    exact String.ofList_toList
  rw [hid, List.map_id]

lemma trim_lineOf (hindent : Blank isWhitespace indent) (hne : ws ≠ []) :
    trim isWhitespace (lineOf indent ws ++ ['\n']) = unwords ' ' (ws.map String.toList) := by
  rw [lineOf, List.append_assoc]
  exact trim_unwords (by simpa using hne) (words_toList hws) hindent blank_newline

/-- A written line is the next one of the stream. -/
lemma readNextLine_lineOf (hindent : Blank isWhitespace indent) (hnl : '\n' ∉ indent)
    (hne : ws ≠ []) (rest : Stream) (buffer : List Char) (fuel : ℕ) :
    ∃ size, readNextLine (fuel + 1) ⟨ofText (lineOf indent ws ++ ['\n']) ++ rest, buffer⟩ =
      some (.ok size, ⟨rest, lineOf indent ws ++ ['\n']⟩) := by
  refine ⟨_, readNextLine_ofText ?_ ?_ rest buffer fuel⟩
  · rw [lineOf, List.mem_append, not_or]
    exact ⟨hnl, newline_notMem_unwords (words_toList hws)⟩
  · rw [trim_lineOf hws hindent hne]
    obtain ⟨y, b, heq, -⟩ : ∃ y b, unwords ' ' (ws.map String.toList) = y ++ [b]
        ∧ isWhitespace b = false :=
      exists_unwords_eq_append (by simpa using hne) (words_toList hws)
    rw [heq]
    simp

end Line

/-! ### Reading a written response back -/

/-- The lines that a Scan is written as, after its first. -/
def scanText : List (String × String) → List Char
  | [] => lineOf [] ["SCAN", "END"] ++ ['\n']
  | (k, v) :: entries => lineOf [' ', ' '] [k, v] ++ ['\n'] ++ scanText entries

lemma toList_foldr_entries (entries : List (String × String)) :
    (entries.foldr (fun (k, v) text => "  " ++ k ++ " " ++ v ++ "\n" ++ text)
      "SCAN END\n").toList = scanText entries := by
  induction entries with
  | nil => rfl
  | cons p entries ih =>
      rw [List.foldr_cons, scanText, String.toList_append, ih]
      congr 1
      simp [lineOf, unwords]

lemma words_pair {k v : String} (hk : Word isWhitespace k.toList)
    (hv : Word isWhitespace v.toList) : ∀ w ∈ [k, v], Word isWhitespace w.toList := by
  intro w hw
  rcases List.mem_pair.mp hw with rfl | rfl
  · exact hk
  · exact hv

lemma words_end : ∀ w ∈ ["SCAN", "END"], Word isWhitespace w.toList :=
  words_pair (word_of_all rfl rfl) (word_of_all rfl rfl)

/-- A response of one line is read back. -/
lemma fromRead_line {ws : List String} {resp : KvResp} (hne : ws ≠ [])
    (hws : ∀ w ∈ ws, Word isWhitespace w.toList)
    (hfirst : firstLine (lineOf [] ws ++ ['\n']) = .ok (.resp resp)) (rest : Stream)
    (buffer : List Char) :
    ∃ r', fromRead 1 ⟨ofText (lineOf [] ws ++ ['\n']) ++ rest, buffer⟩ = some (.ok resp, r')
      ∧ r'.stream = rest := by
  obtain ⟨size, hread⟩ := readNextLine_lineOf hws blank_nil (by simp) hne rest buffer 0
  refine ⟨⟨rest, lineOf [] ws ++ ['\n']⟩, ?_, rfl⟩
  rw [fromRead, hread]
  simp only [hfirst]

lemma scanLine_entry {k v : String} (hk : Alphanumeric k) (hv : Alphanumeric v)
    (hne : (k, v) ≠ ("SCAN", "END")) :
    scanLine (lineOf [' ', ' '] [k, v] ++ ['\n']) = .ok (some (k, v)) := by
  have hws := words_pair hk.word hv.word
  have hmark : unwords ' ' ([k, v].map String.toList) ≠ "SCAN END".toList := by
    intro heq
    -- both are words joined by a space
    have hwords := unwords_injective rfl (words_toList hws) (words_toList words_end) heq
    simp only [List.map_cons, List.map_nil, List.cons.injEq, and_true, String.toList_inj] at hwords
    exact hne (by rw [hwords.1, hwords.2])
  rw [scanLine, trim_lineOf hws blank_indent (by simp), if_neg hmark,
    getSegsOfLine_lineOf hws blank_indent]
  rfl

lemma scanLine_end : scanLine (lineOf [] ["SCAN", "END"] ++ ['\n']) = .ok none := by
  rfl

/-- The loop through scan results collects the entries written. -/
lemma run_scanPass {entries : List (String × String)}
    (hplain : ∀ p ∈ entries, Alphanumeric p.1 ∧ Alphanumeric p.2)
    (hmark : ("SCAN", "END") ∉ entries) (rest : Stream) (fuel : ℕ)
    (acc : List (String × String)) (buffer : List Char) :
    ∃ r', run (scanPass (fuel + 1)) (entries.length + 1)
        (acc, ⟨ofText (scanText entries) ++ rest, buffer⟩) = some (.ok (acc ++ entries), r')
      ∧ r'.stream = rest := by
  induction entries generalizing acc buffer with
  | nil =>
      obtain ⟨size, hread⟩ := readNextLine_lineOf words_end blank_nil (by simp) (by simp) rest
        buffer fuel
      refine ⟨⟨rest, lineOf [] ["SCAN", "END"] ++ ['\n']⟩, run_succ_of_stop ?_, rfl⟩
      rw [scanPass, scanText, hread]
      simp only [scanLine_end, List.append_nil]
  | cons p entries ih =>
      obtain ⟨k, v⟩ := p
      obtain ⟨hk, hv⟩ := hplain (k, v) (by simp)
      have hne : (k, v) ≠ ("SCAN", "END") := fun h => hmark (by rw [h]; simp)
      obtain ⟨size, hread⟩ := readNextLine_lineOf (words_pair hk.word hv.word) blank_indent
        (by simp) (by simp) (ofText (scanText entries) ++ rest) buffer fuel
      obtain ⟨r', hrun, hrest⟩ := ih (fun p hp => hplain p (by simp [hp]))
        (fun h => hmark (by simp [h])) (acc ++ [(k, v)]) (lineOf [' ', ' '] [k, v] ++ ['\n'])
      have hpass : scanPass (fuel + 1)
            (acc, ⟨ofText (scanText ((k, v) :: entries)) ++ rest, buffer⟩)
          = some (.again (acc ++ [(k, v)],
            ⟨ofText (scanText entries) ++ rest, lineOf [' ', ' '] [k, v] ++ ['\n']⟩)) := by
        have htext : ofText (scanText ((k, v) :: entries)) ++ rest =
            ofText (lineOf [' ', ' '] [k, v] ++ ['\n']) ++ (ofText (scanText entries) ++ rest) := by
          simp [scanText, ofText]
        rw [scanPass, htext, hread]
        simp only [scanLine_entry hk hv hne]
      refine ⟨r', ?_, hrest⟩
      rw [List.length_cons, run_succ_of_again hpass, hrun]
      simp

/-- A response that is no Scan is one line of its keyword and its words. -/
lemma exists_fromRead_oneLine {kw : String} {ws : List String} {resp : KvResp}
    (hkw : Word isWhitespace kw.toList) (hws : ∀ w ∈ ws, Word isWhitespace w.toList)
    (htext : (writeResponse resp).toList = lineOf [] (kw :: ws) ++ ['\n'])
    (hfirst : ∀ buffer, getSegsOfLine buffer = kw :: ws →
      firstLine buffer = .ok (.resp resp)) (rest : Stream) (buffer : List Char) :
    ∃ fuel r', fromRead fuel ⟨ofText (writeResponse resp).toList ++ rest, buffer⟩
      = some (.ok resp, r') ∧ r'.stream = rest := by
  have hall : ∀ w ∈ kw :: ws, Word isWhitespace w.toList := by
    intro w hw
    rcases List.mem_cons.mp hw with rfl | hw
    · exact hkw
    · exact hws w hw
  rw [htext]
  exact ⟨1, fromRead_line (by simp) hall
    (hfirst _ (getSegsOfLine_lineOf hall blank_nil)) rest buffer⟩

lemma word_found (found : Bool) :
    Word isWhitespace (if found then "found" else "not_found").toList := by
  cases found
  · exact word_of_all rfl rfl
  · exact word_of_all rfl rfl

lemma word_getD {value : Option String} (hvalue : ∀ v ∈ value, Alphanumeric v) :
    Word isWhitespace (value.getD "null").toList := by
  cases value with
  | none => exact word_of_all rfl rfl
  | some v => exact (hvalue v rfl).word

/-- A value that is not the marker is read back. -/
lemma valueField_getD {value : Option String} (hmark : value ≠ some "null") :
    valueField (value.getD "null") = value := by
  cases value with
  | none => rfl
  | some v =>
      have hne : v ≠ "null" := fun h => hmark (by rw [h])
      exact if_neg hne

/-- The text of a Scan is its first line and those of `scanText`. -/
lemma toList_writeResponse_scan (keyStart keyEnd : String) (entries : List (String × String)) :
    (writeResponse (.scan keyStart keyEnd entries)).toList =
      lineOf [] ["SCAN", keyStart, keyEnd, "BEGIN"] ++ ['\n'] ++ scanText entries := by
  rw [writeResponse, String.toList_append, toList_foldr_entries]
  congr 1
  simp [lineOf, unwords]

/-- A Scan written is read back. -/
lemma exists_fromRead_scan {keyStart keyEnd : String} {entries : List (String × String)}
    (hs : Alphanumeric keyStart) (he : Alphanumeric keyEnd)
    (hplain : ∀ p ∈ entries, Alphanumeric p.1 ∧ Alphanumeric p.2)
    (hmark : ("SCAN", "END") ∉ entries) (rest : Stream) (buffer : List Char) :
    ∃ fuel r', fromRead fuel
        ⟨ofText (writeResponse (.scan keyStart keyEnd entries)).toList ++ rest, buffer⟩
      = some (.ok (.scan keyStart keyEnd entries), r') ∧ r'.stream = rest := by
  have hws : ∀ w ∈ ["SCAN", keyStart, keyEnd, "BEGIN"], Word isWhitespace w.toList := by
    intro w hw
    simp only [List.mem_cons, List.not_mem_nil, or_false] at hw
    rcases hw with rfl | rfl | rfl | rfl
    · exact word_of_all rfl rfl
    · exact hs.word
    · exact he.word
    · exact word_of_all rfl rfl
  have htext : ofText (writeResponse (.scan keyStart keyEnd entries)).toList ++ rest =
      ofText (lineOf [] ["SCAN", keyStart, keyEnd, "BEGIN"] ++ ['\n'])
        ++ (ofText (scanText entries) ++ rest) := by
    rw [toList_writeResponse_scan]
    simp [ofText]
  obtain ⟨size, hread⟩ := readNextLine_lineOf hws blank_nil (by simp) (by simp)
    (ofText (scanText entries) ++ rest) buffer entries.length
  obtain ⟨r', hrun, hrest⟩ := run_scanPass hplain hmark rest entries.length []
    (lineOf [] ["SCAN", keyStart, keyEnd, "BEGIN"] ++ ['\n'])
  have hfirst : firstLine (lineOf [] ["SCAN", keyStart, keyEnd, "BEGIN"] ++ ['\n']) =
      .ok (.scan keyStart keyEnd) := by
    rw [firstLine, getSegsOfLine_lineOf hws blank_nil]
    rfl
  refine ⟨entries.length + 1, r', ?_, hrest⟩
  rw [htext, fromRead, hread]
  simp only [hfirst, scanLoop, hrun, Option.map_some, List.nil_append]
  rfl

/-- A response written is read back, and what follows it is left. -/
lemma exists_fromRead {resp : KvResp} (hplain : resp.Plain) (hmark : resp.Unmarked)
    (rest : Stream) (buffer : List Char) :
    ∃ fuel r', fromRead fuel ⟨ofText (writeResponse resp).toList ++ rest, buffer⟩
      = some (.ok resp, r') ∧ r'.stream = rest := by
  cases resp with
  | put key found =>
      have hkw : Word isWhitespace "PUT".toList := word_of_all rfl rfl
      refine exists_fromRead_oneLine hkw (words_pair hplain.word (word_found found)) ?_ ?_ rest
        buffer
      · simp [writeResponse, lineOf, unwords]
      · intro line hline
        rw [firstLine, hline]
        cases found <;> rfl
  | swap key oldValue =>
      have hkw : Word isWhitespace "SWAP".toList := word_of_all rfl rfl
      refine exists_fromRead_oneLine hkw (words_pair hplain.1.word (word_getD hplain.2)) ?_ ?_ rest
        buffer
      · simp [writeResponse, lineOf, unwords]
      · intro line hline
        rw [firstLine, hline]
        show Except.ok (FirstLine.resp (.swap key (valueField (oldValue.getD "null")))) = _
        rw [valueField_getD hmark]
  | get key value =>
      have hkw : Word isWhitespace "GET".toList := word_of_all rfl rfl
      refine exists_fromRead_oneLine hkw (words_pair hplain.1.word (word_getD hplain.2)) ?_ ?_ rest
        buffer
      · simp [writeResponse, lineOf, unwords]
      · intro line hline
        rw [firstLine, hline]
        show Except.ok (FirstLine.resp (.get key (valueField (value.getD "null")))) = _
        rw [valueField_getD hmark]
  | scan keyStart keyEnd entries =>
      exact exists_fromRead_scan hplain.1 hplain.2.1 hplain.2.2 hmark rest buffer
  | delete key found =>
      have hkw : Word isWhitespace "DELETE".toList := word_of_all rfl rfl
      refine exists_fromRead_oneLine hkw (words_pair hplain.word (word_found found)) ?_ ?_ rest
        buffer
      · simp [writeResponse, lineOf, unwords]
      · intro line hline
        rw [firstLine, hline]
        cases found <;> rfl
  | stop =>
      have hkw : Word isWhitespace "STOP".toList := word_of_all rfl rfl
      have hws : ∀ w ∈ ([] : List String), Word isWhitespace w.toList := by simp
      refine exists_fromRead_oneLine hkw hws ?_ ?_ rest buffer
      · simp [writeResponse, lineOf, unwords]
      · intro line hline
        rw [firstLine, hline]
        rfl

/-- **The round trip**: a sequence of responses written one after another is
read back, each response taking exactly its text, as long as no key or value is
a marker. -/
theorem readsBack_of_unmarked {resps : List KvResp} (hplain : ∀ resp ∈ resps, resp.Plain)
    (hmark : ∀ resp ∈ resps, resp.Unmarked) (buffer : List Char) :
    ReadsBack resps ⟨writeResponses resps, buffer⟩ := by
  induction resps generalizing buffer with
  | nil => rfl
  | cons resp resps ih =>
      have hwrite : writeResponses (resp :: resps) =
          ofText (writeResponse resp).toList ++ writeResponses resps := rfl
      obtain ⟨fuel, ⟨stream, buffer'⟩, hread, rfl⟩ := exists_fromRead (hplain resp (by simp))
        (hmark resp (by simp)) (writeResponses resps) buffer
      refine ⟨fuel, ⟨writeResponses resps, buffer'⟩, ?_, rfl, ?_⟩
      · rw [hwrite]
        exact hread
      · exact ih (fun resp h => hplain resp (by simp [h]))
          (fun resp h => hmark resp (by simp [h])) _

theorem readsBack_of_unmarked_scan :
    ReadsBack [.scan "a" "c" [("a", "x"), ("b", "SCAN")], .get "c" none]
      ⟨writeResponses [.scan "a" "c" [("a", "x"), ("b", "SCAN")], .get "c" none], []⟩ := by
  refine readsBack_of_unmarked ?_ ?_ []
  · intro resp hresp
    rcases List.mem_pair.mp hresp with rfl | rfl
    · refine ⟨alphanumeric_of_all rfl rfl, alphanumeric_of_all rfl rfl, fun p hp => ?_⟩
      rcases List.mem_pair.mp hp with rfl | rfl
      · exact ⟨alphanumeric_of_all rfl rfl, alphanumeric_of_all rfl rfl⟩
      · exact ⟨alphanumeric_of_all rfl rfl, alphanumeric_of_all rfl rfl⟩
    · exact ⟨alphanumeric_of_all rfl rfl, by simp⟩
  · intro resp hresp
    rcases List.mem_pair.mp hresp with rfl | rfl
    · show ("SCAN", "END") ∉ [("a", "x"), ("b", "SCAN")]
      decide
    · exact Option.some_ne_none "null" ∘ Eq.symm

/-- Reading gives something else than what was written. -/
lemma not_readsBack {resp : KvResp} {resps : List KvResp} {r r' : Reader} {fuel : ℕ}
    {res : Except RunnerError KvResp} (hread : fromRead fuel r = some (res, r'))
    (hne : res ≠ .ok resp ∨ r'.stream ≠ writeResponses resps) : ¬ ReadsBack (resp :: resps) r := by
  rintro ⟨fuel', r'', hread', hrest, -⟩
  obtain ⟨rfl, rfl⟩ := Prod.mk.inj (fromRead_unique hread hread')
  rcases hne with hne | hne
  · exact hne rfl
  · exact hne hrest

/-- Both markers are misread: a value `null` as an absent one, an entry
`SCAN END` as the end of the listing. -/
theorem exists_not_readsBack :
    ¬ (∀ (resps : List KvResp) (buffer : List Char), (∀ resp ∈ resps, resp.Plain) →
        ReadsBack resps ⟨writeResponses resps, buffer⟩)
      ∧ ¬ ReadsBack [.get "k" (some "null")] ⟨writeResponses [.get "k" (some "null")], []⟩
      ∧ ¬ ReadsBack [.scan "A" "Z" [("SCAN", "END")]]
          ⟨writeResponses [.scan "A" "Z" [("SCAN", "END")]], []⟩ := by
  have hnull : ¬ ReadsBack [.get "k" (some "null")]
      ⟨writeResponses [.get "k" (some "null")], []⟩ := by
    have hread : fromRead 1 ⟨writeResponses [.get "k" (some "null")], []⟩ =
        some (.ok (.get "k" none), ⟨[], "GET k null\n".toList⟩) := by rfl
    exact not_readsBack hread (Or.inl (by simp))
  have hend : ¬ ReadsBack [.scan "A" "Z" [("SCAN", "END")]]
      ⟨writeResponses [.scan "A" "Z" [("SCAN", "END")]], []⟩ := by
    have hread : fromRead 1 ⟨writeResponses [.scan "A" "Z" [("SCAN", "END")]], []⟩ =
        some (.ok (.scan "A" "Z" []), ⟨ofText "SCAN END\n".toList, "  SCAN END\n".toList⟩) := by rfl
    exact not_readsBack hread (Or.inl (by simp))
  refine ⟨fun h => hnull (h _ [] ?_), hnull, hend⟩
  intro resp hresp
  rw [List.mem_singleton.mp hresp]
  have hk : Alphanumeric "k" := alphanumeric_of_all rfl rfl
  have hv : Alphanumeric "null" := alphanumeric_of_all rfl rfl
  refine ⟨hk, fun v h => ?_⟩
  rw [← Option.some.inj h]
  exact hv

end Madkv
