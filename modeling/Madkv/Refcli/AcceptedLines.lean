import Madkv.Refcli.WriteResponse
import Madkv.Runner.ResponseLines

/-!
The lines that `from_read` accepts, against those that `write_response` writes.

* `KvResp.forms`: the lines of a response, by their segments.
  `map_liveLines_writeResponse`: it is written in these lines.
* `exists_consumed`: the lines consumed for a response begin with these segments,
  line by line.
* `NothingExtra`: no line goes on after the segments that its reader looks at.
* `accepted_wellFormed_iff`: only then are the lines consumed those written.
-/

namespace Madkv

open Words Refcli

/-! ### The lines of a response -/

def foundText (found : Bool) : String := if found then "found" else "not_found"

/-- The segments of the lines of a response. -/
def KvResp.forms : KvResp → List (List String)
  | .put key found => [["PUT", key, foundText found]]
  | .swap key oldValue => [["SWAP", key, oldValue.getD "null"]]
  | .get key value => [["GET", key, value.getD "null"]]
  | .scan keyStart keyEnd entries =>
      ["SCAN", keyStart, keyEnd, "BEGIN"] :: (entries.map fun (k, v) => [k, v]) ++ [["SCAN", "END"]]
  | .delete key found => [["DELETE", key, foundText found]]
  | .stop => [["STOP"]]

/-- A segment as it stands in a stream. -/
def seg (s : String) : Stream := ofText s.toList

/-- The line begins with the segments. -/
def BeginsWith (line : Stream) (form : List String) : Prop :=
  ∃ extra, lineSegs line = form.map seg ++ extra

/-- The number of segments that are looked at in the first line of a response. -/
def headLength (line : Stream) : ℕ :=
  match lineSegs line with
  | [] => 0
  | word :: _ => if word = seg "STOP" then 1 else if word = seg "SCAN" then 4 else 3

/-- No line goes on after the segments that are looked at: those of the first
line, and two in each line of a listing. -/
def NothingExtra : List Stream → Prop
  | [] => True
  | line :: rest => (lineSegs line).length ≤ headLength line
      ∧ ∀ line' ∈ rest, (lineSegs line').length ≤ 2

section Written

variable {indent : List Char} {ws : List String}

lemma lineSegs_lineOf (hws : ∀ w ∈ ws, Word isWhitespace w.toList)
    (hindent : Blank isWhitespace indent) :
    lineSegs (ofText (lineOf indent ws ++ ['\n'])) = ws.map seg := by
  rw [lineSegs_ofText, words_lineOf hws hindent, List.map_map]
  rfl

/-- A written line is the next one of the stream. -/
lemma liveLines_lineOf (hws : ∀ w ∈ ws, Word isWhitespace w.toList) (hne : ws ≠ [])
    (hindent : Blank isWhitespace indent) (hnl : '\n' ∉ indent) (rest : Stream) :
    liveLines (ofText (lineOf indent ws ++ ['\n']) ++ rest)
      = ofText (lineOf indent ws ++ ['\n']) :: liveLines rest := by
  have hline : '\n' ∉ lineOf indent ws := by
    rw [lineOf, List.mem_append, not_or]
    exact ⟨hnl, newline_notMem_unwords (words_toList hws)⟩
  have hblank : blankLine (ofText (lineOf indent ws ++ ['\n'])) = false := by
    rw [blankLine, decode_ofText]
    simp only [List.isEmpty_eq_false_iff, ne_eq]
    rw [trim_eq_nil_iff, ← words_eq_nil_iff, words_lineOf hws hindent]
    simpa using hne
  rw [liveLines, lines_eq_cons (by simp [ofText]), takeLine_ofText hline, List.filter_cons_of_pos]
  · rfl
  · simp [hblank]

/-- The lines of a listing, with the end of it. -/
lemma map_liveLines_scanText {entries : List (String × String)}
    (hws : ∀ p ∈ entries, Word isWhitespace p.1.toList ∧ Word isWhitespace p.2.toList) :
    (liveLines (ofText (scanText entries))).map lineSegs =
      (entries.map fun (k, v) => [seg k, seg v]) ++ [[seg "SCAN", seg "END"]] := by
  induction entries with
  | nil =>
      have hline := liveLines_lineOf words_end (by simp) blank_nil (by simp) []
      rw [List.append_nil] at hline
      rw [scanText, hline, List.map_cons, lineSegs_lineOf words_end blank_nil]
      rfl
  | cons p entries ih =>
      obtain ⟨k, v⟩ := p
      have hpair := words_pair (hws (k, v) List.mem_cons_self).1 (hws (k, v) List.mem_cons_self).2
      have htext : ofText (scanText ((k, v) :: entries)) =
          ofText (lineOf [' ', ' '] [k, v] ++ ['\n']) ++ ofText (scanText entries) := by
        simp [scanText, ofText]
      rw [htext, liveLines_lineOf hpair (by simp) blank_indent (by simp), List.map_cons,
        lineSegs_lineOf hpair blank_indent, ih fun p hp => hws p (List.mem_cons_of_mem _ hp)]
      rfl

/-- A response whose segments are words is written in lines of these segments. -/
theorem map_liveLines_writeResponse {resp : KvResp}
    (hws : ∀ form ∈ resp.forms, ∀ w ∈ form, Word isWhitespace w.toList) :
    (liveLines (ofText (writeResponse resp).toList)).map lineSegs
      = resp.forms.map (List.map seg) := by
  have hone : ∀ form : List String, form ≠ [] → (∀ w ∈ form, Word isWhitespace w.toList) →
      (writeResponse resp).toList = lineOf [] form ++ ['\n'] →
      (liveLines (ofText (writeResponse resp).toList)).map lineSegs = [form.map seg] := by
    intro form hne hform htext
    have hline := liveLines_lineOf hform hne blank_nil (by simp) []
    rw [List.append_nil] at hline
    rw [htext, hline, List.map_cons, lineSegs_lineOf hform blank_nil]
    rfl
  cases resp with
  | scan keyStart keyEnd entries =>
      have hhead := hws ["SCAN", keyStart, keyEnd, "BEGIN"] (by simp [KvResp.forms])
      have hentries : ∀ p ∈ entries,
          Word isWhitespace p.1.toList ∧ Word isWhitespace p.2.toList := by
        intro p hp
        have hpair := hws [p.1, p.2] (by simp [KvResp.forms, hp])
        exact ⟨hpair p.1 (by simp), hpair p.2 (by simp)⟩
      have htext : ofText (writeResponse (.scan keyStart keyEnd entries)).toList =
          ofText (lineOf [] ["SCAN", keyStart, keyEnd, "BEGIN"] ++ ['\n'])
            ++ ofText (scanText entries) := by
        rw [toList_writeResponse_scan]
        simp [ofText]
      rw [htext, liveLines_lineOf hhead (by simp) blank_nil (by simp), List.map_cons,
        lineSegs_lineOf hhead blank_nil, map_liveLines_scanText hentries]
      simp [KvResp.forms]
  | put | swap | get | delete | stop =>
      refine hone _ (by simp) (hws _ List.mem_cons_self) ?_
      simp [writeResponse, foundText, lineOf, unwords]

end Written

/-! ### The lines consumed -/

section Consumed

variable {line : Stream} {ls rest listed : List Stream} {form : List String}
  {forms : List (List String)} {resp : KvResp} {first : FirstLine}

lemma lineSegs_eq_map_seg (text : List Char) :
    lineSegs (ofText text) = (getSegsOfLine text).map seg := by
  rw [lineSegs_ofText, getSegsOfLine, List.map_map]
  exact List.map_congr_left fun w _ => by simp [seg]

lemma BeginsWith.word (h : BeginsWith line form) : ∀ w ∈ form, Word isWhitespace w.toList := by
  intro w hw
  obtain ⟨extra, hsegs⟩ := h
  have hmem : seg w ∈ lineSegs line := by
    rw [hsegs]
    exact List.mem_append_left _ (List.mem_map_of_mem hw)
  have hword := word_of_mem_words hmem
  refine ⟨fun hnil => hword.ne_nil (by rw [seg, hnil]; rfl), fun c hc => ?_⟩
  exact hword.solid (some c) (List.mem_map_of_mem hc)

lemma forall_word (h : List.Forall₂ BeginsWith listed forms) :
    ∀ form ∈ forms, ∀ w ∈ form, Word isWhitespace w.toList := by
  induction h with
  | nil => exact fun form hform => absurd hform List.not_mem_nil
  | cons hline _ ih => exact List.forall_mem_cons.mpr ⟨hline.word, ih⟩

lemma BeginsWith.eq_iff (h : BeginsWith line form) :
    lineSegs line = form.map seg ↔ (lineSegs line).length ≤ form.length := by
  obtain ⟨extra, hsegs⟩ := h
  rw [hsegs, List.append_right_eq_self, List.length_append, List.length_map]
  constructor
  · rintro rfl
    simp
  · intro hle
    exact List.eq_nil_of_length_eq_zero (by omega)

lemma map_lineSegs_eq_iff (h : List.Forall₂ BeginsWith listed forms)
    (htwo : ∀ form ∈ forms, form.length = 2) :
    listed.map lineSegs = forms.map (List.map seg)
      ↔ ∀ line ∈ listed, (lineSegs line).length ≤ 2 := by
  induction h with
  | nil => simp
  | @cons line form listed forms hline _ ih =>
      rw [List.map_cons, List.map_cons, List.cons.injEq, hline.eq_iff, htwo form List.mem_cons_self,
        ih fun form hform => htwo form (List.mem_cons_of_mem _ hform), List.forall_mem_cons]

/-- The segments that a first line was read from. -/
lemma exists_headForm (h : headLine line = some first) :
    ∃ form, HeadForm form first ∧ BeginsWith line form ∧ headLength line = form.length := by
  obtain ⟨text, form, extra, rfl, hform, hsegs⟩ := headLine_eq_some_iff.mp h
  have hline : lineSegs (ofText text) = form.map seg ++ extra.map seg := by
    rw [lineSegs_eq_map_seg, hsegs, List.map_append]
  refine ⟨form, hform, ⟨extra.map seg, hline⟩, ?_⟩
  rw [headLength, hline]
  cases hform <;> rfl

lemma getD_valueField (value : String) : (valueField value).getD "null" = value := by
  rw [valueField]
  split
  · rw [‹value = "null"›]
    rfl
  · rfl

lemma HeadForm.forms_eq (h : HeadForm form (.resp resp)) : resp.forms = [form] := by
  cases h with
  | swap key oldValue | get key oldValue => rw [KvResp.forms, getD_valueField]
  | put | delete | stop => rfl

/-- The lines of a listing begin with the segments of its entries. -/
lemma exists_listed {entries entries' : List (String × String)}
    (h : readListing entries ls = .reads entries' rest) : ∃ new listed, entries' = entries ++ new
      ∧ ls = listed ++ rest
      ∧ List.Forall₂ BeginsWith listed ((new.map fun (k, v) => [k, v]) ++ [["SCAN", "END"]]) := by
  induction ls generalizing entries with
  | nil => cases h
  | cons line ls ih =>
      rw [readListing] at h
      cases hsaid : listLine line with
      | none =>
          rw [hsaid] at h
          cases h
      | some said =>
          rw [hsaid] at h
          cases hdecode : decode line with
          | none =>
              rw [listLine, hdecode] at hsaid
              cases hsaid
          | some text =>
              rw [listLine, hdecode, Option.bind_some, toOption_eq_some_iff] at hsaid
              rw [decode_eq_some_iff.mp hdecode]
              cases said with
              | none =>
                  cases h
                  refine ⟨[], [ofText text], by simp, rfl, .cons ⟨[], ?_⟩ .nil⟩
                  -- the whole line is compared
                  have hwords : words isWhitespace text = words isWhitespace "SCAN END".toList := by
                    rw [← words_trim text, scanLine_end_iff.mp hsaid]
                  rw [lineSegs_ofText, hwords]
                  rfl
              | some entry =>
                  obtain ⟨k, v⟩ := entry
                  obtain ⟨-, extra, hsegs⟩ := scanLine_entry_iff.mp hsaid
                  obtain ⟨new, listed, rfl, rfl, hlisted⟩ := ih h
                  refine ⟨(k, v) :: new, ofText text :: listed, by simp, rfl, .cons ?_ hlisted⟩
                  exact ⟨extra.map seg, by rw [lineSegs_eq_map_seg, hsegs]; rfl⟩

/-- **The lines consumed** begin with the segments of the response. -/
theorem exists_consumed (h : readResponse ls = .reads resp rest) :
    ∃ line listed form forms, ls = (line :: listed) ++ rest ∧ resp.forms = form :: forms
      ∧ BeginsWith line form ∧ headLength line = form.length
      ∧ List.Forall₂ BeginsWith listed forms ∧ ∀ form ∈ forms, form.length = 2 := by
  cases ls with
  | nil => cases h
  | cons line ls =>
      rw [readResponse] at h
      cases hsaid : headLine line with
      | none =>
          rw [hsaid] at h
          cases h
      | some first =>
          rw [hsaid] at h
          obtain ⟨form, hform, hbegins, hlength⟩ := exists_headForm hsaid
          cases first with
          | resp resp =>
              cases h
              exact ⟨line, [], form, [], rfl, hform.forms_eq, hbegins, hlength, .nil,
                fun _ hmem => absurd hmem List.not_mem_nil⟩
          | scan keyStart keyEnd =>
              cases hlist : readListing [] ls with
              | waits | fails =>
                  rw [hlist] at h
                  cases h
              | reads entries rest' =>
                  rw [hlist] at h
                  cases h
                  cases hform
                  obtain ⟨new, listed, rfl, rfl, hlisted⟩ := exists_listed hlist
                  refine ⟨line, listed, _, _, rfl, rfl, hbegins, hlength, hlisted,
                    fun form hmem => ?_⟩
                  rcases List.mem_append.mp hmem with hmem | hmem
                  · obtain ⟨p, -, rfl⟩ := List.mem_map.mp hmem
                    rfl
                  · rw [List.mem_singleton.mp hmem]
                    rfl

end Consumed

/-- **What is accepted is well formed** as far as it is looked at: the lines that
`from_read` consumed are those of the response iff none of them has a segment too
many. -/
theorem accepted_wellFormed_iff (stream : Stream) (buffer : List Char) (fuel : ℕ) (resp : KvResp)
    (r' : Reader) (hread : fromRead fuel ⟨stream, buffer⟩ = some (.ok resp, r')) :
    ∃ consumed, liveLines stream = consumed ++ liveLines r'.stream
      ∧ (consumed.map lineSegs = (liveLines (ofText (writeResponse resp).toList)).map lineSegs
        ↔ NothingExtra consumed) := by
  have hof := fromRead_outcome hread
  cases hout : readResponse (liveLines stream) with
  | waits | fails =>
      rw [hout] at hof
      simp [Outcome.Of] at hof
  | reads resp' rest =>
      rw [hout] at hof
      obtain ⟨heq, hrest⟩ := hof
      cases heq
      obtain ⟨line, listed, form, forms, hlines, hforms, hbegins, hlength, hlisted, htwo⟩ :=
        exists_consumed hout
      refine ⟨line :: listed, by rw [hlines, hrest], ?_⟩
      have hwords : ∀ form ∈ resp.forms, ∀ w ∈ form, Word isWhitespace w.toList := by
        rw [hforms]
        exact forall_word (.cons hbegins hlisted)
      rw [map_liveLines_writeResponse hwords, hforms, List.map_cons, List.map_cons,
        List.cons.injEq, hbegins.eq_iff, map_lineSegs_eq_iff hlisted htwo, NothingExtra, hlength]

theorem accepted_wellFormed_iff_get :
    ∃ consumed, liveLines (ofText "GET  k v\n".toList) = consumed ++ liveLines []
      ∧ (consumed.map lineSegs
          = (liveLines (ofText (writeResponse (.get "k" (some "v"))).toList)).map lineSegs
        ↔ NothingExtra consumed) :=
  accepted_wellFormed_iff (ofText "GET  k v\n".toList) [] 1 (.get "k" (some "v"))
    ⟨[], "GET  k v\n".toList⟩ rfl

/-- A value that contains a space is cut short. -/
theorem exists_malformed_accepted :
    ¬ ∀ (stream : Stream) (buffer : List Char) (fuel : ℕ) (resp : KvResp) (r' : Reader),
      fromRead fuel ⟨stream, buffer⟩ = some (.ok resp, r') →
        ∃ consumed, liveLines stream = consumed ++ liveLines r'.stream
          ∧ consumed.map lineSegs
            = (liveLines (ofText (writeResponse resp).toList)).map lineSegs := by
  intro h
  obtain ⟨consumed, hlines, hsegs⟩ := h (ofText "GET k a b\n".toList) [] 1 (.get "k" (some "a"))
    ⟨[], "GET k a b\n".toList⟩ rfl
  rw [show liveLines [] = [] from rfl, List.append_nil] at hlines
  rw [← hlines] at hsegs
  exact absurd hsegs (by decide)

end Madkv
