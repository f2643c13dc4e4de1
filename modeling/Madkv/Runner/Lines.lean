import Madkv.Runner.Ioapi

/-!
The lines of a stream, and reading the next of them.

* `lines`: the lines of a stream. `liveLines`: those that are not empty, which
  `read_next_line` stops at.
* `readCase`: what one pass of its loop does.
* `exists_readNextLine`: it reads the first line that is not empty.
  `readNextLine_eq_none`: with no such line left it goes on forever, since the
  end of the stream is one more empty line to it.
-/

namespace Madkv

open Loop Words

/-! ### The lines of a stream -/

/-- The lines of a stream, each with its newline if it has one. -/
def lines : Stream → List Stream
  | [] => []
  | some '\n' :: stream => [some '\n'] :: lines stream
  | c :: stream =>
      match lines stream with
      | [] => [[c]]
      | line :: rest => (c :: line) :: rest

/-- The next line taken is the first of the lines. -/
lemma lines_eq_cons {stream : Stream} (hne : stream ≠ []) :
    lines stream = (takeLine stream).1 :: lines (takeLine stream).2 := by
  induction stream with
  | nil => exact absurd rfl hne
  | cons c stream ih =>
      by_cases hc : c = some '\n'
      · subst hc
        rfl
      · have hlines : lines (c :: stream) = match lines stream with
            | [] => [[c]]
            | line :: rest => (c :: line) :: rest := by
          rw [lines]
          exact hc
        have htake : takeLine (c :: stream) =
            (c :: (takeLine stream).1, (takeLine stream).2) := by
          rw [takeLine]
          exact hc
        rw [hlines, htake]
        cases stream with
        | nil => rfl
        | cons d stream => rw [ih (by simp)]

lemma length_takeLine_lt {stream : Stream} (hne : stream ≠ []) :
    (takeLine stream).2.length < stream.length := by
  induction stream with
  | nil => exact absurd rfl hne
  | cons c stream ih =>
      by_cases hc : c = some '\n'
      · subst hc
        exact Nat.lt_succ_self _
      · have htake : takeLine (c :: stream) =
            (c :: (takeLine stream).1, (takeLine stream).2) := by
          rw [takeLine]
          exact hc
        rw [htake, List.length_cons]
        cases stream with
        | nil => exact Nat.succ_pos _
        | cons d stream => exact (ih (by simp)).trans (Nat.lt_succ_self _)

/-- A line of white space only. -/
def blankLine (line : Stream) : Bool :=
  match decode line with
  | some text => (trim isWhitespace text).isEmpty
  | none => false

/-- The lines that are not skipped. -/
def liveLines (stream : Stream) : List Stream := (lines stream).filter fun line => !blankLine line

/-! ### The next line -/

/-- The line was read: the buffer holds it behind the empty lines skipped. -/
def LineRead (line : Stream) (res : Except RunnerError ℕ) (buffer : List Char) : Prop :=
  match decode line with
  | some text => ∃ size skipped, res = .ok size ∧ buffer = skipped ++ text
      ∧ Blank isWhitespace skipped
  | none => ∃ e, res = .error e

section LineRead

variable {line : Stream} {e : RunnerError} {size : ℕ} {buffer : List Char}

lemma LineRead.decode_error (h : LineRead line (.error e) buffer) : decode line = none := by
  rw [LineRead] at h
  cases hdecode : decode line with
  | none => rfl
  | some text =>
      rw [hdecode] at h
      obtain ⟨_, _, h, -⟩ := h
      cases h

/-- The empty lines before a line change nothing of what it says. -/
lemma LineRead.decode_ok (h : LineRead line (.ok size) buffer) : ∃ text, decode line = some text
    ∧ getSegsOfLine buffer = getSegsOfLine text
    ∧ trim isWhitespace buffer = trim isWhitespace text := by
  rw [LineRead] at h
  cases hdecode : decode line with
  | none =>
      rw [hdecode] at h
      obtain ⟨_, h⟩ := h
      cases h
  | some text =>
      rw [hdecode] at h
      obtain ⟨_, skipped, -, rfl, hblank⟩ := h
      refine ⟨text, rfl, ?_, trim_blank_append hblank text⟩
      rw [getSegsOfLine, words_blank_append hblank, getSegsOfLine]

end LineRead

/-- What one pass of the loop of `read_next_line` does. -/
inductive ReadCase (r : Reader) : Prop
  /-- at the end of the stream -/
  | atEnd (stream : r.stream = []) (pass : readPass r = some (.again r))
  /-- an empty line -/
  | skipped (r' : Reader) (pass : readPass r = some (.again r'))
      (buffer : Blank isWhitespace r'.buffer) (live : liveLines r'.stream = liveLines r.stream)
      (shorter : r'.stream.length < r.stream.length)
  /-- any other line -/
  | read (line : Stream) (res : Except RunnerError ℕ) (r' : Reader)
      (pass : readPass r = some (.stop (res, r')))
      (live : liveLines r.stream = line :: liveLines r'.stream)
      (lineRead : LineRead line res r'.buffer) (shorter : r'.stream.length < r.stream.length)

lemma readCase {r : Reader} (hblank : Blank isWhitespace r.buffer) : ReadCase r := by
  obtain ⟨stream, buffer⟩ := r
  by_cases hne : stream = []
  · subst hne
    refine .atEnd rfl ?_
    have hread : readLine ⟨[], buffer⟩ = (.ok 0, ⟨[], buffer⟩) := by
      simp [readLine, takeLine, decode, utf8Size]
    rw [readPass, hread]
    simp only [trim_eq_nil_iff.mpr hblank]
    rfl
  · have hlines := lines_eq_cons hne
    have hshort := length_takeLine_lt hne
    cases hdecode : decode (takeLine stream).1 with
    | none =>
        have hread : readLine ⟨stream, buffer⟩ =
            (.error (.io "stream did not contain valid UTF-8"), ⟨(takeLine stream).2, buffer⟩) := by
          simp only [readLine, hdecode]
        refine .read (takeLine stream).1 (.error (.io "stream did not contain valid UTF-8"))
          ⟨(takeLine stream).2, buffer⟩ ?_ ?_ ?_ hshort
        · rw [readPass, hread]
        · simp [liveLines, hlines, blankLine, hdecode]
        · simp only [LineRead, hdecode]
          exact ⟨_, rfl⟩
    | some text =>
        have hread : readLine ⟨stream, buffer⟩ =
            (.ok (utf8Size text), ⟨(takeLine stream).2, buffer ++ text⟩) := by
          simp only [readLine, hdecode]
        have htrim : trim isWhitespace (buffer ++ text) = trim isWhitespace text :=
          trim_blank_append hblank text
        by_cases hempty : trim isWhitespace text = []
        · refine .skipped ⟨(takeLine stream).2, buffer ++ text⟩ ?_ ?_ ?_ hshort
          · rw [readPass, hread]
            simp [htrim, hempty]
          · rw [← trim_eq_nil_iff, htrim, hempty]
          · simp [liveLines, hlines, blankLine, hdecode, hempty]
        · refine .read (takeLine stream).1 (.ok (utf8Size text))
            ⟨(takeLine stream).2, buffer ++ text⟩ ?_ ?_ ?_ hshort
          · rw [readPass, hread]
            simp [htrim, hempty]
          · simp [liveLines, hlines, blankLine, hdecode, hempty]
          · simp only [LineRead, hdecode]
            exact ⟨_, buffer, rfl, rfl, hblank⟩

/-- With only empty lines left the next one is waited for forever. -/
lemma readNextLine_eq_none {r : Reader} (hlive : liveLines r.stream = []) (fuel : ℕ) :
    readNextLine fuel r = none := by
  refine run_eq_none (fun r => liveLines r.stream = [] ∧ Blank isWhitespace r.buffer)
    ?_ ⟨hlive, blank_nil⟩ fuel
  rintro r ⟨hlive, hblank⟩
  right
  cases readCase hblank with
  | atEnd _ pass => exact ⟨r, pass, hlive, hblank⟩
  | skipped r' pass buffer live _ => exact ⟨r', pass, live.trans hlive, buffer⟩
  | read line res r' _ live _ _ =>
      rw [hlive] at live
      cases live

/-- A pass comes to the first line that is not empty, or closer to it. -/
lemma readPass_of_live {r : Reader} {line : Stream} {rest : List Stream}
    (hlive : liveLines r.stream = line :: rest) (hblank : Blank isWhitespace r.buffer) :
    (∃ out, readPass r = some (.stop out) ∧ liveLines out.2.stream = rest
        ∧ LineRead line out.1 out.2.buffer ∧ out.2.stream.length < r.stream.length)
      ∨ ∃ r', readPass r = some (.again r') ∧ liveLines r'.stream = line :: rest
        ∧ Blank isWhitespace r'.buffer ∧ r'.stream.length < r.stream.length := by
  cases readCase hblank with
  | atEnd stream _ =>
      rw [stream] at hlive
      cases hlive
  | skipped r' pass buffer live shorter =>
      exact Or.inr ⟨r', pass, live.trans hlive, buffer, shorter⟩
  | read line' res r' pass live lineRead shorter =>
      rw [hlive] at live
      obtain ⟨rfl, hrest⟩ := List.cons.inj live
      exact Or.inl ⟨(res, r'), pass, hrest.symm, lineRead, shorter⟩

/-- The next line is the first that is not empty. -/
lemma exists_readNextLine {r : Reader} {line : Stream} {rest : List Stream} {fuel : ℕ}
    (hlive : liveLines r.stream = line :: rest) (hfuel : r.stream.length < fuel) :
    ∃ res r', readNextLine fuel r = some (res, r') ∧ liveLines r'.stream = rest
      ∧ LineRead line res r'.buffer ∧ r'.stream.length < r.stream.length := by
  have hrun : ∃ out : Except RunnerError ℕ × Reader, readNextLine fuel r = some out
      ∧ liveLines out.2.stream = rest ∧ LineRead line out.1 out.2.buffer
      ∧ out.2.stream.length < r.stream.length := by
    refine exists_run_of_measure
      (fun r₁ : Reader => liveLines r₁.stream = line :: rest ∧ Blank isWhitespace r₁.buffer
        ∧ r₁.stream.length ≤ r.stream.length)
      _ (fun r₁ => r₁.stream.length) ?_ ⟨hlive, blank_nil, le_rfl⟩ hfuel
    rintro r₁ ⟨hlive₁, hblank, hle⟩
    rcases readPass_of_live hlive₁ hblank with ⟨out, pass, hrest, hread, hlt⟩ | ⟨r₂, pass, h₂⟩
    · exact Or.inl ⟨out, pass, hrest, hread, hlt.trans_le hle⟩
    · exact Or.inr ⟨r₂, pass, ⟨h₂.1, h₂.2.1, h₂.2.2.le.trans hle⟩, h₂.2.2⟩
  obtain ⟨⟨res, r'⟩, hrun, hpost⟩ := hrun
  exact ⟨res, r', hrun, hpost⟩

end Madkv
