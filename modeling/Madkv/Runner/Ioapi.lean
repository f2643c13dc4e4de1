import Mathlib.Algebra.GroupWithZero.Nat
import Madkv.Library.Loop
import Madkv.Library.Words
import Madkv.Runner.KvCall

/-!
Reading responses from a client process (`KvResp::from_read` of `ioapi.rs`).

* `Reader`: the characters still to come and the line buffer.
* `readLine`: the `read_line` of the standard library. At the end of the stream
  it reads nothing and reports no error.
* `readNextLine`, `scanLoop`: the two loops, `fuel` bounding the passes of each.
* `firstLine`: what the first line of a response says, a whole response or the
  beginning of a Scan.
* `fromRead`: a response from the reader. `fromRead_unique`: more fuel does not
  change the outcome.
-/

namespace Madkv

open Loop Words

/-- `char::is_whitespace`: the Unicode property `White_Space`. -/
def isWhitespace (c : Char) : Bool :=
  let n := c.toNat
  decide (9 ≤ n ∧ n ≤ 13) || n == 0x20 || n == 0x85 || n == 0xA0 || n == 0x1680
    || decide (0x2000 ≤ n ∧ n ≤ 0x200A) || n == 0x2028 || n == 0x2029 || n == 0x202F
    || n == 0x205F || n == 0x3000

/-- What a stream still holds: a character, or `none` for bytes that are not
the encoding of one. -/
abbrev Stream := List (Option Char)

/-- A reader with the line buffer that is reused from call to call. -/
structure Reader where
  stream : Stream
  buffer : List Char
  deriving DecidableEq

/-- The stream up to its first newline, and the rest. -/
def takeLine : Stream → Stream × Stream
  | [] => ([], [])
  | some '\n' :: stream => ([some '\n'], stream)
  | c :: stream => (c :: (takeLine stream).1, (takeLine stream).2)

/-- The text of a line, `none` if it is not valid. -/
def decode : Stream → Option (List Char)
  | [] => some []
  | some c :: line => (decode line).map (c :: ·)
  | none :: _ => none

/-- The bytes that a text takes. -/
def utf8Size (text : List Char) : ℕ := (text.map Char.utf8Size).sum

/-- `BufRead::read_line`: append the next line, newline included, to the
buffer. Nothing is appended at the end of the stream or on an error. -/
def readLine (r : Reader) : Except RunnerError ℕ × Reader :=
  match decode (takeLine r.stream).1 with
  | some text => (.ok (utf8Size text), ⟨(takeLine r.stream).2, r.buffer ++ text⟩)
  | none => (.error (.io "stream did not contain valid UTF-8"), ⟨(takeLine r.stream).2, r.buffer⟩)

/-- One pass of the loop of `read_next_line`: empty lines are skipped. -/
def readPass (r : Reader) : Option (Pass Reader (Except RunnerError ℕ × Reader)) :=
  match readLine r with
  | (.error e, r) => some (.stop (.error e, r))
  | (.ok size, r) =>
      if !(trim isWhitespace r.buffer).isEmpty then some (.stop (.ok size, r)) else some (.again r)

/-- Read the next line from reader into a thread-local buffer. -/
def readNextLine (fuel : ℕ) (r : Reader) : Option (Except RunnerError ℕ × Reader) :=
  run readPass fuel { r with buffer := [] }

/-- Return an iterator over a line's whitespace-delimited segments. -/
def getSegsOfLine (buffer : List Char) : List String :=
  (words isWhitespace buffer).map String.ofList

/-- The error for a line that does not have the format. -/
def invalidLine (buffer : List Char) : RunnerError :=
  .io ("invalid line: " ++ String.ofList buffer)

/-- Expect the next segment from an iterator of segments, returning an error if
there's no next segment. -/
def expectNextSeg (segs : List String) (buffer : List Char) :
    Except RunnerError (String × List String) :=
  match segs with
  | seg :: segs => .ok (seg, segs)
  | [] => .error (invalidLine buffer)

/-- The 'found' field of a Put or Delete. -/
def foundField (found : String) : Except RunnerError Bool :=
  if found = "found" then .ok true
  else if found = "not_found" then .ok false
  else .error (.parse ("invalid 'found' field: " ++ found))

/-- The value field of a Swap or Get. -/
def valueField (value : String) : Option String :=
  if value = "null" then none else some value

/-- What the first line of a response says. -/
inductive FirstLine where
  | resp (resp : KvResp)
  | scan (keyStart keyEnd : String)
  deriving DecidableEq

/-- `from_read` on the first line, up to the loop through scan results. -/
def firstLine (buffer : List Char) : Except RunnerError FirstLine :=
  match getSegsOfLine buffer with
  | "PUT" :: segs => do
      let (key, segs) ← expectNextSeg segs buffer
      let (found, _) ← expectNextSeg segs buffer
      let found ← foundField found
      .ok (.resp (.put key found))
  | "SWAP" :: segs => do
      let (key, segs) ← expectNextSeg segs buffer
      let (oldValue, _) ← expectNextSeg segs buffer
      .ok (.resp (.swap key (valueField oldValue)))
  | "GET" :: segs => do
      let (key, segs) ← expectNextSeg segs buffer
      let (value, _) ← expectNextSeg segs buffer
      .ok (.resp (.get key (valueField value)))
  | "SCAN" :: segs => do
      let (keyStart, segs) ← expectNextSeg segs buffer
      let (keyEnd, segs) ← expectNextSeg segs buffer
      let (begin, _) ← expectNextSeg segs buffer
      if begin ≠ "BEGIN" then .error (invalidLine buffer) else .ok (.scan keyStart keyEnd)
  | "DELETE" :: segs => do
      let (key, segs) ← expectNextSeg segs buffer
      let (found, _) ← expectNextSeg segs buffer
      let found ← foundField found
      .ok (.resp (.delete key found))
  | "STOP" :: _ => .ok (.resp .stop)
  | _ => .error (invalidLine buffer)

/-- What a line among the scan results says: the end of them, or an entry. -/
def scanLine (buffer : List Char) : Except RunnerError (Option (String × String)) :=
  if trim isWhitespace buffer = "SCAN END".toList then .ok none
  else do
    let (key, segs) ← expectNextSeg (getSegsOfLine buffer) buffer
    let (value, _) ← expectNextSeg segs buffer
    .ok (some (key, value))

/-- The entries collected so far, and the reader. -/
abbrev ScanState := List (String × String) × Reader

/-- One pass of the loop through scan results. -/
def scanPass (fuel : ℕ) (st : ScanState) :
    Option (Pass ScanState (Except RunnerError (List (String × String)) × Reader)) :=
  match readNextLine fuel st.2 with
  | none => none
  | some (.error e, r) => some (.stop (.error e, r))
  | some (.ok _, r) =>
      match scanLine r.buffer with
      | .error e => some (.stop (.error e, r))
      | .ok none => some (.stop (.ok st.1, r))
      | .ok (some entry) => some (.again (st.1 ++ [entry], r))

/-- The loop through scan results. -/
def scanLoop (fuel : ℕ) (r : Reader) :
    Option (Except RunnerError (List (String × String)) × Reader) :=
  run (scanPass fuel) fuel ([], r)

/-- Construct a KV operation response from a reader. -/
def fromRead (fuel : ℕ) (r : Reader) : Option (Except RunnerError KvResp × Reader) :=
  match readNextLine fuel r with
  | none => none
  | some (.error e, r) => some (.error e, r)
  | some (.ok _, r) =>
      match firstLine r.buffer with
      | .error e => some (.error e, r)
      | .ok (.resp resp) => some (.ok resp, r)
      | .ok (.scan keyStart keyEnd) =>
          (scanLoop fuel r).map fun (entries, r) => (entries.map (.scan keyStart keyEnd), r)

/-! ### Reading a line -/

/-- A text as it stands in a stream. -/
def ofText (text : List Char) : Stream := text.map some

lemma takeLine_ofText {line : List Char} (hline : '\n' ∉ line) (rest : Stream) :
    takeLine (ofText (line ++ ['\n']) ++ rest) = (ofText (line ++ ['\n']), rest) := by
  induction line with
  | nil => rfl
  | cons c line ih =>
      have hc : some c ≠ some '\n' := fun h => hline (by simp [Option.some.inj h])
      have ih := ih fun h => hline (by simp [h])
      show takeLine (some c :: (ofText (line ++ ['\n']) ++ rest)) = _
      rw [takeLine, ih]
      · rfl
      · exact hc

@[simp] lemma decode_ofText (text : List Char) : decode (ofText text) = some text := by
  induction text with
  | nil => rfl
  | cons c text ih =>
      show (decode (ofText text)).map (c :: ·) = _
      rw [ih]
      rfl

/-- A line that is not empty is the next one. -/
lemma readNextLine_ofText {line : List Char} (hline : '\n' ∉ line)
    (hne : trim isWhitespace (line ++ ['\n']) ≠ []) (rest : Stream) (buffer : List Char)
    (fuel : ℕ) :
    readNextLine (fuel + 1) ⟨ofText (line ++ ['\n']) ++ rest, buffer⟩ =
      some (.ok (utf8Size (line ++ ['\n'])), ⟨rest, line ++ ['\n']⟩) := by
  have hread : readLine ⟨ofText (line ++ ['\n']) ++ rest, []⟩ =
      (.ok (utf8Size (line ++ ['\n'])), ⟨rest, line ++ ['\n']⟩) := by
    simp only [readLine, takeLine_ofText hline, decode_ofText, List.nil_append]
  refine run_succ_of_stop ?_
  rw [readPass, hread]
  simp [hne]

/-! ### More fuel -/

lemma readNextLine_mono {m n : ℕ} (hmn : m ≤ n) {r : Reader}
    {res : Except RunnerError ℕ × Reader} (h : readNextLine m r = some res) :
    readNextLine n r = some res :=
  run_mono (fun _ _ hp => hp) hmn h

lemma scanPass_mono {m n : ℕ} (hmn : m ≤ n) {st : ScanState}
    {p : Pass ScanState (Except RunnerError (List (String × String)) × Reader)}
    (h : scanPass m st = some p) : scanPass n st = some p := by
  rw [scanPass] at h ⊢
  cases hread : readNextLine m st.2 with
  | none =>
      rw [hread] at h
      cases h
  | some res =>
      rw [hread] at h
      rw [readNextLine_mono hmn hread]
      exact h

lemma scanLoop_mono {m n : ℕ} (hmn : m ≤ n) {r : Reader}
    {res : Except RunnerError (List (String × String)) × Reader} (h : scanLoop m r = some res) :
    scanLoop n r = some res :=
  run_mono (fun _ _ hp => scanPass_mono hmn hp) hmn h

lemma fromRead_mono {m n : ℕ} (hmn : m ≤ n) {r : Reader} {res : Except RunnerError KvResp × Reader}
    (h : fromRead m r = some res) : fromRead n r = some res := by
  rw [fromRead] at h ⊢
  cases hread : readNextLine m r with
  | none =>
      rw [hread] at h
      cases h
  | some line =>
      obtain ⟨res', r'⟩ := line
      rw [hread] at h
      rw [readNextLine_mono hmn hread]
      cases res' with
      | error e => exact h
      | ok size =>
          simp only at h ⊢
          cases hfirst : firstLine r'.buffer with
          | error e => rw [hfirst] at h; exact h
          | ok first =>
              rw [hfirst] at h
              cases first with
              | resp resp => exact h
              | scan keyStart keyEnd =>
                  obtain ⟨out, hscan, rfl⟩ := Option.map_eq_some_iff.mp h
                  simp only [scanLoop_mono hmn hscan, Option.map_some]

/-- The outcome does not depend on the fuel. -/
lemma fromRead_unique {m n : ℕ} {r : Reader} {res res' : Except RunnerError KvResp × Reader}
    (h : fromRead m r = some res) (h' : fromRead n r = some res') : res = res' := by
  have hm := fromRead_mono (Nat.le_max_left m n) h
  have hn := fromRead_mono (Nat.le_max_right m n) h'
  exact Option.some.inj (hm.symm.trans hn)

end Madkv
