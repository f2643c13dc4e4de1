import Madkv.Runner.ResponseLines

/-!
When reading a response comes to an end.

* `Answering`: the streams that hold a whole response, or what is reported as an
  error.
* `opensScan_iff`, `entryLine_iff`: the lines that keep a reader waiting for
  more. `answering_iff`: `Answering` by the outcome on the lines.
* `fromRead_ends_iff`: `from_read` returns on exactly these streams.
-/

namespace Madkv

open Loop Words

/-- A line `SCAN <key_start> <key_end> BEGIN`. -/
def opensScan (line : Stream) : Bool :=
  match decode line with
  | some text =>
      match getSegsOfLine text with
      | "SCAN" :: _ :: _ :: "BEGIN" :: _ => true
      | _ => false
  | none => false

/-- A line that the loop through scan results takes for an entry. -/
def entryLine (line : Stream) : Bool :=
  match decode line with
  | some text =>
      decide (trim isWhitespace text ≠ "SCAN END".toList)
        && decide (2 ≤ (getSegsOfLine text).length)
  | none => false

/-- The stream holds a line, and if it begins a Scan, one after it that is no
entry. -/
def Answering (stream : Stream) : Prop :=
  match liveLines stream with
  | [] => False
  | line :: rest => opensScan line = true → ∃ line' ∈ rest, entryLine line' = false

instance (stream : Stream) : Decidable (Answering stream) :=
  match h : liveLines stream with
  | [] => .isFalse (by rw [Answering, h]; exact not_false)
  | line :: rest =>
      decidable_of_iff (opensScan line = true → ∃ line' ∈ rest, entryLine line' = false)
        (by rw [Answering, h])

/-! ### The lines that keep a reader waiting -/

section Lines

variable {line : Stream}

/-- Whether the first line begins a Scan. -/
lemma opensScan_iff : opensScan line = true ↔
    ∃ keyStart keyEnd, headLine line = some (.scan keyStart keyEnd) := by
  rw [opensScan, headLine]
  cases decode line with
  | none => simp
  | some text =>
      simp only [Option.bind_some, toOption_eq_some_iff, firstLine_eq_ok_iff]
      constructor
      · intro h
        split at h
        · rename_i keyStart keyEnd segs hsegs
          exact ⟨keyStart, keyEnd, _, segs, .scan keyStart keyEnd, hsegs⟩
        · cases h
      · rintro ⟨keyStart, keyEnd, form, segs, hform, hsegs⟩
        cases hform
        rw [hsegs]
        rfl

/-- A list with two elements at least. -/
lemma exists_cons_cons {α : Type} {l : List α} (h : 2 ≤ l.length) :
    ∃ a b rest, l = a :: b :: rest := by
  obtain ⟨a, l, rfl⟩ := List.exists_cons_of_length_pos (by omega : 0 < l.length)
  rw [List.length_cons] at h
  obtain ⟨b, rest, rfl⟩ := List.exists_cons_of_length_pos (by omega : 0 < l.length)
  exact ⟨a, b, rest, rfl⟩

lemma entryLine_iff : entryLine line = true ↔ ∃ entry, listLine line = some (some entry) := by
  rw [entryLine, listLine]
  cases decode line with
  | none => simp
  | some text =>
      simp only [Option.bind_some, toOption_eq_some_iff, Prod.exists, scanLine_entry_iff,
        Bool.and_eq_true, decide_eq_true_eq]
      constructor
      · rintro ⟨hend, hlength⟩
        obtain ⟨key, value, segs, hsegs⟩ := exists_cons_cons hlength
        exact ⟨key, value, hend, segs, hsegs⟩
      · rintro ⟨key, value, hend, segs, hsegs⟩
        exact ⟨hend, by rw [hsegs]; simp⟩

end Lines

lemma readListing_waits_iff {entries : List (String × String)} {ls : List Stream} :
    readListing entries ls = .waits ↔ ∀ line ∈ ls, entryLine line = true := by
  induction ls generalizing entries with
  | nil => simp [readListing]
  | cons line rest ih =>
      rw [readListing, List.forall_mem_cons, entryLine_iff]
      cases listLine line with
      | none => simp
      | some said =>
          cases said with
          | none => simp
          | some entry => simp [ih]

lemma answering_iff {stream : Stream} :
    Answering stream ↔ readResponse (liveLines stream) ≠ .waits := by
  rw [Answering]
  cases liveLines stream with
  | nil => simp [readResponse]
  | cons line rest =>
      simp only [readResponse, opensScan_iff]
      cases headLine line with
      | none => simp
      | some first =>
          cases first with
          | resp resp => simp
          | scan keyStart keyEnd => simp [readListing_waits_iff]

/-- **When reading ends**: `from_read` returns iff the stream holds a line that
is not empty and, if that line begins a Scan, a later one that is no entry. -/
theorem fromRead_ends_iff (stream : Stream) (buffer : List Char) :
    (∃ fuel out, fromRead fuel ⟨stream, buffer⟩ = some out) ↔ Answering stream :=
  fromRead_returns_iff.trans answering_iff.symm

/-- A client that dies before it answers leaves an empty stream, on which
reading does not end. -/
theorem exists_fromRead_hangs :
    ¬ ∀ (stream : Stream) (buffer : List Char), ∃ fuel out,
        fromRead fuel ⟨stream, buffer⟩ = some out := by
  intro h
  obtain ⟨fuel, out, hread⟩ := h [] []
  rw [fromRead, readNextLine_eq_none rfl] at hread
  cases hread

/-- A listing cut short is not enough either. -/
example : ¬ Answering (ofText "SCAN a z BEGIN\n  a x\n".toList) := by
  decide

end Madkv
