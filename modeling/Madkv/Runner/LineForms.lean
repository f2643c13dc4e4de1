import Mathlib.Data.Option.Basic
import Madkv.Library.Fallible
import Madkv.Runner.Ioapi

/-!
The forms of the lines that responses are made of.

* `HeadForm`: the segments that each kind of first line begins with.
  `firstLine_eq_ok_iff`: a first line is read as what the form of its first
  segments says, whatever segments follow them.
* `scanLine_end_iff`, `scanLine_entry_iff`: the same for the lines of a listing.
  The end of it is told by the whole line, not by its segments.
* `lineSegs`: the segments of a line, text or not. `headLine`, `listLine`: what a
  line says, errors without their messages.
* `headLine_congr`, `listLine_congr`: lines with the same segments say the same,
  but for the end of a listing.
-/

namespace Madkv

open Fallible Words

/-! ### The first line of a response -/

/-- The segments that a first line begins with, and what it says. -/
inductive HeadForm : List String → FirstLine → Prop
  | put (key : String) (found : Bool) :
      HeadForm ["PUT", key, if found then "found" else "not_found"] (.resp (.put key found))
  | swap (key oldValue : String) :
      HeadForm ["SWAP", key, oldValue] (.resp (.swap key (valueField oldValue)))
  | get (key value : String) : HeadForm ["GET", key, value] (.resp (.get key (valueField value)))
  | scan (keyStart keyEnd : String) :
      HeadForm ["SCAN", keyStart, keyEnd, "BEGIN"] (.scan keyStart keyEnd)
  | delete (key : String) (found : Bool) :
      HeadForm ["DELETE", key, if found then "found" else "not_found"] (.resp (.delete key found))
  | stop : HeadForm ["STOP"] (.resp .stop)

section Forms

variable {buffer buffer' : List Char} {segs rest : List String} {seg found : String} {b : Bool}
  {first : FirstLine}

lemma expectNextSeg_eq_ok :
    expectNextSeg segs buffer = .ok (seg, rest) ↔ segs = seg :: rest := by
  cases segs with
  | nil => simp [expectNextSeg]
  | cons s segs => simp [expectNextSeg]

lemma foundField_eq_ok :
    foundField found = .ok b ↔ found = if b then "found" else "not_found" := by
  rw [foundField]
  by_cases hfound : found = "found"
  · subst hfound
    cases b <;> simp
  · by_cases hnot : found = "not_found"
    · subst hnot
      cases b <;> simp
    · rw [if_neg hfound, if_neg hnot]
      cases b
      · simp [hnot]
      · simp [hfound]

/-- What a first line is read as is decided by its first segments. -/
theorem firstLine_eq_ok_iff : firstLine buffer = .ok first ↔
    ∃ form extra, HeadForm form first ∧ getSegsOfLine buffer = form ++ extra := by
  constructor
  · intro h
    rw [firstLine] at h
    split at h
    · rename_i segs hsegs
      obtain ⟨⟨key, segs₁⟩, hkey, h⟩ := bind_eq_ok.mp h
      obtain ⟨⟨found, segs₂⟩, hfound, h⟩ := bind_eq_ok.mp h
      obtain ⟨b, hb, h⟩ := bind_eq_ok.mp h
      rw [expectNextSeg_eq_ok] at hkey hfound
      rw [foundField_eq_ok] at hb
      cases h
      exact ⟨_, segs₂, .put key b, by rw [hsegs, hkey, hfound, hb]; rfl⟩
    · rename_i segs hsegs
      obtain ⟨⟨key, segs₁⟩, hkey, h⟩ := bind_eq_ok.mp h
      obtain ⟨⟨oldValue, segs₂⟩, hvalue, h⟩ := bind_eq_ok.mp h
      rw [expectNextSeg_eq_ok] at hkey hvalue
      cases h
      exact ⟨_, segs₂, .swap key oldValue, by rw [hsegs, hkey, hvalue]; rfl⟩
    · rename_i segs hsegs
      obtain ⟨⟨key, segs₁⟩, hkey, h⟩ := bind_eq_ok.mp h
      obtain ⟨⟨value, segs₂⟩, hvalue, h⟩ := bind_eq_ok.mp h
      rw [expectNextSeg_eq_ok] at hkey hvalue
      cases h
      exact ⟨_, segs₂, .get key value, by rw [hsegs, hkey, hvalue]; rfl⟩
    · rename_i segs hsegs
      obtain ⟨⟨keyStart, segs₁⟩, hstart, h⟩ := bind_eq_ok.mp h
      obtain ⟨⟨keyEnd, segs₂⟩, hend, h⟩ := bind_eq_ok.mp h
      obtain ⟨⟨word, segs₃⟩, hword, h⟩ := bind_eq_ok.mp h
      rw [expectNextSeg_eq_ok] at hstart hend hword
      have h : (if word ≠ "BEGIN" then .error (invalidLine buffer) else .ok (.scan keyStart keyEnd))
          = Except.ok first := h
      by_cases hbegin : word = "BEGIN"
      · rw [if_neg (not_not_intro hbegin)] at h
        cases h
        exact ⟨_, segs₃, .scan keyStart keyEnd, by rw [hsegs, hstart, hend, hword, hbegin]; rfl⟩
      · rw [if_pos hbegin] at h
        cases h
    · rename_i segs hsegs
      obtain ⟨⟨key, segs₁⟩, hkey, h⟩ := bind_eq_ok.mp h
      obtain ⟨⟨found, segs₂⟩, hfound, h⟩ := bind_eq_ok.mp h
      obtain ⟨b, hb, h⟩ := bind_eq_ok.mp h
      rw [expectNextSeg_eq_ok] at hkey hfound
      rw [foundField_eq_ok] at hb
      cases h
      exact ⟨_, segs₂, .delete key b, by rw [hsegs, hkey, hfound, hb]; rfl⟩
    · rename_i segs hsegs
      cases h
      exact ⟨_, segs, .stop, hsegs⟩
    · cases h
  · rintro ⟨form, extra, hform, hsegs⟩
    rw [firstLine, hsegs]
    cases hform with
    | put key found => cases found <;> rfl
    | delete key found => cases found <;> rfl
    | swap | get | scan | stop => rfl

/-- The last line of a listing is told by all of it. -/
lemma scanLine_end_iff :
    scanLine buffer = .ok none ↔ trim isWhitespace buffer = "SCAN END".toList := by
  rw [scanLine]
  by_cases hend : trim isWhitespace buffer = "SCAN END".toList
  · rw [if_pos hend]
    exact iff_of_true rfl hend
  · rw [if_neg hend]
    refine iff_of_false (fun h => ?_) hend
    obtain ⟨⟨key, segs₁⟩, -, h⟩ := bind_eq_ok.mp h
    obtain ⟨⟨value, segs₂⟩, -, h⟩ := bind_eq_ok.mp h
    cases h

lemma scanLine_entry_iff {key value : String} : scanLine buffer = .ok (some (key, value)) ↔
    trim isWhitespace buffer ≠ "SCAN END".toList
      ∧ ∃ extra, getSegsOfLine buffer = key :: value :: extra := by
  rw [scanLine]
  by_cases hend : trim isWhitespace buffer = "SCAN END".toList
  · rw [if_pos hend]
    exact iff_of_false (fun h => (nomatch h)) fun h => h.1 hend
  · rw [if_neg hend, and_iff_right hend]
    constructor
    · intro h
      obtain ⟨⟨key, segs₁⟩, hkey, h⟩ := bind_eq_ok.mp h
      obtain ⟨⟨value, segs₂⟩, hvalue, h⟩ := bind_eq_ok.mp h
      rw [expectNextSeg_eq_ok] at hkey hvalue
      cases h
      exact ⟨segs₂, by rw [hkey, hvalue]⟩
    · rintro ⟨extra, hsegs⟩
      rw [hsegs]
      rfl

end Forms

/-! ### What a line says -/

/-- The segments of a line. Bytes that are no text belong to the segment they
stand in. -/
def lineSegs (line : Stream) : List Stream := words (fun c => c.any isWhitespace) line

/-- What a line says as the first of a response, `none` for an error. -/
def headLine (line : Stream) : Option FirstLine :=
  (decode line).bind fun text => (firstLine text).toOption

/-- What a line of a listing says, `none` for an error. -/
def listLine (line : Stream) : Option (Option (String × String)) :=
  (decode line).bind fun text => (scanLine text).toOption

/-- The line is `SCAN END`, space around it aside. -/
def endsScan (line : Stream) : Bool :=
  match decode line with
  | some text => decide (trim isWhitespace text = "SCAN END".toList)
  | none => false

section Lines

variable {line line' : Stream} {text text' : List Char}

lemma toOption_eq_some_iff {ε α : Type} {x : Except ε α} {a : α} :
    x.toOption = some a ↔ x = .ok a := by
  cases x <;> simp [Except.toOption]

lemma decode_eq_some_iff : decode line = some text ↔ line = ofText text := by
  constructor
  · intro h
    induction line generalizing text with
    | nil =>
        cases h
        rfl
    | cons c line ih =>
        cases c with
        | none => cases h
        | some c =>
            obtain ⟨text, htext, rfl⟩ := Option.map_eq_some_iff.mp h
            rw [ih htext]
            rfl
  · rintro rfl
    exact decode_ofText text

lemma decode_eq_none_iff : decode line = none ↔ none ∈ line := by
  induction line with
  | nil => simp [decode]
  | cons c line ih =>
      cases c with
      | none => simp [decode]
      | some c => simp [decode, ih]

lemma lineSegs_ofText : lineSegs (ofText text) = (words isWhitespace text).map ofText := by
  rw [lineSegs, ofText, words_map]
  rfl

/-- A line is no text if one of its segments is none. -/
lemma none_mem_iff (line : Stream) : none ∈ line ↔ none ∈ (lineSegs line).flatten := by
  rw [lineSegs, flatten_words, List.mem_filter]
  simp

lemma ofText_injective : Function.Injective ofText :=
  List.map_injective_iff.mpr (Option.some_injective Char)

/-- Lines with the same segments are both texts or both none. -/
lemma decode_of_lineSegs_eq (h : lineSegs line = lineSegs line') :
    (decode line = none ∧ decode line' = none)
      ∨ ∃ text text', decode line = some text ∧ decode line' = some text'
        ∧ getSegsOfLine text = getSegsOfLine text' := by
  have hnone : decode line = none ↔ decode line' = none := by
    rw [decode_eq_none_iff, decode_eq_none_iff, none_mem_iff line, none_mem_iff line', h]
  cases hline : decode line with
  | none => exact Or.inl ⟨rfl, hnone.mp hline⟩
  | some text =>
      obtain ⟨text', hline'⟩ : ∃ text', decode line' = some text' :=
        Option.ne_none_iff_exists'.mp fun h' => by
          rw [hnone.mpr h'] at hline
          cases hline
      refine Or.inr ⟨text, text', rfl, hline', ?_⟩
      rw [decode_eq_some_iff.mp hline, decode_eq_some_iff.mp hline', lineSegs_ofText,
        lineSegs_ofText] at h
      rw [getSegsOfLine, getSegsOfLine, List.map_injective_iff.mpr ofText_injective h]

lemma headLine_eq_some_iff {first : FirstLine} : headLine line = some first ↔
    ∃ text form extra, line = ofText text ∧ HeadForm form first
      ∧ getSegsOfLine text = form ++ extra := by
  simp only [headLine, Option.bind_eq_some_iff, toOption_eq_some_iff, firstLine_eq_ok_iff,
    decode_eq_some_iff, exists_and_left]

/-- **The first line of a response is insensitive to spacing.** -/
theorem headLine_congr (h : lineSegs line = lineSegs line') : headLine line = headLine line' := by
  rw [headLine, headLine]
  rcases decode_of_lineSegs_eq h with ⟨hline, hline'⟩ | ⟨text, text', hline, hline', hsegs⟩
  · rw [hline, hline']
  · rw [hline, hline']
    refine Option.ext fun first => ?_
    simp only [Option.bind_some, toOption_eq_some_iff, firstLine_eq_ok_iff, hsegs]

lemma listLine_eq_end_iff : listLine line = some none ↔ endsScan line = true := by
  rw [listLine, endsScan]
  cases decode line with
  | none => simp
  | some text =>
      show (scanLine text).toOption = some none ↔ _
      rw [toOption_eq_some_iff, scanLine_end_iff, decide_eq_true_iff]

/-- The lines of a listing are insensitive to spacing, except the one that ends it. -/
theorem listLine_congr (h : lineSegs line = lineSegs line')
    (hend : endsScan line = endsScan line') : listLine line = listLine line' := by
  rw [endsScan, endsScan] at hend
  rw [listLine, listLine]
  rcases decode_of_lineSegs_eq h with ⟨hline, hline'⟩ | ⟨text, text', hline, hline', hsegs⟩
  · rw [hline, hline']
  · rw [hline, hline', decide_eq_decide] at hend
    rw [hline, hline']
    refine Option.ext fun said => ?_
    cases said with
    | none => simp only [Option.bind_some, toOption_eq_some_iff, scanLine_end_iff, hend]
    | some entry =>
        obtain ⟨key, value⟩ := entry
        simp only [Option.bind_some, toOption_eq_some_iff, scanLine_entry_iff, ne_eq, hend, hsegs]

end Lines

end Madkv
