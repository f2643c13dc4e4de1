import Madkv.Library.Decimals

/-!
Printed lines: texts in colour, and fields of a fixed width.

* `Colors`: what `cprintln!` makes of a text between tags, of which no more is assumed than
  that it adds escape codes before and after it. `Colors.ansi`: the codes of terminals.
* `alignLeft`, `alignRight`: a field that is filled up with blanks.
* `printed`: lines on the standard output.
* `Field`: a word of a line, with a gap before it and characters that are known.
-/

namespace Madkv

open Decimals Python Words

/-- The tags that the programs use. -/
inductive Tag where
  | s
  | yellow
  | cyan
  | magenta
  | green
  | red

def esc : Char := Char.ofNat 27

/-- The escape code with some parameters. -/
def escape (params : Str) : Str := esc :: '[' :: (params ++ ['m'])

/-- A text between its tags, as `color_print` writes it: only escape codes are added. -/
structure Colors where
  paint : List Tag → Str → Str
  codes : ∀ tags text, ∃ opening closing : List Str,
    (∀ params ∈ opening ++ closing, ∀ c ∈ params, c.isDigit = true ∨ c = ';')
      ∧ paint tags text = opening.flatMap escape ++ (text ++ closing.flatMap escape)

/-- `{:width}` of a text -/
def alignLeft (width : ℕ) (s : Str) : Str := s.rightpad width ' '

/-- `{:width}` of a number -/
def alignRight (width : ℕ) (s : Str) : Str := s.leftpad width ' '

/-- What `println!` puts out for some lines. -/
def printed (ls : List Str) : Str := ls.flatMap fun line => line ++ ['\n']

/-- The characters of escape codes. -/
def EscapeChar (c : Char) : Prop := c = esc ∨ c = '[' ∨ c.isDigit = true ∨ c = 'm' ∨ c = ';'

instance : DecidablePred EscapeChar := fun c =>
  inferInstanceAs (Decidable (c = esc ∨ c = '[' ∨ c.isDigit = true ∨ c = 'm' ∨ c = ';'))

section Characters

variable {colors : Colors} {tags : List Tag} {text s : Str} {c : Char} {width : ℕ}
  {ls : List Str}

lemma escapeChar_of_mem {params : Str} (hparams : ∀ c ∈ params, c.isDigit = true ∨ c = ';')
    (hc : c ∈ escape params) : EscapeChar c := by
  simp only [escape, List.mem_cons, List.mem_append, List.not_mem_nil, or_false] at hc
  rcases hc with hc | hc | hc | hc
  · exact Or.inl hc
  · exact Or.inr (Or.inl hc)
  · rcases hparams c hc with hc | hc
    · exact Or.inr (Or.inr (Or.inl hc))
    · exact Or.inr (Or.inr (Or.inr (Or.inr hc)))
  · exact Or.inr (Or.inr (Or.inr (Or.inl hc)))

lemma mem_paint (hc : c ∈ colors.paint tags text) : c ∈ text ∨ EscapeChar c := by
  obtain ⟨opening, closing, hparams, heq⟩ := colors.codes tags text
  rw [heq, List.mem_append, List.mem_append] at hc
  rcases hc with hc | hc | hc
  · obtain ⟨params, hmem, hc⟩ := List.mem_flatMap.mp hc
    exact Or.inr (escapeChar_of_mem (hparams params (List.mem_append_left closing hmem)) hc)
  · exact Or.inl hc
  · obtain ⟨params, hmem, hc⟩ := List.mem_flatMap.mp hc
    exact Or.inr (escapeChar_of_mem (hparams params (List.mem_append_right opening hmem)) hc)

lemma infix_paint (colors : Colors) (tags : List Tag) (text : Str) :
    text <:+: colors.paint tags text := by
  obtain ⟨opening, closing, -, heq⟩ := colors.codes tags text
  rw [heq]
  exact List.infix_append' _ _ _

/-- A field holds its text and blanks. -/
lemma mem_alignRight (hc : c ∈ alignRight width s) : c ∈ s ∨ c = ' ' := by
  rw [alignRight, List.leftpad, List.mem_append] at hc
  exact hc.symm.imp_right List.eq_of_mem_replicate

lemma mem_alignLeft (hc : c ∈ alignLeft width s) : c ∈ s ∨ c = ' ' := by
  rw [alignLeft, List.rightpad, List.mem_append] at hc
  exact hc.imp_right List.eq_of_mem_replicate

/-- A field has blanks before it, and consists of some letters or of a number. -/
structure Field (letters : List Char) (row : Str × Str) : Prop where
  gap : ∀ c ∈ row.1, c = ' '
  gap_ne_nil : row.1 ≠ []
  ne_nil : row.2 ≠ []
  chars : ∀ c ∈ row.2, c ∈ letters ∨ NumChar c

variable {letters gap : List Char} {rows : List (Str × Str)} {k : ℕ}

lemma Field.word (hgap : ∀ c ∈ gap, c = ' ') (hne : gap ≠ []) (hs : s ≠ [])
    (hchars : ∀ c ∈ s, c ∈ letters) : Field letters (gap, s) :=
  ⟨hgap, hne, hs, fun c hc => Or.inl (hchars c hc)⟩

lemma Field.number (hgap : ∀ c ∈ gap, c = ' ') (hne : gap ≠ []) (hs : s ≠ [])
    (hchars : ∀ c ∈ s, NumChar c) : Field letters (gap ++ List.replicate k ' ', s) where
  gap c hc := (List.mem_append.mp hc).elim (hgap c) List.eq_of_mem_replicate
  gap_ne_nil := List.append_ne_nil_of_left_ne_nil hne _
  ne_nil := hs
  chars c hc := Or.inr (hchars c hc)

lemma spaced_of_fields (h : ∀ row ∈ rows, Field letters row)
    (hletters : ∀ c ∈ letters, isSpace c = false) : Spaced isSpace rows where
  gaps row hrow c hc := by
    rw [(h row hrow).gap c hc]
    rfl
  apart row hrow := (h row (List.mem_of_mem_tail hrow)).gap_ne_nil
  words row hrow := ⟨(h row hrow).ne_nil, fun c hc =>
    ((h row hrow).chars c hc).elim (hletters c) isSpace_of_numChar⟩

lemma mem_of_fields (h : ∀ row ∈ rows, Field letters row) (hc : c ∈ spaced rows) :
    c = ' ' ∨ c ∈ letters ∨ NumChar c := by
  obtain ⟨row, hrow, hc⟩ := mem_spaced.mp hc
  exact hc.imp ((h row hrow).gap c) ((h row hrow).chars c)

/-- The file that the lines are written to has these lines. -/
lemma fileLines_printed (h : ∀ line ∈ ls, OneLine line) :
    fileLines (printed ls) = ls.map fun line => line ++ ['\n'] := by
  induction ls with
  | nil => rfl
  | cons line ls ih =>
      have hrest : printed (line :: ls) = line ++ '\n' :: printed ls := by
        rw [printed, List.flatMap_cons, List.append_assoc]
        rfl
      rw [hrest, fileLines_line (h line List.mem_cons_self), List.map_cons,
        ih fun l hl => h l (List.mem_cons_of_mem line hl)]

end Characters

/-! ### The codes of terminals -/

/-- The parameters that start a tag. -/
def Tag.opening : Tag → Str
  | .s => "1".toList
  | .red => "31".toList
  | .green => "32".toList
  | .yellow => "33".toList
  | .magenta => "35".toList
  | .cyan => "36".toList

/-- The parameters that end it. -/
def Tag.closing : Tag → Str
  | .s => "22".toList
  | .yellow | .cyan | .magenta | .green | .red => "39".toList

/-- The colour of a text is set before its weight, and reset before it. -/
def colorFirst (tags : List Tag) : List Tag :=
  tags.filter (fun tag => tag.closing ≠ Tag.s.closing)
    ++ tags.filter (fun tag => tag.closing = Tag.s.closing)

lemma Tag.isDigit_codes (tag : Tag) : ∀ c ∈ tag.opening ++ tag.closing, c.isDigit = true := by
  cases tag <;> decide

def Colors.ansi : Colors where
  paint tags text := ((colorFirst tags).map Tag.opening).flatMap escape
    ++ (text ++ ((colorFirst tags).map Tag.closing).flatMap escape)
  codes tags text := by
    refine ⟨_, _, fun params hparams c hc => Or.inl ?_, rfl⟩
    rcases List.mem_append.mp hparams with hparams | hparams
    · obtain ⟨tag, -, rfl⟩ := List.mem_map.mp hparams
      exact tag.isDigit_codes c (List.mem_append_left tag.closing hc)
    · obtain ⟨tag, -, rfl⟩ := List.mem_map.mp hparams
      exact tag.isDigit_codes c (List.mem_append_right tag.opening hc)

end Madkv
