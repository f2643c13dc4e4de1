import Mathlib.Data.Int.Basic
import Mathlib.Data.List.Infix
import Madkv.Library.Words

/-!
Python texts and lists: searching, slicing, splitting, and numbers as texts.

* `sliceFrom`, `sliceTo`, `slice`, `index`: positions from the end are negative.
  For positions from the start they are `List.drop`, `List.take` and the look-up.
* `find`: the first place of a character. What comes after it is the rest of a text
  (`sliceFrom_find`).
* `split`, `join`: the second is undone by the first (`split_join`).
* `fields`: the words of a text. `isIn`, `endsWith`: parts of a text. `fileLines`: the
  lines of a text file, which are read one by one (`fileLines_line`).
* `int`: a number from a text, in ASCII digits, of any length. `int_decimal`: it is
  the one that the text was written for.
-/

namespace Python

open Words

/-- A text, as its characters. -/
abbrev Str := List Char

/-- What is raised. -/
inductive Error where
  | valueError (msg : String)
  /-- the `ValueError` of `int` -/
  | invalidLiteral (text : Str)
  | indexError
  deriving DecidableEq, Repr

/-! ### Slices -/

section Slices

variable {α : Type*} {l : List α} {i j : ℕ}

/-- A bound of a slice as a number of elements. -/
def bound (l : List α) (i : ℤ) : ℕ := if i < 0 then (i + l.length).toNat else min i.toNat l.length

/-- `l[i:]` -/
def sliceFrom (l : List α) (i : ℤ) : List α := l.drop (bound l i)

/-- `l[:j]` -/
def sliceTo (l : List α) (j : ℤ) : List α := l.take (bound l j)

/-- `l[i:j]` -/
def slice (l : List α) (i j : ℤ) : List α := (l.take (bound l j)).drop (bound l i)

/-- `l[i]` -/
def index (l : List α) (i : ℤ) : Except Error α :=
  let place := if i < 0 then i + l.length else i
  if place < 0 then .error .indexError
  else match l[place.toNat]? with
    | some a => .ok a
    | none => .error .indexError

lemma bound_natCast (l : List α) (i : ℕ) : bound l i = min i l.length := by
  rw [bound, if_neg (by omega), Int.toNat_natCast]

@[simp] lemma sliceFrom_natCast (l : List α) (i : ℕ) : sliceFrom l i = l.drop i := by
  rw [sliceFrom, bound_natCast]
  rcases Nat.le_total i l.length with h | h
  · rw [min_eq_left h]
  · rw [min_eq_right h, List.drop_length, List.drop_eq_nil_of_le h]

@[simp] lemma sliceTo_natCast (l : List α) (j : ℕ) : sliceTo l j = l.take j := by
  rw [sliceTo, bound_natCast]
  rcases Nat.le_total j l.length with h | h
  · rw [min_eq_left h]
  · rw [min_eq_right h, List.take_length, List.take_of_length_le h]

@[simp] lemma slice_natCast (l : List α) (i j : ℕ) : slice l i j = (l.take j).drop i := by
  have htake : slice l i j = (sliceTo l j).drop (min i l.length) := by
    rw [slice, bound_natCast l i, sliceTo]
  rw [htake, sliceTo_natCast]
  rcases Nat.le_total i l.length with h | h
  · rw [min_eq_left h]
  · have hlength : (l.take j).length ≤ l.length := List.length_take_le' j l
    rw [min_eq_right h, List.drop_eq_nil_of_le hlength, List.drop_eq_nil_of_le (hlength.trans h)]

lemma index_natCast {a : α} (h : l[i]? = some a) : index l i = .ok a := by
  have hplace : ¬ (i : ℤ) < 0 := by omega
  simp only [index, if_neg hplace, Int.toNat_natCast, h]

/-- `l[-1]` -/
lemma index_neg_one (l : List α) (a : α) : index (l ++ [a]) (-1) = .ok a := by
  have hplace : (-1 : ℤ) + ((l ++ [a]).length : ℤ) = (l.length : ℤ) := by
    rw [List.length_append, List.length_singleton]
    omega
  have hneg : (-1 : ℤ) < 0 := by omega
  have hnonneg : ¬ (l.length : ℤ) < 0 := by omega
  have hget : (l ++ [a])[l.length]? = some a := by simp
  simp only [index, if_pos hneg, hplace, if_neg hnonneg, Int.toNat_natCast, hget]

end Slices

/-! ### Texts -/

section Texts

variable {s x y : Str} {c : Char}

/-- What holds of all characters of a text is decided along the text, not over all of the
characters there are. -/
instance (priority := 1100) decidableForallMem (P : Char → Prop) [DecidablePred P] (s : Str) :
    Decidable (∀ c ∈ s, P c) := List.decidableBAll P s

/-- `s.find(c)` -/
def find (s : Str) (c : Char) : ℤ :=
  match s.findIdx? (· == c) with
  | some i => i
  | none => -1

/-- `c.isspace()` -/
def isSpace (c : Char) : Bool :=
  let n := c.toNat
  decide (9 ≤ n ∧ n ≤ 13) || decide (0x1C ≤ n ∧ n ≤ 0x20) || n == 0x85 || n == 0xA0 || n == 0x1680
    || decide (0x2000 ≤ n ∧ n ≤ 0x200A) || n == 0x2028 || n == 0x2029 || n == 0x202F
    || n == 0x205F || n == 0x3000

/-- `s.strip()` -/
def strip (s : Str) : Str := trim isSpace s

/-- `s.split(sep)` -/
def split (s : Str) (sep : Char) : List Str := s.splitOn sep

/-- `sep.join(parts)` -/
def join (sep : Char) (parts : List Str) : Str := [sep].intercalate parts

lemma find_append (h : c ∉ x) : find (x ++ c :: y) c = x.length := by
  have hfind : (x ++ c :: y).findIdx? (· == c) = some x.length := by
    rw [List.findIdx?_append, List.findIdx?_eq_none_iff.mpr fun d hd => ?_]
    · simp [List.findIdx?_cons]
    · simp only [beq_eq_false_iff_ne]
      rintro rfl
      exact h hd
  rw [find, hfind]

/-- What comes after the first place of a character. -/
lemma sliceFrom_find (h : c ∉ x) : sliceFrom (x ++ c :: y) (find (x ++ c :: y) c + 1) = y := by
  rw [find_append h]
  change sliceFrom (x ++ c :: y) ((x.length + 1 : ℕ) : ℤ) = y
  rw [sliceFrom_natCast, List.drop_append, List.drop_eq_nil_of_le (Nat.le_succ _)]
  simp

lemma strip_eq_self (h : ∀ c ∈ s, isSpace c = false) : strip s = s := trim_eq_self h

/-- `s.split()` -/
def fields (s : Str) : List Str := words isSpace s

/-- `part in s` -/
def isIn (part s : Str) : Bool := decide (part <:+: s)

/-- `s.endswith(tail)` -/
def endsWith (s tail : Str) : Bool := decide (tail <:+ s)

/-- The lines of a text file, with universal newlines. -/
def fileLines : Str → List Str
  | [] => []
  | '\r' :: '\n' :: s => ['\n'] :: fileLines s
  | '\r' :: s => ['\n'] :: fileLines s
  | '\n' :: s => ['\n'] :: fileLines s
  | c :: s =>
      match fileLines s with
      | [] => [[c]]
      | line :: rest => (c :: line) :: rest

/-- A line has no other line break in it than the one at its end. -/
def OneLine (s : Str) : Prop := ∀ c ∈ s, c ≠ '\r' ∧ c ≠ '\n'

instance : DecidablePred OneLine := fun s =>
  inferInstanceAs (Decidable (∀ c ∈ s, c ≠ '\r' ∧ c ≠ '\n'))

/-- A text at the end of a line, or of no line yet. -/
def EndsLine (s : Str) : Prop := s = [] ∨ s.getLast? = some '\n'

lemma OneLine.append (hx : OneLine x) (hy : OneLine y) : OneLine (x ++ y) := fun c hc =>
  (List.mem_append.mp hc).elim (hx c) (hy c)

lemma isIn_eq_false (hc : c ∈ x) (h : c ∉ s) : isIn x s = false :=
  decide_eq_false fun hin => h (hin.subset hc)

/-- Blank space at the ends of a text does not matter for what is in it. -/
lemma isIn_strip {a b : Char} (hfirst : x.head? = some a) (hlast : x.getLast? = some b)
    (ha : isSpace a = false) (hb : isSpace b = false) : isIn x (strip s) = isIn x s := by
  rw [isIn, isIn, decide_eq_decide]
  exact infix_trim_iff hfirst hlast ha hb

lemma fields_strip : fields (strip s) = fields s := words_trim s

lemma fileLines_cons (hcr : c ≠ '\r') (hlf : c ≠ '\n') : fileLines (c :: s) =
    match fileLines s with
    | [] => [[c]]
    | line :: rest => (c :: line) :: rest := by
  rw [fileLines.eq_def]
  split
  · rename_i heq
    cases heq
  · rename_i heq
    exact absurd (List.cons.inj heq).1 hcr
  · rename_i heq
    exact absurd (List.cons.inj heq).1 hcr
  · rename_i heq
    exact absurd (List.cons.inj heq).1 hlf
  · rename_i heq
    cases heq
    rfl

/-- A line is read, then the rest. -/
lemma fileLines_line (h : OneLine x) :
    fileLines (x ++ '\n' :: y) = (x ++ ['\n']) :: fileLines y := by
  induction x with
  | nil => rw [List.nil_append, fileLines, List.nil_append]
  | cons c x ih =>
      obtain ⟨hcr, hlf⟩ := h c List.mem_cons_self
      rw [List.cons_append, fileLines_cons hcr hlf, ih fun d hd => h d (List.mem_cons_of_mem c hd)]
      rfl

lemma EndsLine.tail (h : EndsLine (c :: s)) : EndsLine s := by
  cases s with
  | nil => exact Or.inl rfl
  | cons d s =>
      have hlast := h.resolve_left (List.cons_ne_nil c (d :: s))
      rw [List.getLast?_cons_cons] at hlast
      exact Or.inr hlast

lemma EndsLine.ne_nil (h : EndsLine (c :: s)) (hc : c ≠ '\n') : s ≠ [] := by
  rintro rfl
  exact hc (Option.some.inj (h.resolve_left (List.cons_ne_nil c [])))

lemma fileLines_ne_nil (h : s ≠ []) : fileLines s ≠ [] := by
  rw [fileLines.eq_def]
  split
  · exact absurd rfl h
  · exact List.cons_ne_nil _ _
  · exact List.cons_ne_nil _ _
  · exact List.cons_ne_nil _ _
  · split <;> exact List.cons_ne_nil _ _

/-- Whole lines are read before what comes after them. -/
lemma fileLines_append (h : EndsLine x) : fileLines (x ++ y) = fileLines x ++ fileLines y := by
  induction x using fileLines.induct with
  | case1 => rfl
  | case2 s ih =>
      rw [List.cons_append, List.cons_append, fileLines, fileLines, ih h.tail.tail,
        List.cons_append]
  | case3 s hs ih =>
      obtain ⟨d, s', rfl⟩ := List.exists_cons_of_ne_nil (h.ne_nil (by decide))
      have hd : d ≠ '\n' := fun heq => hs s' (by rw [heq])
      rw [List.cons_append, fileLines, fileLines, ih h.tail, List.cons_append]
      · exact hs
      · exact fun s heq => hd (List.cons.inj heq).1
  | case4 s ih =>
      rw [List.cons_append, fileLines, fileLines, ih h.tail, List.cons_append]
  | case5 c s _ _ hlf hnil => exact absurd hnil (fileLines_ne_nil (h.ne_nil hlf))
  | case6 c s _ hcr hlf line rest hlines ih =>
      rw [List.cons_append, fileLines_cons hcr hlf, fileLines_cons hcr hlf, ih h.tail, hlines]
      rfl

lemma split_join {sep : Char} {parts : List Str} (hparts : ∀ s ∈ parts, sep ∉ s)
    (hne : parts ≠ []) : split (join sep parts) sep = parts :=
  List.splitOn_intercalate sep hparts hne

end Texts

/-! ### Numbers -/

section Numbers

/-- The value of digits, with single underscores between them. -/
def digitsValue (s : Str) : Option ℕ :=
  let groups := s.splitOn '_'
  if groups.all fun g => !g.isEmpty && g.all Char.isDigit then
    some (Nat.ofDigitChars 10 groups.flatten 0)
  else none

/-- The value of digits after an optional sign. -/
def signedValue : Str → Option ℤ
  | '-' :: ds => (digitsValue ds).map fun n : ℕ => -(n : ℤ)
  | '+' :: ds => (digitsValue ds).map fun n : ℕ => (n : ℤ)
  | ds => (digitsValue ds).map fun n : ℕ => (n : ℤ)

/-- `int(s)` -/
def int (s : Str) : Except Error ℤ :=
  match signedValue (strip s) with
  | some n => .ok n
  | none => .error (.invalidLiteral s)

/-- `str(n)` -/
def decimal (n : ℕ) : Str := Nat.toDigits 10 n

lemma isDigit_of_mem_decimal {n : ℕ} {c : Char} (h : c ∈ decimal n) : c.isDigit = true :=
  Nat.isDigit_of_mem_toDigits (by omega) (by omega) h

lemma isSpace_of_isDigit {c : Char} (h : c.isDigit = true) : isSpace c = false := by
  simp only [Char.isDigit, Bool.and_eq_true, decide_eq_true_eq, ge_iff_le,
    UInt32.le_iff_toNat_le] at h
  have hrange : 48 ≤ c.toNat ∧ c.toNat ≤ 57 := h
  grind [isSpace]

lemma digitsValue_decimal (n : ℕ) : digitsValue (decimal n) = some n := by
  have hsplit : (decimal n).splitOn '_' = [decimal n] :=
    List.splitOn_eq_singleton Nat.underscore_not_in_toDigits
  have hne : decimal n ≠ [] := Nat.toDigits_ne_nil
  have hdigits : ∀ c ∈ decimal n, c.isDigit = true := fun c hc => isDigit_of_mem_decimal hc
  have hvalue : Nat.ofDigitChars 10 (decimal n) 0 = n := Nat.ofDigitChars_ten_toDigits
  simpa [digitsValue, hsplit, hne, hvalue] using hdigits

/-- A number is read back from its text. -/
theorem int_decimal (n : ℕ) : int (decimal n) = .ok (n : ℤ) := by
  have hstrip : strip (decimal n) = decimal n :=
    strip_eq_self fun c hc => isSpace_of_isDigit (isDigit_of_mem_decimal hc)
  have hsign {c : Char} {ds : Str} (h : decimal n = c :: ds) : c.isDigit = true :=
    isDigit_of_mem_decimal (h ▸ List.mem_cons_self)
  have hvalue : signedValue (decimal n) = some (n : ℤ) := by
    rw [signedValue.eq_def]
    split
    · exact absurd (hsign ‹_›) (by decide)
    · exact absurd (hsign ‹_›) (by decide)
    · rw [digitsValue_decimal]
      rfl
  rw [int, hstrip, hvalue]

end Numbers

end Python
