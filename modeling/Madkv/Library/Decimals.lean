import Mathlib.Data.Rat.Floor
import Mathlib.Tactic.FieldSimp
import Mathlib.Tactic.Ring
import Madkv.Library.Python

/-!
Floating-point numbers that one program prints and another one reads.

* `Floats`: the two programs' texts of numbers. What is printed with some decimal places
  is read as the number rounded to them.
* `decimals`: the rational numbers, printed as decimals and rounded half to even.
-/

namespace Decimals

open Python

/-- The characters of printed numbers, those of `NaN` and `inf` among them. -/
def NumChar (c : Char) : Prop := c.isDigit = true ∨ c ∈ ['.', '-', 'N', 'a', 'i', 'n', 'f']

instance : DecidablePred NumChar := fun c => inferInstanceAs
  (Decidable (c.isDigit = true ∨ c ∈ ['.', '-', 'N', 'a', 'i', 'n', 'f']))

lemma isSpace_of_numChar {c : Char} (h : NumChar c) : isSpace c = false := by
  rcases h with h | h
  · exact isSpace_of_isDigit h
  · revert c
    decide

/-- Numbers that are printed with `format` and read with `float`. -/
structure Floats (F : Type) where
  /-- `format!("{:.prec$}", x)` -/
  format : ℕ → F → Str
  /-- `float(s)` -/
  float : Str → Except Error F
  /-- the number that is printed with some decimal places -/
  rounded : ℕ → F → F
  ofNat : ℕ → F
  format_ne_nil : ∀ prec x, format prec x ≠ []
  numChar : ∀ prec x, ∀ c ∈ format prec x, NumChar c
  float_format : ∀ prec x, float (format prec x) = .ok (rounded prec x)
  float_decimal : ∀ n, float (decimal n) = .ok (ofNat n)

/-! ### Rational numbers as decimals -/

/-- The nearest integer, of two the even one. -/
def roundHalfEven (x : ℚ) : ℤ :=
  let n := ⌊x⌋
  if 2 * (x - n) < 1 then n else if 1 < 2 * (x - n) then n + 1 else if n % 2 = 0 then n else n + 1

/-- The digits of a number up to some decimal places, as a natural number. -/
def scaled (prec : ℕ) (x : ℚ) : ℕ := (roundHalfEven (|x| * 10 ^ prec)).toNat

/-- The integer part and, if there are decimal places, the fractional part. -/
def decimalParts (prec n : ℕ) : List Str :=
  decimal (n / 10 ^ prec)
    :: if prec = 0 then [] else [(decimal (n % 10 ^ prec)).leftpad prec '0']

def formatDecimal (prec : ℕ) (x : ℚ) : Str :=
  (if x < 0 then ['-'] else []) ++ join '.' (decimalParts prec (scaled prec x))

/-- The value of decimal digits. -/
def plainDigits (s : Str) : Except Error ℕ :=
  if s ≠ [] ∧ s.all Char.isDigit = true then .ok (Nat.ofDigitChars 10 s 0)
  else .error (.invalidLiteral s)

/-- The value of a decimal number without a sign. -/
def readUnsigned (s : Str) : Except Error ℚ :=
  match split s '.' with
  | [whole] => do
      let n ← plainDigits whole
      .ok n
  | [whole, fraction] => do
      let n ← plainDigits whole
      let m ← plainDigits fraction
      .ok (n + m / 10 ^ fraction.length)
  | _ => .error (.invalidLiteral s)

def readDecimal : Str → Except Error ℚ
  | '-' :: s => (readUnsigned s).map fun x => -x
  | s => readUnsigned s

section Fixed

variable {prec n : ℕ} {x : ℚ} {s : Str} {c : Char}

/-- Digits after some zeros. -/
lemma isDigit_of_mem_leftpad (hc : c ∈ (decimal n).leftpad prec '0') : c.isDigit = true := by
  rw [List.leftpad, List.mem_append] at hc
  rcases hc with hc | hc
  · rw [List.eq_of_mem_replicate hc]
    rfl
  · exact isDigit_of_mem_decimal hc

lemma leftpad_ne_nil : (decimal n).leftpad prec '0' ≠ [] :=
  List.append_ne_nil_of_right_ne_nil _ Nat.toDigits_ne_nil

lemma isDigit_of_mem_decimalParts (hs : s ∈ decimalParts prec n) (hc : c ∈ s) :
    c.isDigit = true := by
  rw [decimalParts, List.mem_cons] at hs
  rcases hs with rfl | hs
  · exact isDigit_of_mem_decimal hc
  · split at hs
    · cases hs
    · rw [List.mem_singleton.mp hs] at hc
      exact isDigit_of_mem_leftpad hc

lemma plainDigits_leftpad (prec n : ℕ) :
    plainDigits ((decimal n).leftpad prec '0') = .ok n := by
  rw [plainDigits, if_pos ⟨leftpad_ne_nil, List.all_eq_true.mpr fun c => isDigit_of_mem_leftpad⟩,
    List.leftpad, Nat.ofDigitChars_append, Nat.ofDigitChars_replicate_zero, Nat.mul_zero, decimal,
    Nat.ofDigitChars_ten_toDigits]

lemma plainDigits_decimal (n : ℕ) : plainDigits (decimal n) = .ok n := by
  simpa [List.leftpad] using plainDigits_leftpad 0 n

lemma join_decimalParts (prec n : ℕ) : join '.' (decimalParts prec n) = decimal (n / 10 ^ prec)
    ++ if prec = 0 then [] else '.' :: (decimal (n % 10 ^ prec)).leftpad prec '0' := by
  rw [join, decimalParts]
  split_ifs <;> simp [List.intercalate]

lemma length_fraction (hprec : prec ≠ 0) :
    ((decimal (n % 10 ^ prec)).leftpad prec '0').length = prec := by
  have hlt : n % 10 ^ prec < 10 ^ prec := Nat.mod_lt _ (Nat.pow_pos (by decide))
  have hlen : (decimal (n % 10 ^ prec)).length ≤ prec :=
    (Nat.length_toDigits_le_iff (by decide) (Nat.pos_of_ne_zero hprec)).mpr hlt
  rw [List.length_leftpad, max_eq_left hlen]

lemma readUnsigned_join : readUnsigned (join '.' (decimalParts prec n)) = .ok (n / 10 ^ prec) := by
  have hsplit : split (join '.' (decimalParts prec n)) '.' = decimalParts prec n := by
    refine split_join (fun s hs hdot => ?_) (List.cons_ne_nil _ _)
    exact absurd (isDigit_of_mem_decimalParts hs hdot) (by decide)
  rw [readUnsigned, hsplit, decimalParts]
  by_cases hprec : prec = 0
  · subst hprec
    rw [if_pos rfl]
    simp only [plainDigits_decimal, pow_zero, Nat.div_one, div_one]
    rfl
  · rw [if_neg hprec]
    simp only [plainDigits_decimal, plainDigits_leftpad, length_fraction hprec]
    refine congrArg Except.ok ?_
    have hsum := Nat.div_add_mod n (10 ^ prec)
    have hpos : (10 : ℚ) ^ prec ≠ 0 := pow_ne_zero _ (by norm_num)
    rw [eq_div_iff hpos, add_mul, div_mul_cancel₀ _ hpos]
    have hcast : ((10 ^ prec * (n / 10 ^ prec) + n % 10 ^ prec : ℕ) : ℚ) = n := by rw [hsum]
    push_cast at hcast
    rw [← hcast]
    ring

/-- A number without a sign is read as it is. -/
lemma readDecimal_of_isDigit {cs : Str} (hc : c.isDigit = true) :
    readDecimal (c :: cs) = readUnsigned (c :: cs) := by
  rw [readDecimal]
  rintro s heq
  rw [(List.cons.inj heq).1] at hc
  cases hc

/-- The text of a number without its sign starts with a digit. -/
lemma exists_join_eq_cons (prec n : ℕ) : ∃ c cs, c.isDigit = true
    ∧ join '.' (decimalParts prec n) = c :: cs := by
  have hne : decimal (n / 10 ^ prec) ≠ [] := Nat.toDigits_ne_nil
  obtain ⟨c, cs, hcons⟩ := List.exists_cons_of_ne_nil hne
  have hc : c.isDigit = true := isDigit_of_mem_decimal (hcons ▸ List.mem_cons_self)
  exact ⟨c, _, hc, by rw [join_decimalParts, hcons, List.cons_append]⟩

lemma numChar_formatDecimal (hc : c ∈ formatDecimal prec x) : NumChar c := by
  rw [formatDecimal, List.mem_append] at hc
  rcases hc with hc | hc
  · split at hc
    · rw [List.mem_singleton.mp hc]
      exact Or.inr (by simp)
    · cases hc
  · rw [join_decimalParts, List.mem_append] at hc
    rcases hc with hc | hc
    · exact Or.inl (isDigit_of_mem_decimal hc)
    · split at hc
      · cases hc
      · rcases List.mem_cons.mp hc with rfl | hc
        · exact Or.inr (by simp)
        · exact Or.inl (isDigit_of_mem_leftpad hc)

end Fixed

/-- Rational numbers printed as decimals. -/
def decimals : Floats ℚ where
  format := formatDecimal
  float := readDecimal
  rounded prec x := (if x < 0 then -1 else 1) * (scaled prec x / 10 ^ prec)
  ofNat n := n
  format_ne_nil prec x := by
    obtain ⟨c, cs, -, hcons⟩ := exists_join_eq_cons prec (scaled prec x)
    rw [formatDecimal, hcons]
    exact List.append_ne_nil_of_right_ne_nil _ (List.cons_ne_nil c cs)
  numChar _ _ _ := numChar_formatDecimal
  float_format prec x := by
    obtain ⟨c, cs, hc, hcons⟩ := exists_join_eq_cons prec (scaled prec x)
    have hread : readUnsigned (c :: cs) = .ok (scaled prec x / 10 ^ prec) := by
      rw [← hcons, readUnsigned_join]
    rw [formatDecimal, hcons]
    split_ifs with hneg
    · rw [List.singleton_append, readDecimal, hread, neg_one_mul]
      rfl
    · rw [List.nil_append, readDecimal_of_isDigit hc, hread, one_mul]
  float_decimal n := by
    obtain ⟨c, cs, hc, hcons⟩ := exists_join_eq_cons 0 n
    have hjoin : join '.' (decimalParts 0 n) = decimal n := by
      simp [join_decimalParts]
    rw [← hjoin, hcons, readDecimal_of_isDigit hc, ← hcons, readUnsigned_join, pow_zero, div_one]

end Decimals
