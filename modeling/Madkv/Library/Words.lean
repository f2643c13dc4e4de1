import Mathlib.Data.List.DropRight
import Mathlib.Data.List.Induction
import Mathlib.Tactic.Lemma

/-!
Words of a line: the pieces of a list between separators.

* `words`: the non-empty pieces. A separator splits the words of a list
  (`words_append_cons`), a piece without one is a word (`words_word`).
* `piece_induction`: lists piece by piece. `words_map`, `flatten_words`: the words
  of an image, and what they hold.
* `unwords`: words joined by one separator, with the words and the trim of the
  result (`words_unwords_append`, `trim_unwords`).
* `spaced`: words with a gap before each of them, which gives the words back
  (`words_spaced`).
* `trim`: the list without the separators at its two ends. What is blank is
  trimmed to nothing (`trim_eq_nil_iff`), and blank space around a list changes
  neither its words nor its trim. A part that starts and ends with no separator
  is found in the trim too (`infix_trim_iff`).
-/

namespace Words

variable {α : Type*} (sep : α → Bool)

/-- The non-empty pieces between separators. -/
def words (l : List α) : List (List α) := (l.splitOnP sep).filter fun w => !w.isEmpty

/-- The list without the separators at its ends. -/
def trim (l : List α) : List α := (l.dropWhile sep).rdropWhile sep

/-- Nothing but separators. -/
def Blank (l : List α) : Prop := ∀ c ∈ l, sep c = true

/-- A piece that is a word. -/
structure Word (l : List α) : Prop where
  ne_nil : l ≠ []
  solid : ∀ c ∈ l, sep c = false

variable {sep}

lemma blank_nil : Blank sep ([] : List α) := fun _ hc => absurd hc List.not_mem_nil

/-! ### Words -/

/-- A separator splits the words. -/
lemma words_append_cons (x y : List α) {c : α} (hc : sep c = true) :
    words sep (x ++ c :: y) = words sep x ++ words sep y := by
  rw [words, List.splitOnP_append_cons x y hc, List.filter_append]
  rfl

lemma words_cons (y : List α) {c : α} (hc : sep c = true) : words sep (c :: y) = words sep y :=
  words_append_cons [] y hc

lemma words_blank_append {x : List α} (hx : Blank sep x) (y : List α) :
    words sep (x ++ y) = words sep y := by
  induction x with
  | nil => rfl
  | cons c x ih =>
      rw [List.cons_append, words_cons _ (hx c (by simp))]
      exact ih fun d hd => hx d (by simp [hd])

lemma words_blank {x : List α} (hx : Blank sep x) : words sep x = [] := by
  have := words_blank_append hx []
  rwa [List.append_nil] at this

lemma words_append_blank (x : List α) {y : List α} (hy : Blank sep y) :
    words sep (x ++ y) = words sep x := by
  cases y with
  | nil => rw [List.append_nil]
  | cons c y =>
      have hrest : words sep y = [] := words_blank fun d hd => hy d (by simp [hd])
      rw [words_append_cons x y (hy c (by simp)), hrest, List.append_nil]

lemma words_word {w : List α} (hw : Word sep w) : words sep w = [w] := by
  rw [words, List.splitOnP_eq_singleton hw.solid]
  simp [hw.ne_nil]

lemma Word.append {w x : List α} (hw : Word sep w) (hx : ∀ c ∈ x, sep c = false) :
    Word sep (w ++ x) := by
  refine ⟨List.append_ne_nil_of_left_ne_nil hw.ne_nil x, fun c hc => ?_⟩
  rcases List.mem_append.mp hc with hc | hc
  · exact hw.solid c hc
  · exact hx c hc

/-- A word, a separator and the rest. -/
lemma words_word_cons {w : List α} (hw : Word sep w) {c : α} (hc : sep c = true) (y : List α) :
    words sep (w ++ c :: y) = w :: words sep y := by
  rw [words_append_cons w y hc, words_word hw]
  rfl

/-- A list is one piece without separators, or such a piece, a separator and a
shorter list. -/
theorem piece_induction (sep : α → Bool) {P : List α → Prop}
    (piece : ∀ w, (∀ c ∈ w, sep c = false) → P w)
    (split : ∀ w c rest, (∀ c ∈ w, sep c = false) → sep c = true → P rest → P (w ++ c :: rest))
    (l : List α) : P l := by
  obtain ⟨n, hn⟩ : ∃ n, l.length = n := ⟨_, rfl⟩
  induction n using Nat.strong_induction_on generalizing l with
  | _ n ih =>
      have hsolid : ∀ c ∈ l.takeWhile (fun c => !sep c), sep c = false :=
        fun c hc => by simpa using List.mem_takeWhile_imp hc
      have hjoin := List.takeWhile_append_dropWhile (p := fun c => !sep c) (l := l)
      cases hrest : l.dropWhile (fun c => !sep c) with
      | nil =>
          rw [hrest, List.append_nil] at hjoin
          exact piece l (hjoin ▸ hsolid)
      | cons c rest =>
          have hc : sep c = true := by
            have := List.head_dropWhile_not (fun c => !sep c)
              (by rw [hrest]; simp : l.dropWhile _ ≠ [])
            simpa [hrest] using this
          rw [hrest] at hjoin
          rw [← hjoin]
          refine split _ c rest hsolid hc (ih rest.length ?_ rest rfl)
          rw [← hn, ← hjoin, List.length_append, List.length_cons]
          omega

/-- The words of a piece without separators. -/
lemma words_piece {w : List α} (hw : ∀ c ∈ w, sep c = false) :
    words sep w = if w = [] then [] else [w] := by
  by_cases hne : w = []
  · subst hne
    rfl
  · rw [if_neg hne, words_word ⟨hne, hw⟩]

lemma word_of_mem_words {l w : List α} (hw : w ∈ words sep l) : Word sep w := by
  induction l using piece_induction sep with
  | piece l hl =>
      rw [words_piece hl] at hw
      split at hw
      · cases hw
      · rw [List.mem_singleton.mp hw]
        exact ⟨‹_›, hl⟩
  | split x c rest hx hc ih =>
      rw [words_append_cons x rest hc, words_piece hx] at hw
      rcases List.mem_append.mp hw with hw | hw
      · split at hw
        · cases hw
        · rw [List.mem_singleton.mp hw]
          exact ⟨‹_›, hx⟩
      · exact ih hw

/-- The words are what is left of a list without its separators. -/
lemma flatten_words (l : List α) : (words sep l).flatten = l.filter fun c => !sep c := by
  have hpiece : ∀ w : List α, (∀ c ∈ w, sep c = false) →
      (words sep w).flatten = w.filter fun c => !sep c := by
    intro w hw
    rw [words_piece hw, List.filter_eq_self.mpr fun c hc => by rw [hw c hc]; rfl]
    split
    · rw [‹w = []›]
      rfl
    · simp
  induction l using piece_induction sep with
  | piece l hl => exact hpiece l hl
  | split x c rest hx hc ih =>
      rw [words_append_cons x rest hc, List.flatten_append, ih, hpiece x hx, List.filter_append,
        List.filter_cons_of_neg (by simp [hc])]

lemma words_eq_nil_iff {l : List α} : words sep l = [] ↔ Blank sep l := by
  refine ⟨fun h c hc => ?_, words_blank⟩
  have hfilter : (words sep l).flatten = _ := flatten_words l
  rw [h, List.flatten_nil, eq_comm, List.filter_eq_nil_iff] at hfilter
  simpa using hfilter c hc

/-- Whether a place separates may be read off an image of the list. -/
lemma words_map {β : Type*} {sep : β → Bool} (f : α → β) (l : List α) :
    words sep (l.map f) = (words (sep ∘ f) l).map (List.map f) := by
  have hpiece : ∀ w : List α, (∀ c ∈ w, (sep ∘ f) c = false) →
      words sep (w.map f) = (words (sep ∘ f) w).map (List.map f) := by
    intro w hw
    have hmap : ∀ c ∈ w.map f, sep c = false := by
      intro c hc
      obtain ⟨a, ha, rfl⟩ := List.mem_map.mp hc
      exact hw a ha
    rw [words_piece hw, words_piece hmap]
    cases w <;> rfl
  induction l using piece_induction (sep ∘ f) with
  | piece l hl => exact hpiece l hl
  | split x c rest hx hc ih =>
      have hfc : sep (f c) = true := hc
      rw [List.map_append, List.map_cons, words_append_cons _ _ hfc, words_append_cons x rest hc,
        List.map_append, ih, hpiece x hx]

/-! ### Trimming -/

lemma dropWhile_blank_append {x : List α} (hx : Blank sep x) (y : List α) :
    (x ++ y).dropWhile sep = y.dropWhile sep := by
  induction x with
  | nil => rfl
  | cons c x ih =>
      rw [List.cons_append, List.dropWhile_cons_of_pos (hx c (by simp))]
      exact ih fun d hd => hx d (by simp [hd])

lemma trim_blank_append {x : List α} (hx : Blank sep x) (y : List α) :
    trim sep (x ++ y) = trim sep y := by
  rw [trim, dropWhile_blank_append hx, trim]

lemma trim_eq_nil_iff {l : List α} : trim sep l = [] ↔ Blank sep l := by
  constructor
  · intro h c hc
    by_contra hsep
    rw [trim, List.rdropWhile_eq_nil_iff] at h
    have hnil : l.dropWhile sep = [] := by
      by_contra hne
      -- the first element kept is no separator
      have hhead := List.head_dropWhile_not sep hne
      rw [h _ (List.head_mem hne)] at hhead
      cases hhead
    rw [List.dropWhile_eq_nil_iff] at hnil
    exact hsep (hnil c hc)
  · intro h
    have := trim_blank_append h []
    rw [List.append_nil] at this
    rw [this]
    rfl

lemma trim_eq_self {l : List α} (h : ∀ c ∈ l, sep c = false) : trim sep l = l := by
  have hleft : l.dropWhile sep = l := List.dropWhile_eq_self_iff.mpr fun hl => by
    simp [h _ (List.getElem_mem hl)]
  have hright : l.rdropWhile sep = l := List.rdropWhile_eq_self_iff.mpr fun hl => by
    simp [h _ (List.getLast_mem hl)]
  rw [trim, hleft, hright]

/-- Trimming takes no words away. -/
lemma words_trim (l : List α) : words sep (trim sep l) = words sep l := by
  have hright : ∀ x : List α, words sep (x.rdropWhile sep) = words sep x := by
    intro x
    induction x using List.reverseRecOn with
    | nil => rfl
    | append_singleton x c ih =>
        rw [List.rdropWhile_concat]
        split
        · rw [ih, words_append_blank x fun d hd => by rwa [List.mem_singleton.mp hd]]
        · rfl
  have hleft : words sep (l.dropWhile sep) = words sep l := by
    conv_rhs => rw [← List.takeWhile_append_dropWhile (p := sep) (l := l)]
    exact (words_blank_append (fun c hc => List.mem_takeWhile_imp hc) _).symm
  rw [trim, hright, hleft]

/-! ### Words joined by a separator -/

/-- The words with one separator between two of them. -/
def unwords (sp : α) : List (List α) → List α
  | [] => []
  | [w] => w
  | w :: ws => w ++ sp :: unwords sp ws

variable {sp : α} {ws : List (List α)}

/-- Joining words and splitting the result gives them back. -/
lemma words_unwords_append (hsp : sep sp = true) (hws : ∀ w ∈ ws, Word sep w) {x : List α}
    (hx : Blank sep x) : words sep (unwords sp ws ++ x) = ws := by
  induction ws with
  | nil => exact words_blank hx
  | cons w ws ih =>
      have hw := hws w (by simp)
      cases ws with
      | nil =>
          cases x with
          | nil => rw [List.append_nil]; exact words_word hw
          | cons c x =>
              show words sep (w ++ c :: x) = [w]
              rw [words_word_cons hw (hx c (by simp)), words_blank fun d hd => hx d (by simp [hd])]
      | cons w' ws =>
          show words sep (w ++ sp :: unwords sp (w' :: ws) ++ x) = w :: w' :: ws
          rw [List.append_assoc, List.cons_append, words_word_cons hw hsp,
            ih fun v hv => hws v (by simp [hv])]

/-- The words joined end in the last element of the last word. -/
lemma exists_unwords_eq_append (hne : ws ≠ []) (hws : ∀ w ∈ ws, Word sep w) :
    ∃ y b, unwords sp ws = y ++ [b] ∧ sep b = false := by
  induction ws with
  | nil => exact absurd rfl hne
  | cons w ws ih =>
      cases ws with
      | nil =>
          have hw := hws w (by simp)
          refine ⟨w.dropLast, w.getLast hw.ne_nil,
            (List.dropLast_append_getLast hw.ne_nil).symm, ?_⟩
          exact hw.solid _ (List.getLast_mem hw.ne_nil)
      | cons w' ws =>
          obtain ⟨y, b, heq, hb⟩ := ih (by simp) fun v hv => hws v (by simp [hv])
          refine ⟨w ++ sp :: y, b, ?_, hb⟩
          show w ++ sp :: unwords sp (w' :: ws) = _
          rw [heq]
          simp

/-- Space around joined words is trimmed off. -/
lemma trim_unwords (hne : ws ≠ []) (hws : ∀ w ∈ ws, Word sep w) {x y : List α}
    (hx : Blank sep x) (hy : Blank sep y) :
    trim sep (x ++ (unwords sp ws ++ y)) = unwords sp ws := by
  obtain ⟨z, b, hlast, hb⟩ : ∃ z b, unwords sp ws = z ++ [b] ∧ sep b = false :=
    exists_unwords_eq_append hne hws
  obtain ⟨a, z', hfirst, ha⟩ : ∃ a z', unwords sp ws = a :: z' ∧ sep a = false := by
    obtain ⟨w, ws, rfl⟩ := List.exists_cons_of_ne_nil hne
    have hw := hws w (by simp)
    obtain ⟨a, t, rfl⟩ := List.exists_cons_of_ne_nil hw.ne_nil
    have ha := hw.solid a (by simp)
    cases ws with
    | nil => exact ⟨a, t, rfl, ha⟩
    | cons w' ws => exact ⟨a, _, rfl, ha⟩
  rw [trim_blank_append hx, trim, hfirst, List.cons_append,
    List.dropWhile_cons_of_neg (by simp [ha]), ← List.cons_append, ← hfirst, hlast,
    List.rdropWhile, List.reverse_append,
    dropWhile_blank_append fun c hc => hy c (by simpa using hc)]
  simp [hb]

lemma unwords_injective (hsp : sep sp = true) {vs : List (List α)} (hws : ∀ w ∈ ws, Word sep w)
    (hvs : ∀ v ∈ vs, Word sep v) (h : unwords sp ws = unwords sp vs) : ws = vs := by
  rw [← words_unwords_append hsp hws blank_nil, h, words_unwords_append hsp hvs blank_nil]

/-! ### Words with gaps between them -/

/-- Words, each after its gap. -/
def spaced (rows : List (List α × List α)) : List α := rows.flatMap fun row => row.1 ++ row.2

/-- Words with something blank between any two of them. -/
structure Spaced (sep : α → Bool) (rows : List (List α × List α)) : Prop where
  gaps : ∀ row ∈ rows, Blank sep row.1
  apart : ∀ row ∈ rows.tail, row.1 ≠ []
  words : ∀ row ∈ rows, Word sep row.2

variable {rows : List (List α × List α)}

lemma spaced_append (rows rows' : List (List α × List α)) :
    spaced (rows ++ rows') = spaced rows ++ spaced rows' := List.flatMap_append

lemma mem_spaced {c : α} : c ∈ spaced rows ↔ ∃ row ∈ rows, c ∈ row.1 ∨ c ∈ row.2 := by
  simp only [spaced, List.mem_flatMap, List.mem_append]

lemma words_spaced (h : Spaced sep rows) : words sep (spaced rows) = rows.map Prod.snd := by
  obtain ⟨hgaps, hapart, hwords⟩ := h
  induction rows with
  | nil => rfl
  | cons row rest ih =>
      have hrow := hwords row List.mem_cons_self
      rw [spaced, List.flatMap_cons, List.append_assoc,
        words_blank_append (hgaps row List.mem_cons_self), List.map_cons]
      cases rest with
      | nil => rw [List.flatMap_nil, List.append_nil, words_word hrow, List.map_nil]
      | cons row' rest =>
          have hrest := ih (fun r hr => hgaps r (List.mem_cons_of_mem row hr))
            (fun r hr => hapart r (List.mem_of_mem_tail hr))
            fun r hr => hwords r (List.mem_cons_of_mem row hr)
          have hgap := hgaps row' (List.mem_cons_of_mem row List.mem_cons_self)
          obtain ⟨c, gap, hcons⟩ := List.exists_cons_of_ne_nil (hapart row' List.mem_cons_self)
          have hc : sep c = true := hgap c (by rw [hcons]; exact List.mem_cons_self)
          rw [← hrest, spaced, List.flatMap_cons, hcons, List.cons_append, List.cons_append,
            words_word_cons hrow hc, words_cons _ hc]

/-! ### Parts of a trimmed list -/

/-- Trimming keeps the end of a list that ends with no separator. -/
lemma trim_append {x y z : List α} {b : α} (hx : ¬ Blank sep x) (hb : sep b = false)
    (hz : Blank sep z) : trim sep (x ++ (y ++ b :: z)) = x.dropWhile sep ++ (y ++ [b]) := by
  have hne : x.dropWhile sep ≠ [] := by
    rw [Ne, List.dropWhile_eq_nil_iff]
    exact fun hall => hx hall
  have hleft : (x ++ (y ++ b :: z)).dropWhile sep = x.dropWhile sep ++ (y ++ b :: z) := by
    rw [List.dropWhile_append, if_neg (by simpa using hne)]
  have hreverse : (x.dropWhile sep ++ (y ++ b :: z)).reverse
      = z.reverse ++ b :: (x.dropWhile sep ++ y).reverse := by simp
  rw [trim, hleft, List.rdropWhile, hreverse,
    dropWhile_blank_append fun c hc => hz c (List.mem_reverse.mp hc),
    List.dropWhile_cons_of_neg (by simp [hb])]
  simp

lemma infix_dropWhile {w l : List α} {a : α} (ha : sep a = false) (h : a :: w <:+: l) :
    a :: w <:+: l.dropWhile sep := by
  induction l with
  | nil => exact h
  | cons c l ih =>
      by_cases hc : sep c = true
      · rw [List.dropWhile_cons_of_pos hc]
        rcases List.infix_cons_iff.mp h with hprefix | h
        · rw [← (List.cons_prefix_cons.mp hprefix).1, ha] at hc
          cases hc
        · exact ih h
      · rwa [List.dropWhile_cons_of_neg hc]

/-- What starts and ends with no separator is found in a list and in its trim alike. -/
lemma infix_trim_iff {w l : List α} {a b : α} (hfirst : w.head? = some a)
    (hlast : w.getLast? = some b) (ha : sep a = false) (hb : sep b = false) :
    w <:+: trim sep l ↔ w <:+: l := by
  constructor
  · exact fun h => h.trans ((List.rdropWhile_prefix ..).isInfix.trans
      (List.dropWhile_suffix ..).isInfix)
  · intro h
    obtain ⟨w', rfl⟩ := List.head?_eq_some_iff.mp hfirst
    have hleft := infix_dropWhile ha h
    obtain ⟨w'', hw''⟩ := List.getLast?_eq_some_iff.mp hlast
    rw [hw''] at hleft ⊢
    have hreverse := List.reverse_infix.mpr hleft
    rw [List.reverse_append] at hreverse
    have hright := infix_dropWhile hb hreverse
    rw [trim, List.rdropWhile, ← List.reverse_infix, List.reverse_reverse, List.reverse_append]
    exact hright

end Words
