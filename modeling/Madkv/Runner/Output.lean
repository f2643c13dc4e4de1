import Madkv.Runner.Spacing

/-!
Output that arrives bit by bit.

* `WholeLines`: text that ends where a line ends. `liveLines_append`: after such
  text the lines of what follows are its own.
* `fromRead_wholeLines`: reading leaves whole lines of whole lines.
* `readResponse_append`: a response that is there is read alike when more lines
  follow it. `answers_append_of_reads`, `answers_isPrefix`: so are the results.
-/

namespace Madkv

open Loop Words

/-- Text that ends where a line ends. -/
def WholeLines (stream : Stream) : Prop := stream = [] ∨ stream.getLast? = some (some '\n')

section WholeLines

variable {s t : Stream} {r r' : Reader}

lemma wholeLines_nil : WholeLines [] := Or.inl rfl

lemma wholeLines_line (text : List Char) : WholeLines (ofText (text ++ ['\n'])) := by
  right
  simp [ofText]

lemma WholeLines.append (hs : WholeLines s) (ht : WholeLines t) : WholeLines (s ++ t) := by
  rcases ht with rfl | ht
  · rwa [List.append_nil]
  · right
    rw [List.getLast?_append, ht]
    rfl

lemma WholeLines.of_append (h : WholeLines (s ++ t)) : WholeLines t := by
  by_cases ht : t = []
  · exact Or.inl ht
  · rcases h with h | h
    · exact absurd (List.append_eq_nil_iff.mp h).2 ht
    · rw [List.getLast?_append_of_ne_nil s ht] at h
      exact Or.inr h

lemma takeLine_of_ne {c : Option Char} (hc : c ≠ some '\n') (s : Stream) :
    takeLine (c :: s) = (c :: (takeLine s).1, (takeLine s).2) := by
  rw [takeLine]
  exact hc

lemma takeLine_append (s : Stream) : (takeLine s).1 ++ (takeLine s).2 = s := by
  induction s with
  | nil => rfl
  | cons c s ih =>
      by_cases hc : c = some '\n'
      · subst hc
        rfl
      · rw [takeLine_of_ne hc]
        exact congrArg (c :: ·) ih

lemma WholeLines.rest (h : WholeLines s) : WholeLines (takeLine s).2 := by
  rw [← takeLine_append s] at h
  exact h.of_append

/-- What follows a line does not become a part of it. -/
lemma takeLine_of_mem (h : some '\n' ∈ s) (t : Stream) :
    takeLine (s ++ t) = ((takeLine s).1, (takeLine s).2 ++ t) := by
  induction s with
  | nil => exact absurd h List.not_mem_nil
  | cons c s ih =>
      by_cases hc : c = some '\n'
      · subst hc
        rfl
      · have ih := ih ((List.mem_cons.mp h).resolve_left (Ne.symm hc))
        rw [List.cons_append, takeLine_of_ne hc, takeLine_of_ne hc, ih]

lemma WholeLines.newline_mem (h : WholeLines s) (hne : s ≠ []) : some '\n' ∈ s :=
  List.mem_of_getLast? (h.resolve_left hne)

lemma lines_append (hs : WholeLines s) (t : Stream) : lines (s ++ t) = lines s ++ lines t := by
  obtain ⟨n, hn⟩ : ∃ n, s.length = n := ⟨_, rfl⟩
  induction n using Nat.strong_induction_on generalizing s with
  | _ n ih =>
      by_cases hne : s = []
      · subst hne
        rfl
      · have hshort := length_takeLine_lt hne
        rw [lines_eq_cons (by simp [hne]), lines_eq_cons hne,
          takeLine_of_mem (hs.newline_mem hne), List.cons_append,
          ih _ (hn ▸ hshort) hs.rest rfl]

/-- The lines after whole lines are those of what follows. -/
lemma liveLines_append (hs : WholeLines s) (t : Stream) :
    liveLines (s ++ t) = liveLines s ++ liveLines t := by
  rw [liveLines, lines_append hs, List.filter_append, liveLines, liveLines]

lemma readLine_wholeLines (h : WholeLines r.stream) : WholeLines (readLine r).2.stream := by
  rw [readLine]
  split
  · exact h.rest
  · exact h.rest

lemma readPass_wholeLines (h : WholeLines r.stream) :
    match readPass r with
    | some (.stop out) => WholeLines out.2.stream
    | some (.again r') => WholeLines r'.stream
    | none => True := by
  have hread := readLine_wholeLines h
  rw [readPass]
  generalize readLine r = out at hread
  obtain ⟨res, r₁⟩ := out
  cases res with
  | error e => exact hread
  | ok size =>
      simp only
      split_ifs
      · exact hread
      · exact hread

lemma readNextLine_wholeLines {fuel : ℕ} {res : Except RunnerError ℕ} (h : WholeLines r.stream)
    (hread : readNextLine fuel r = some (res, r')) : WholeLines r'.stream := by
  have hstart : WholeLines (Reader.stream { r with buffer := [] }) := h
  refine run_post (r := (res, r')) (fun r : Reader => WholeLines r.stream)
    (fun out : Except RunnerError ℕ × Reader => WholeLines out.2.stream) ?_ ?_ hstart hread
  · intro r r' h hpass
    have := readPass_wholeLines h
    rwa [hpass] at this
  · intro r out h hpass
    have := readPass_wholeLines h
    rwa [hpass] at this

lemma scanPass_wholeLines (fuel : ℕ) (entries : List (String × String)) (h : WholeLines r.stream) :
    match scanPass fuel (entries, r) with
    | some (.stop out) => WholeLines out.2.stream
    | some (.again st) => WholeLines st.2.stream
    | none => True := by
  rw [scanPass]
  cases hread : readNextLine fuel r with
  | none => trivial
  | some out =>
      obtain ⟨res, r₁⟩ := out
      have hr := readNextLine_wholeLines h hread
      cases res with
      | error e => exact hr
      | ok size =>
          simp only
          cases scanLine r₁.buffer with
          | error e => exact hr
          | ok said => cases said <;> exact hr

lemma scanLoop_wholeLines {fuel : ℕ} {out : Except RunnerError (List (String × String)) × Reader}
    (h : WholeLines r.stream) (hscan : scanLoop fuel r = some out) : WholeLines out.2.stream := by
  have hstart : WholeLines (Prod.snd (([], r) : ScanState)).stream := h
  refine run_post (fun st : ScanState => WholeLines st.2.stream)
    (fun out : Except RunnerError (List (String × String)) × Reader => WholeLines out.2.stream)
    ?_ ?_ hstart hscan
  · rintro ⟨entries, r⟩ st h hpass
    have := scanPass_wholeLines fuel entries h
    rwa [hpass] at this
  · rintro ⟨entries, r⟩ out h hpass
    have := scanPass_wholeLines fuel entries h
    rwa [hpass] at this

/-- Reading a response leaves whole lines. -/
lemma fromRead_wholeLines {fuel : ℕ} {res : Except RunnerError KvResp} (h : WholeLines r.stream)
    (hread : fromRead fuel r = some (res, r')) : WholeLines r'.stream := by
  rw [fromRead] at hread
  cases hline : readNextLine fuel r with
  | none =>
      rw [hline] at hread
      cases hread
  | some out =>
      obtain ⟨res₁, r₁⟩ := out
      have hr := readNextLine_wholeLines h hline
      rw [hline] at hread
      cases res₁ with
      | error e =>
          cases hread
          exact hr
      | ok size =>
          simp only at hread
          cases hfirst : firstLine r₁.buffer with
          | error e =>
              rw [hfirst] at hread
              cases hread
              exact hr
          | ok first =>
              rw [hfirst] at hread
              cases first with
              | resp resp =>
                  cases hread
                  exact hr
              | scan keyStart keyEnd =>
                  obtain ⟨out, hscan, heq⟩ := Option.map_eq_some_iff.mp hread
                  cases heq
                  exact scanLoop_wholeLines hr hscan

end WholeLines

/-! ### More lines -/

section Append

variable {ls rest later : List Stream} {resp : KvResp} {keyStart keyEnd : String}
  {entries : List (String × String)}

lemma readListing_append {entries' : List (String × String)}
    (h : readListing entries ls = .reads entries' rest) (later : List Stream) :
    readListing entries (ls ++ later) = .reads entries' (rest ++ later) := by
  induction ls generalizing entries with
  | nil => cases h
  | cons line ls ih =>
      rw [List.cons_append, readListing]
      rw [readListing] at h
      cases hsaid : listLine line with
      | none =>
          rw [hsaid] at h
          cases h
      | some said =>
          rw [hsaid] at h
          cases said with
          | none =>
              cases h
              rfl
          | some entry => exact ih h

/-- A response that is there is read alike when more lines follow. -/
lemma readResponse_append (h : readResponse ls = .reads resp rest) (later : List Stream) :
    readResponse (ls ++ later) = .reads resp (rest ++ later) := by
  cases ls with
  | nil => cases h
  | cons line ls =>
      rw [List.cons_append, readResponse]
      rw [readResponse] at h
      cases hsaid : headLine line with
      | none =>
          rw [hsaid] at h
          cases h
      | some first =>
          rw [hsaid] at h
          cases first with
          | resp resp =>
              cases h
              rfl
          | scan keyStart keyEnd =>
              cases hlist : readListing [] ls with
              | waits | fails =>
                  rw [hlist] at h
                  cases h
              | reads entries rest' =>
                  rw [hlist] at h
                  cases h
                  simp only [readListing_append hlist later]
                  rfl

lemma answers_append_of_reads (h : readResponse ls = .reads resp rest) (later : List Stream) :
    answers .head (ls ++ later) = some resp :: answers .head (rest ++ later) := by
  rw [answers_head, readResponse_append h later]
  rfl

/-- More lines only add results. -/
lemma answers_isPrefix (place : Place) (ls later : List Stream) :
    answers place ls <+: answers place (ls ++ later) := by
  induction ls generalizing place with
  | nil => rw [show answers place [] = [] by cases place <;> rfl]; exact List.nil_prefix
  | cons line ls ih =>
      cases place with
      | head =>
          rw [List.cons_append, answers, answers]
          cases headLine line with
          | none => exact List.prefix_rfl
          | some first =>
              cases first with
              | resp resp => exact (List.prefix_cons_inj _).mpr (ih .head)
              | scan keyStart keyEnd => exact ih _
      | listing keyStart keyEnd entries =>
          rw [List.cons_append, answers, answers]
          cases listLine line with
          | none => exact List.prefix_rfl
          | some said =>
              cases said with
              | none => exact (List.prefix_cons_inj _).mpr (ih .head)
              | some entry => exact ih _

end Append

end Madkv
