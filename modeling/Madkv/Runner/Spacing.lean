import Madkv.Runner.ResponseLines

/-!
Reading response after response, and the spacing of the stream.

* `Reads`: the results of reading up to the first error or the end of the stream.
  `reads_iff`: there is one sequence of them, told by the lines (`answers`).
* `SameSegments`: two streams whose lines have the same segments.
* `SameEnds`: the lines that end a listing in one stream do so in the other.
* `reads_same_iff`: this is all that the spacing of a stream matters for.
-/

namespace Madkv

open Words

/-- The results of repeated reading: the responses, and an error that ends it. -/
inductive Reads : Reader → List (Option KvResp) → Prop
  | waits {r : Reader} (h : ∀ fuel, fromRead fuel r = none) : Reads r []
  | fails {r r' : Reader} {fuel : ℕ} {e : RunnerError}
      (h : fromRead fuel r = some (.error e, r')) : Reads r [none]
  | reads {r r' : Reader} {fuel : ℕ} {resp : KvResp} {results : List (Option KvResp)}
      (h : fromRead fuel r = some (.ok resp, r')) (hrest : Reads r' results) :
      Reads r (some resp :: results)

/-- The streams have the same non-empty lines, up to the spacing in them. -/
def SameSegments (s s' : Stream) : Prop :=
  (liveLines s).map lineSegs = (liveLines s').map lineSegs

/-- The lines that reading comes to within a listing end it in both streams or
in none. The flag tells whether reading is within a listing. -/
def SameEnds : Bool → List Stream → List Stream → Prop
  | false, line :: rest, _ :: rest' =>
      match headLine line with
      | none => True
      | some (.resp _) => SameEnds false rest rest'
      | some (.scan _ _) => SameEnds true rest rest'
  | true, line :: rest, line' :: rest' =>
      endsScan line = endsScan line' ∧
        match listLine line with
        | none => True
        | some none => SameEnds false rest rest'
        | some (some _) => SameEnds true rest rest'
  | _, _, _ => True

/-! ### The results as a function of the lines -/

/-- Where reading stands: before a response, or within a listing. -/
inductive Place where
  | head
  | listing (keyStart keyEnd : String) (entries : List (String × String))

def Place.inListing : Place → Bool
  | .head => false
  | .listing _ _ _ => true

/-- The results on the lines still to come. -/
def answers : Place → List Stream → List (Option KvResp)
  | _, [] => []
  | .head, line :: rest =>
      match headLine line with
      | none => [none]
      | some (.resp resp) => some resp :: answers .head rest
      | some (.scan keyStart keyEnd) => answers (.listing keyStart keyEnd []) rest
  | .listing keyStart keyEnd entries, line :: rest =>
      match listLine line with
      | none => [none]
      | some none => some (.scan keyStart keyEnd entries) :: answers .head rest
      | some (some entry) => answers (.listing keyStart keyEnd (entries ++ [entry])) rest

/-- The results after an outcome. -/
def Outcome.answers : Outcome KvResp → List (Option KvResp)
  | .waits => []
  | .fails => [none]
  | .reads resp rest => some resp :: Madkv.answers .head rest

section Answers

variable {ls ls' rest rest' : List Stream} {line line' : Stream} {keyStart keyEnd : String}
  {entries : List (String × String)} {resp : KvResp} {r : Reader} {results : List (Option KvResp)}

lemma answers_listing : answers (.listing keyStart keyEnd entries) ls =
    ((readListing entries ls).map (.scan keyStart keyEnd)).answers := by
  induction ls generalizing entries with
  | nil => rfl
  | cons line rest ih =>
      rw [answers, readListing]
      cases listLine line with
      | none => rfl
      | some said =>
          cases said with
          | none => rfl
          | some entry => exact ih

lemma answers_head : answers .head ls = (readResponse ls).answers := by
  cases ls with
  | nil => rfl
  | cons line rest =>
      rw [answers, readResponse]
      cases headLine line with
      | none => rfl
      | some first =>
          cases first with
          | resp resp => rfl
          | scan keyStart keyEnd => exact answers_listing

lemma readListing_suffix {entries' : List (String × String)}
    (h : readListing entries ls = .reads entries' rest) : rest.length < ls.length := by
  induction ls generalizing entries with
  | nil => cases h
  | cons line ls ih =>
      rw [readListing] at h
      rw [List.length_cons]
      split at h
      · cases h
      · cases h
        exact Nat.lt_succ_self _
      · exact (ih h).trans (Nat.lt_succ_self _)

lemma readResponse_suffix (h : readResponse ls = .reads resp rest) : rest.length < ls.length := by
  cases ls with
  | nil => cases h
  | cons line ls =>
      rw [readResponse] at h
      rw [List.length_cons]
      split at h
      · cases h
      · cases h
        exact Nat.lt_succ_self _
      · cases hlist : readListing [] ls with
        | waits | fails =>
            rw [hlist] at h
            cases h
        | reads entries rest' =>
            rw [hlist] at h
            cases h
            exact (readListing_suffix hlist).trans (Nat.lt_succ_self _)

/-- Reading gives the results that the lines tell. -/
lemma reads_answers (r : Reader) : Reads r (answers .head (liveLines r.stream)) := by
  obtain ⟨n, hn⟩ : ∃ n, (liveLines r.stream).length = n := ⟨_, rfl⟩
  induction n using Nat.strong_induction_on generalizing r with
  | _ n ih =>
      rw [answers_head]
      cases hout : readResponse (liveLines r.stream) with
      | waits => exact .waits (fromRead_waits hout)
      | fails =>
          obtain ⟨fuel, ⟨res, r'⟩, hread, hof⟩ :=
            exists_fromRead_outcome (r := r) (by rw [hout]; exact fun h => (nomatch h))
          rw [hout] at hof
          obtain ⟨e, rfl⟩ := hof
          exact .fails hread
      | reads resp rest =>
          obtain ⟨fuel, ⟨res, r'⟩, hread, hof⟩ :=
            exists_fromRead_outcome (r := r) (by rw [hout]; exact fun h => (nomatch h))
          rw [hout] at hof
          obtain ⟨rfl, hrest⟩ := hof
          refine .reads hread ?_
          rw [← hrest]
          refine ih _ ?_ r' rfl
          rw [hrest, ← hn]
          exact readResponse_suffix hout

lemma Reads.unique {results' : List (Option KvResp)} (h : Reads r results)
    (h' : Reads r results') : results = results' := by
  induction h generalizing results' with
  | waits hnone =>
      cases h' with
      | waits => rfl
      | fails hread | reads hread =>
          rw [hnone] at hread
          cases hread
  | fails hread =>
      cases h' with
      | waits hnone =>
          rw [hnone] at hread
          cases hread
      | fails => rfl
      | reads hread' => cases fromRead_unique hread hread'
  | reads hread _ ih =>
      cases h' with
      | waits hnone =>
          rw [hnone] at hread
          cases hread
      | fails hread' => cases fromRead_unique hread hread'
      | reads hread' hrest' =>
          cases fromRead_unique hread hread'
          rw [ih hrest']

/-- **The results of reading** are a function of the lines. -/
theorem reads_iff : Reads r results ↔ results = answers .head (liveLines r.stream) := by
  constructor
  · exact fun h => h.unique (reads_answers r)
  · rintro rfl
    exact reads_answers r

/-! ### Two streams with the same segments -/

/-- A listing under way gives a Scan with at least the entries in hand. -/
lemma answers_listing_grows
    (h : answers (.listing keyStart keyEnd entries) ls = some resp :: results) :
    ∃ entries', resp = .scan keyStart keyEnd entries' ∧ entries.length ≤ entries'.length := by
  induction ls generalizing entries with
  | nil => cases h
  | cons line rest ih =>
      rw [answers] at h
      split at h
      · cases h
      · cases h
        exact ⟨entries, rfl, le_rfl⟩
      · obtain ⟨entries', rfl, hle⟩ := ih h
        rw [List.length_append] at hle
        exact ⟨entries', rfl, (Nat.le_add_right _ _).trans hle⟩

/-- A listing that ends in one stream and not in the other gives two results. -/
lemma answers_ne_of_end (hend : endsScan line = true) (hnot : endsScan line' = false) :
    answers (.listing keyStart keyEnd entries) (line :: rest)
      ≠ answers (.listing keyStart keyEnd entries) (line' :: rest') := by
  intro heq
  have hsaid : listLine line' ≠ some none := by
    rw [Ne, listLine_eq_end_iff, hnot]
    exact Bool.false_ne_true
  rw [answers, answers, listLine_eq_end_iff.mpr hend] at heq
  cases hline' : listLine line' with
  | none =>
      rw [hline'] at heq
      cases heq
  | some said =>
      cases said with
      | none => exact hsaid hline'
      | some entry =>
          rw [hline'] at heq
          obtain ⟨entries', hscan, hle⟩ := answers_listing_grows heq.symm
          cases hscan
          rw [List.length_append, List.length_singleton] at hle
          omega

theorem answers_eq_iff (place : Place) (hsame : ls.map lineSegs = ls'.map lineSegs) :
    answers place ls = answers place ls' ↔ SameEnds place.inListing ls ls' := by
  induction ls generalizing place ls' with
  | nil =>
      obtain rfl : ls' = [] := List.map_eq_nil_iff.mp hsame.symm
      cases place <;> simp [SameEnds]
  | cons line rest ih =>
      obtain ⟨line', rest', rfl⟩ : ∃ line' rest', ls' = line' :: rest' := by
        cases ls' with
        | nil => cases hsame
        | cons line' rest' => exact ⟨line', rest', rfl⟩
      obtain ⟨hline, hrest⟩ := List.cons.inj hsame
      cases place with
      | head =>
          rw [answers, answers, ← headLine_congr hline, Place.inListing, SameEnds]
          cases headLine line with
          | none => simp
          | some first =>
              cases first with
              | resp resp => exact (List.cons_inj_right _).trans (ih .head hrest)
              | scan keyStart keyEnd => exact ih _ hrest
      | listing keyStart keyEnd entries =>
          rw [Place.inListing, SameEnds]
          by_cases hend : endsScan line = endsScan line'
          · rw [and_iff_right hend, answers, answers, ← listLine_congr hline hend]
            cases listLine line with
            | none => simp
            | some said =>
                cases said with
                | none => exact (List.cons_inj_right _).trans (ih .head hrest)
                | some entry => exact ih _ hrest
          · refine iff_of_false ?_ fun h => hend h.1
            cases hone : endsScan line with
            | true => exact answers_ne_of_end hone (by rw [hone] at hend; simpa using hend)
            | false =>
                exact (answers_ne_of_end (by rw [hone] at hend; simpa using hend) hone).symm

end Answers

/-- **Spacing matters for the ends of listings only**: streams with the same
segments are read alike iff the same lines end the listings in them. -/
theorem reads_same_iff (s s' : Stream) (buffer buffer' : List Char) (hsame : SameSegments s s') :
    (∃ results, Reads ⟨s, buffer⟩ results ∧ Reads ⟨s', buffer'⟩ results) ↔
      SameEnds false (liveLines s) (liveLines s') := by
  refine Iff.trans ?_ (answers_eq_iff .head hsame)
  simp only [reads_iff]
  constructor
  · rintro ⟨results, h, h'⟩
    rw [← h, h']
  · exact fun h => ⟨_, rfl, h⟩

/-- A listing with a blank line and more space in it. -/
theorem reads_same_iff_listing :
    (∃ results, Reads ⟨ofText "SCAN a z BEGIN\n  a x\nSCAN END\n".toList, []⟩ results
        ∧ Reads ⟨ofText " SCAN a  z BEGIN\n\na  x\n SCAN END\n".toList, []⟩ results) ↔
      SameEnds false (liveLines (ofText "SCAN a z BEGIN\n  a x\nSCAN END\n".toList))
        (liveLines (ofText " SCAN a  z BEGIN\n\na  x\n SCAN END\n".toList)) :=
  reads_same_iff _ _ _ _ (by rw [SameSegments]; decide)

/-- With two spaces in it, the end of a listing is one more entry. -/
theorem exists_spacing_matters :
    ¬ ∀ (s s' : Stream) (buffer buffer' : List Char), SameSegments s s' →
      ∃ results, Reads ⟨s, buffer⟩ results ∧ Reads ⟨s', buffer'⟩ results := by
  intro h
  obtain ⟨results, hread, hread'⟩ := h (ofText "SCAN a z BEGIN\nSCAN END\n".toList)
    (ofText "SCAN a z BEGIN\nSCAN  END\n".toList) [] [] (by rw [SameSegments]; decide)
  rw [reads_iff] at hread hread'
  rw [hread] at hread'
  exact absurd hread' (by decide)

end Madkv
