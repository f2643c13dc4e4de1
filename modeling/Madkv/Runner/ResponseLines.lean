import Madkv.Runner.LineForms
import Madkv.Runner.Lines

/-!
Reading a response as a function of the lines of the stream.

* `Outcome`: what reading comes to on a list of lines: it may wait for a line
  forever, fail, or read something and leave the lines after it.
* `readListing`, `readResponse`: the entries of a listing and a whole response,
  line by line.
* `scanLoop_waits`, `exists_scanLoop_outcome`: the loop through scan results does
  what `readListing` says; `fromRead_waits`, `exists_fromRead_outcome`: and
  `from_read` what `readResponse` says.
-/

namespace Madkv

open Loop Words

/-- What reading comes to on the lines of a stream. -/
inductive Outcome (α : Type) where
  /-- it waits for a line that does not come -/
  | waits
  /-- an error -/
  | fails
  /-- a value and the lines after it -/
  | reads (a : α) (rest : List Stream)

def Outcome.map {α β : Type} (f : α → β) : Outcome α → Outcome β
  | .waits => .waits
  | .fails => .fails
  | .reads a rest => .reads (f a) rest

/-- The outcome is what a reader gave back. -/
def Outcome.Of {α : Type} (o : Outcome α) (out : Except RunnerError α × Reader) : Prop :=
  match o with
  | .waits => False
  | .fails => ∃ e, out.1 = .error e
  | .reads a rest => out.1 = .ok a ∧ liveLines out.2.stream = rest

section Outcome

variable {α β : Type} {o : Outcome α} {f : α → β}

@[simp] lemma Outcome.map_eq_waits_iff : o.map f = .waits ↔ o = .waits := by
  cases o <;> simp [Outcome.map]

lemma Outcome.Of.map {out : Except RunnerError α × Reader} (h : o.Of out) :
    (o.map f).Of (out.1.map f, out.2) := by
  obtain ⟨res, r⟩ := out
  cases o with
  | waits => exact h.elim
  | fails =>
      obtain ⟨e, rfl⟩ := h
      exact ⟨e, rfl⟩
  | reads a rest =>
      obtain ⟨rfl, hrest⟩ := h
      exact ⟨rfl, hrest⟩

end Outcome

/-- The entries of a listing, after those in hand. -/
def readListing (entries : List (String × String)) :
    List Stream → Outcome (List (String × String))
  | [] => .waits
  | line :: rest =>
      match listLine line with
      | none => .fails
      | some none => .reads entries rest
      | some (some entry) => readListing (entries ++ [entry]) rest

/-- A whole response. -/
def readResponse : List Stream → Outcome KvResp
  | [] => .waits
  | line :: rest =>
      match headLine line with
      | none => .fails
      | some (.resp resp) => .reads resp rest
      | some (.scan keyStart keyEnd) => (readListing [] rest).map (.scan keyStart keyEnd)

/-! ### One line -/

section Lines

variable {line : Stream} {rest : List Stream} {size fuel : ℕ} {buffer : List Char} {r : Reader}

lemma LineRead.headLine_eq (h : LineRead line (.ok size) buffer) :
    headLine line = (firstLine buffer).toOption := by
  obtain ⟨text, hdecode, hsegs, -⟩ := h.decode_ok
  refine Option.ext fun first => ?_
  rw [headLine, hdecode]
  simp only [Option.bind_some, toOption_eq_some_iff, firstLine_eq_ok_iff, hsegs]

lemma LineRead.listLine_eq (h : LineRead line (.ok size) buffer) :
    listLine line = (scanLine buffer).toOption := by
  obtain ⟨text, hdecode, hsegs, htrim⟩ := h.decode_ok
  refine Option.ext fun said => ?_
  rw [listLine, hdecode]
  cases said with
  | none => simp only [Option.bind_some, toOption_eq_some_iff, scanLine_end_iff, htrim]
  | some entry =>
      obtain ⟨key, value⟩ := entry
      simp only [Option.bind_some, toOption_eq_some_iff, scanLine_entry_iff, htrim, hsegs]

/-- A pass of the loop through scan results takes the next line. -/
lemma exists_scanPass (entries : List (String × String)) (hlive : liveLines r.stream = line :: rest)
    (hfuel : r.stream.length < fuel) :
    ∃ r', liveLines r'.stream = rest ∧ r'.stream.length < r.stream.length
      ∧ match listLine line with
        | none => ∃ e, scanPass fuel (entries, r) = some (.stop (.error e, r'))
        | some none => scanPass fuel (entries, r) = some (.stop (.ok entries, r'))
        | some (some entry) =>
            scanPass fuel (entries, r) = some (.again (entries ++ [entry], r')) := by
  obtain ⟨res, r', hread, hrest, hline, hshort⟩ := exists_readNextLine hlive hfuel
  refine ⟨r', hrest, hshort, ?_⟩
  rw [scanPass, hread]
  cases res with
  | error e =>
      have hnone : listLine line = none := by rw [listLine, hline.decode_error]; rfl
      rw [hnone]
      exact ⟨e, rfl⟩
  | ok size =>
      simp only
      rw [hline.listLine_eq]
      cases scanLine r'.buffer with
      | error e => exact ⟨e, rfl⟩
      | ok said => cases said <;> rfl

end Lines

/-! ### The loop through scan results -/

/-- The loop goes on forever if the lines do not end it. -/
lemma scanLoop_waits {r : Reader} (h : readListing [] (liveLines r.stream) = .waits) (fuel : ℕ) :
    scanLoop fuel r = none := by
  refine run_eq_none (fun st : ScanState => readListing st.1 (liveLines st.2.stream) = .waits)
    ?_ h fuel
  rintro ⟨entries, r⟩ h
  cases hpass : scanPass fuel (entries, r) with
  | none => exact Or.inl rfl
  | some p =>
      right
      cases hlive : liveLines r.stream with
      | nil =>
          rw [scanPass, readNextLine_eq_none hlive] at hpass
          cases hpass
      | cons line rest =>
          -- with more fuel the pass is the same
          obtain ⟨r', hrest, -, hmore⟩ := exists_scanPass entries hlive
            (Nat.lt_succ_of_le (Nat.le_max_left r.stream.length fuel))
          have hpass :=
            scanPass_mono (Nat.le_succ_of_le (Nat.le_max_right r.stream.length fuel)) hpass
          simp only [hlive, readListing] at h
          cases hsaid : listLine line with
          | none =>
              rw [hsaid] at h
              cases h
          | some said =>
              cases said with
              | none =>
                  rw [hsaid] at h
                  cases h
              | some entry =>
                  rw [hsaid] at h hmore
                  rw [hmore] at hpass
                  refine ⟨_, congrArg some (Option.some.inj hpass).symm, ?_⟩
                  simpa only [hrest] using h

lemma exists_scanLoop_outcome {r : Reader} {fuel : ℕ}
    (h : readListing [] (liveLines r.stream) ≠ .waits) (hfuel : r.stream.length < fuel) :
    ∃ out, scanLoop fuel r = some out ∧ (readListing [] (liveLines r.stream)).Of out := by
  refine exists_run_of_measure
    (fun st : ScanState => readListing st.1 (liveLines st.2.stream)
      = readListing [] (liveLines r.stream) ∧ st.2.stream.length < fuel)
    _ (fun st => st.2.stream.length) ?_ ⟨rfl, hfuel⟩ hfuel
  rintro ⟨entries, r₁⟩ ⟨hsame, hlt⟩
  cases hlive : liveLines r₁.stream with
  | nil =>
      simp only [hlive, readListing] at hsame
      exact absurd hsame.symm h
  | cons line rest =>
      obtain ⟨r', hrest, hshort, hpass⟩ := exists_scanPass entries hlive hlt
      simp only [hlive, readListing] at hsame
      cases hsaid : listLine line with
      | none =>
          rw [hsaid] at hpass hsame
          obtain ⟨e, hpass⟩ := hpass
          exact Or.inl ⟨_, hpass, by rw [← hsame]; exact ⟨e, rfl⟩⟩
      | some said =>
          cases said with
          | none =>
              rw [hsaid] at hpass hsame
              exact Or.inl ⟨_, hpass, by rw [← hsame]; exact ⟨rfl, hrest⟩⟩
          | some entry =>
              rw [hsaid] at hpass hsame
              refine Or.inr ⟨_, hpass, ⟨?_, hshort.trans hlt⟩, hshort⟩
              simpa only [hrest] using hsame

/-! ### The whole response -/

/-- `from_read` goes on forever if the lines hold no whole response. -/
lemma fromRead_waits {r : Reader} (h : readResponse (liveLines r.stream) = .waits) (fuel : ℕ) :
    fromRead fuel r = none := by
  rw [fromRead]
  cases hread : readNextLine fuel r with
  | none => rfl
  | some out =>
      cases hlive : liveLines r.stream with
      | nil =>
          rw [readNextLine_eq_none hlive] at hread
          cases hread
      | cons line rest =>
          obtain ⟨res, r', hnext, hrest, hline, -⟩ := exists_readNextLine hlive
            (Nat.lt_succ_self r.stream.length)
          obtain rfl : out = (res, r') := run_unique hread hnext
          simp only [hlive, readResponse] at h
          cases res with
          | error e =>
              rw [headLine, hline.decode_error] at h
              cases h
          | ok size =>
              rw [hline.headLine_eq] at h
              simp only
              cases hfirst : firstLine r'.buffer with
              | error e =>
                  rw [hfirst] at h
                  cases h
              | ok first =>
                  rw [hfirst] at h
                  cases first with
                  | resp resp => cases h
                  | scan keyStart keyEnd =>
                      have hlist : readListing [] (liveLines r'.stream) = .waits := by
                        rw [hrest]
                        exact Outcome.map_eq_waits_iff.mp h
                      simp only [scanLoop_waits hlist, Option.map_none]

/-- **`from_read` does what the lines say.** -/
theorem exists_fromRead_outcome {r : Reader} (h : readResponse (liveLines r.stream) ≠ .waits) :
    ∃ fuel out, fromRead fuel r = some out ∧ (readResponse (liveLines r.stream)).Of out := by
  cases hlive : liveLines r.stream with
  | nil => exact absurd (by rw [hlive]; rfl) h
  | cons line rest =>
      obtain ⟨res, r', hread, hrest, hline, hshort⟩ := exists_readNextLine hlive
        (Nat.lt_succ_self r.stream.length)
      refine ⟨r.stream.length + 1, ?_⟩
      rw [fromRead, hread]
      simp only [hlive, readResponse] at h ⊢
      cases res with
      | error e =>
          have hnone : headLine line = none := by rw [headLine, hline.decode_error]; rfl
          rw [hnone]
          exact ⟨_, rfl, e, rfl⟩
      | ok size =>
          rw [hline.headLine_eq] at h ⊢
          simp only
          cases hfirst : firstLine r'.buffer with
          | error e => exact ⟨_, rfl, e, rfl⟩
          | ok first =>
              cases first with
              | resp resp => exact ⟨_, rfl, rfl, hrest⟩
              | scan keyStart keyEnd =>
                  rw [hfirst] at h
                  have hlist : readListing [] (liveLines r'.stream) ≠ .waits := by
                    rw [hrest]
                    exact fun hwaits => h (Outcome.map_eq_waits_iff.mpr hwaits)
                  obtain ⟨out, hscan, hof⟩ := exists_scanLoop_outcome hlist
                    (hshort.trans (Nat.lt_succ_self _))
                  rw [hrest] at hof
                  exact ⟨_, by rw [hscan]; rfl, hof.map⟩

lemma fromRead_returns_iff {r : Reader} :
    (∃ fuel out, fromRead fuel r = some out) ↔ readResponse (liveLines r.stream) ≠ .waits := by
  constructor
  · rintro ⟨fuel, out, hread⟩ hwaits
    rw [fromRead_waits hwaits] at hread
    cases hread
  · intro h
    obtain ⟨fuel, out, hread, -⟩ := exists_fromRead_outcome h
    exact ⟨fuel, out, hread⟩

/-- What `from_read` gives back is what the lines say. -/
lemma fromRead_outcome {r : Reader} {fuel : ℕ} {out : Except RunnerError KvResp × Reader}
    (h : fromRead fuel r = some out) : (readResponse (liveLines r.stream)).Of out := by
  obtain ⟨fuel', out', h', hof⟩ := exists_fromRead_outcome (fromRead_returns_iff.mp ⟨fuel, out, h⟩)
  rwa [fromRead_unique h h']

end Madkv
