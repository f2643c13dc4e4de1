import Madkv.Refcli.HandleKvCall
import Madkv.Refcli.ParseInputCall

/-!
The reference client on a sequence of input lines.

* `serve`: the responses to calls that are handled one after another, `none` if
  one of them panics.
* `handleKvCall_eq_none_iff`: the only call that panics is a Scan whose key range
  starts past its end, on a map that has held an entry.
* `serve_lines_iff`: a sequence of lines is served to its end iff none of them is
  such a Scan after a Put or Swap.
-/

namespace Madkv

open Refcli

namespace Refcli

/-- The responses to a sequence of calls, and the map after them. -/
def serve : List KvCall → State → Option (List KvResp × State)
  | [], state => some ([], state)
  | call :: calls, state =>
      match handleKvCall call state with
      | none => none
      | some (resp, state) => (serve calls state).map fun (resps, state) => (resp :: resps, state)

end Refcli

/-- A line that is read as a Scan of a range that starts past its end. -/
def InvertedScan (line : List Char) : Prop :=
  ∃ keyStart keyEnd segs, getSegsOfLine line = "SCAN" :: keyStart :: keyEnd :: segs
    ∧ keyEnd < keyStart

/-- A line that is read as a Put or a Swap. -/
def Inserts (line : List Char) : Prop :=
  ∃ keyword segs, getSegsOfLine line = keyword :: segs ∧ (keyword = "PUT" ∨ keyword = "SWAP")

/-- A Scan of a range that starts past its end comes after a Put or a Swap. -/
def ScansInverted (lines : List (List Char)) : Prop :=
  ∃ before line after, lines = before ++ line :: after ∧ InvertedScan line
    ∧ ∃ earlier ∈ before, Inserts earlier

section Serving

variable {call : KvCall} {calls : List KvCall} {line : List Char} {lines : List (List Char)}
  {state state' : State} {resp : KvResp}

lemma handleKvCall_eq_none_iff : handleKvCall call state = none ↔ state.rooted = true ∧
    ∃ keyStart keyEnd, call = .scan keyStart keyEnd ∧ keyEnd < keyStart := by
  cases call with
  | scan keyStart keyEnd =>
      rw [handleKvCall, Option.map_eq_none_iff, State.range_eq_none_iff]
      simp
  | put | swap | get | delete | stop => simp [handleKvCall]

/-- The map has a root after a Put or a Swap, and as long as it had one. -/
lemma rooted_handleKvCall (h : handleKvCall call state = some (resp, state')) :
    state'.rooted = true ↔
      state.rooted = true ∨ ∃ key value, call = .put key value ∨ call = .swap key value := by
  cases call with
  | scan keyStart keyEnd =>
      obtain ⟨entries, -, heq⟩ := Option.map_eq_some_iff.mp h
      cases heq
      simp
  | put | swap | get | delete | stop =>
      cases h
      simp

/-- A line that is parsed to such a Scan is one. -/
lemma invertedScan_iff (h : parseInputCall line = .ok call) : InvertedScan line ↔
    ∃ keyStart keyEnd, call = .scan keyStart keyEnd ∧ keyEnd < keyStart := by
  obtain ⟨extra, hsegs⟩ := parseInputCall_eq_ok_iff.mp h
  rw [InvertedScan, hsegs]
  constructor
  · rintro ⟨keyStart, keyEnd, segs, hform, hlt⟩
    cases call with
    | scan keyStart' keyEnd' =>
        simp only [KvCall.form, KvCall.keyword, KvCall.args, List.cons_append, List.cons.injEq,
          true_and] at hform
        obtain ⟨rfl, rfl, -⟩ := hform
        exact ⟨keyStart', keyEnd', rfl, hlt⟩
    | put | swap | get | delete | stop => simp [KvCall.form, KvCall.keyword] at hform
  · rintro ⟨keyStart, keyEnd, rfl, hlt⟩
    exact ⟨keyStart, keyEnd, extra, rfl, hlt⟩

lemma inserts_iff (h : parseInputCall line = .ok call) : Inserts line ↔
    ∃ key value, call = .put key value ∨ call = .swap key value := by
  obtain ⟨extra, hsegs⟩ := parseInputCall_eq_ok_iff.mp h
  rw [Inserts, hsegs]
  cases call <;> simp [KvCall.form, KvCall.keyword]

lemma scansInverted_cons : ScansInverted (line :: lines) ↔
    ScansInverted lines ∨ Inserts line ∧ ∃ later ∈ lines, InvertedScan later := by
  constructor
  · rintro ⟨before, scan, after, hsplit, hscan, earlier, hearlier, hinserts⟩
    cases before with
    | nil => cases hearlier
    | cons first before =>
        obtain ⟨rfl, rfl⟩ := List.cons.inj hsplit
        rcases List.mem_cons.mp hearlier with rfl | hearlier
        · exact Or.inr ⟨hinserts, scan, by simp, hscan⟩
        · exact Or.inl ⟨before, scan, after, rfl, hscan, earlier, hearlier, hinserts⟩
  · rintro (⟨before, scan, after, rfl, hscan, earlier, hearlier, hinserts⟩
      | ⟨hline, scan, hmem, hscan⟩)
    · exact ⟨line :: before, scan, after, rfl, hscan, earlier, List.mem_cons_of_mem _ hearlier,
        hinserts⟩
    · obtain ⟨before, after, rfl⟩ := List.append_of_mem hmem
      exact ⟨line :: before, scan, after, rfl, hscan, line, List.mem_cons_self, hline⟩

/-- The calls of some lines are served from any map to the end iff none of the
lines is a Scan that panics. -/
lemma serve_iff (state : State)
    (hparse : List.Forall₂ (fun line call => parseInputCall line = .ok call) lines calls) :
    (∃ out, serve calls state = some out) ↔
      ¬ ScansInverted lines ∧ (state.rooted = true → ∀ line ∈ lines, ¬ InvertedScan line) := by
  induction hparse generalizing state with
  | nil => simp [serve, ScansInverted]
  | @cons line call lines calls hline _ ih =>
      rw [serve, List.forall_mem_cons, scansInverted_cons]
      cases hhandle : handleKvCall call state with
      | none =>
          obtain ⟨hroot, hinverted⟩ := handleKvCall_eq_none_iff.mp hhandle
          simp [hroot, (invertedScan_iff hline).mpr hinverted]
      | some out =>
          obtain ⟨resp, state'⟩ := out
          have hfine : state.rooted = true → ¬ InvertedScan line := fun hroot hinverted => by
            rw [handleKvCall_eq_none_iff.mpr ⟨hroot, (invertedScan_iff hline).mp hinverted⟩]
              at hhandle
            cases hhandle
          have hserve : (∃ out, (serve calls state').map
              (fun (resps, state) => (resp :: resps, state)) = some out)
              ↔ ∃ out, serve calls state' = some out := by
            simp only [← Option.isSome_iff_exists, Option.isSome_map]
          simp only [hserve, ih, rooted_handleKvCall hhandle, ← inserts_iff hline]
          constructor
          · rintro ⟨hlater, hroot⟩
            refine ⟨?_, fun h => ⟨hfine h, hroot (Or.inl h)⟩⟩
            rintro (h | ⟨hinserts, later, hmem, hscan⟩)
            · exact hlater h
            · exact hroot (Or.inr hinserts) later hmem hscan
          · rintro ⟨hlater, hroot⟩
            refine ⟨fun h => hlater (Or.inl h), ?_⟩
            rintro (h | hinserts) later hmem hscan
            · exact (hroot h).2 later hmem hscan
            · exact hlater (Or.inr ⟨hinserts, later, hmem, hscan⟩)

end Serving

/-- **When the reference client does not panic**: on lines that are accepted, iff
no Scan that starts past its end comes after a Put or a Swap. -/
theorem serve_lines_iff (lines : List (List Char)) (calls : List KvCall)
    (hparse : List.Forall₂ (fun line call => parseInputCall line = .ok call) lines calls) :
    (∃ out, serve calls ∅ = some out) ↔ ¬ ScansInverted lines := by
  rw [serve_iff ∅ hparse]
  simp

theorem serve_lines_iff_putAndScan :
    (∃ out, serve [.put "a" "x", .scan "a" "b"] ∅ = some out) ↔
      ¬ ScansInverted ["PUT a x".toList, "SCAN a b".toList] :=
  serve_lines_iff ["PUT a x".toList, "SCAN a b".toList] [.put "a" "x", .scan "a" "b"]
    (.cons rfl (.cons rfl .nil))

/-- A Scan of the keys from `b` to `a` panics once the map has held a key. -/
theorem exists_serve_panics :
    ¬ ∀ (lines : List (List Char)) (calls : List KvCall),
      List.Forall₂ (fun line call => parseInputCall line = .ok call) lines calls →
        ∃ out, serve calls ∅ = some out := by
  intro h
  obtain ⟨out, hserve⟩ := h ["PUT a x".toList, "SCAN b a".toList] [.put "a" "x", .scan "b" "a"]
    (.cons rfl (.cons rfl .nil))
  have hpanic : handleKvCall (.scan "b" "a") (State.insert ∅ "a" "x") = none :=
    handleKvCall_eq_none_iff.mpr ⟨rfl, "b", "a", rfl, by decide⟩
  rw [serve, handleKvCall] at hserve
  simp only [serve, hpanic] at hserve
  cases hserve

end Madkv
