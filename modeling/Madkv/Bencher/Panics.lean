import Madkv.Bencher.ScanRanges

/-!
When the handling of a driver's line panics.

* `NoPanic`: the handling returns, be it an error. `noPanic_bind_iff`: the rule for
  sequences.
* `noPanic_scanEnd_iff`: a scan panics if it asks for no keys, out of some.
* `noPanic_recordYcsbPerf`: a performance number is never a reason to panic.
* `lines_noPanic_iff`: scans of no keys are the only lines that make the feeder
  panic.
-/

namespace Madkv.Bencher

open Fallible

section NoPanic

variable {α β : Type} {x : Except LineEnd α} {f : α → Except LineEnd β}

/-- The handling of a line returns. -/
def NoPanic (x : Except LineEnd α) : Prop := ∀ p, x ≠ .error (.panic p)

lemma noPanic_ok (a : α) : NoPanic (.ok a) := fun _ h => nomatch h

lemma noPanic_error (e : RunnerError) : NoPanic (.error (.error e) : Except LineEnd α) :=
  fun _ h => nomatch h

/-- A sequence panics where one of its parts does. -/
lemma noPanic_bind_iff : NoPanic (x >>= f) ↔ NoPanic x ∧ ∀ a, x = .ok a → NoPanic (f a) := by
  constructor
  · intro h
    refine ⟨fun p hp => h p ?_, fun a ha p hp => h p ?_⟩
    · exact bind_eq_error.mpr (Or.inl hp)
    · exact bind_eq_error.mpr (Or.inr ⟨a, ha, hp⟩)
  · rintro ⟨hx, hf⟩ p hp
    rcases bind_eq_error.mp hp with hp | ⟨a, ha, hp⟩
    · exact hx p hp
    · exact hf a ha p hp

lemma NoPanic.bind (hx : NoPanic x) (hf : ∀ a, x = .ok a → NoPanic (f a)) : NoPanic (x >>= f) :=
  noPanic_bind_iff.mpr ⟨hx, hf⟩

/-- A panic goes through what comes after it. -/
lemma NoPanic.of_bind (h : NoPanic (x >>= f)) {a : α} (ha : x = .ok a) : NoPanic (f a) :=
  (noPanic_bind_iff.mp h).2 a ha

lemma noPanic_liftError (x : Except RunnerError α) : NoPanic (liftError x) := by
  cases x with
  | error e => exact noPanic_error e
  | ok a => exact noPanic_ok a

end NoPanic

/-! ### Calls -/

section Calls

variable {line : List Char} {segs : List String} {ikeys : Finset String} {keyStart : String}

lemma noPanic_parseYcsbKey (segs : List String) : NoPanic (parseYcsbKey segs) := by
  unfold parseYcsbKey
  split
  · exact noPanic_ok _
  · exact noPanic_error _

lemma noPanic_parseYcsbValue (segs : List String) : NoPanic (parseYcsbValue segs) := by
  unfold parseYcsbValue
  split
  · exact noPanic_ok _
  · exact noPanic_error _

lemma noPanic_parseYcsbScnt (segs : List String) : NoPanic (parseYcsbScnt segs) := by
  unfold parseYcsbScnt
  split
  · exact noPanic_liftError _
  · exact noPanic_error _

/-- The last key is there, so that only the count is a reason to panic. -/
lemma noPanic_scanEnd_iff : NoPanic (scanEnd keyStart segs ikeys) ↔
    ikeys = ∅ ∨ parseYcsbScnt segs ≠ .ok 0 := by
  rw [scanEnd]
  by_cases hempty : ikeys = ∅
  · rw [if_pos hempty]
    exact iff_of_true (noPanic_ok _) (.inl hempty)
  · rw [if_neg hempty, or_iff_right hempty]
    constructor
    · intro h hcount
      exact (noPanic_bind_iff.mp (h.of_bind hcount)).1 .underflow rfl
    · intro hcount
      obtain ⟨top, htop⟩ := exists_last (Finset.nonempty_iff_ne_empty.mpr hempty)
      refine (noPanic_parseYcsbScnt segs).bind fun scnt hscnt => ?_
      have hle : 1 ≤ scnt := Nat.one_le_iff_ne_zero.mpr fun h => hcount (h ▸ hscnt)
      rw [checkedSub, if_pos hle, htop]
      exact noPanic_ok _

/-- A scan of no keys, with keys inserted. -/
def ZeroScan (segs : List String) (ikeys : Finset String) : Prop :=
  ikeys.Nonempty ∧ ∃ table key count rest,
    segs = "SCAN" :: table :: key :: count :: rest ∧ parseUsize count = .ok 0

lemma zeroScan_cons_iff {table key : String} : ZeroScan ("SCAN" :: table :: key :: segs) ikeys ↔
    ikeys ≠ ∅ ∧ parseYcsbScnt segs = .ok 0 := by
  rw [ZeroScan, Finset.nonempty_iff_ne_empty]
  refine and_congr_right' ?_
  cases segs with
  | nil => simp [parseYcsbScnt]
  | cons count rest =>
      rw [parseYcsbScnt, liftError_eq_ok]
      simp

lemma noPanic_interpretYcsbCall_iff :
    NoPanic (interpretYcsbCall line ikeys) ↔ ¬ ZeroScan (getSegsOfLine line) ikeys := by
  rw [interpretYcsbCall]
  split
  · rename_i segs hsegs
    refine iff_of_true ?_ (by simp [ZeroScan, hsegs])
    refine (noPanic_parseYcsbKey segs).bind fun key _ => ?_
    exact (noPanic_parseYcsbValue key.2).bind fun value _ => noPanic_ok _
  · rename_i segs hsegs
    refine iff_of_true ?_ (by simp [ZeroScan, hsegs])
    refine (noPanic_parseYcsbKey segs).bind fun key _ => ?_
    exact (noPanic_parseYcsbValue key.2).bind fun value _ => noPanic_ok _
  · rename_i segs hsegs
    refine iff_of_true ?_ (by simp [ZeroScan, hsegs])
    exact (noPanic_parseYcsbKey segs).bind fun key _ => noPanic_ok _
  · rename_i segs hsegs
    rw [hsegs]
    cases segs with
    | nil => exact iff_of_true (noPanic_error _) (by simp [ZeroScan])
    | cons table segs =>
        cases segs with
        | nil => exact iff_of_true (noPanic_error _) (by simp [ZeroScan])
        | cons key segs =>
            rw [zeroScan_cons_iff, not_and_or, not_not, ← noPanic_scanEnd_iff]
            constructor
            · exact fun h => (noPanic_bind_iff.mp (h.of_bind rfl)).1
            · exact fun h => h.bind fun keyEnd _ => noPanic_ok _
  · rename_i hscan
    refine iff_of_true (noPanic_ok _) ?_
    rintro ⟨-, table, key, count, rest, hsegs, -⟩
    exact hscan _ hsegs

end Calls

/-! ### Performance numbers -/

section Perf

variable {F : Type} (parseFloat : String → Except RunnerError F) (asUsize : F → ℕ)

lemma noPanic_parseYcsbFloat (segs : List String) : NoPanic (parseYcsbFloat parseFloat segs) := by
  unfold parseYcsbFloat
  split
  · exact noPanic_liftError _
  · exact noPanic_error _

lemma noPanic_recordOp (op name : String) (segs : List String) (stats : Perf F) :
    NoPanic (recordOp parseFloat asUsize op name segs stats) := by
  have hrecord (record : F → Perf F) :
      NoPanic (parseYcsbFloat parseFloat segs >>= fun num => .ok (record num)) :=
    (noPanic_parseYcsbFloat parseFloat segs).bind fun num _ => noPanic_ok _
  rw [recordOp]
  split_ifs
  · exact hrecord _
  · exact hrecord _
  · exact hrecord _
  · exact hrecord _
  · exact hrecord _
  · exact noPanic_ok _

/-- The headers of the operations are long enough to be sliced. -/
lemma exists_slice_header {header : String}
    (h : header ∈ ["[INSERT],", "[UPDATE],", "[READ],", "[SCAN],"]) :
    ∃ stop op, checkedSub (utf8Size header.toList) 2 = .ok stop ∧ slice header 1 stop = .ok op := by
  simp only [List.mem_cons, List.not_mem_nil, or_false] at h
  rcases h with rfl | rfl | rfl | rfl
  · exact ⟨7, "INSERT", by decide, by decide⟩
  · exact ⟨7, "UPDATE", by decide, by decide⟩
  · exact ⟨5, "READ", by decide, by decide⟩
  · exact ⟨5, "SCAN", by decide, by decide⟩

lemma noPanic_recordYcsbPerf (line : List Char) (stats : Perf F) :
    NoPanic (recordYcsbPerf parseFloat asUsize line stats) := by
  have hrecord (segs : List String) (record : F → Perf F) :
      NoPanic (parseYcsbFloat parseFloat segs >>= fun num => .ok (record num)) :=
    (noPanic_parseYcsbFloat parseFloat segs).bind fun num _ => noPanic_ok _
  unfold recordYcsbPerf
  split
  · split_ifs
    · exact hrecord _ _
    · exact hrecord _ _
    · exact noPanic_ok _
  · split_ifs with hheader
    · obtain ⟨stop, op, hstop, hop⟩ := exists_slice_header hheader
      rw [hstop]
      refine (noPanic_ok stop).bind fun stop' hstop' => ?_
      obtain rfl := Except.ok.inj hstop'
      rw [hop]
      refine (noPanic_ok op).bind fun op' _ => ?_
      split
      · exact noPanic_recordOp parseFloat asUsize _ _ _ stats
      · exact noPanic_ok stats
    · exact noPanic_ok stats
  · exact noPanic_ok stats

end Perf

/-- **When no line makes the feeder panic**: a line and the keys inserted so far are
handled without a panic, as a call and as a report of a number, iff it is not a
scan of no keys out of some. -/
theorem lines_noPanic_iff (line : List Char) (ikeys : Finset String) :
    ((∀ p, interpretYcsbCall line ikeys ≠ .error (.panic p))
        ∧ ∀ (F : Type) (parseFloat : String → Except RunnerError F) (asUsize : F → ℕ)
          (stats : Perf F) (p : Panic),
          recordYcsbPerf parseFloat asUsize line stats ≠ .error (.panic p)) ↔
      ¬ ZeroScan (getSegsOfLine line) ikeys := by
  rw [← noPanic_interpretYcsbCall_iff]
  refine and_iff_left fun F parseFloat asUsize stats => ?_
  exact noPanic_recordYcsbPerf parseFloat asUsize line stats

/-- A scan of no keys panics. -/
theorem exists_line_panics :
    interpretYcsbCall "SCAN t a 0".toList {"t_a"} = .error (.panic .underflow) := by
  rw [interpretYcsbCall]
  rfl

end Madkv.Bencher
