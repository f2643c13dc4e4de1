import Madkv.Runner.KvMap
import Madkv.Fuzzer.Checks

/-!
A Scan against the Gets of its keys.

* `ScanAsGets`: what the checks of Gets say of the answer to a Scan.
* `ScanFails`: the grounds on which `check_scan` refuses an answer, all of them
  apart from its entries outside the pool.
* `scan_agrees_iff`: the two agree unless an entry outside the pool is the only
  fault of the answer. A Get of such a key fails, while the loop of `check_scan`
  is over the keys of the pool.
-/

namespace Madkv

/-- The keys of the entries are distinct and in range, each entry passes as a Get,
and each pool key in range without an entry passes as a Get of nothing. -/
structure ScanAsGets (spans : Spans) (tsCall tsResp : ℕ) (keyStart keyEnd : String)
    (entries : List (String × String)) : Prop where
  nodup : (entries.map Prod.fst).Nodup
  range : ∀ p ∈ entries, keyStart ≤ p.1 ∧ p.1 ≤ keyEnd
  entry : ∀ p ∈ entries, checkCall spans ⟨tsCall, tsResp, .get p.1 (some p.2)⟩ = true
  absent : ∀ k ∈ spans, keyStart ≤ k → k ≤ keyEnd → k ∉ entries.map Prod.fst →
    checkCall spans ⟨tsCall, tsResp, .get k none⟩ = true

/-- An entry is a duplicate or out of range, or a pool key in range fails as a Get. -/
def ScanFails (spans : Spans) (tsCall tsResp : ℕ) (keyStart keyEnd : String)
    (entries : List (String × String)) : Prop :=
  ¬ (entries.map Prod.fst).Nodup ∨ (∃ p ∈ entries, p.1 < keyStart ∨ keyEnd < p.1)
    ∨ ∃ k ∈ spans, keyStart ≤ k ∧ k ≤ keyEnd
      ∧ checkCall spans ⟨tsCall, tsResp, .get k (entries.lookup k)⟩ = false

variable {spans : Spans} {tsCall tsResp : ℕ} {keyStart keyEnd key : String} {value : Option String}
  {entries : List (String × String)}

lemma checkCall_get_iff : checkCall spans ⟨tsCall, tsResp, .get key value⟩ = true ↔
    key ∈ spans ∧ spans.Vouched tsCall tsResp key (fun v => v = value) :=
  checkCall_iff spans ⟨tsCall, tsResp, .get key value⟩

lemma not_scanFails_iff : ¬ ScanFails spans tsCall tsResp keyStart keyEnd entries ↔
    (entries.map Prod.fst).Nodup ∧ (∀ p ∈ entries, keyStart ≤ p.1 ∧ p.1 ≤ keyEnd)
      ∧ ∀ k ∈ spans, keyStart ≤ k → k ≤ keyEnd →
        checkCall spans ⟨tsCall, tsResp, .get k (entries.lookup k)⟩ = true := by
  simp only [ScanFails, not_or, not_not, not_exists, not_and, not_lt, Bool.not_eq_false]

/-- The grounds on which `check_scan` refuses an answer. -/
lemma checkCall_scan_iff :
    checkCall spans ⟨tsCall, tsResp, .scan keyStart keyEnd entries⟩ = true ↔
      ¬ ScanFails spans tsCall tsResp keyStart keyEnd entries := by
  rw [not_scanFails_iff]
  refine (checkScan_iff spans tsCall tsResp keyStart keyEnd entries).trans ?_
  refine and_congr_right fun _ => and_congr_right fun _ => forall₂_congr fun k hk => ?_
  rw [checkCall_get_iff, and_iff_right hk]

/-- The Gets refuse an answer on the same grounds, or for an entry outside the pool. -/
lemma scanAsGets_iff : ScanAsGets spans tsCall tsResp keyStart keyEnd entries ↔
    ¬ ScanFails spans tsCall tsResp keyStart keyEnd entries ∧ ∀ p ∈ entries, p.1 ∈ spans := by
  rw [not_scanFails_iff]
  constructor
  · rintro ⟨hnodup, hrange, hentry, habsent⟩
    refine ⟨⟨hnodup, hrange, fun k hk hs he => ?_⟩,
      fun p hp => (checkCall_get_iff.mp (hentry p hp)).1⟩
    cases hlookup : entries.lookup k with
    | some value => exact hentry _ ((mem_iff_lookup hnodup).mpr hlookup)
    | none =>
        refine habsent k hk hs he fun hmem => ?_
        obtain ⟨p, hp, rfl⟩ := List.mem_map.mp hmem
        rw [(mem_iff_lookup hnodup).mp hp] at hlookup
        cases hlookup
  · rintro ⟨⟨hnodup, hrange, hgets⟩, hpool⟩
    refine ⟨hnodup, hrange, fun p hp => ?_, fun k hk hs he hnot => ?_⟩
    · have hget := hgets p.1 (hpool p hp) (hrange p hp).1 (hrange p hp).2
      rwa [(mem_iff_lookup hnodup).mp hp] at hget
    · have hget := hgets k hk hs he
      cases hlookup : entries.lookup k with
      | some value =>
          have hmem : (k, value) ∈ entries := (mem_iff_lookup hnodup).mpr hlookup
          exact absurd (List.mem_map_of_mem hmem) hnot
      | none => rwa [hlookup] at hget

/-- **When a Scan is checked as the Gets of its keys**: if all entries name keys of
the pool or the answer fails anyway, and only then. -/
theorem scan_agrees_iff (spans : Spans) (tsCall tsResp : ℕ) (keyStart keyEnd : String)
    (entries : List (String × String)) :
    (checkCall spans ⟨tsCall, tsResp, .scan keyStart keyEnd entries⟩ = true ↔
        ScanAsGets spans tsCall tsResp keyStart keyEnd entries) ↔
      (∀ p ∈ entries, p.1 ∈ spans) ∨ ScanFails spans tsCall tsResp keyStart keyEnd entries := by
  rw [checkCall_scan_iff, scanAsGets_iff]
  by_cases hfails : ScanFails spans tsCall tsResp keyStart keyEnd entries
  · simp only [hfails, not_true_eq_false, false_and, or_true]
  · simp only [hfails, not_false_eq_true, true_and, true_iff, or_false]

/-- The entry of a key that is not in the pool passes, though a Get of it does not. -/
theorem exists_unknown_entry_accepted :
    ¬ ∀ (h : History) (tsCall tsResp : ℕ) (keyStart keyEnd : String)
        (entries : List (String × String)),
      checkCall h.spans ⟨tsCall, tsResp, .scan keyStart keyEnd entries⟩ = true ↔
        ScanAsGets h.spans tsCall tsResp keyStart keyEnd entries := by
  intro h
  have hscan := (h (.new 1 [["a"]]) 1 2 "a" "c" [("b", "x")]).mp (by decide)
  exact absurd (hscan.entry ("b", "x") (List.mem_singleton_self _)) (by decide)

end Madkv
