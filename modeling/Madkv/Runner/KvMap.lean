import Mathlib.Data.String.Basic
import Madkv.Library.Linearization
import Madkv.Runner.KvCall

/-!
The sequential map that the operations of the workload interface talk about:
the abstract counterpart of a key-value service, a function from keys to
optional values.

* `KvMap.after`: the map after a call, by the update the call makes.
* `Answers`: when a response is the right one for a call on a given map. A Scan
  answers with the pairs of the closed key range, in any order.
* `Matches`: a response of the kind and with the key arguments of a call.
* `answers_scan_iff`: the answer to a Scan, read through its entries' lookup.
-/

namespace Madkv

open Linearization

/-- The contents of a key-value service. -/
abbrev KvMap := String → Option String

/-- The map that holds nothing. -/
def KvMap.empty : KvMap := fun _ => none

/-- The map after a call. -/
def KvMap.after (m : KvMap) (call : KvCall) : KvMap := store KvCall.updateInfo m call

/-- The response is the one a sequential map `m` gives to the call. -/
def Answers (m : KvMap) : KvCall → KvResp → Prop
  | .put key _, .put key' found => key' = key ∧ found = (m key).isSome
  | .swap key _, .swap key' oldValue => key' = key ∧ oldValue = m key
  | .get key, .get key' value => key' = key ∧ value = m key
  | .scan keyStart keyEnd, .scan keyStart' keyEnd' entries =>
      keyStart' = keyStart ∧ keyEnd' = keyEnd ∧ (entries.map Prod.fst).Nodup
        ∧ ∀ k v, (k, v) ∈ entries ↔ keyStart ≤ k ∧ k ≤ keyEnd ∧ m k = some v
  | .delete key, .delete key' found => key' = key ∧ found = (m key).isSome
  | .stop, .stop => True
  | _, _ => False

/-- The response has the kind and the key arguments of the call. -/
def Matches : KvCall → KvResp → Prop
  | .put key _, .put key' _ => key' = key
  | .swap key _, .swap key' _ => key' = key
  | .get key, .get key' _ => key' = key
  | .scan keyStart keyEnd, .scan keyStart' keyEnd' _ => keyStart' = keyStart ∧ keyEnd' = keyEnd
  | .delete key, .delete key' _ => key' = key
  | .stop, .stop => True
  | _, _ => False

instance : ∀ call resp, Decidable (Matches call resp) := fun call resp => by
  cases call <;> cases resp <;> unfold Matches <;> infer_instance

lemma matches_put {key value : String} {resp : KvResp} :
    Matches (.put key value) resp ↔ ∃ found, resp = .put key found := by
  cases resp <;> simp [Matches]

lemma matches_swap {key value : String} {resp : KvResp} :
    Matches (.swap key value) resp ↔ ∃ oldValue, resp = .swap key oldValue := by
  cases resp <;> simp [Matches]

lemma matches_get {key : String} {resp : KvResp} :
    Matches (.get key) resp ↔ ∃ value, resp = .get key value := by
  cases resp <;> simp [Matches]

lemma matches_scan {keyStart keyEnd : String} {resp : KvResp} :
    Matches (.scan keyStart keyEnd) resp ↔ ∃ entries, resp = .scan keyStart keyEnd entries := by
  cases resp <;> simp [Matches, and_comm]

lemma matches_delete {key : String} {resp : KvResp} :
    Matches (.delete key) resp ↔ ∃ found, resp = .delete key found := by
  cases resp <;> simp [Matches]

/-! ### The entries of a Scan -/

/-- Entries that name each key once are a map. -/
lemma mem_iff_lookup {entries : List (String × String)} (hnodup : (entries.map Prod.fst).Nodup)
    {k v : String} : (k, v) ∈ entries ↔ entries.lookup k = some v := by
  rw [List.lookup_eq_some_iff]
  constructor
  · intro hmem
    obtain ⟨pre, post, rfl⟩ := List.append_of_mem hmem
    refine ⟨pre, post, rfl, fun p hp => ?_⟩
    rw [List.map_append, List.nodup_append] at hnodup
    have hne := hnodup.2.2 p.1 (List.mem_map.mpr ⟨p, hp, rfl⟩) k (by simp)
    simpa using hne.symm
  · rintro ⟨pre, post, rfl, -⟩
    simp

/-- The entries of a Scan's answer tell the value of every key in range. -/
lemma lookup_of_scan_answer {m : KvMap} {keyStart keyEnd : String}
    {entries : List (String × String)} (hnodup : (entries.map Prod.fst).Nodup)
    (hiff : ∀ k v, (k, v) ∈ entries ↔ keyStart ≤ k ∧ k ≤ keyEnd ∧ m k = some v) {k : String}
    (hs : keyStart ≤ k) (he : k ≤ keyEnd) : entries.lookup k = m k := by
  refine Option.ext fun v => ?_
  rw [← mem_iff_lookup hnodup, hiff]
  exact ⟨fun h => h.2.2, fun h => ⟨hs, he, h⟩⟩

lemma answers_scan_iff {m : KvMap} {keyStart keyEnd : String} {entries : List (String × String)} :
    Answers m (.scan keyStart keyEnd) (.scan keyStart keyEnd entries) ↔
      (entries.map Prod.fst).Nodup ∧ (∀ p ∈ entries, keyStart ≤ p.1 ∧ p.1 ≤ keyEnd)
        ∧ ∀ k, keyStart ≤ k → k ≤ keyEnd → m k = entries.lookup k := by
  constructor
  · rintro ⟨-, -, hnodup, hiff⟩
    refine ⟨hnodup, fun p hp => ?_, fun k hs he => (lookup_of_scan_answer hnodup hiff hs he).symm⟩
    have := (hiff p.1 p.2).mp hp
    exact ⟨this.1, this.2.1⟩
  · rintro ⟨hnodup, hrange, hlookup⟩
    refine ⟨rfl, rfl, hnodup, fun k v => ?_⟩
    constructor
    · intro hmem
      obtain ⟨hs, he⟩ := hrange _ hmem
      exact ⟨hs, he, (hlookup k hs he).trans ((mem_iff_lookup hnodup).mp hmem)⟩
    · rintro ⟨hs, he, hv⟩
      exact (mem_iff_lookup hnodup).mpr ((hlookup k hs he).symm.trans hv)

end Madkv
