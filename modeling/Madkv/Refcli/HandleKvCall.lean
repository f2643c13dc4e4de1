import Madkv.Runner.KvMap

/-!
The operations of the reference client (`handle_kv_call` of `refcli`).

* `State`: its sorted map, with the sequential map that it stands for. It knows whether
  it has ever held an entry.
* `handleKvCall`: the response to a call and the map after it, `none` for the
  panic of a range whose start is past its end.
* `handleKvCall_spec`: the map after a call is the sequential one, and the
  response the right one, a Scan's excepted, whose range is half-open
  (`HalfOpenAnswers`).
* `halfOpenAnswers_iff`: such a Scan is right exactly if the key it ends on is
  absent.
-/

namespace Madkv

namespace Refcli

/-- The fake, non-server-side sorted map. A `BTreeMap` gets its root with its first entry,
and keeps it when it loses all entries again. -/
structure State where
  entries : Std.TreeMap String String
  rooted : Bool
  rooted_of_mem : ∀ key, key ∈ entries → rooted = true

namespace State

instance : EmptyCollection State := ⟨⟨∅, false, by simp⟩⟩

variable (state : State) (key value : String)

def get : Option String := state.entries[key]?

def containsKey : Bool := state.entries.contains key

def insert : State := ⟨state.entries.insert key value, true, fun _ _ => rfl⟩

def remove : State where
  entries := state.entries.erase key
  rooted := state.rooted
  rooted_of_mem k hk := state.rooted_of_mem k (Std.TreeMap.mem_of_mem_erase hk)

/-- The entries of `range(key_start..key_end)`, `none` for its panic. The bounds are
compared on the way down from the root. -/
def range (keyStart keyEnd : String) : Option (List (String × String)) :=
  if state.rooted then
    if keyEnd < keyStart then none
    else some (state.entries.toList.filter fun p =>
      decide (keyStart ≤ p.1) && decide (p.1 < keyEnd))
  else some []

/-- The sequential map that the sorted map stands for. -/
def toMap : KvMap := state.get

@[simp] lemma rooted_empty : (∅ : State).rooted = false := rfl

@[simp] lemma rooted_insert : (state.insert key value).rooted = true := rfl

@[simp] lemma rooted_remove : (state.remove key).rooted = state.rooted := rfl

@[simp] lemma toMap_empty : toMap ∅ = KvMap.empty := by
  funext k
  exact Std.TreeMap.getElem?_emptyc

lemma containsKey_eq : state.containsKey key = (state.toMap key).isSome :=
  Std.TreeMap.contains_eq_isSome_getElem?

lemma toMap_insert :
    (state.insert key value).toMap = Function.update state.toMap key (some value) := by
  funext k
  show (state.entries.insert key value)[k]? = _
  rw [Std.TreeMap.getElem?_insert, Function.update_apply]
  simp only [Std.LawfulEqCmp.compare_eq_iff_eq, eq_comm (a := key)]
  rfl

lemma toMap_remove : (state.remove key).toMap = Function.update state.toMap key none := by
  funext k
  show (state.entries.erase key)[k]? = _
  rw [Std.TreeMap.getElem?_erase, Function.update_apply]
  simp only [Std.LawfulEqCmp.compare_eq_iff_eq, eq_comm (a := key)]
  rfl

/-- A map without a root has no entries. -/
lemma toMap_of_not_rooted (h : state.rooted = false) : state.toMap = KvMap.empty := by
  funext k
  refine Std.TreeMap.getElem?_eq_none fun hmem => ?_
  rw [state.rooted_of_mem k hmem] at h
  cases h

lemma nodup_keys : (state.entries.toList.map Prod.fst).Nodup := by
  rw [List.Nodup, List.pairwise_map]
  refine Std.TreeMap.distinct_keys_toList.imp fun {a b} hne heq => hne ?_
  rw [heq]
  exact Std.ReflCmp.compare_self

variable {state key value} {keyStart keyEnd : String} {entries : List (String × String)}

lemma range_eq_none_iff :
    state.range keyStart keyEnd = none ↔ state.rooted = true ∧ keyEnd < keyStart := by
  unfold range
  split_ifs with hroot hlt <;> simp [*]

/-- **The half-open range**, once for a map with a root and once for one without. -/
lemma range_spec (h : state.range keyStart keyEnd = some entries) : (entries.map Prod.fst).Nodup
    ∧ ∀ k v, (k, v) ∈ entries ↔ keyStart ≤ k ∧ k < keyEnd ∧ state.toMap k = some v := by
  unfold range at h
  split_ifs at h with hroot hlt
  · cases h
    refine ⟨state.nodup_keys.sublist (List.filter_sublist.map _), fun k v => ?_⟩
    rw [List.mem_filter, Std.TreeMap.mem_toList_iff_getElem?_eq_some]
    simp only [Bool.and_eq_true, decide_eq_true_eq]
    exact ⟨fun h => ⟨h.2.1, h.2.2, h.1⟩, fun h => ⟨h.2.2, h.1, h.2.1⟩⟩
  · cases h
    rw [state.toMap_of_not_rooted (Bool.eq_false_iff.mpr hroot)]
    simp [KvMap.empty]

end State

/-- Handle a call (dummy logic). -/
def handleKvCall (call : KvCall) (state : State) : Option (KvResp × State) :=
  match call with
  | .put key value => some (.put key (state.containsKey key), state.insert key value)
  | .swap key value => some (.swap key (state.get key), state.insert key value)
  | .get key => some (.get key (state.get key), state)
  | .scan keyStart keyEnd =>
      (state.range keyStart keyEnd).map fun entries => (.scan keyStart keyEnd entries, state)
  | .delete key => some (.delete key (state.get key).isSome, state.remove key)
  | .stop => some (.stop, state)

/-- The answer of a sequential map, except that the range of a Scan leaves out
the key it ends on. -/
def HalfOpenAnswers (m : KvMap) : KvCall → KvResp → Prop
  | .scan keyStart keyEnd, .scan keyStart' keyEnd' entries =>
      keyStart' = keyStart ∧ keyEnd' = keyEnd ∧ (entries.map Prod.fst).Nodup
        ∧ ∀ k v, (k, v) ∈ entries ↔ keyStart ≤ k ∧ k < keyEnd ∧ m k = some v
  | .scan _ _, _ => False
  | call, resp => Answers m call resp

/-- The Scan ends on a key that is present. -/
def ScanEndsOnKey (m : KvMap) : KvCall → Prop
  | .scan _ keyEnd => m keyEnd ≠ none
  | _ => False

/-- What the reference client answers to a call, and the map after it. -/
theorem handleKvCall_spec {call : KvCall} {state state' : State} {resp : KvResp}
    (h : handleKvCall call state = some (resp, state')) :
    HalfOpenAnswers state.toMap call resp ∧ state'.toMap = state.toMap.after call := by
  cases call with
  | put key value =>
      obtain ⟨rfl, rfl⟩ := Prod.mk.inj (Option.some.inj h)
      exact ⟨⟨rfl, state.containsKey_eq key⟩, state.toMap_insert key value⟩
  | swap key value =>
      obtain ⟨rfl, rfl⟩ := Prod.mk.inj (Option.some.inj h)
      exact ⟨⟨rfl, rfl⟩, state.toMap_insert key value⟩
  | get key =>
      obtain ⟨rfl, rfl⟩ := Prod.mk.inj (Option.some.inj h)
      exact ⟨⟨rfl, rfl⟩, rfl⟩
  | scan keyStart keyEnd =>
      obtain ⟨entries, hrange, heq⟩ := Option.map_eq_some_iff.mp h
      obtain ⟨rfl, rfl⟩ := Prod.mk.inj heq
      exact ⟨⟨rfl, rfl, State.range_spec hrange⟩, rfl⟩
  | delete key =>
      obtain ⟨rfl, rfl⟩ := Prod.mk.inj (Option.some.inj h)
      exact ⟨⟨rfl, rfl⟩, state.toMap_remove key⟩
  | stop =>
      obtain ⟨rfl, rfl⟩ := Prod.mk.inj (Option.some.inj h)
      exact ⟨trivial, rfl⟩

/-- The half-open range misses the answer by the key that it ends on. -/
lemma halfOpenAnswers_iff {m : KvMap} {call : KvCall} {resp : KvResp}
    (h : HalfOpenAnswers m call resp)
    (hrange : ∀ keyStart keyEnd, call = .scan keyStart keyEnd → keyStart ≤ keyEnd) :
    Answers m call resp ↔ ¬ ScanEndsOnKey m call := by
  cases call with
  | scan keyStart keyEnd =>
      obtain ⟨entries, rfl⟩ : ∃ entries, resp = .scan keyStart keyEnd entries := by
        cases resp with
        | scan keyStart' keyEnd' entries =>
            obtain ⟨rfl, rfl, -⟩ := h
            exact ⟨entries, rfl⟩
        | _ => exact h.elim
      obtain ⟨-, -, hnodup, hiff⟩ := h
      have hle := hrange _ _ rfl
      simp only [Answers, ScanEndsOnKey, hnodup, true_and, hiff, not_not]
      constructor
      · intro hall
        cases hend : m keyEnd with
        | none => rfl
        | some v => exact absurd ((hall keyEnd v).mpr ⟨hle, le_rfl, hend⟩).2.1 (lt_irrefl _)
      · intro hnone k v
        refine ⟨fun h => ⟨h.1, h.2.1.le, h.2.2⟩, fun h => ⟨h.1, ?_, h.2.2⟩⟩
        refine lt_of_le_of_ne h.2.1 fun heq => ?_
        rw [← heq, h.2.2] at hnone
        cases hnone
  | put key value => exact iff_of_true h not_false
  | swap key value => exact iff_of_true h not_false
  | get key => exact iff_of_true h not_false
  | delete key => exact iff_of_true h not_false
  | stop => exact iff_of_true h not_false

end Refcli

end Madkv
