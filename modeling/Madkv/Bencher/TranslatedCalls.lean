import Madkv.Bencher.ScanRanges

/-!
The calls that the lines of a driver are translated to, one line after another.

* `translate`: the calls of some lines, with the keys inserted so far passed on.
* `Translated.words`: the keys inserted are words, which each line keeps so.
* `Translated.survives_iff`: a call survives the wire, unless its value is empty.
* `translate_survives_iff`: so do all calls, unless some line gives an empty value.
-/

namespace Madkv.Bencher

open Words Refcli

/-- The calls of some lines in their order. A line that fails returns no call and
leaves the keys as they are. -/
def translate (ikeys : Finset String) : List (List Char) → List KvCall
  | [] => []
  | line :: lines =>
      match interpretYcsbCall line ikeys with
      | .ok (call, ikeys') => call.toList ++ translate ikeys' lines
      | .error _ => translate ikeys lines

/-- The bracket of the value is opened, and nothing stands in it. -/
def EmptyValue (segs : List String) : Prop :=
  ∃ kind ∈ ["INSERT", "UPDATE"], ∃ table key, segs = [kind, table, key, "["]

/-- Keys and values that survive the wire. -/
def IsWord (s : String) : Prop := Word isWhitespace s.toList

section Values

variable {table key : String} {segs fields : List String}

lemma isWord_joinKey (htable : IsWord table) (hkey : IsWord key) : IsWord (joinKey table key) := by
  have hjoin : (joinKey table key).toList = table.toList ++ '_' :: key.toList := by
    simp [joinKey]
  rw [IsWord, hjoin]
  exact htable.append (List.forall_mem_cons.mpr ⟨rfl, hkey.solid⟩)

/-- A value joined from words is one, if there are any. -/
lemma isWord_joinValue_iff (hfields : ∀ s ∈ fields, IsWord s) :
    IsWord (joinValue fields) ↔ fields ≠ [] := by
  have hjoin (value : String) (l : List String) :
      (l.foldl (fun value seg => value ++ "_" ++ seg) value).toList
        = value.toList ++ l.flatMap fun s => '_' :: s.toList := by
    induction l generalizing value with
    | nil => simp
    | cons s l ih => rw [List.foldl_cons, ih]; simp
  have hlist : (joinValue fields).toList = fields.flatMap fun s => '_' :: s.toList := by
    rw [joinValue, hjoin]
    rfl
  rw [IsWord, hlist]
  constructor
  · rintro hword rfl
    exact hword.ne_nil rfl
  · refine fun hne => ⟨fun hnil => ?_, fun c hc => ?_⟩
    · rw [List.flatMap_eq_nil_iff] at hnil
      obtain ⟨s, fields, rfl⟩ := List.exists_cons_of_ne_nil hne
      cases hnil s List.mem_cons_self
    · obtain ⟨s, hs, hc⟩ := List.mem_flatMap.mp hc
      rcases List.mem_cons.mp hc with rfl | hc
      · rfl
      · exact (hfields s hs).solid c hc

end Values

section Calls

variable {line : List Char} {segs : List String} {ikeys ikeys' : Finset String}
  {call : KvCall} {result : Option KvCall}

/-- The keys inserted stay words. -/
lemma Translated.words (h : Translated segs ikeys result ikeys') (hsegs : ∀ s ∈ segs, IsWord s)
    (hkeys : ∀ k ∈ ikeys, IsWord k) : ∀ k ∈ ikeys', IsWord k := by
  cases h with
  | insert =>
      refine fun k hk => (Finset.mem_insert.mp hk).elim ?_ (hkeys k)
      rintro rfl
      exact isWord_joinKey (hsegs _ (by simp)) (hsegs _ (by simp))
  | update | read | scan | other => exact hkeys

/-- A call survives the wire, unless its value is empty. -/
lemma Translated.survives_iff (h : Translated segs ikeys (some call) ikeys')
    (hsegs : ∀ s ∈ segs, IsWord s) (hkeys : ∀ k ∈ ikeys, IsWord k) :
    Survives call ↔ ¬ EmptyValue segs := by
  rw [Madkv.survives_iff]
  change (∀ s ∈ call.args, IsWord s) ↔ _
  have hjoin : ∀ table ∈ segs, ∀ key ∈ segs, IsWord (joinKey table key) :=
    fun table htable key hkey => isWord_joinKey (hsegs table htable) (hsegs key hkey)
  generalize hresult : some call = result at h
  cases h with
  | @insert table key fields _ =>
      cases hresult
      have hkey := hjoin table (by simp) key (by simp)
      have hvalue : IsWord (joinValue fields) ↔ fields ≠ [] :=
        isWord_joinValue_iff fun s hs => hsegs s (by simp [hs])
      simp [EmptyValue, KvCall.args, hkey, hvalue]
  | @update table key fields _ =>
      cases hresult
      have hkey := hjoin table (by simp) key (by simp)
      have hvalue : IsWord (joinValue fields) ↔ fields ≠ [] :=
        isWord_joinValue_iff fun s hs => hsegs s (by simp [hs])
      simp [EmptyValue, KvCall.args, hkey, hvalue]
  | @read table key _ _ =>
      cases hresult
      simp [EmptyValue, KvCall.args, hjoin table (by simp) key (by simp)]
  | @scan table key keyEnd _ _ hend =>
      cases hresult
      have hkeyEnd : IsWord keyEnd := by
        rcases (scanEndsOn_of_scanEnd hend).eq_or_mem with rfl | hmem
        · exact word_of_all rfl rfl
        · exact hkeys keyEnd hmem
      simp [EmptyValue, KvCall.args, hjoin table (by simp) key (by simp), hkeyEnd]
  | other => cases hresult

/-- A line with an empty value returns a call. -/
lemma EmptyValue.translated (h : EmptyValue segs) :
    ∃ call ikeys', Translated segs ikeys (some call) ikeys' := by
  obtain ⟨kind, hkind, table, key, rfl⟩ := h
  simp only [List.mem_cons, List.not_mem_nil, or_false] at hkind
  rcases hkind with rfl | rfl
  · exact ⟨_, _, .insert⟩
  · exact ⟨_, _, .update⟩

lemma Translated.unique {result' : Option KvCall} {ikeys'' : Finset String}
    (h : interpretYcsbCall line ikeys = .ok (result, ikeys'))
    (h' : Translated (getSegsOfLine line) ikeys result' ikeys'') : result = result' := by
  rw [interpretYcsbCall_eq_ok_iff.mpr h'] at h
  cases h
  rfl

end Calls

/-- **Which translated calls survive the wire**: all of them, iff no line gives an
empty value. -/
theorem translate_survives_iff (lines : List (List Char)) :
    (∀ call ∈ translate ∅ lines, Survives call) ↔
      ∀ line ∈ lines, ¬ EmptyValue (getSegsOfLine line) := by
  have hkeys : ∀ k ∈ (∅ : Finset String), IsWord k := by simp
  generalize (∅ : Finset String) = ikeys at hkeys
  induction lines generalizing ikeys with
  | nil => simp [translate]
  | cons line lines ih =>
      have hsegs : ∀ s ∈ getSegsOfLine line, IsWord s := fun s hs => word_of_mem_segs hs
      rw [translate, List.forall_mem_cons]
      cases hline : interpretYcsbCall line ikeys with
      | error e =>
          have hvalue : ¬ EmptyValue (getSegsOfLine line) := fun h => by
            obtain ⟨call, ikeys', h⟩ := h.translated
            rw [interpretYcsbCall_eq_ok_iff.mpr h] at hline
            cases hline
          exact (ih ikeys hkeys).trans (and_iff_right hvalue).symm
      | ok out =>
          obtain ⟨result, ikeys'⟩ := out
          have h := interpretYcsbCall_eq_ok_iff.mp hline
          refine List.forall_mem_append.trans (and_congr ?_ (ih ikeys' (h.words hsegs hkeys)))
          cases result with
          | none =>
              refine iff_of_true (by simp) fun hvalue => ?_
              obtain ⟨call, ikeys'', h'⟩ := hvalue.translated
              cases Translated.unique hline h'
          | some call =>
              rw [← h.survives_iff hsegs hkeys]
              simp

/-- An insertion with nothing in the bracket of its value does not survive. -/
theorem exists_call_lost :
    ¬ ∀ lines : List (List Char), ∀ call ∈ translate ∅ lines, Survives call := by
  intro h
  have hcall : KvCall.put "t_k" "" ∈ translate ∅ ["INSERT t k [".toList] := by decide
  exact (Madkv.survives_iff.mp (h _ _ hcall) "" (by decide)).ne_nil rfl

end Madkv.Bencher
