import Madkv.Bencher.Ycsb

/-!
The key ranges that YCSB scans are translated to.

* `scanEnd_eq_ok_iff`: the end of the range is the key with the number asked for,
  counted from the start, or else the last key of all.
* `ScanEndsOn`: in any case a key inserted, if there is one.
* `scan_covers_iff`: the range has the number of keys asked for, as far as there
  are so many from its start on, unless all keys lie before the start. The range
  is inverted then.
-/

namespace Madkv.Bencher

open Fallible Ranks

section ScanEnd

variable {line : List Char} {table key keyStart keyEnd count top : String} {segs : List String}
  {ikeys ikeys' : Finset String}

/-- The last key is the greatest. -/
lemma last_eq_some (h : last ikeys = some top) : top ∈ ikeys ∧ ∀ k ∈ ikeys, k ≤ top := by
  obtain ⟨front, hsort⟩ := List.getLast?_eq_some_iff.mp h
  have hsorted := ikeys.pairwise_sort (· ≤ ·)
  rw [hsort, List.pairwise_append] at hsorted
  refine ⟨(ikeys.mem_sort (· ≤ ·)).mp (by rw [hsort]; simp), fun k hk => ?_⟩
  rw [← ikeys.mem_sort (· ≤ ·), hsort] at hk
  rcases List.mem_append.mp hk with hk | hk
  · exact hsorted.2.2 k hk top (List.mem_singleton_self top)
  · exact (List.mem_singleton.mp hk).le

lemma exists_last (h : ikeys.Nonempty) : ∃ top, last ikeys = some top := by
  obtain ⟨k, hk⟩ := h
  have hne : ikeys.sort ≠ [] := fun hnil => by
    rw [← ikeys.mem_sort (· ≤ ·), hnil] at hk
    cases hk
  exact ⟨_, List.getLast?_eq_some_getLast hne⟩

lemma last_eq_some_iff : last ikeys = some top ↔ top ∈ ikeys ∧ ∀ k ∈ ikeys, k ≤ top := by
  refine ⟨last_eq_some, fun ⟨hmem, hle⟩ => ?_⟩
  obtain ⟨top', h⟩ := exists_last ⟨top, hmem⟩
  obtain ⟨hmem', hle'⟩ := last_eq_some h
  rw [h, le_antisymm (hle top' hmem') (hle' top hmem)]

/-- The end of the range of a Scan that starts at `keyStart`. -/
lemma scanEnd_eq_ok_iff (hne : ikeys.Nonempty) :
    scanEnd keyStart (count :: segs) ikeys = .ok keyEnd ↔ ∃ n top, parseUsize count = .ok (n + 1)
      ∧ last ikeys = some top ∧ keyEnd = (rangeFrom ikeys keyStart)[n]?.getD top := by
  rw [scanEnd, if_neg hne.ne_empty]
  constructor
  · intro h
    obtain ⟨scnt, hscnt, h⟩ := bind_eq_ok.mp h
    obtain ⟨n, hn, h⟩ := bind_eq_ok.mp h
    obtain ⟨top, htop, h⟩ := bind_eq_ok.mp h
    obtain ⟨hle, rfl⟩ := checkedSub_eq_ok.mp hn
    cases h
    refine ⟨scnt - 1, top, ?_, unwrap_eq_ok.mp htop, rfl⟩
    rw [Nat.sub_add_cancel hle]
    exact liftError_eq_ok.mp hscnt
  · rintro ⟨n, top, hscnt, htop, rfl⟩
    refine bind_of_eq_ok (liftError_eq_ok.mpr hscnt) ?_
    exact bind_of_eq_ok (checkedSub_eq_ok.mpr ⟨Nat.le_add_left 1 n, rfl⟩)
      (bind_of_eq_ok (unwrap_eq_ok.mpr htop) rfl)

lemma mem_rangeFrom {k : String} : k ∈ rangeFrom ikeys keyStart ↔ k ∈ ikeys ∧ keyStart ≤ k := by
  rw [rangeFrom, Finset.mem_sort, Finset.mem_filter]

/-- The range ends at a key that was inserted. -/
lemma getD_rangeFrom_mem (htop : last ikeys = some top) (n : ℕ) :
    (rangeFrom ikeys keyStart)[n]?.getD top ∈ ikeys := by
  cases hkey : (rangeFrom ikeys keyStart)[n]? with
  | none => exact (last_eq_some htop).1
  | some k => exact (mem_rangeFrom.mp (List.mem_of_getElem? hkey)).1

/-- The end of a Scan is a key that was inserted, or the end of all keys if none was. -/
def ScanEndsOn (ikeys : Finset String) (keyEnd : String) : Prop :=
  if ikeys = ∅ then keyEnd = "zzzzzzzz" else keyEnd ∈ ikeys

lemma scanEndsOn_of_scanEnd (h : scanEnd keyStart segs ikeys = .ok keyEnd) :
    ScanEndsOn ikeys keyEnd := by
  rw [ScanEndsOn]
  split_ifs with hempty
  · rw [scanEnd, if_pos hempty] at h
    exact (Except.ok.inj h).symm
  · cases segs with
    | nil =>
        rw [scanEnd, if_neg hempty] at h
        cases h
    | cons count segs =>
        obtain ⟨n, top, -, htop, rfl⟩ :=
          (scanEnd_eq_ok_iff (Finset.nonempty_iff_ne_empty.mpr hempty)).mp h
        exact getD_rangeFrom_mem htop n

lemma ScanEndsOn.eq_or_mem (h : ScanEndsOn ikeys keyEnd) :
    keyEnd = "zzzzzzzz" ∨ keyEnd ∈ ikeys := by
  rw [ScanEndsOn] at h
  split_ifs at h
  · exact Or.inl h
  · exact Or.inr h

/-- It does not end before its start, if some key does not lie before it. -/
lemma le_getD_rangeFrom (htop : last ikeys = some top) (h : ∃ k ∈ ikeys, keyStart ≤ k) (n : ℕ) :
    keyStart ≤ (rangeFrom ikeys keyStart)[n]?.getD top := by
  cases hkey : (rangeFrom ikeys keyStart)[n]? with
  | none =>
      obtain ⟨k, hk, hle⟩ := h
      exact hle.trans ((last_eq_some htop).2 k hk)
  | some k => exact (mem_rangeFrom.mp (List.mem_of_getElem? hkey)).2

/-- The keys in the range are the first ones from its start on. -/
lemma card_range (htop : last ikeys = some top) (n : ℕ) :
    (ikeys.filter fun k =>
        keyStart ≤ k ∧ k ≤ (rangeFrom ikeys keyStart)[n]?.getD top).card
      = min (n + 1) (ikeys.filter (keyStart ≤ ·)).card := by
  have hall : ∀ k ∈ ikeys.filter (keyStart ≤ ·), k ≤ top := fun k hk =>
    (last_eq_some htop).2 k (Finset.mem_filter.mp hk).1
  rw [← Finset.filter_filter]
  exact card_filter_le_getD hall

end ScanEnd

/-- **What a scan covers**: the range starts at the key asked for and holds the
number of keys asked for, or all from its start on if there are fewer, iff some
key does not lie before the start. -/
theorem scan_covers_iff (line : List Char) (ikeys ikeys' : Finset String)
    (table key count : String) (segs : List String) (n : ℕ) (keyStart keyEnd : String)
    (hne : ikeys.Nonempty)
    (hline : getSegsOfLine line = "SCAN" :: table :: key :: count :: segs)
    (hcount : parseUsize count = .ok n) (hn : 1 ≤ n)
    (h : interpretYcsbCall line ikeys = .ok (some (.scan keyStart keyEnd), ikeys')) :
    (keyStart = joinKey table key ∧ keyStart ≤ keyEnd
        ∧ (ikeys.filter fun k => keyStart ≤ k ∧ k ≤ keyEnd).card
          = min n (ikeys.filter (joinKey table key ≤ ·)).card) ↔
      ∃ k ∈ ikeys, joinKey table key ≤ k := by
  rw [interpretYcsbCall_eq_ok_iff, hline] at h
  obtain ⟨rfl, hend⟩ := translated_scan h
  obtain ⟨m, top, hm, htop, rfl⟩ := (scanEnd_eq_ok_iff hne).mp hend
  obtain rfl : n = m + 1 := Except.ok.inj (hcount.symm.trans hm)
  constructor
  · rintro ⟨-, hle, -⟩
    exact ⟨_, getD_rangeFrom_mem htop m, hle⟩
  · exact fun hkey => ⟨rfl, le_getD_rangeFrom htop hkey m, card_range htop m⟩

/-- A scan of three keys that starts between the only two. -/
theorem scan_covers_iff_two :
    ("t_b" = joinKey "t" "b" ∧ "t_b" ≤ "t_c"
        ∧ (({"t_a", "t_c"} : Finset String).filter fun k => "t_b" ≤ k ∧ k ≤ "t_c").card
          = min 3 (({"t_a", "t_c"} : Finset String).filter (joinKey "t" "b" ≤ ·)).card) ↔
      ∃ k ∈ ({"t_a", "t_c"} : Finset String), joinKey "t" "b" ≤ k := by
  have hlast : last {"t_a", "t_c"} = some "t_c" := last_eq_some_iff.mpr (by decide)
  have hrange : rangeFrom {"t_a", "t_c"} "t_b" = ["t_c"] := by
    rw [rangeFrom, Finset.filter_insert, if_neg (by decide), Finset.filter_singleton,
      if_pos (by decide), Finset.sort_singleton]
  have hend : scanEnd "t_b" ["3"] {"t_a", "t_c"} = .ok "t_c" :=
    (scanEnd_eq_ok_iff (Finset.insert_nonempty _ _)).mpr
      ⟨2, "t_c", by decide, hlast, by rw [hrange]; rfl⟩
  exact scan_covers_iff "SCAN t b 3".toList {"t_a", "t_c"} {"t_a", "t_c"} "t" "b" "3" [] 3 "t_b"
    "t_c" (Finset.insert_nonempty _ _) (by decide) (by decide) (by decide)
    (interpretYcsbCall_eq_ok_iff.mpr (.scan hend))

/-- A scan that starts after the only key ends before it starts. -/
theorem exists_inverted_scan :
    ∃ (line : List Char) (ikeys ikeys' : Finset String) (table key count : String)
      (segs : List String) (n : ℕ) (keyStart keyEnd : String), ikeys.Nonempty
      ∧ getSegsOfLine line = "SCAN" :: table :: key :: count :: segs
      ∧ parseUsize count = .ok n ∧ 1 ≤ n
      ∧ interpretYcsbCall line ikeys = .ok (some (.scan keyStart keyEnd), ikeys')
      ∧ keyEnd < keyStart := by
  have hlast : last {"t_a"} = some "t_a" := last_eq_some_iff.mpr (by decide)
  have hrange : rangeFrom {"t_a"} "t_b" = [] := by
    rw [rangeFrom, Finset.filter_singleton, if_neg (by decide), Finset.sort_empty]
  have hend : scanEnd "t_b" ["1"] {"t_a"} = .ok "t_a" :=
    (scanEnd_eq_ok_iff (Finset.singleton_nonempty _)).mpr
      ⟨0, "t_a", by decide, hlast, by rw [hrange]; rfl⟩
  exact ⟨"SCAN t b 1".toList, {"t_a"}, {"t_a"}, "t", "b", "1", [], 1, "t_b", "t_a",
    Finset.singleton_nonempty _, by decide, by decide, le_rfl,
    interpretYcsbCall_eq_ok_iff.mpr (.scan hend), by decide⟩

end Madkv.Bencher
