import Madkv.Fuzzer.History

/-!
What the checks of the history accept (`check_call` of `history.rs`).

* `RespHolds`: a response is acceptable when, for each key it speaks of, the
  value it tells is vouched for. The vouching is a parameter: the checker takes
  it from the trimmed histories (`checkCall_iff`), its specification from the
  complete ones.
* `trimHead_trimmed`: what a trim keeps of one client history.
* `popCheckable_checks`, `popCheckable_failed`, `popCheckable_queue`: the checks that
  one update triggers.
* `applyUpdate_cases`: everything `apply_update` can do.
-/

namespace Madkv

open Intervals Fallible

/-- A response holds when each key it speaks of is in the pool and vouched for
at the values the response allows; the entries of a Scan name each key once,
within the range, and a pool key of the range without an entry is told absent. -/
def RespHolds (inPool : String → Prop) (vouched : String → (Option String → Prop) → Prop) :
    KvResp → Prop
  | .put key found => inPool key ∧ vouched key (fun v => v.isSome = found)
  | .swap key oldValue => inPool key ∧ vouched key (fun v => v = oldValue)
  | .get key value => inPool key ∧ vouched key (fun v => v = value)
  | .scan keyStart keyEnd entries =>
      (entries.map Prod.fst).Nodup ∧ (∀ p ∈ entries, keyStart ≤ p.1 ∧ p.1 ≤ keyEnd)
        ∧ ∀ k, inPool k → keyStart ≤ k → k ≤ keyEnd → vouched k (fun v => v = entries.lookup k)
  | .delete key found => inPool key ∧ vouched key (fun v => v.isSome = found)
  | .stop => False

lemma respHolds_congr {inPool inPool' : String → Prop}
    {vouched vouched' : String → (Option String → Prop) → Prop} (resp : KvResp)
    (hpool : ∀ k, inPool k ↔ inPool' k)
    (hvouched : ∀ k, inPool k → ∀ ok, vouched k ok ↔ vouched' k ok) :
    RespHolds inPool vouched resp ↔ RespHolds inPool' vouched' resp := by
  have hkey : ∀ k ok, inPool k ∧ vouched k ok ↔ inPool' k ∧ vouched' k ok := by
    intro k ok
    rw [← hpool k]
    exact and_congr_right fun hk => hvouched k hk ok
  cases resp with
  | put key found => exact hkey key _
  | swap key oldValue => exact hkey key _
  | get key value => exact hkey key _
  | scan keyStart keyEnd entries =>
      refine and_congr_right fun _ => and_congr_right fun _ => forall_congr' fun k => ?_
      rw [← hpool k]
      exact forall_congr' fun hk => forall_congr' fun _ => forall_congr' fun _ => hvouched k hk _
  | delete key found => exact hkey key _
  | stop => rfl

/-- The trimmed histories vouch for a value of a key. -/
def Spans.Vouched (spans : Spans) (tsCall tsResp : ℕ) (key : String)
    (ok : Option String → Prop) : Prop :=
  ∃ keySpans, spans.lookup key = some keySpans ∧ ∃ cliSpans ∈ keySpans,
    Vouches UpdateSpan.tsCall UpdateSpan.tsResp cliSpans tsCall tsResp (fun u => ok u.value)

lemma checkSpans_iff (ok : Option String → Bool) (keySpans : KeySpans) (tsCall tsResp : ℕ) :
    checkSpans ok keySpans tsCall tsResp = true ↔ ∃ cliSpans ∈ keySpans,
      Vouches UpdateSpan.tsCall UpdateSpan.tsResp cliSpans tsCall tsResp
        (fun u => ok u.value = true) := by
  simp only [checkSpans, List.any_eq_true, search_reverse_iff_vouches]

/-! ### The Scan check -/

/-- The entries that the first loop of `check_scan` collects. -/
lemma collectEntries_eq_some {keyStart keyEnd : String} (entries : List (String × String))
    (acc m : AList (fun _ : String => String)) :
    collectEntries keyStart keyEnd entries acc = some m →
      (∀ p ∈ entries, keyStart ≤ p.1 ∧ p.1 ≤ keyEnd) ∧ (entries.map Prod.fst).Nodup
        ∧ (∀ p ∈ entries, p.1 ∉ acc)
        ∧ ∀ k, m.lookup k = (entries.lookup k).or (acc.lookup k) := by
  induction entries generalizing acc with
  | nil =>
      intro h
      obtain rfl : acc = m := Option.some.inj h
      simp
  | cons p entries ih =>
      obtain ⟨key, value⟩ := p
      intro h
      rw [collectEntries] at h
      split_ifs at h with hrange hdup
      obtain ⟨hall, hnodup, hfresh, hlookup⟩ := ih _ h
      have hin : keyStart ≤ key ∧ key ≤ keyEnd := by
        rwa [gt_iff_lt, not_or, not_lt, not_lt] at hrange
      have hnotin : ∀ p ∈ entries, p.1 ≠ key := by
        intro p hp heq
        exact hfresh p hp (by rw [heq]; simp)
      refine ⟨?_, ?_, ?_, ?_⟩
      · simpa using ⟨hin, fun a b hab => hall (a, b) hab⟩
      · rw [List.map_cons, List.nodup_cons]
        refine ⟨?_, hnodup⟩
        intro hmem
        obtain ⟨p, hp, heq⟩ := List.mem_map.mp hmem
        exact hnotin p hp heq
      · intro p hp
        rcases List.mem_cons.mp hp with rfl | hp
        · exact hdup
        · exact fun hmem => hfresh p hp (by simp [hmem])
      · intro k
        rw [hlookup k, List.lookup_cons]
        by_cases hk : k = key
        · subst hk
          have hnone : entries.lookup k = none := by
            rw [List.lookup_eq_none_iff]
            intro p hp
            simpa using fun h => hnotin p hp h.symm
          simp [hnone]
        · have hbeq : (k == key) = false := by simpa using hk
          rw [hbeq, AList.lookup_insert_ne hk]

lemma collectEntries_eq_none {keyStart keyEnd : String} (entries : List (String × String))
    (acc : AList (fun _ : String => String)) :
    collectEntries keyStart keyEnd entries acc = none →
      ¬ ((∀ p ∈ entries, keyStart ≤ p.1 ∧ p.1 ≤ keyEnd) ∧ (entries.map Prod.fst).Nodup
        ∧ ∀ p ∈ entries, p.1 ∉ acc) := by
  induction entries generalizing acc with
  | nil => exact fun h => (nomatch h)
  | cons p entries ih =>
      obtain ⟨key, value⟩ := p
      rintro h ⟨hall, hnodup, hfresh⟩
      rw [collectEntries] at h
      have hin := hall (key, value) (by simp)
      have hkey := hfresh (key, value) (by simp)
      rw [if_neg (by rw [gt_iff_lt, not_or, not_lt, not_lt]; exact hin), if_neg hkey] at h
      rw [List.map_cons, List.nodup_cons] at hnodup
      refine ih _ h ⟨fun p hp => hall p (by simp [hp]), hnodup.2, ?_⟩
      intro p hp hmem
      rcases (AList.mem_insert _).mp hmem with heq | hmem
      · exact hnodup.1 (List.mem_map.mpr ⟨p, hp, heq⟩)
      · exact hfresh p (by simp [hp]) hmem

lemma checkScan_iff (spans : Spans) (tsCall tsResp : ℕ) (keyStart keyEnd : String)
    (entries : List (String × String)) :
    checkScan spans tsCall tsResp keyStart keyEnd entries = true ↔
      (entries.map Prod.fst).Nodup ∧ (∀ p ∈ entries, keyStart ≤ p.1 ∧ p.1 ≤ keyEnd)
        ∧ ∀ k, k ∈ spans → keyStart ≤ k → k ≤ keyEnd →
            spans.Vouched tsCall tsResp k (fun v => v = entries.lookup k) := by
  rw [checkScan]
  cases hcollect : collectEntries keyStart keyEnd entries ∅ with
  | none =>
      have := collectEntries_eq_none _ _ hcollect
      constructor
      · exact fun h => (nomatch h)
      · rintro ⟨hnodup, hall, -⟩
        exact absurd ⟨hall, hnodup, fun _ _ h => AList.notMem_empty _ h⟩ this
  | some m =>
      obtain ⟨hall, hnodup, -, hlookup⟩ := collectEntries_eq_some _ _ _ hcollect
      have hm : ∀ k, m.lookup k = entries.lookup k := by
        intro k
        rw [hlookup k, AList.lookup_empty, Option.or_none]
      simp only [hnodup, true_and, List.all_eq_true]
      constructor
      · intro h
        refine ⟨hall, fun k hk hs he => ?_⟩
        obtain ⟨keySpans, hks⟩ := Option.isSome_iff_exists.mp (AList.lookup_isSome.mpr hk)
        have := h ⟨k, keySpans⟩ (AList.mem_lookup_iff.mp hks)
        simp only [ge_iff_le, hs, he, decide_true, Bool.and_self, Bool.true_and, Bool.not_not,
          checkGet, checkSpans_iff, hm, beq_iff_eq] at this
        exact ⟨keySpans, hks, this⟩
      · rintro ⟨-, h⟩ ⟨k, keySpans⟩ hmem
        have hks : spans.lookup k = some keySpans := AList.mem_lookup_iff.mpr hmem
        by_cases hin : keyStart ≤ k ∧ k ≤ keyEnd
        · obtain ⟨ks, hks', hv⟩ := h k (AList.lookup_isSome.mp (by simp [hks])) hin.1 hin.2
          rw [hks] at hks'
          obtain rfl := Option.some.inj hks'
          simpa [hin.1, hin.2, checkGet, checkSpans_iff, hm] using hv
        · have : (decide (k ≥ keyStart) && decide (k ≤ keyEnd)) = false := by
            simpa using hin
          simp [this]

/-- `check_call` accepts what the trimmed histories vouch for. -/
lemma checkCall_iff (spans : Spans) (entry : QueuedSpan) :
    checkCall spans entry = true ↔
      RespHolds (· ∈ spans) (spans.Vouched entry.tsCall entry.tsResp) entry.resp := by
  have hkey : ∀ key (ok : Option String → Bool),
      (spans.lookup key).any
          (fun keySpans => checkSpans ok keySpans entry.tsCall entry.tsResp) = true ↔
        key ∈ spans ∧ spans.Vouched entry.tsCall entry.tsResp key (fun v => ok v = true) := by
    intro key ok
    cases hlookup : spans.lookup key with
    | none =>
        have hnot : key ∉ spans := AList.lookup_eq_none.mp hlookup
        simp [hnot]
    | some keySpans =>
        have hmem : key ∈ spans := AList.lookup_isSome.mp (by simp [hlookup])
        simp [hmem, Spans.Vouched, hlookup, checkSpans_iff]
  rw [checkCall]
  cases entry.resp with
  | put key found => simpa [RespHolds, checkPut] using hkey key (fun v => v.isSome == found)
  | swap key oldValue => simpa [RespHolds, checkSwap] using hkey key (fun v => v == oldValue)
  | get key value => simpa [RespHolds, checkGet] using hkey key (fun v => v == value)
  | scan keyStart keyEnd entries =>
      exact checkScan_iff spans entry.tsCall entry.tsResp keyStart keyEnd entries
  | delete key found =>
      simpa [RespHolds, checkDelete] using hkey key (fun v => v.isSome == found)
  | stop => simp [RespHolds]

/-! ### Trimming -/

lemma popHead_append (ts : ℕ) (l : List UpdateSpan) :
    ∃ dead, l = dead ++ popHead ts l ∧ ∀ u ∈ dead, u.tsResp < ts := by
  induction l with
  | nil => exact ⟨[], rfl, by simp⟩
  | cons a l ih =>
      cases l with
      | nil => exact ⟨[], rfl, by simp⟩
      | cons b rest =>
          rw [popHead]
          split
          · obtain ⟨dead, heq, hdead⟩ := ih
            refine ⟨a :: dead, by rw [List.cons_append, ← heq], ?_⟩
            intro u hu
            rcases List.mem_cons.mp hu with rfl | hu
            · assumption
            · exact hdead u hu
          · exact ⟨[], rfl, by simp⟩

/-- `keep_ts` is zero or the call of an update that is over before everything
that can still be checked. -/
lemma keepTs_cases (minComingTs minQueuedTs : ℕ) (l : List UpdateSpan) :
    keepTs minComingTs minQueuedTs l = 0 ∨
      ∃ s ∈ l, keepTs minComingTs minQueuedTs l = s.tsCall
        ∧ s.tsResp < minComingTs ∧ s.tsResp < minQueuedTs := by
  induction l with
  | nil => exact Or.inl rfl
  | cons a l ih =>
      rw [keepTs]
      split
      · rename_i h
        exact Or.inr ⟨a, by simp, rfl, h⟩
      · rcases ih with h | ⟨s, hs, h⟩
        · exact Or.inl h
        · exact Or.inr ⟨s, by simp [hs], h⟩

/-- A trim keeps an update that is over before everything that can still be
checked, or keeps all. -/
lemma trimHead_trimmed (minComingTs minQueuedTs : ℕ) {l : List UpdateSpan}
    (hl : ∀ u ∈ l, u.tsCall ≤ u.tsResp) :
    Trimmed (fun s => s.tsResp < minComingTs ∧ s.tsResp < minQueuedTs) l
      (trimHead minComingTs minQueuedTs l) := by
  obtain ⟨dead, heq, hdead⟩ := popHead_append (keepTs minComingTs minQueuedTs l.reverse) l
  refine ⟨dead, heq, ?_⟩
  rcases keepTs_cases minComingTs minQueuedTs l.reverse with h0 | ⟨s, hs, hts, hset⟩
  · left
    rw [List.eq_nil_iff_forall_not_mem]
    intro u hu
    have := hdead u hu
    omega
  · right
    refine ⟨s, ?_, hset⟩
    have hsl : s ∈ l := List.mem_reverse.mp hs
    -- the update found is not over before its own call, so it stays
    rw [heq, List.mem_append] at hsl
    rcases hsl with hsd | hsk
    · have h1 := hdead s hsd
      have h2 := hl s (List.mem_reverse.mp hs)
      omega
    · exact hsk

/-! ### The checks that an update triggers -/

/-- Each check made is of a response of the queue answered before the bound,
and its verdict is that of `check_call`. -/
lemma popCheckable_checks (spans : Spans) (minComingTs : ℕ) (queue : List QueuedSpan) :
    ∀ p ∈ (popCheckable spans minComingTs queue).checks,
      p.1 ∈ queue ∧ p.1.tsResp < minComingTs ∧ p.2 = checkCall spans p.1 := by
  induction queue with
  | nil => simp [popCheckable]
  | cons e queue ih =>
      intro p hp
      rw [popCheckable] at hp
      split at hp
      · split at hp
        · rename_i hlt hok
          rcases List.mem_cons.mp hp with rfl | hp
          · exact ⟨by simp, hlt, hok.symm⟩
          · obtain ⟨h1, h2, h3⟩ := ih p hp
            exact ⟨by simp [h1], h2, h3⟩
        · rename_i hlt hok
          obtain rfl := List.mem_singleton.mp hp
          exact ⟨by simp, hlt, by simpa using hok⟩
      · simp at hp

/-- The loop reports a failure exactly when a check fails. -/
lemma popCheckable_failed (spans : Spans) (minComingTs : ℕ) (queue : List QueuedSpan) :
    (popCheckable spans minComingTs queue).failed = none ↔
      ∀ p ∈ (popCheckable spans minComingTs queue).checks, p.2 = true := by
  induction queue with
  | nil => simp [popCheckable]
  | cons e queue ih =>
      rw [popCheckable]
      split
      · split
        · simpa using ih
        · simp
      · simp

lemma popCheckable_queue (spans : Spans) (minComingTs : ℕ) (queue : List QueuedSpan) :
    (popCheckable spans minComingTs queue).queue <:+ queue := by
  induction queue with
  | nil => simp [popCheckable]
  | cons e queue ih =>
      rw [popCheckable]
      split
      · split
        · exact ih.trans (List.suffix_cons e queue)
        · exact List.suffix_cons e queue
      · exact List.suffix_refl _

/-- With no failure, the responses of an ordered queue answered before the
bound have been checked, in order, and the others are left. -/
lemma popCheckable_of_passed {spans : Spans} {minComingTs : ℕ} {queue : List QueuedSpan}
    (hsorted : queue.Pairwise (fun a b => a.tsResp < b.tsResp))
    (hpassed : (popCheckable spans minComingTs queue).failed = none) :
    (popCheckable spans minComingTs queue).checks
        = (queue.filter (·.tsResp < minComingTs)).map (·, true)
      ∧ (popCheckable spans minComingTs queue).queue
        = queue.filter (minComingTs ≤ ·.tsResp) := by
  induction queue with
  | nil => simp [popCheckable]
  | cons e queue ih =>
      rw [List.pairwise_cons] at hsorted
      rw [popCheckable] at hpassed ⊢
      split
      · rename_i hlt
        rw [if_pos hlt] at hpassed
        split at hpassed
        · rename_i hok
          obtain ⟨hchecks, hqueue⟩ := ih hsorted.2 hpassed
          have hnot : ¬ minComingTs ≤ e.tsResp := by omega
          simp [hok, hlt, hnot, hchecks, hqueue]
        · cases hpassed
      · rename_i hge
        have hall : ∀ x ∈ e :: queue, minComingTs ≤ x.tsResp := by
          intro x hx
          rcases List.mem_cons.mp hx with rfl | hx
          · omega
          · have := hsorted.1 x hx
            omega
        refine ⟨?_, ?_⟩
        · rw [List.filter_eq_nil_iff.mpr]
          · rfl
          · intro x hx
            have := hall x hx
            simp; omega
        · rw [List.filter_eq_self.mpr]
          intro x hx
          simpa using hall x hx

/-! ### Everything `apply_update` can do -/

/-- The histories of a key after an update has been recorded and all of them
trimmed. -/
def recordSpans (keySpans : KeySpans) (cidx : ℕ) (span : UpdateSpan)
    (minComingTs minQueuedTs : ℕ) : KeySpans :=
  (keySpans.modify cidx (· ++ [span])).map (trimHead minComingTs minQueuedTs)

/-- The minimum of the queued call times, `u64::MAX` on an empty queue. -/
def minQueuedTs (queue : List QueuedSpan) : ℕ := (queue.map (·.tsCall)).min?.getD u64Max

lemma minQueuedTs_le {queue : List QueuedSpan} {e : QueuedSpan} (he : e ∈ queue) :
    minQueuedTs queue ≤ e.tsCall := by
  have hmem : e.tsCall ∈ queue.map (·.tsCall) := List.mem_map.mpr ⟨e, he, rfl⟩
  rw [minQueuedTs]
  cases hmin : (queue.map (·.tsCall)).min? with
  | none =>
      rw [List.min?_eq_none_iff] at hmin
      rw [hmin] at hmem
      simp at hmem
  | some m => exact (List.min?_eq_some_iff.mp hmin).2 _ hmem

/-- What a successful `apply_update` on a key of the pool did. -/
structure Recorded (h : History) (cidx tsCall tsResp : ℕ) (key : String)
    (value : Option String) (keySpans : KeySpans) (minComingTs : ℕ) (a : Applied) : Prop where
  lookup : h.spans.lookup key = some keySpans
  cidx_lt : cidx < keySpans.length
  minComing : (h.maxtr.set cidx tsResp).min? = some minComingTs
  maxtr : a.history.maxtr = h.maxtr.set cidx tsResp
  spans : a.history.spans = h.spans.insert key
    (recordSpans keySpans cidx ⟨tsCall, tsResp, value⟩ minComingTs (minQueuedTs h.queue))
  queue : a.history.queue = (popCheckable a.history.spans minComingTs h.queue).queue
  checks : a.checks = (popCheckable a.history.spans minComingTs h.queue).checks
  returned : a.returned = (popCheckable a.history.spans minComingTs h.queue).failed.map some

lemma applyUpdate_cases {h : History} {cidx tsCall tsResp : ℕ} {key : String}
    {value : Option String} {a : Applied}
    (ha : h.applyUpdate cidx tsCall tsResp key value = .ok a) :
    (key ∉ h.spans ∧ a = ⟨h, some none, []⟩) ∨
      ∃ keySpans minComingTs, Recorded h cidx tsCall tsResp key value keySpans minComingTs a := by
  rw [History.applyUpdate] at ha
  split at ha
  · rename_i hlookup
    cases ha
    exact Or.inl ⟨AList.lookup_eq_none.mp hlookup, rfl⟩
  · rename_i keySpans hlookup
    simp only [bind_eq_ok] at ha
    obtain ⟨_, -, _, hcidx, _, -, minComingTs, hmin, ha⟩ := ha
    cases ha
    have hlt : cidx < keySpans.length := by simpa using debugAssert_eq_ok hcidx
    exact Or.inr ⟨keySpans, minComingTs, hlookup, hlt, unwrap_eq_ok.mp hmin, rfl, rfl, rfl, rfl,
      rfl⟩

end Madkv
