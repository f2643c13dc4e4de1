import Madkv.Fuzzer.LoopInvariant

/-!
The trimmed histories against the complete ones.

* `Settled`: an update over before everything that can still be checked.
* `SpansInv`: for each key of the pool and each client, the history kept is the
  complete update sequence cut at its head, a settled update being kept if
  anything was cut.
* `SpansInv.record`: recording an update and trimming keeps this.
* `SpansInv.checkCall_iff`: on a queued response, `check_call` gives the verdict
  of the complete history.
-/

namespace Madkv

open Intervals

/-- An update that was over before the bound and before every queued call. -/
def Settled (m : ℕ) (queue : List QueuedSpan) (u : UpdateSpan) : Prop :=
  u.tsResp < m ∧ ∀ e ∈ queue, u.tsResp < e.tsCall

/-- The trimmed histories `spans` stand for the complete ones of `evs`. -/
structure SpansInv (cfg : FuzzConfig) (evs : List Event) (spans : Spans) (m : ℕ)
    (queue : List QueuedSpan) : Prop where
  dom : ∀ k, k ∈ spans ↔ k ∈ cfg.pool
  length : ∀ k keySpans, spans.lookup k = some keySpans → keySpans.length = cfg.numClis
  trimmed : ∀ k keySpans, spans.lookup k = some keySpans → ∀ j cliSpans,
    keySpans[j]? = some cliSpans → Trimmed (Settled m queue) (updateSeq evs j k) cliSpans

/-! ### The initial histories -/

lemma lookup_foldl_addKey (numClis : ℕ) (k : String) (keys : List String) (spans : Spans) :
    (keys.foldl (Spans.addKey numClis) spans).lookup k =
      (spans.lookup k).or
        (if k ∈ keys then some (List.replicate numClis [UpdateSpan.dummy]) else none) := by
  induction keys generalizing spans with
  | nil => simp
  | cons key keys ih =>
      rw [List.foldl_cons, ih, Spans.addKey]
      by_cases hmem : key ∈ spans
      · rw [if_pos hmem]
        by_cases hk : k = key
        · subst hk
          obtain ⟨ks, hks⟩ := Option.isSome_iff_exists.mp (AList.lookup_isSome.mpr hmem)
          simp [hks]
        · simp [hk]
      · rw [if_neg hmem]
        by_cases hk : k = key
        · subst hk
          have hnone : spans.lookup k = none := AList.lookup_eq_none.mpr hmem
          rw [AList.lookup_insert, hnone]
          simp
        · rw [AList.lookup_insert_ne hk]
          simp [hk]

/-- At the start each key of the pool has one dummy for each client. -/
lemma lookup_new (cfg : FuzzConfig) (k : String) :
    (History.new cfg.numClis cfg.keys).spans.lookup k =
      if k ∈ cfg.pool then some (List.replicate cfg.numClis [UpdateSpan.dummy]) else none := by
  have hnew : (History.new cfg.numClis cfg.keys).spans
      = cfg.keys.flatten.foldl (Spans.addKey cfg.numClis) ∅ := by
    rw [List.foldl_flatten]
    rfl
  rw [hnew, lookup_foldl_addKey, AList.lookup_empty, Option.none_or]
  rfl

lemma SpansInv.init (cfg : FuzzConfig) (m : ℕ) (queue : List QueuedSpan) :
    SpansInv cfg [] (History.new cfg.numClis cfg.keys).spans m queue where
  dom := by
    intro k
    rw [← AList.lookup_isSome, lookup_new]
    split_ifs with hk <;> simp [hk]
  length := by
    intro k keySpans hlookup
    rw [lookup_new] at hlookup
    split_ifs at hlookup with hk
    rw [← Option.some.inj hlookup, List.length_replicate]
  trimmed := by
    intro k keySpans hlookup j cliSpans hj
    rw [lookup_new] at hlookup
    split_ifs at hlookup with hk
    rw [← Option.some.inj hlookup, List.getElem?_replicate] at hj
    split_ifs at hj with hlt
    rw [← Option.some.inj hj]
    exact Trimmed.refl _ _

namespace SpansInv

variable {cfg : FuzzConfig} {evs evs' : List Event} {spans : Spans} {m m' : ℕ}
  {queue queue' : List QueuedSpan}

/-- A higher bound and a queue whose new calls came after the old bound. -/
lemma mono (hinv : SpansInv cfg evs spans m queue) (hm : m ≤ m')
    (hqueue : ∀ e ∈ queue', e ∈ queue ∨ m ≤ e.tsCall) : SpansInv cfg evs spans m' queue' where
  dom := hinv.dom
  length := hinv.length
  trimmed := by
    intro k keySpans hlookup j cliSpans hj
    refine (hinv.trimmed k keySpans hlookup j cliSpans hj).mono ?_
    rintro u - ⟨hum, hue⟩
    refine ⟨lt_of_lt_of_le hum hm, fun e he => ?_⟩
    rcases hqueue e he with he | he
    · exact hue e he
    · exact lt_of_lt_of_le hum he

lemma congr (hinv : SpansInv cfg evs spans m queue)
    (hseq : ∀ j k, updateSeq evs' j k = updateSeq evs j k) : SpansInv cfg evs' spans m queue where
  dom := hinv.dom
  length := hinv.length
  trimmed := by
    intro k keySpans hlookup j cliSpans hj
    rw [hseq]
    exact hinv.trimmed k keySpans hlookup j cliSpans hj

/-- Recording a client's update on a key, with the trim that follows. -/
lemma record {key : String} {cidx : ℕ} {span : UpdateSpan} {keySpans : KeySpans}
    {minComingTs minQueuedTs : ℕ} (hinv : SpansInv cfg evs spans m queue)
    (hlookup : spans.lookup key = some keySpans)
    (hspans : ∀ j, ∀ u ∈ updateSeq evs' j key, u.tsCall ≤ u.tsResp)
    (hself : updateSeq evs' cidx key = updateSeq evs cidx key ++ [span])
    (hother : ∀ j k, j ≠ cidx ∨ k ≠ key → updateSeq evs' j k = updateSeq evs j k)
    (hm : minComingTs = m) (hq : ∀ e ∈ queue, minQueuedTs ≤ e.tsCall) :
    SpansInv cfg evs'
      (spans.insert key (recordSpans keySpans cidx span minComingTs minQueuedTs)) m queue where
  dom := by
    intro k
    rw [AList.mem_insert, hinv.dom]
    constructor
    · rintro (rfl | hk)
      · exact (hinv.dom k).mp (AList.lookup_isSome.mp (by simp [hlookup]))
      · exact hk
    · exact Or.inr
  length := by
    intro k ks hks
    by_cases hk : k = key
    · subst hk
      rw [AList.lookup_insert] at hks
      rw [← Option.some.inj hks, recordSpans, List.length_map, List.length_modify]
      exact hinv.length k keySpans hlookup
    · rw [AList.lookup_insert_ne hk] at hks
      exact hinv.length k ks hks
  trimmed := by
    intro k ks hks j cliSpans hj
    by_cases hk : k = key
    · subst hk
      rw [AList.lookup_insert] at hks
      rw [← Option.some.inj hks, recordSpans, List.getElem?_map, Option.map_eq_some_iff] at hj
      obtain ⟨before, hbefore, rfl⟩ := hj
      rw [List.getElem?_modify] at hbefore
      obtain ⟨old, hold, rfl⟩ := Option.map_eq_some_iff.mp hbefore
      have hrec : Trimmed (Settled m queue) (updateSeq evs' j k)
          (if cidx = j then old ++ [span] else old) := by
        have htrim := hinv.trimmed k keySpans hlookup j old hold
        by_cases hjc : cidx = j
        · subst hjc
          rw [if_pos rfl, hself]
          exact htrim.snoc span
        · rw [if_neg hjc, hother j k (Or.inl (Ne.symm hjc))]
          exact htrim
      refine hrec.trans ((trimHead_trimmed _ _ ?_).mono ?_)
      · exact fun u hu => hspans j u (hrec.mem hu)
      · rintro u - ⟨hum, huq⟩
        exact ⟨hm ▸ hum, fun e he => lt_of_lt_of_le huq (hq e he)⟩
    · rw [AList.lookup_insert_ne hk] at hks
      rw [hother j k (Or.inr hk)]
      exact hinv.trimmed k ks hks j cliSpans hj

/-- On a queued call the trimmed histories vouch as the complete ones. -/
lemma vouched_iff (hinv : SpansInv cfg evs spans m queue) {e : QueuedSpan} (he : e ∈ queue)
    {k : String} (hk : k ∈ spans) (tsResp : ℕ) (ok : Option String → Prop) :
    spans.Vouched e.tsCall tsResp k ok ↔ Vouched cfg evs e.tsCall tsResp k ok := by
  obtain ⟨keySpans, hlookup⟩ := Option.isSome_iff_exists.mp (AList.lookup_isSome.mpr hk)
  have hlen := hinv.length k keySpans hlookup
  have htrim : ∀ j cliSpans, keySpans[j]? = some cliSpans →
      (Vouches UpdateSpan.tsCall UpdateSpan.tsResp (updateSeq evs j k) e.tsCall tsResp
          (fun u => ok u.value) ↔
        Vouches UpdateSpan.tsCall UpdateSpan.tsResp cliSpans e.tsCall tsResp
          (fun u => ok u.value)) :=
    fun j cliSpans hj =>
      (hinv.trimmed k keySpans hlookup j cliSpans hj).vouches_iff fun u hu => hu.2 e he
  constructor
  · rintro ⟨ks, hks, cliSpans, hmem, hv⟩
    obtain rfl := Option.some.inj (hlookup.symm.trans hks)
    obtain ⟨j, hj⟩ := List.mem_iff_getElem?.mp hmem
    exact ⟨j, hlen ▸ (List.getElem?_eq_some_iff.mp hj).1, (htrim j cliSpans hj).mpr hv⟩
  · rintro ⟨j, hj, hv⟩
    have hj' : keySpans[j]? = some keySpans[j] := List.getElem?_eq_getElem (hlen.symm ▸ hj)
    exact ⟨keySpans, hlookup, _, List.mem_of_getElem? hj', (htrim j _ hj').mp hv⟩

/-- On a queued response `check_call` gives the verdict of the complete
history. -/
lemma checkCall_iff (hinv : SpansInv cfg evs spans m queue) {e : QueuedSpan} (he : e ∈ queue) :
    checkCall spans e = true ↔ Justified cfg evs e := by
  rw [Madkv.checkCall_iff, Justified]
  exact respHolds_congr e.resp hinv.dom fun k hk ok => hinv.vouched_iff he hk e.tsResp ok

end SpansInv

end Madkv
