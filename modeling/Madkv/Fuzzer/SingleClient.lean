import Mathlib.Data.List.Sort
import Madkv.Fuzzer.Verdicts

/-!
Runs with a single client, where every answer is determined.

* `mapBefore`: the sequential map after all calls made before a time.
* `vouched_single`: what a value of a key is checked against, the value before
  the call and the value that the call itself writes. The update of a call is in
  the history by the time its own response is checked.
* `check_single_iff`: so a check is exact unless the answer is wrong in the way
  that the call's own update explains (`OwnUpdateMisleads`).
-/

namespace Madkv

open Linearization Intervals

/-- The calls made before a time, in order. -/
def callsBefore (evs : List Event) (t : ℕ) : List KvCall :=
  evs.filterMap fun ev => if ev.ts < t then ev.call? else none

/-- The sequential map after all calls made before a time, empty at first. -/
def mapBefore (evs : List Event) (t : ℕ) : KvMap :=
  (callsBefore evs t).foldl KvMap.after KvMap.empty

/-- The answer is wrong, but it is the one that fits the value the call itself
writes: a Put that finds a key which is absent, a Swap that returns its own
value for the old one, a Delete that misses a key which is present. -/
def OwnUpdateMisleads (m : KvMap) : KvCall → KvResp → Prop
  | .put key _, .put _ found => found = true ∧ m key = none
  | .swap key value, .swap _ oldValue => oldValue = some value ∧ m key ≠ some value
  | .delete key, .delete _ found => found = false ∧ m key ≠ none
  | _, _ => False

/-- The entries of a Scan's answer name pool keys only. -/
def ScansPool (cfg : FuzzConfig) : KvResp → Prop
  | .scan _ _ entries => ∀ p ∈ entries, p.1 ∈ cfg.pool
  | _ => True

variable {cfg : FuzzConfig} {evs : List Event} {s : FuzzState} {g : Harvest}
  {pre post : List Harvest}

/-! ### The calls before a call -/

/-- The timestamps and calls of the events before a time. -/
def stampedBefore (evs : List Event) (t : ℕ) : List (ℕ × KvCall) :=
  evs.filterMap fun ev => if ev.ts < t then ev.call?.map (ev.ts, ·) else none

lemma map_stampedBefore (evs : List Event) (t : ℕ) :
    (stampedBefore evs t).map Prod.snd = callsBefore evs t := by
  rw [stampedBefore, callsBefore, List.map_filterMap]
  congr 1
  funext ev
  by_cases hts : ev.ts < t
  · cases ev <;> simp [hts, Event.call?]
  · simp [hts]

lemma mem_stampedBefore {t : ℕ} {p : ℕ × KvCall} :
    p ∈ stampedBefore evs t ↔ p.1 < t ∧ ∃ j, .called j p.1 p.2 ∈ evs := by
  rw [stampedBefore, List.mem_filterMap]
  constructor
  · rintro ⟨ev, hev, heq⟩
    split_ifs at heq with hlt
    cases ev with
    | called j t call =>
        obtain rfl := Option.some.inj heq
        exact ⟨hlt, j, hev⟩
    | stopped j t => cases heq
    | waited h => cases heq
  · rintro ⟨hlt, j, hev⟩
    exact ⟨_, hev, by simp [Event.ts, Event.call?, hlt]⟩

namespace TraceInv

variable (hinv : TraceInv cfg evs) (hone : cfg.numClis = 1)

include hinv

lemma stampedBefore_pairwise (t : ℕ) : (stampedBefore evs t).Pairwise fun a b => a.1 < b.1 := by
  have hts : evs.Pairwise fun a b => a.ts < b.ts := by
    rw [← List.pairwise_map, hinv.clock]
    exact List.pairwise_lt_range'
  refine hts.filterMap _ ?_
  intro a b hab x hx y hy
  have hstamp : ∀ {ev : Event} {z : ℕ × KvCall},
      (if ev.ts < t then ev.call?.map (ev.ts, ·) else none) = some z → z.1 = ev.ts := by
    intro ev z hz
    split_ifs at hz
    obtain ⟨_, -, rfl⟩ := Option.map_eq_some_iff.mp hz
    rfl
  rw [hstamp hx, hstamp hy]
  exact hab

include hone

lemma cidx_eq_zero {h : Harvest} (hh : h ∈ harvests evs) : h.cidx = 0 := by
  have hlt := hinv.cidx _ (mem_harvests.mp hh)
  rw [hone] at hlt
  exact Nat.lt_one_iff.mp hlt

/-- The responses before and after one of a single client do not overlap it. -/
lemma single_spans (hsplit : harvests evs = pre ++ g :: post) :
    (∀ h ∈ pre, h.tsResp < g.tsCall) ∧ ∀ h ∈ post, g.tsResp < h.tsCall := by
  have hseq := hinv.sequential
  rw [hsplit] at hseq
  have hcidx : ∀ h ∈ harvests evs, h.cidx = 0 := fun h hh => hinv.cidx_eq_zero hone hh
  rw [hsplit] at hcidx
  obtain ⟨-, htail, hcross⟩ := List.pairwise_append.mp hseq
  constructor
  · intro h hh
    exact hcross h hh g (by simp) (by rw [hcidx h (by simp [hh]), hcidx g (by simp)])
  · intro h hh
    exact (List.pairwise_cons.mp htail).1 h hh
      (by rw [hcidx h (by simp [hh]), hcidx g (by simp)])

/-- With a single client, the calls before one are those answered before it. -/
lemma callsBefore_eq (hsplit : harvests evs = pre ++ g :: post) :
    callsBefore evs g.tsCall = pre.map Harvest.call := by
  have hmem : ∀ h ∈ pre, h ∈ harvests evs := fun h hh => by rw [hsplit]; simp [hh]
  have hg : g ∈ harvests evs := by rw [hsplit]; simp
  obtain ⟨hpre, hpost⟩ := hinv.single_spans hone hsplit
  have hpairs : stampedBefore evs g.tsCall = pre.map fun h => (h.tsCall, h.call) := by
    have : Std.Irrefl fun a b : ℕ × KvCall => a.1 < b.1 := ⟨fun a => lt_irrefl a.1⟩
    have : Std.Antisymm fun a b : ℕ × KvCall => a.1 < b.1 :=
      ⟨fun a b hab hba => absurd hab (lt_asymm hba)⟩
    refine (hinv.stampedBefore_pairwise g.tsCall).eq_of_mem_iff ?_ fun p => ?_
    · rw [List.pairwise_map]
      have hseq := hinv.sequential
      rw [hsplit] at hseq
      refine (List.pairwise_append.mp hseq).1.imp_of_mem ?_
      intro a b ha hb hab
      have hlt := hab (by
        rw [hinv.cidx_eq_zero hone (hmem a ha), hinv.cidx_eq_zero hone (hmem b hb)])
      have := hinv.span a (hmem a ha)
      omega
    · rw [mem_stampedBefore, List.mem_map]
      constructor
      · rintro ⟨hlt, j, hcalled⟩
        rcases hinv.pending _ _ _ hcalled with ⟨h, hh, -, ht⟩ | hlast
        · -- answered, and not by `g` or later
          have hcall := (Event.called.inj
            (hinv.eq_of_ts_eq (hinv.call h hh) hcalled ht)).2.2
          rw [hsplit] at hh
          rcases List.mem_append.mp hh with hh | hh
          · exact ⟨h, hh, by rw [ht, hcall]⟩
          · have hspan := hinv.span g hg
            rcases List.mem_cons.mp hh with rfl | hh
            · omega
            · have := hpost h hh
              omega
        · have hj : j = 0 := by
            have := hinv.cidx _ hcalled
            rw [hone] at this
            exact Nat.lt_one_iff.mp this
          have := hlast g hg (by rw [hj, hinv.cidx_eq_zero hone hg])
          have hspan := hinv.span g hg
          omega
      · rintro ⟨h, hh, rfl⟩
        have hspan := hinv.span h (hmem h hh)
        have := hpre h hh
        exact ⟨by show h.tsCall < g.tsCall; omega, h.cidx, hinv.call h (hmem h hh)⟩
  rw [← map_stampedBefore, hpairs, List.map_map]
  rfl

end TraceInv

/-! ### What the history says of a key -/

/-- The last of a client's updates carries the value that the map holds. -/
lemma exists_last_update (pre : List Harvest) (key : String) :
    ∃ early u, .dummy :: pre.filterMap (·.updateOn key) = early ++ [u]
      ∧ u.value = (pre.map Harvest.call).foldl KvMap.after KvMap.empty key := by
  induction pre using List.reverseRecOn with
  | nil => exact ⟨[], .dummy, rfl, rfl⟩
  | append_singleton pre h ih =>
      obtain ⟨early, u, heq, hvalue⟩ := ih
      rw [List.filterMap_append, List.map_append, List.foldl_append, List.map_singleton,
        List.foldl_cons, List.foldl_nil]
      cases hupd : h.updateOn key with
      | none =>
          refine ⟨early, u, by simp [hupd, heq], ?_⟩
          rw [hvalue, KvMap.after, store_of_not_writes]
          intro v hv
          rw [Harvest.updateOn_eq_some.mpr ⟨v, hv, rfl⟩] at hupd
          cases hupd
      | some w =>
          obtain ⟨v, hinfo, rfl⟩ := Harvest.updateOn_eq_some.mp hupd
          refine ⟨early ++ [u], ⟨h.tsCall, h.tsResp, v⟩, ?_, ?_⟩
          · rw [← heq]
            simp [hupd]
          · rw [KvMap.after, store_of_some hinfo, Function.update_self]

/-- With a single client, a response is checked against the value before the
call and the value that the call itself writes. -/
lemma vouched_single (hinv : TraceInv cfg evs) (hone : cfg.numClis = 1) (hg : g ∈ harvests evs)
    (key : String) (ok : Option String → Prop) :
    Vouched cfg evs g.tsCall g.tsResp key ok ↔
      ok (mapBefore evs g.tsCall key) ∨ ∃ v, g.call.updateInfo = some (key, v) ∧ ok v := by
  obtain ⟨pre, post, hsplit⟩ := List.append_of_mem hg
  obtain ⟨hpre, hpost⟩ := hinv.single_spans hone hsplit
  obtain ⟨early, u, hearly, hvalue⟩ := exists_last_update pre key
  have hspan := hinv.span g hg
  have hseq : updateSeq evs 0 key =
      early ++ u :: (g.updateOn key).toList ++ post.filterMap (·.updateOn key) := by
    have hby : updatesBy evs 0 key = (harvests evs).filterMap (·.updateOn key) := by
      rw [updatesBy]
      exact List.filterMap_congr fun h hh => if_pos (hinv.cidx_eq_zero hone hh)
    calc updateSeq evs 0 key
        = .dummy :: pre.filterMap (·.updateOn key)
            ++ (g :: post).filterMap (·.updateOn key) := by
          rw [updateSeq, hby, hsplit, List.filterMap_append, List.cons_append]
      _ = early ++ [u] ++ ((g.updateOn key).toList ++ post.filterMap (·.updateOn key)) := by
          rw [hearly]
          cases hupd : g.updateOn key <;> simp [hupd]
      _ = _ := by simp
  have hu : u.tsResp < g.tsCall ∧ u.tsCall < g.tsResp := by
    have hmem : u ∈ UpdateSpan.dummy :: pre.filterMap (·.updateOn key) := by
      rw [hearly]
      simp
    rcases List.mem_cons.mp hmem with rfl | hmem
    · exact ⟨hinv.tsCall_pos hg, by show 0 < g.tsResp; omega⟩
    · obtain ⟨h, hh, hupd⟩ := List.mem_filterMap.mp hmem
      obtain ⟨_, -, rfl⟩ := Harvest.updateOn_eq_some.mp hupd
      have hlt := hpre h hh
      have hspan' := hinv.span h (by rw [hsplit]; simp [hh])
      exact ⟨hlt, by show h.tsCall < g.tsResp; omega⟩
  have hsingle : Vouched cfg evs g.tsCall g.tsResp key ok ↔
      Vouches UpdateSpan.tsCall UpdateSpan.tsResp (updateSeq evs 0 key) g.tsCall g.tsResp
        (fun u => ok u.value) := by
    simp [Vouched, hone]
  rw [hsingle, hseq, vouches_iff_of_splits hu.1 hu.2 ?_ ?_, hvalue, mapBefore,
    hinv.callsBefore_eq hone hsplit]
  · refine or_congr_right ⟨?_, ?_⟩
    · rintro ⟨w, hw, hok⟩
      obtain ⟨v, hinfo, rfl⟩ := Harvest.updateOn_eq_some.mp (Option.mem_toList.mp hw)
      exact ⟨v, hinfo, hok⟩
    · rintro ⟨v, hinfo, hok⟩
      exact ⟨_, Option.mem_toList.mpr (Harvest.updateOn_eq_some.mpr ⟨v, hinfo, rfl⟩), hok⟩
  · intro w hw
    obtain ⟨v, -, rfl⟩ := Harvest.updateOn_eq_some.mp (Option.mem_toList.mp hw)
    exact ⟨hspan, by show ¬ g.tsResp < g.tsCall; omega⟩
  · intro w hw
    obtain ⟨h, hh, hupd⟩ := List.mem_filterMap.mp hw
    obtain ⟨v, -, rfl⟩ := Harvest.updateOn_eq_some.mp hupd
    have hlt := hpost h hh
    have hspan' := hinv.span h (by rw [hsplit]; simp [hh])
    exact ⟨hlt.le, by show g.tsCall ≤ h.tsResp; omega⟩

/-- The map holds pool keys only. -/
lemma mapBefore_eq_none (hinv : TraceInv cfg evs) {t : ℕ} {key : String} (hkey : key ∉ cfg.pool) :
    mapBefore evs t key = none := by
  rcases foldl_store_cases KvCall.updateInfo KvMap.empty key (callsBefore evs t) with
    ⟨pre, w, post, v, heq, hinfo, -, -⟩ | ⟨-, hvalue⟩
  · have hw : w ∈ callsBefore evs t := by rw [heq]; simp
    rw [← map_stampedBefore] at hw
    obtain ⟨p, hp, rfl⟩ := List.mem_map.mp hw
    obtain ⟨-, j, hcalled⟩ := mem_stampedBefore.mp hp
    exact absurd ((hinv.generated_pool hcalled).key_mem hinfo) hkey
  · exact hvalue

/-! ### When a check is exact -/

/-- With a single client, a check accepts what the value before the call or the
value written by the call justifies. -/
lemma check_single (h : FuzzRun cfg evs s) (hone : cfg.numClis = 1) (hg : g ∈ harvests evs)
    {verdict : Bool} (hcheck : (g.entry, verdict) ∈ checksOf evs) :
    verdict = true ↔ RespHolds (· ∈ cfg.pool)
      (fun k ok => ok (mapBefore evs g.tsCall k) ∨ ∃ v, g.call.updateInfo = some (k, v) ∧ ok v)
      g.resp := by
  obtain ⟨-, -, hverdict⟩ := h.histInv.verdicts _ hcheck
  rw [hverdict]
  exact respHolds_congr g.resp (fun _ => Iff.rfl)
    fun k _ ok => vouched_single h.loopInv.toTraceInv hone hg k ok

/-- What the call's own update adds to an answer that the map `m` justifies. -/
lemma respHolds_own_iff {m : KvMap} {call : KvCall} {resp : KvResp}
    (hgen : GeneratedFrom cfg.pool call) (hmatch : Matches call resp)
    (hscan : ScansPool cfg resp) (hm : ∀ k ∉ cfg.pool, m k = none) :
    RespHolds (· ∈ cfg.pool) (fun k ok => ok (m k) ∨ ∃ v, call.updateInfo = some (k, v) ∧ ok v)
        resp ↔ Answers m call resp ∨ OwnUpdateMisleads m call resp := by
  cases hgen with
  | @put key value hk =>
      obtain ⟨found, rfl⟩ := matches_put.mp hmatch
      simp only [RespHolds, hk, true_and, KvCall.updateInfo, Answers, OwnUpdateMisleads]
      cases m key <;> cases found <;> simp
  | @swap key value hk =>
      obtain ⟨oldValue, rfl⟩ := matches_swap.mp hmatch
      simp only [RespHolds, hk, true_and, KvCall.updateInfo, Answers, OwnUpdateMisleads]
      by_cases hold : m key = oldValue
      · simp [hold]
      · have hne : oldValue ≠ m key := Ne.symm hold
        simp only [hold, hne, false_or, Option.some.injEq, Prod.mk.injEq, true_and]
        constructor
        · rintro ⟨v, rfl, rfl⟩
          exact ⟨rfl, hold⟩
        · rintro ⟨rfl, -⟩
          exact ⟨_, rfl, rfl⟩
  | @get key hk =>
      obtain ⟨value, rfl⟩ := matches_get.mp hmatch
      simp [RespHolds, hk, KvCall.updateInfo, Answers, OwnUpdateMisleads, eq_comm]
  | @scan keyStart keyEnd hs he hle =>
      obtain ⟨entries, rfl⟩ := matches_scan.mp hmatch
      rw [answers_scan_iff]
      simp only [RespHolds, KvCall.updateInfo, reduceCtorEq, false_and, exists_false, or_false,
        OwnUpdateMisleads]
      refine and_congr_right fun _ => and_congr_right fun _ => ⟨fun h k hs he => ?_, ?_⟩
      · by_cases hk : k ∈ cfg.pool
        · exact h k hk hs he
        · -- a key outside the pool is neither in the map nor in the answer
          have hnone : entries.lookup k = none := by
            rw [List.lookup_eq_none_iff]
            intro p hp
            have hne : k ≠ p.1 := fun heq => hk (heq ▸ hscan p hp)
            simpa using hne
          rw [hm k hk, hnone]
      · exact fun h k _ => h k
  | @delete key hk =>
      obtain ⟨found, rfl⟩ := matches_delete.mp hmatch
      simp only [RespHolds, hk, true_and, KvCall.updateInfo, Answers, OwnUpdateMisleads]
      cases m key <;> cases found <;> simp

/-- **When a check of a single client is exact**: the verdict tells the right
answers from the wrong ones unless the answer is a wrong one that the call's
own update explains. -/
theorem check_single_iff (h : FuzzRun cfg evs s) (hone : cfg.numClis = 1)
    (hg : g ∈ harvests evs) (hmatch : Matches g.call g.resp) (hscan : ScansPool cfg g.resp)
    {verdict : Bool} (hcheck : (g.entry, verdict) ∈ checksOf evs) :
    (verdict = true ↔ Answers (mapBefore evs g.tsCall) g.call g.resp) ↔
      ¬ OwnUpdateMisleads (mapBefore evs g.tsCall) g.call g.resp := by
  have hinv := h.loopInv.toTraceInv
  rw [check_single h hone hg hcheck, respHolds_own_iff (hinv.generated_pool (hinv.call g hg))
    hmatch hscan fun k hk => mapBefore_eq_none hinv hk]
  have hwrong : OwnUpdateMisleads (mapBefore evs g.tsCall) g.call g.resp →
      ¬ Answers (mapBefore evs g.tsCall) g.call g.resp := by
    intro hown hans
    revert hown hans
    cases g.call <;> cases g.resp <;> simp only [OwnUpdateMisleads, Answers, false_implies,
      implies_true]
    · rintro ⟨rfl, hnone⟩ ⟨-, heq⟩
      rw [hnone] at heq
      cases heq
    · rintro ⟨rfl, hne⟩ ⟨-, heq⟩
      exact hne heq.symm
    · rintro ⟨rfl, hne⟩ ⟨-, heq⟩
      exact hne (by simpa using heq.symm)
  tauto

/-- A single client with one key. -/
def singleCfg : FuzzConfig where
  numClis := 1
  numOps := 1000
  keys := [["a"]]
  numClis_pos := by decide
  keys_length := rfl
  keys_ne_nil := by decide

/-- The first Put of a key reports it found. -/
def foundPutDraws : List Draws :=
  [drawCall 0 0 "x", drawResp 0 (.put "a" true), drawCall 0 0 "y", drawResp 0 (.put "a" true)]

theorem check_single_iff_foundPut :
    (true = true ↔ Answers (mapBefore (runOf singleCfg foundPutDraws).1 1) (.put "a" "x")
        (.put "a" true)) ↔
      ¬ OwnUpdateMisleads (mapBefore (runOf singleCfg foundPutDraws).1 1) (.put "a" "x")
        (.put "a" true) :=
  have hmem : ⟨0, .put "a" "x", 1, 2, .put "a" true, none, []⟩ ∈
      harvests (runOf singleCfg foundPutDraws).1 := by decide
  check_single_iff (fuzzRun_runOf singleCfg foundPutDraws) rfl hmem rfl trivial (by decide)

/-- A Put that reports a key found which was never written is accepted. -/
theorem exists_wrong_put_accepted :
    ¬ ∀ (cfg : FuzzConfig) (evs : List Event) (s : FuzzState), FuzzRun cfg evs s →
        cfg.numClis = 1 → (∀ h ∈ harvests evs, Matches h.call h.resp ∧ ScansPool cfg h.resp) →
        ∀ g ∈ harvests evs, ∀ verdict, (g.entry, verdict) ∈ checksOf evs →
          (verdict = true ↔ Answers (mapBefore evs g.tsCall) g.call g.resp) := by
  intro h
  have hwrong : ¬ Answers (mapBefore (runOf singleCfg foundPutDraws).1 1) (.put "a" "x")
      (.put "a" true) := by
    have hmap : mapBefore (runOf singleCfg foundPutDraws).1 1 = KvMap.empty := rfl
    rw [hmap]
    simp [Answers, KvMap.empty]
  have hall : ∀ h ∈ harvests (runOf singleCfg foundPutDraws).1,
      Matches h.call h.resp ∧ ScansPool singleCfg h.resp := by
    have hlist : (harvests (runOf singleCfg foundPutDraws).1).map (fun h => (h.call, h.resp))
        = [(.put "a" "x", .put "a" true), (.put "a" "y", .put "a" true)] := by decide
    intro h hh
    have hmem : (h.call, h.resp) ∈ (harvests (runOf singleCfg foundPutDraws).1).map
        (fun h => (h.call, h.resp)) := List.mem_map.mpr ⟨h, hh, rfl⟩
    rw [hlist] at hmem
    simp only [List.mem_cons, List.not_mem_nil, or_false, Prod.mk.injEq] at hmem
    rcases hmem with ⟨hcall, hresp⟩ | ⟨hcall, hresp⟩ <;> rw [hcall, hresp] <;> exact ⟨rfl, trivial⟩
  exact hwrong ((h singleCfg _ _ (fuzzRun_runOf singleCfg foundPutDraws) rfl hall
    ⟨0, .put "a" "x", 1, 2, .put "a" true, none, []⟩ (by decide) true (by decide)).mp rfl)

end Madkv
