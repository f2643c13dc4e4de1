import Madkv.Fuzzer.SpansInvariant

/-!
The checker over a whole run of the fuzz loop.

`HistInv` says of the events so far and of the checker's state: the maxima are
the clients' latest acknowledged updates, the histories stand for the complete
ones (`SpansInv`), the queue and the checks made split the responses harvested
at `minAck`, and every verdict given is that of the complete history.
`HistInv.step` carries it over one iteration, `FuzzRun.histInv` over a run.

The key fact for verdicts already given is `vouched_append_waited`: an update
acknowledged later was called after the response checked, so the complete
history does not change its mind.
-/

namespace Madkv

open Intervals Execution

/-- The responses harvested, as entries of the check queue. -/
def entries (evs : List Event) : List QueuedSpan := (harvests evs).map Harvest.entry

lemma entries_congr {evs evs' : List Event} (h : harvests evs' = harvests evs) :
    entries evs' = entries evs := by
  rw [entries, entries, h]

lemma entries_append_waited (evs : List Event) (h : Harvest) :
    entries (evs ++ [.waited h]) = entries evs ++ [h.entry] := by
  simp [entries]

lemma mem_entries {evs : List Event} {e : QueuedSpan} :
    e ∈ entries evs ↔ ∃ h ∈ harvests evs, h.entry = e := by
  rw [entries, List.mem_map]

lemma TraceInv.entries_ordered {cfg : FuzzConfig} {evs : List Event} (hinv : TraceInv cfg evs) :
    (entries evs).Pairwise fun a b => a.tsResp < b.tsResp := by
  rw [entries, List.pairwise_map]
  exact hinv.ordered

/-! ### The bound `minAck` -/

section Bound

variable {cfg : FuzzConfig} {evs : List Event}

lemma minAck_congr {evs' : List Event} (h : harvests evs' = harvests evs) :
    minAck cfg evs' = minAck cfg evs := by
  rw [minAck, minAck, funext (lastAck_congr h)]

/-- The minimum is attained. -/
lemma min?_lastAck (cfg : FuzzConfig) (evs : List Event) :
    ((List.range cfg.numClis).map (lastAck evs)).min? = some (minAck cfg evs) := by
  rw [minAck]
  cases hmin : ((List.range cfg.numClis).map (lastAck evs)).min? with
  | none =>
      rw [List.min?_eq_none_iff, List.map_eq_nil_iff, List.range_eq_nil] at hmin
      exact absurd hmin (Nat.pos_iff_ne_zero.mp cfg.numClis_pos)
  | some m => rfl

lemma minAck_le {j : ℕ} (hj : j < cfg.numClis) : minAck cfg evs ≤ lastAck evs j :=
  (List.min?_eq_some_iff.mp (min?_lastAck cfg evs)).2 _
    (List.mem_map.mpr ⟨j, List.mem_range.mpr hj, rfl⟩)

/-- Some client has acknowledged its latest update at the bound. -/
lemma exists_lastAck_eq (cfg : FuzzConfig) (evs : List Event) :
    ∃ j < cfg.numClis, lastAck evs j = minAck cfg evs := by
  obtain ⟨j, hj, heq⟩ := List.mem_map.mp (List.min?_eq_some_iff.mp (min?_lastAck cfg evs)).1
  exact ⟨j, List.mem_range.mp hj, heq⟩

lemma le_minAck {m : ℕ} (h : ∀ j < cfg.numClis, m ≤ lastAck evs j) : m ≤ minAck cfg evs := by
  obtain ⟨j, hj, heq⟩ := exists_lastAck_eq cfg evs
  rw [← heq]
  exact h j hj

lemma minAck_le_iff {t : ℕ} : minAck cfg evs ≤ t ↔ ∃ j < cfg.numClis, lastAck evs j ≤ t := by
  constructor
  · intro hle
    obtain ⟨j, hj, heq⟩ := exists_lastAck_eq cfg evs
    exact ⟨j, hj, heq.trans_le hle⟩
  · rintro ⟨j, hj, hle⟩
    exact (minAck_le hj).trans hle

/-- A call outstanding was made after its client's latest acknowledged
update. -/
lemma Outstanding.lastAck_lt {h : Harvest} {rest : List KvCall}
    {updateInfo : Option (String × Option String)} (hinv : TraceInv cfg evs)
    (hout : Outstanding evs h rest updateInfo) : lastAck evs h.cidx < h.tsCall := by
  rcases lastAck_cases evs h.cidx with h0 | ⟨h', hh', hcidx, heq⟩
  · rw [h0]
    exact (hinv.ts_le hout.called).1
  · rw [heq]
    exact hout.last h' hh' hcidx

lemma minAck_le_append_waited {h : Harvest}
    (hlast : lastAck evs h.cidx ≤ h.tsResp) :
    minAck cfg evs ≤ minAck cfg (evs ++ [.waited h]) := by
  refine le_minAck fun j hj => ?_
  rw [lastAck_append_waited]
  split_ifs with hupd
  · have : minAck cfg evs ≤ lastAck evs j := minAck_le hj
    rw [hupd.1] at hlast
    omega
  · exact minAck_le hj

end Bound

/-! ### Later updates -/

section Later

variable {cfg : FuzzConfig} {evs : List Event} {h : Harvest}

lemma updateSeq_append_waited (evs : List Event) (h : Harvest) (j : ℕ) (key : String) :
    updateSeq (evs ++ [.waited h]) j key =
      updateSeq evs j key ++ if h.cidx = j then (h.updateOn key).toList else [] := by
  rw [updateSeq, updatesBy_append_waited, updateSeq, List.cons_append]

/-- An update called no earlier than a response does not change what the
complete history says of it. -/
lemma vouched_append_waited {tsCall tsResp : ℕ} (hresp : tsResp ≤ h.tsCall)
    (hcall : tsCall ≤ h.tsResp) (key : String) (ok : Option String → Prop) :
    Vouched cfg (evs ++ [.waited h]) tsCall tsResp key ok
      ↔ Vouched cfg evs tsCall tsResp key ok := by
  refine exists_congr fun j => and_congr_right fun _ => ?_
  rw [updateSeq_append_waited]
  refine vouches_append fun u hu => ?_
  split_ifs at hu with hj
  · obtain ⟨value, -, rfl⟩ := Harvest.updateOn_eq_some.mp (Option.mem_toList.mp hu)
    exact ⟨hresp, hcall⟩
  · simp at hu

lemma justified_append_waited {e : QueuedSpan} (hresp : e.tsResp ≤ h.tsCall)
    (hcall : e.tsCall ≤ h.tsResp) :
    Justified cfg (evs ++ [.waited h]) e ↔ Justified cfg evs e :=
  respHolds_congr e.resp (fun _ => Iff.rfl)
    fun k _ ok => vouched_append_waited hresp hcall k ok

lemma justified_congr {evs' : List Event} (h : harvests evs' = harvests evs) (e : QueuedSpan) :
    Justified cfg evs' e ↔ Justified cfg evs e := by
  have hseq : updateSeq evs' = updateSeq evs :=
    funext fun j => funext fun k => updateSeq_congr h j k
  simp only [Justified, RespHolds, Vouched, hseq]

/-- Every update of a complete history has its call before its response. -/
lemma TraceInv.updateSeq_span (hinv : TraceInv cfg evs) {j : ℕ} {key : String} {u : UpdateSpan}
    (hu : u ∈ updateSeq evs j key) : u.tsCall ≤ u.tsResp := by
  rcases List.mem_cons.mp hu with rfl | hu
  · exact Nat.le_refl 0
  · obtain ⟨h, hh, -, hupd⟩ := mem_updatesBy.mp hu
    obtain ⟨value, -, rfl⟩ := Harvest.updateOn_eq_some.mp hupd
    exact (hinv.span h hh).le

variable {key : String} {value : Option String}

/-- The client's maximum is that of its latest acknowledged update. -/
lemma map_lastAck_set (hupd : h.call.updateInfo = some (key, value)) (n : ℕ) :
    ((List.range n).map (lastAck evs)).set h.cidx h.tsResp
      = (List.range n).map (lastAck (evs ++ [.waited h])) := by
  refine List.ext_getElem (by simp) fun i hi _ => ?_
  rw [List.getElem_set, List.getElem_map, List.getElem_map, List.getElem_range,
    lastAck_append_waited, hupd]
  simp [eq_comm]

lemma updateSeq_waited_self (hupd : h.call.updateInfo = some (key, value)) :
    updateSeq (evs ++ [.waited h]) h.cidx key
      = updateSeq evs h.cidx key ++ [⟨h.tsCall, h.tsResp, value⟩] := by
  have hon : h.updateOn key = some ⟨h.tsCall, h.tsResp, value⟩ :=
    Harvest.updateOn_eq_some.mpr ⟨value, hupd, rfl⟩
  rw [updateSeq_append_waited, if_pos rfl, hon, Option.toList_some]

lemma updateSeq_waited_other (hupd : h.call.updateInfo = some (key, value)) {j : ℕ} {k : String}
    (hjk : j ≠ h.cidx ∨ k ≠ key) : updateSeq (evs ++ [.waited h]) j k = updateSeq evs j k := by
  rw [updateSeq_append_waited]
  rcases hjk with hj | hk
  · rw [if_neg (Ne.symm hj), List.append_nil]
  · have hnone : h.updateOn k = none := by
      rw [Harvest.updateOn, hupd]
      simp [Ne.symm hk]
    rw [hnone]
    simp

end Later

/-! ### The invariant -/

/-- `apply_update` has reported nothing so far. -/
def Unreported (evs : List Event) : Prop := ∀ h ∈ harvests evs, h.returned = none

/-- The state of the checker against the events of the run. -/
structure HistInv (cfg : FuzzConfig) (evs : List Event) (s : FuzzState) : Prop where
  maxtr : s.history.maxtr = (List.range cfg.numClis).map (lastAck evs)
  spans : SpansInv cfg evs s.history.spans (minAck cfg evs) s.history.queue
  queue : Unreported evs →
    s.history.queue = (entries evs).filter fun e => decide (minAck cfg evs ≤ e.tsResp)
  checks : Unreported evs →
    checksOf evs = ((entries evs).filter fun e => decide (e.tsResp < minAck cfg evs)).map (·, true)
  verdicts : ∀ p ∈ checksOf evs,
    p.1 ∈ entries evs ∧ p.1.tsResp < minAck cfg evs ∧ (p.2 = true ↔ Justified cfg evs p.1)
  returned : ∀ h ∈ harvests evs,
    h.returned ≠ some none ∧ (h.returned = none ↔ ∀ p ∈ h.checks, p.2 = true)
  passed : s.passed = true → Unreported evs

lemma HistInv.init (cfg : FuzzConfig) : HistInv cfg [] (FuzzState.init cfg) where
  maxtr := by
    show List.replicate cfg.numClis 0 = _
    have hzero : lastAck [] = fun _ => 0 := rfl
    rw [hzero, List.map_const', List.length_range]
  spans := SpansInv.init cfg _ _
  queue := by intro _; rfl
  checks := by intro _; rfl
  verdicts := by simp [checksOf]
  returned := by simp
  passed := by simp [Unreported]

section Step

variable {cfg : FuzzConfig} {evs : List Event} {s s' : FuzzState}

/-- An iteration that harvests nothing leaves the checker alone. -/
lemma HistInv.frame {ev : Event} (hinv : HistInv cfg evs s)
    (hev : harvests (evs ++ [ev]) = harvests evs) (hhist : s'.history = s.history)
    (hpass : s'.passed = true → s.passed = true) : HistInv cfg (evs ++ [ev]) s' where
  maxtr := by
    rw [hhist, hinv.maxtr, funext (lastAck_congr hev)]
  spans := by
    rw [hhist, minAck_congr hev]
    exact hinv.spans.congr (updateSeq_congr hev)
  queue := by
    rw [hhist, entries_congr hev, minAck_congr hev, Unreported, hev]
    exact hinv.queue
  checks := by
    rw [checksOf_congr hev, entries_congr hev, minAck_congr hev, Unreported, hev]
    exact hinv.checks
  verdicts := by
    intro p hp
    rw [checksOf_congr hev] at hp
    rw [entries_congr hev, minAck_congr hev, justified_congr hev]
    exact hinv.verdicts p hp
  returned := by
    rw [hev]
    exact hinv.returned
  passed := by
    intro h
    rw [Unreported, hev]
    exact hinv.passed (hpass h)

/-- The verdicts already given stand. -/
lemma HistInv.verdicts_append {h : Harvest} (hinv : HistInv cfg evs s) (htrace : TraceInv cfg evs)
    (hlt : h.cidx < cfg.numClis) (hspan : h.tsCall < h.tsResp)
    (hlast : lastAck evs h.cidx < h.tsCall) :
    ∀ p ∈ checksOf evs, p.1 ∈ entries (evs ++ [.waited h])
      ∧ p.1.tsResp < minAck cfg (evs ++ [.waited h])
      ∧ (p.2 = true ↔ Justified cfg (evs ++ [.waited h]) p.1) := by
  intro p hp
  obtain ⟨hmem, hbound, hverdict⟩ := hinv.verdicts p hp
  have hle : minAck cfg evs ≤ lastAck evs h.cidx := minAck_le hlt
  have hmono : minAck cfg evs ≤ minAck cfg (evs ++ [.waited h]) :=
    minAck_le_append_waited (by omega)
  obtain ⟨h', hh', heq⟩ := mem_entries.mp hmem
  have hspan' : p.1.tsCall < p.1.tsResp := by
    rw [← heq]
    exact htrace.span h' hh'
  refine ⟨?_, by omega, ?_⟩
  · rw [entries_append_waited]
    exact List.mem_append_left _ hmem
  · rw [hverdict, justified_append_waited (by omega) (by omega)]

/-- The histories stand for the complete ones also when the response at hand
joins the queue, and for a later bound. -/
lemma HistInv.spans_entry {h : Harvest} {m : ℕ} (hinv : HistInv cfg evs s)
    (hlt : h.cidx < cfg.numClis) (hlast : lastAck evs h.cidx < h.tsCall)
    (hm : minAck cfg evs ≤ m) :
    SpansInv cfg evs s.history.spans m (s.history.queue ++ [h.entry]) := by
  refine hinv.spans.mono hm fun e he => ?_
  rcases List.mem_append.mp he with he | he
  · exact Or.inl he
  · rw [List.mem_singleton.mp he]
    exact Or.inr ((minAck_le hlt).trans hlast.le)

/-- A response to a read joins the queue. -/
lemma HistInv.waited_read {h : Harvest} (hinv : HistInv cfg evs s) (htrace : TraceInv cfg evs)
    (hpass : s.passed = true) (hlt : h.cidx < cfg.numClis) (hspan : h.tsCall < h.tsResp)
    (hlast : lastAck evs h.cidx < h.tsCall) (hread : h.call.updateInfo = none)
    (hret : h.returned = none) (hchecks : h.checks = [])
    (hhist : s'.history = { s.history with queue := s.history.queue ++ [h.entry] }) :
    HistInv cfg (evs ++ [.waited h]) s' := by
  have hack : lastAck (evs ++ [.waited h]) = lastAck evs := by
    funext j
    rw [lastAck_append_waited, hread]
    simp
  have hmin : minAck cfg (evs ++ [.waited h]) = minAck cfg evs := by rw [minAck, minAck, hack]
  have hseq : ∀ j key, updateSeq (evs ++ [.waited h]) j key = updateSeq evs j key := by
    intro j key
    rw [updateSeq_append_waited, Harvest.updateOn, hread]
    simp
  have hle : minAck cfg evs ≤ lastAck evs h.cidx := minAck_le hlt
  have hge : minAck cfg evs ≤ h.entry.tsResp := by
    show minAck cfg evs ≤ h.tsResp
    omega
  refine ⟨?_, ?_, ?_, ?_, ?_, ?_, ?_⟩
  · rw [hhist, hack]
    exact hinv.maxtr
  · rw [hhist, hmin]
    exact (hinv.spans_entry hlt hlast le_rfl).congr hseq
  · intro _
    rw [hhist, hmin, entries_append_waited, List.filter_append,
      ← hinv.queue (hinv.passed hpass)]
    simp [hge]
  · intro _
    rw [checksOf_append_waited, hchecks, List.append_nil, hmin, entries_append_waited,
      List.filter_append, hinv.checks (hinv.passed hpass)]
    simp [hge]
  · rw [checksOf_append_waited, hchecks, List.append_nil]
    exact hinv.verdicts_append htrace hlt hspan hlast
  · exact forall_harvests_waited.mpr ⟨hinv.returned, by simp [hret, hchecks]⟩
  · exact fun _ => forall_harvests_waited.mpr ⟨hinv.passed hpass, hret⟩

/-- The key of an update is one of the pool. -/
lemma TraceInv.key_mem_pool (htrace : TraceInv cfg evs) {h : Harvest} {key : String}
    {value : Option String} (hcalled : .called h.cidx h.tsCall h.call ∈ evs)
    (hupd : h.call.updateInfo = some (key, value)) : key ∈ cfg.pool :=
  (htrace.generated_pool hcalled).key_mem hupd

/-- The queue is in the order of the responses. -/
lemma HistInv.queue_ordered {h : Harvest} (hinv : HistInv cfg evs s)
    (htrace' : TraceInv cfg (evs ++ [.waited h])) (hquiet : Unreported evs) :
    (s.history.queue ++ [h.entry]).Pairwise fun a b => a.tsResp < b.tsResp := by
  have hordered := htrace'.entries_ordered
  rw [entries_append_waited] at hordered
  refine hordered.sublist ?_
  rw [hinv.queue hquiet]
  exact List.filter_sublist.append (List.Sublist.refl _)

section Update

variable {h : Harvest} {key : String} {value : Option String} {keySpans : KeySpans}
  {minComingTs : ℕ} {a : Applied}

/-- The bound that the checker computes. -/
lemma HistInv.minComing_eq (hinv : HistInv cfg evs s)
    (hupd : h.call.updateInfo = some (key, value))
    (hmin : (s.history.maxtr.set h.cidx h.tsResp).min? = some minComingTs) :
    minComingTs = minAck cfg (evs ++ [.waited h]) := by
  rw [hinv.maxtr, map_lastAck_set hupd, min?_lastAck] at hmin
  exact (Option.some.inj hmin).symm

/-- The histories with the new update stand for the complete ones, also for the
responses about to be checked. -/
lemma HistInv.spans_update (hinv : HistInv cfg evs s)
    (htrace' : TraceInv cfg (evs ++ [.waited h])) (hlt : h.cidx < cfg.numClis)
    (hlast : lastAck evs h.cidx < h.tsCall) (hupd : h.call.updateInfo = some (key, value))
    (ha : Recorded { s.history with queue := s.history.queue ++ [h.entry] } h.cidx h.tsCall
      h.tsResp key value keySpans minComingTs a)
    (hmono : minAck cfg evs ≤ minAck cfg (evs ++ [.waited h])) :
    SpansInv cfg (evs ++ [.waited h]) a.history.spans (minAck cfg (evs ++ [.waited h]))
      (s.history.queue ++ [h.entry]) := by
  rw [ha.spans]
  exact (hinv.spans_entry hlt hlast hmono).record ha.lookup
    (fun j u hu => htrace'.updateSeq_span hu) (updateSeq_waited_self hupd)
    (fun j k hjk => updateSeq_waited_other hupd hjk) (hinv.minComing_eq hupd ha.minComing)
    fun e he => minQueuedTs_le he

/-- A response to an update is recorded and triggers checks. -/
lemma HistInv.waited_update (hinv : HistInv cfg evs s)
    (htrace : TraceInv cfg evs) (htrace' : TraceInv cfg (evs ++ [.waited h]))
    (hpass : s.passed = true) (hlt : h.cidx < cfg.numClis) (hspan : h.tsCall < h.tsResp)
    (hlast : lastAck evs h.cidx < h.tsCall) (hupd : h.call.updateInfo = some (key, value))
    (ha : Recorded { s.history with queue := s.history.queue ++ [h.entry] } h.cidx h.tsCall
      h.tsResp key value keySpans minComingTs a)
    (hret : h.returned = a.returned) (hchecks : h.checks = a.checks)
    (hhist : s'.history = a.history) (hpass' : s'.passed = true → h.returned = none) :
    HistInv cfg (evs ++ [.waited h]) s' := by
  have hquiet := hinv.passed hpass
  have hmono : minAck cfg evs ≤ minAck cfg (evs ++ [.waited h]) :=
    minAck_le_append_waited (by omega)
  have hmin := hinv.minComing_eq hupd ha.minComing
  have hspans := hinv.spans_update htrace' hlt hlast hupd ha hmono
  have hordered := hinv.queue_ordered htrace' hquiet
  have hfailed : Unreported (evs ++ [.waited h]) →
      (popCheckable a.history.spans minComingTs (s.history.queue ++ [h.entry])).failed = none := by
    intro hp'
    have hnone := hp' h (by simp)
    rw [hret, ha.returned, Option.map_eq_none_iff] at hnone
    exact hnone
  have hnew : ∀ p ∈ h.checks, p.1 ∈ entries (evs ++ [.waited h])
      ∧ p.1.tsResp < minAck cfg (evs ++ [.waited h])
      ∧ (p.2 = true ↔ Justified cfg (evs ++ [.waited h]) p.1) := by
    intro p hp
    rw [hchecks, ha.checks] at hp
    obtain ⟨hmem, hbound, hverdict⟩ := popCheckable_checks _ _ _ p hp
    refine ⟨?_, hmin ▸ hbound, ?_⟩
    · rw [entries_append_waited]
      refine List.mem_append.mpr ((List.mem_append.mp hmem).imp_left fun hm => ?_)
      rw [hinv.queue hquiet] at hm
      exact (List.mem_filter.mp hm).1
    · rw [hverdict]
      exact hspans.checkCall_iff hmem
  refine ⟨?_, ?_, ?_, ?_, ?_, ?_, ?_⟩
  · rw [hhist, ha.maxtr, ← map_lastAck_set hupd, ← hinv.maxtr]
  · rw [hhist]
    refine hspans.mono le_rfl fun e he => Or.inl ?_
    rw [ha.queue] at he
    exact (popCheckable_queue _ _ _).subset he
  · intro hp'
    rw [hhist, ha.queue, (popCheckable_of_passed hordered (hfailed hp')).2, entries_append_waited,
      hinv.queue hquiet, List.filter_append, List.filter_append, hmin, filter_le_filter_le _ hmono]
  · intro hp'
    rw [checksOf_append_waited, hinv.checks hquiet, hchecks, ha.checks,
      (popCheckable_of_passed hordered (hfailed hp')).1, ← List.map_append, hmin,
      hinv.queue hquiet, entries_append_waited, List.filter_append, List.filter_append,
      ← List.append_assoc, filter_lt_append_filter_lt htrace.entries_ordered hmono]
  · rw [checksOf_append_waited]
    exact List.forall_mem_append.mpr ⟨hinv.verdicts_append htrace hlt hspan hlast, hnew⟩
  · refine forall_harvests_waited.mpr ⟨hinv.returned, ?_⟩
    rw [hret, hchecks, ha.checks, ← popCheckable_failed, ha.returned]
    simp
  · exact fun hp' => forall_harvests_waited.mpr ⟨hinv.passed hpass, hpass' hp'⟩

end Update

lemma HistInv.waited {h : Harvest} {rest : List KvCall}
    {updateInfo : Option (String × Option String)} {a : Applied} (hinv : HistInv cfg evs s)
    (hloop : LoopInv cfg evs s) (htrace' : TraceInv cfg (evs ++ [.waited h]))
    (hpass : s.passed = true) (hh : Harvested cfg s h rest updateInfo a s') :
    HistInv cfg (evs ++ [.waited h]) s' := by
  have hlt : h.cidx < cfg.numClis := hloop.lt_numClis hh.flying
  have hout := hh.outstanding hloop hpass
  have hlast := hout.lastAck_lt hloop.toTraceInv
  have hupdate := hh.update
  have hhist : s'.history = a.history := by rw [hh.state]
  have hpass' : s'.passed = true → h.returned = none := by
    rw [hh.state]
    intro hp
    by_contra hne
    simp [hne] at hp
  rw [hout.memo] at hupdate
  cases hinfo : h.call.updateInfo with
  | none =>
      rw [hinfo] at hupdate
      obtain rfl := Except.ok.inj hupdate
      exact hinv.waited_read hloop.toTraceInv hpass hlt hh.span hlast hinfo hh.returned hh.checks
        hhist
  | some p =>
      obtain ⟨key, value⟩ := p
      rw [hinfo] at hupdate
      rcases applyUpdate_cases hupdate with ⟨hnot, -⟩ | ⟨keySpans, minComingTs, hrec⟩
      · have hpool := hloop.toTraceInv.key_mem_pool hout.called hinfo
        exact absurd ((hinv.spans.dom key).mpr hpool) hnot
      · exact hinv.waited_update hloop.toTraceInv htrace' hpass hlt hh.span hlast hinfo hrec
          hh.returned hh.checks hhist hpass'

/-- One iteration keeps the invariant. -/
lemma HistInv.step {ev : Event} (hinv : HistInv cfg evs s) (hloop : LoopInv cfg evs s)
    (hstep : FuzzStep cfg s ev s') : HistInv cfg (evs ++ [ev]) s' := by
  have hloop' := hloop.step hstep
  obtain ⟨⟨-, hpass⟩, hcase⟩ := hstep.cases
  cases hcase with
  | called hh =>
      exact hinv.frame (harvests_called _ _ _ _) (by rw [hh.state]) fun _ => hpass
  | stopped hh =>
      obtain ⟨rest, hstate⟩ := hh.state
      exact hinv.frame (harvests_stopped _ _ _) (by rw [hstate]) fun _ => hpass
  | waited hh => exact hinv.waited hloop hloop'.toTraceInv hpass hh

end Step

/-- The checker's invariant holds at the top of every iteration. -/
theorem FuzzRun.histInv {cfg : FuzzConfig} {evs : List Event} {s : FuzzState}
    (h : FuzzRun cfg evs s) : HistInv cfg evs s :=
  h.invariant (HistInv.init cfg) fun _ _ _ _ hpre hinv hstep =>
    hinv.step (FuzzRun.loopInv hpre) hstep

end Madkv
