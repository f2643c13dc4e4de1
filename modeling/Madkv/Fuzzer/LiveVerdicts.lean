import Madkv.Fuzzer.FalseAlarms
import Madkv.Fuzzer.LiveProgress
import Madkv.Fuzzer.SingleClient

/-!
What the fuzzer reports of reference clients, any number of them, each with its own map.

* `ownMap`: the map of a client at one of its calls.
* `TraceInv.vouched_own`: the complete history always vouches for it, whatever the other
  clients write.
* `EndExcused`: a Scan that leaves out the key it ends on passes if some history tells
  this key absent.
* `live_unreported_iff`: nothing is reported exactly if all Scans checked are excused.
-/

namespace Madkv

open Execution Intervals Refcli

/-- The map that a client's own calls leave before one of them. -/
def ownMap (evs : List Event) (g : Harvest) : KvMap :=
  KvMap.afterAll (((harvests evs).filter fun h => h.cidx = g.cidx ∧ h.tsResp < g.tsCall).map
    Harvest.call)

/-- A Scan that ends on a key which is present can pass without it. -/
def EndExcused (m : KvMap) (vouched : String → (Option String → Prop) → Prop) : KvCall → Prop
  | .scan _ keyEnd => m keyEnd ≠ none → vouched keyEnd (· = none)
  | _ => True

/-! ### A client's own history -/

section Own

variable {cfg : FuzzConfig} {evs : List Event} {g : Harvest} {pre post : List Harvest}

/-- The responses of a client before and after one do not overlap it. -/
lemma TraceInv.own_spans (hinv : TraceInv cfg evs)
    (hsplit : harvestsBy evs g.cidx = pre ++ g :: post) :
    (∀ h ∈ pre, h.tsResp < g.tsCall) ∧ ∀ h ∈ post, g.tsResp < h.tsCall := by
  have hcidx : ∀ h ∈ harvestsBy evs g.cidx, h.cidx = g.cidx := fun h hh =>
    of_decide_eq_true (List.mem_filter.mp hh).2
  have hseq : (harvestsBy evs g.cidx).Pairwise fun a b => a.tsResp < b.tsCall := by
    refine (hinv.sequential.filter _).imp_of_mem fun {a b} ha hb hab => hab ?_
    rw [hcidx a ha, hcidx b hb]
  rw [hsplit] at hseq
  obtain ⟨-, htail, hcross⟩ := List.pairwise_append.mp hseq
  exact ⟨fun h hh => hcross h hh g List.mem_cons_self, (List.pairwise_cons.mp htail).1⟩

lemma TraceInv.ownMap_eq (hinv : TraceInv cfg evs)
    (hsplit : harvestsBy evs g.cidx = pre ++ g :: post) :
    ownMap evs g = KvMap.afterAll (pre.map Harvest.call) := by
  obtain ⟨hpre, hpost⟩ := hinv.own_spans hsplit
  have hmem : ∀ h ∈ pre ++ g :: post, h ∈ harvests evs := fun h hh =>
    (List.mem_filter.mp (by rw [← hsplit] at hh; exact hh)).1
  have hspan := hinv.span g (hmem g (by simp))
  have hfilter : ((harvests evs).filter fun h => h.cidx = g.cidx ∧ h.tsResp < g.tsCall)
      = (harvestsBy evs g.cidx).filter fun h => h.tsResp < g.tsCall := by
    rw [harvestsBy, List.filter_filter]
    refine List.filter_congr fun h _ => ?_
    rw [Bool.decide_and, Bool.and_comm]
  have hnone : (g :: post).filter (fun h => decide (h.tsResp < g.tsCall)) = [] := by
    refine List.filter_eq_nil_iff.mpr fun h hh => ?_
    rcases List.mem_cons.mp hh with rfl | hh
    · simpa using hspan.le
    · have hlater := hpost h hh
      have := hinv.span h (hmem h (by simp [hh]))
      simp only [decide_eq_true_eq]
      omega
  rw [ownMap, hfilter, hsplit, List.filter_append, hnone, List.append_nil,
    List.filter_eq_self.mpr fun h hh => decide_eq_true (hpre h hh)]

/-- A client's own updates vouch for its map. -/
lemma TraceInv.vouched_own (hinv : TraceInv cfg evs) (hg : g ∈ harvests evs) (key : String)
    (ok : Option String → Prop) (hok : ok (ownMap evs g key)) :
    Vouched cfg evs g.tsCall g.tsResp key ok := by
  obtain ⟨pre, post, hsplit⟩ :=
    List.append_of_mem (show g ∈ harvestsBy evs g.cidx from List.mem_filter.mpr ⟨hg, by simp⟩)
  obtain ⟨hpre, hpost⟩ := hinv.own_spans hsplit
  obtain ⟨early, u, hearly, hvalue⟩ := exists_last_update pre key
  have hspan := hinv.span g hg
  have hmem : ∀ h ∈ harvestsBy evs g.cidx, h ∈ harvests evs := fun h hh => (List.mem_filter.mp hh).1
  have hby : updatesBy evs g.cidx key = (harvestsBy evs g.cidx).filterMap (·.updateOn key) := by
    rw [updatesBy, harvestsBy, List.filterMap_filter]
    refine List.filterMap_congr fun h _ => ?_
    by_cases hj : h.cidx = g.cidx <;> simp [hj]
  have hseq : updateSeq evs g.cidx key
      = early ++ u :: (g :: post).filterMap (·.updateOn key) := by
    rw [updateSeq, hby, hsplit, List.filterMap_append, ← List.cons_append, hearly,
      List.append_assoc, List.singleton_append]
  have hu : u.tsCall < g.tsResp := by
    have hmemu : u ∈ UpdateSpan.dummy :: pre.filterMap (·.updateOn key) := by
      rw [hearly]
      simp
    rcases List.mem_cons.mp hmemu with rfl | hmemu
    · show 0 < g.tsResp
      omega
    · obtain ⟨h, hh, hupd⟩ := List.mem_filterMap.mp hmemu
      obtain ⟨_, -, rfl⟩ := Harvest.updateOn_eq_some.mp hupd
      have hbefore := hpre h hh
      have := hinv.span h (hmem h (by rw [hsplit]; simp [hh]))
      show h.tsCall < g.tsResp
      omega
  refine ⟨g.cidx, hinv.cidx _ (mem_harvests.mp hg), early, u, _, hseq, hu, ?_, fun w hw hlt => ?_⟩
  · show ok u.value
    rw [hvalue]
    rwa [hinv.ownMap_eq hsplit] at hok
  · -- the update is the response itself, or a later one
    obtain ⟨h, hh, hupd⟩ := List.mem_filterMap.mp hw
    obtain ⟨_, -, rfl⟩ := Harvest.updateOn_eq_some.mp hupd
    have hresp : h.tsResp < g.tsCall := hlt
    rcases List.mem_cons.mp hh with rfl | hh
    · omega
    · have hlater := hpost h hh
      have := hinv.span h (hmem h (by rw [hsplit]; simp [hh]))
      omega

end Own

/-! ### Half-open answers -/

/-- An answer on a map that is vouched for holds, but for the end of a Scan. -/
lemma respHolds_halfOpen_iff {vouched : String → (Option String → Prop) → Prop}
    {keys : List String} {m : KvMap} {call : KvCall} {resp : KvResp}
    (hhalf : HalfOpenAnswers m call resp) (hgen : GeneratedFrom keys call)
    (hvouched : ∀ k (ok : Option String → Prop), ok (m k) → vouched k ok) :
    RespHolds (· ∈ keys) vouched resp ↔ EndExcused m vouched call := by
  cases hgen with
  | put value hk =>
      exact iff_of_true (respHolds_of_answers hhalf (.put value hk) hvouched) trivial
  | swap value hk =>
      exact iff_of_true (respHolds_of_answers hhalf (.swap value hk) hvouched) trivial
  | get hk => exact iff_of_true (respHolds_of_answers hhalf (.get hk) hvouched) trivial
  | delete hk => exact iff_of_true (respHolds_of_answers hhalf (.delete hk) hvouched) trivial
  | @scan keyStart keyEnd hs he hle =>
      cases resp <;> try exact hhalf.elim
      rename_i keyStart' keyEnd' entries
      obtain ⟨rfl, rfl, hnodup, hiff⟩ := hhalf
      have hbefore : ∀ k, keyStart' ≤ k → k < keyEnd' → entries.lookup k = m k := by
        intro k hks hke
        refine Option.ext fun v => ?_
        rw [← mem_iff_lookup hnodup, hiff]
        exact ⟨fun h => h.2.2, fun h => ⟨hks, hke, h⟩⟩
      have hend : entries.lookup keyEnd' = none := by
        refine Option.eq_none_iff_forall_ne_some.mpr fun v hv => ?_
        exact lt_irrefl _ ((hiff keyEnd' v).mp ((mem_iff_lookup hnodup).mpr hv)).2.1
      constructor
      · rintro ⟨-, -, hall⟩ -
        have hvouch := hall keyEnd' he hle le_rfl
        rwa [hend] at hvouch
      · intro hexcused
        refine ⟨hnodup, fun p hp => ?_, fun k hk hks hke => ?_⟩
        · obtain ⟨hps, hpe, -⟩ := (hiff p.1 p.2).mp hp
          exact ⟨hps, hpe.le⟩
        · rcases hke.lt_or_eq with hlt | rfl
          · exact hvouched k _ (hbefore k hks hlt).symm
          · rw [hend]
            by_cases hnone : m k = none
            · exact hvouched k _ hnone
            · exact hexcused hnone

/-! ### The verdict -/

section Verdict

variable {cfg : FuzzConfig} {es : List LiveEvent} {l : LiveFuzz Process} {g : Harvest}

/-- What a reference client answered, on its own map. -/
lemma LiveRun.answers_ownMap (h : LiveRun program cfg es l) (hclean : CleanCalls es)
    (hg : g ∈ harvests (fuzzOf es)) : HalfOpenAnswers (ownMap (fuzzOf es) g) g.call g.resp := by
  obtain ⟨pre, post, hsplit⟩ := List.append_of_mem
    (show g ∈ harvestsBy (fuzzOf es) g.cidx from List.mem_filter.mpr ⟨hg, by simp⟩)
  rw [h.fuzzRun.loopInv.ownMap_eq hsplit]
  exact h.answers hclean hsplit

lemma LiveRun.justified_iff (h : LiveRun program cfg es l) (hclean : CleanCalls es)
    (hg : g ∈ harvests (fuzzOf es)) : Justified cfg (fuzzOf es) g.entry ↔
      EndExcused (ownMap (fuzzOf es) g) (Vouched cfg (fuzzOf es) g.tsCall g.tsResp) g.call :=
  have hinv := h.fuzzRun.loopInv.toTraceInv
  respHolds_halfOpen_iff (h.answers_ownMap hclean hg) (hinv.generated_pool (hinv.call g hg))
    (hinv.vouched_own hg)

/-- Nothing is reported where the Scans are excused. -/
lemma LiveRun.unreported (h : LiveRun program cfg es l) (hclean : CleanCalls es)
    (hexcused : ∀ g ∈ harvests (fuzzOf es), g.tsResp < minAck cfg (fuzzOf es) →
      EndExcused (ownMap (fuzzOf es) g) (Vouched cfg (fuzzOf es) g.tsCall g.tsResp) g.call) :
    Unreported (fuzzOf es) := by
  have hhist := h.fuzzRun.histInv
  intro g hg
  rw [(hhist.returned g hg).2]
  intro p hp
  obtain ⟨hmem, hmin, hverdict⟩ := hhist.verdicts p (List.mem_flatMap.mpr ⟨g, hg, hp⟩)
  obtain ⟨e, he, heq⟩ := mem_entries.mp hmem
  rw [hverdict]
  rw [← heq] at hmin ⊢
  exact (h.justified_iff hclean he).mpr (hexcused e he hmin)

/-- The calls of a round of Gets. -/
lemma LiveRun.get_of_gets (h : LiveRun program cfg es l) (hes : ∀ e ∈ es, e.Gets)
    (hg : g ∈ harvests (fuzzOf es)) : ∃ key, g.call = .get key := by
  obtain ⟨le, hle, heq⟩ := List.mem_filterMap.mp (h.fuzzRun.loopInv.call g hg)
  cases le with
  | fails cidx e | inner cidx e => cases heq
  | iter ev =>
      cases heq
      exact hes _ hle

end Verdict

/-- **Reference clients under the fuzzer**: any number of them, each with its own map, on
any schedule of the loop, the drivers and the processes. The fuzzer reports nothing iff
each Scan that it checked, if it left out the key it ends on, has a history that tells
this key absent. -/
theorem live_unreported_iff (cfg : FuzzConfig) (es : List LiveEvent) (l : LiveFuzz Process)
    (h : LiveRun program cfg es l) (hclean : CleanCalls es) :
    Unreported (fuzzOf es) ↔ ∀ g ∈ harvests (fuzzOf es), g.tsResp < minAck cfg (fuzzOf es) →
      EndExcused (ownMap (fuzzOf es) g) (Vouched cfg (fuzzOf es) g.tsCall g.tsResp) g.call := by
  have hhist := h.fuzzRun.histInv
  refine ⟨fun hquiet g hg hmin => ?_, h.unreported hclean⟩
  have hcheck : (g.entry, true) ∈ checksOf (fuzzOf es) := by
    rw [hhist.checks hquiet]
    refine List.mem_map.mpr ⟨g.entry, List.mem_filter.mpr ⟨?_, ?_⟩, rfl⟩
    · exact mem_entries.mpr ⟨g, hg, rfl⟩
    · exact decide_eq_true hmin
  exact (h.justified_iff hclean hg).mp ((hhist.verdicts _ hcheck).2.2.mp rfl)

/-- A round of Gets, to its end. -/
lemma exists_getsRound : ∃ es l,
    LiveRun program (oneArgs.config checked_oneArgs fun _ _ => "aaaaaaaa") es l ∧ CleanCalls es
      ∧ l.fuzz.passed = true ∧ l.fuzz.opsWaited = oneArgs.numOps * oneArgs.numClis := by
  have hstart : LiveRun program (oneArgs.config checked_oneArgs fun _ _ => "aaaaaaaa") [] _ := .nil
  have hacc := hstart.acc checked_oneArgs randString_unused fun e he => absurd he List.not_mem_nil
  obtain ⟨es, l, hrun, hes, hrest⟩ := exists_atRest (Subrelation.accessible
    (fun hlead => Leads.mono (L := LiveEvent.Gets) hlead fun e he => he.drawn) hacc)
  replace hrun : LiveRun program (oneArgs.config checked_oneArgs fun _ _ => "aaaaaaaa") es l := hrun
  have hclean := cleanCalls_of_drawn checked_oneArgs randString_unused hrun fun e he =>
    (hes e he).drawn
  have hquiet : Unreported (fuzzOf es) := hrun.unreported hclean fun g hg _ => by
    obtain ⟨key, hkey⟩ := hrun.get_of_gets hes hg
    rw [hkey]
    trivial
  have hpass := (hrun.passed_iff hclean).mpr hquiet
  have herr : l.err = none := by
    rw [Option.eq_none_iff_forall_ne_some]
    intro err hfailed
    obtain ⟨-, cidx, hmem⟩ := hrun.err_eq hclean hfailed
    exact hes _ hmem
  refine ⟨es, l, hrun, hclean, hpass, ?_⟩
  have hge : ¬ l.fuzz.opsWaited < oneArgs.numOps * oneArgs.numClis := fun hlt => by
    obtain ⟨e, l', he, hstep⟩ := hrun.exists_step hclean (by decide) (by decide) herr ⟨hlt, hpass⟩
    exact hrest e l' he hstep
  have hcount := hrun.fuzzRun.loopInv.flying_count hpass
  have hle : l.fuzz.opsCalled ≤ oneArgs.numOps * oneArgs.numClis := hrun.fuzzRun.loopInv.called_le
  omega

theorem live_unreported_iff_gets : ∃ es l,
    LiveRun program (oneArgs.config checked_oneArgs fun _ _ => "aaaaaaaa") es l
      ∧ l.fuzz.opsWaited = 1000 * 1
      ∧ (Unreported (fuzzOf es) ↔ ∀ g ∈ harvests (fuzzOf es),
        g.tsResp < minAck (oneArgs.config checked_oneArgs fun _ _ => "aaaaaaaa") (fuzzOf es) →
          EndExcused (ownMap (fuzzOf es) g)
            (Vouched (oneArgs.config checked_oneArgs fun _ _ => "aaaaaaaa") (fuzzOf es) g.tsCall
              g.tsResp) g.call) := by
  obtain ⟨es, l, hrun, hclean, -, hdone⟩ := exists_getsRound
  exact ⟨es, l, hrun, hdone, live_unreported_iff _ es l hrun hclean⟩

/-! ### Stopping the clients -/

/-- After a round that passed, each client has answered all of its calls. -/
lemma LiveRun.length_received {cfg : FuzzConfig} {es : List LiveEvent} {l : LiveFuzz Process}
    {j : ℕ} {c : Runner.ClientProc Process} (h : LiveRun program cfg es l) (hclean : CleanCalls es)
    (hpass : l.fuzz.passed = true) (hdone : l.fuzz.opsWaited = cfg.totalOps)
    (hc : l.procs[j]? = some c) :
    (Runner.receivedOf (procOf j es)).length = (Runner.sentOf (procOf j es)).length := by
  have hlt : j < cfg.numClis := by
    rw [← h.procs_length]
    exact (List.getElem?_eq_some_iff.mp hc).1
  have hinv := h.clientInv (h.not_stopped hclean) hlt
  obtain ⟨client, hclient, hsent⟩ := hinv.sent
  have hidle : client.unanswered = [] := by
    have hloop := h.fuzzRun.loopInv
    cases hloop.slots hpass j hlt with
    | idle _ hproc _ =>
        rw [hclient] at hproc
        rw [Option.some.inj hproc]
    | busy _ _ hflying _ _ _ _ _ =>
        have hfalse := (hloop.answered hpass hdone).1 _ (List.mem_of_getElem? hflying)
        cases hfalse
  rw [hsent, hinv.received, hidle, List.append_nil, List.length_map, List.length_map]

/-- **After a round that passed** every client can be stopped: `stop` sends its Stop, the
driver and the process come to rest, and a response comes, with which it returns `Ok`. -/
theorem live_stops (cfg : FuzzConfig) (es : List LiveEvent) (l : LiveFuzz Process)
    (h : LiveRun program cfg es l) (hclean : CleanCalls es) (hpass : l.fuzz.passed = true)
    (hdone : l.fuzz.opsWaited = cfg.totalOps) (j : ℕ) (c : Runner.ClientProc Process)
    (hc : l.procs[j]? = some c) :
    (∃ c₁, Runner.Step program c (.stop (.ok ())) c₁)
      ∧ ∀ c₁ es' c', Runner.Step program c (.stop (.ok ())) c₁ →
        Exec (Runner.Step program) c₁ es' c' → (∀ e ∈ es', e.Internal) →
        (∀ late resp c'', c'.waitResp late = some (.ok resp, c'') →
          Runner.ClientProc.stopResult (.ok resp) = .ok ())
        ∧ Acc (fun c' c => Leads (Runner.Step program) Runner.Event.Internal c c') c'
        ∧ (AtRest (Runner.Step program) Runner.Event.Advances c' →
          ∃ resp c'', c'.waitResp false = some (.ok resp, c'')) := by
  have howner := h.owner hc
  refine ⟨⟨_, Runner.step_stop howner (h.alive hclean hc)⟩, ?_⟩
  intro c₁ es' c' hstop hrun hes'
  obtain ⟨hsession, hcleanSent⟩ := h.session hclean hc
  -- the session goes on with the Stop
  have hwhole : Runner.ProcRun program ((procOf j es ++ [.stop (.ok ())]) ++ es') c' :=
    exec_append ((h.procRun hc).snoc hstop) hrun
  obtain ⟨hsentAll, hreceivedAll⟩ := @internal_events (procOf j es ++ [.stop (.ok ())]) es' hes'
  rw [Runner.sentOf_concat] at hsentAll
  rw [Runner.receivedOf_concat] at hreceivedAll
  simp only [Runner.Event.sent, Option.toList_some] at hsentAll
  simp only [Runner.Event.received, Option.toList_none, List.append_nil] at hreceivedAll
  have hcleanAll : ∀ call ∈ Runner.sentOf ((procOf j es ++ [.stop (.ok ())]) ++ es'),
      call.Clean := by
    intro call hcall
    rw [hsentAll] at hcall
    rcases List.mem_append.mp hcall with hcall | hcall
    · exact hcleanSent call hcall
    · rw [List.mem_singleton.mp hcall]
      trivial
  have hfirst : Runner.receivedOf ((procOf j es ++ [.stop (.ok ())]) ++ es')
      <+: respond (Runner.sentOf (procOf j es)) := by
    rw [hreceivedAll]
    exact hsession.received hcleanSent
  have hstopping : c'.owner = .stopping := by
    rw [internal_owner hrun hes']
    cases hstop
    rfl
  refine ⟨fun late resp c'' hwait => ?_, ?_, fun hrest => ?_⟩
  · rw [stopResult_iff hwhole hcleanAll hsentAll hfirst h.stop_notMem h.inOrderScans hwait,
      hreceivedAll, h.length_received hclean hpass hdone hc]
  · obtain ⟨hreplied, hrespond⟩ := respond_concat_stop (h.stop_notMem (j := j)) h.inOrderScans
    refine internal_acc hwhole hcleanAll (by rw [hstopping]; decide) ?_
    rw [hsentAll, hrespond, List.length_append, List.length_append, hreplied]
    rfl
  · exact exists_stopResp hwhole hcleanAll hsentAll hfirst h.stop_notMem h.inOrderScans hstopping
      hrest

theorem live_stops_gets : ∃ (l : LiveFuzz Process) (c : Runner.ClientProc Process),
    l.procs[0]? = some c ∧ (∃ c₁, Runner.Step program c (.stop (.ok ())) c₁)
      ∧ ∀ c₁ es' c', Runner.Step program c (.stop (.ok ())) c₁ →
        Exec (Runner.Step program) c₁ es' c' → (∀ e ∈ es', e.Internal) →
        (∀ late resp c'', c'.waitResp late = some (.ok resp, c'') →
          Runner.ClientProc.stopResult (.ok resp) = .ok ())
        ∧ Acc (fun c' c => Leads (Runner.Step program) Runner.Event.Internal c c') c'
        ∧ (AtRest (Runner.Step program) Runner.Event.Advances c' →
          ∃ resp c'', c'.waitResp false = some (.ok resp, c'')) := by
  obtain ⟨es, l, hrun, hclean, hpass, hdone⟩ := exists_getsRound
  have hlt : 0 < l.procs.length := by
    rw [hrun.procs_length]
    exact Nat.one_pos
  have hc := List.getElem?_eq_getElem hlt
  exact ⟨l, _, hc, live_stops _ es l hrun hclean hpass hdone 0 _ hc⟩

end Madkv
