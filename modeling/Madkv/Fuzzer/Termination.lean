import Mathlib.Tactic.NormNum
import Madkv.Fuzzer.Verdicts

/-!
The fuzz loop runs to its end.

* `Draws.Settle`: the draws of an iteration name a client of the status looked
  for, and the client's channels do not fail.
* `fuzzIter_abortsOnly`: an iteration panics for no draws, and aborts only for
  draws that do not settle it.
* `TopOfLoop`: what holds at the top of each iteration. The loop ends after two
  iterations for each operation, with every call answered.
* `fuzzRun_topOfLoop`: it does for configurations whose clock fits in 64 bits.
-/

namespace Madkv

open Intervals Fallible

/-- The draws name a client of the status looked for, and the client's channels
do not fail. -/
structure Draws.Settle (d : Draws) (cfg : FuzzConfig) (s : FuzzState) : Prop where
  client : ∃ draw ∈ d.cidxs, s.flying[draw % s.flying.length]? =
    some (!genCallVsWait s.opsCalled cfg.totalOps s.flying d.coin)
  send : d.send = .ok ()
  resp : ∃ resp, d.resp = .ok resp

/-- The ways in which an iteration may abort: not by a panic, and not for draws
that settle it. -/
def Unsettled (cfg : FuzzConfig) (s : FuzzState) (d : Draws) (a : Abort) : Prop :=
  (∀ p, a ≠ .panic p) ∧ ¬ d.Settle cfg s

variable {cfg : FuzzConfig} {evs : List Event} {s : FuzzState} {d : Draws}

/-! ### The client drawn -/

lemma genRandClient_abortsOnly {flying : List Bool} {want : Bool} {draws : List ℕ}
    (hwant : want ∈ flying) :
    AbortsOnly (fun a => a = .retrying ∧ ∀ draw ∈ draws, flying[draw % flying.length]? ≠ some want)
      (genRandClient flying want draws) := by
  have hpos : 0 < flying.length := List.length_pos_of_mem hwant
  have hall : (want || !flying.all id) = true := by
    cases want with
    | true => rfl
    | false => simpa using hwant
  have hany : (!want || flying.any id) = true := by
    cases want with
    | true => simpa using hwant
    | false => rfl
  rw [genRandClient, debugAssert_of_true _ hall, debugAssert_of_true _ hany]
  exact fun a ha => retryClient_eq_error hpos ha

/-- A client of the status looked for exists in every iteration. -/
lemma LoopInv.wanted (hinv : LoopInv cfg evs s) (hrun : s.Running cfg) (coin : Bool) :
    (!genCallVsWait s.opsCalled cfg.totalOps s.flying coin) ∈ s.flying := by
  have hcount := hinv.flying_count hrun.2
  have hpos : 0 < s.flying.length := by
    rw [hinv.flying_length]
    exact cfg.numClis_pos
  obtain ⟨b, hb⟩ : ∃ b, b ∈ s.flying := List.exists_mem_of_length_pos hpos
  have hmem : true ∈ s.flying ∨ false ∈ s.flying := by cases b <;> simp [hb]
  rw [genCallVsWait]
  split_ifs with hwait hnone
  · -- forced to wait: all are called but not all answered, or all are flying
    rcases hwait with hcalled | hall
    · have : 0 < s.flying.count true := by
        have := hrun.1
        omega
      simpa using List.count_pos_iff.mp this
    · have hnot : false ∉ s.flying := fun h => by simpa using List.all_eq_true.mp hall _ h
      simpa using hmem.resolve_right hnot
  · -- forced to call: none is flying
    have hnot : true ∉ s.flying := by simpa using hnone
    simpa using hmem.resolve_left hnot
  · cases coin with
    | true =>
        have hall : ¬ s.flying.all id = true := fun h => hwait (Or.inr h)
        simpa using hall
    | false => simpa using hnone

/-- The loop of `gen_rand_client` goes on only while the draws do not settle the
iteration. -/
lemma LoopInv.client_abortsOnly (hinv : LoopInv cfg evs s) (hrun : s.Running cfg) {want : Bool}
    (hwant : genCallVsWait s.opsCalled cfg.totalOps s.flying d.coin = !want) :
    AbortsOnly (Unsettled cfg s d) (genRandClient s.flying want d.cidxs) := by
  have hmem := hinv.wanted hrun d.coin
  rw [hwant, Bool.not_not] at hmem
  intro a ha
  obtain ⟨rfl, hall⟩ := genRandClient_abortsOnly hmem a ha
  refine ⟨fun p h => (by cases h), fun hsettle => ?_⟩
  obtain ⟨draw, hdraw, heq⟩ := hsettle.client
  rw [hwant, Bool.not_not] at heq
  exact hall draw hdraw heq

/-! ### A call -/

lemma LoopInv.makeCall_abortsOnly (hinv : LoopInv cfg evs s) (hrun : s.Running cfg)
    (hcall : genCallVsWait s.opsCalled cfg.totalOps s.flying d.coin = true) :
    AbortsOnly (Unsettled cfg s d) (makeCall cfg { s with timestamp := s.timestamp + 1 } d) := by
  rw [makeCall]
  refine (hinv.client_abortsOnly hrun hcall).bind fun cidx hcidx => ?_
  have hlt : cidx < cfg.numClis := hinv.lt_numClis (genRandClient_eq_ok hcidx)
  have hkeys : cidx < cfg.keys.length := by rwa [cfg.keys_length]
  refine (abortsOnly_ok (index_of_lt hkeys)).bind fun cliKeys hcliKeys => ?_
  have hkeys' := index_eq_ok.mp hcliKeys
  have hne : cliKeys ≠ [] := cfg.keys_ne_nil _ (List.mem_of_getElem? hkeys')
  have hfreq : (s.stats.keysFreq.map List.length)[cidx]? = some cliKeys.length := by
    rw [hinv.freq_lengths, List.getElem?_map, hkeys']
    rfl
  obtain ⟨r, hr⟩ := exists_genRandKvcall d hne hfreq
  refine (abortsOnly_ok hr).bind fun r _ => ?_
  have hclients : cidx < s.clients.length := by rwa [hinv.clients_length]
  refine (abortsOnly_ok (index_of_lt hclients)).bind fun client _ => ?_
  refine AbortsOnly.bind ?_ fun client' _ => abortsOnly_ok rfl
  -- the only thing left that can fail is the channel
  intro a ha
  cases hsend : d.send with
  | ok u =>
      rw [hsend] at ha
      cases ha
  | error e =>
      rw [hsend] at ha
      cases ha
      refine ⟨fun p h => (by cases h), fun hsettle => ?_⟩
      rw [hsettle.send] at hsend
      cases hsend

/-! ### A harvest -/

/-- The updates recorded for a client were over before its outstanding call. -/
lemma HistInv.tsResp_lt_of_outstanding (hhist : HistInv cfg evs s) (hinv : TraceInv cfg evs)
    {h : Harvest} {rest : List KvCall} {updateInfo : Option (String × Option String)}
    (hout : Outstanding evs h rest updateInfo) {key : String} {keySpans : KeySpans}
    (hlookup : s.history.spans.lookup key = some keySpans) {cliSpans : List UpdateSpan}
    (hspans : keySpans[h.cidx]? = some cliSpans) {u : UpdateSpan} (hu : u ∈ cliSpans) :
    u.tsResp < h.tsCall := by
  have htrimmed := hhist.spans.trimmed key keySpans hlookup h.cidx cliSpans hspans
  rcases List.mem_cons.mp (htrimmed.mem hu) with rfl | hu
  · exact (hinv.ts_le hout.called).1
  · obtain ⟨h', hh', hj, hupd⟩ := mem_updatesBy.mp hu
    obtain ⟨_, -, rfl⟩ := Harvest.updateOn_eq_some.mp hupd
    exact hout.last h' hh' hj

/-- The update of a call outstanding is applied without a failing assertion. -/
lemma HistInv.exists_applyMemo (hhist : HistInv cfg evs s) (hinv : TraceInv cfg evs)
    (queue : List QueuedSpan) {h : Harvest} {rest : List KvCall}
    {updateInfo : Option (String × Option String)} (hlt : h.cidx < cfg.numClis)
    (hout : Outstanding evs h rest updateInfo) :
    ∃ a, applyMemo { s.history with queue } h.cidx h.tsCall h.tsResp updateInfo = .ok a := by
  rw [hout.memo]
  cases hinfo : h.call.updateInfo with
  | none => exact ⟨_, rfl⟩
  | some p =>
      obtain ⟨key, value⟩ := p
      have hmem := (hhist.spans.dom key).mpr (hinv.key_mem_pool hout.called hinfo)
      obtain ⟨keySpans, hlookup⟩ := Option.isSome_iff_exists.mp (AList.lookup_isSome.mpr hmem)
      have hmaxtr : h.cidx < s.history.maxtr.length := by
        rw [hhist.maxtr, List.length_map, List.length_range]
        exact hlt
      have hspans : h.cidx < keySpans.length := by
        rw [hhist.spans.length key keySpans hlookup]
        exact hlt
      have hgetD : keySpans.getD h.cidx [] = keySpans[h.cidx] := by
        rw [List.getD_eq_getElem?_getD, List.getElem?_eq_getElem hspans]
        rfl
      have hlast : ((keySpans.getD h.cidx []).getLast?.all
          fun u => decide (u.tsResp < h.tsCall)) = true := by
        rw [hgetD]
        cases hgetLast : keySpans[h.cidx].getLast? with
        | none => rfl
        | some u =>
            exact decide_eq_true (hhist.tsResp_lt_of_outstanding hinv hout hlookup
              (List.getElem?_eq_getElem hspans) (List.mem_of_getLast? hgetLast))
      obtain ⟨m, hm⟩ : ∃ m, (s.history.maxtr.set h.cidx h.tsResp).min? = some m := by
        rw [← Option.isSome_iff_exists, List.isSome_min?_iff]
        intro hnil
        rw [List.set_eq_nil_iff] at hnil
        rw [hnil] at hmaxtr
        exact absurd hmaxtr (Nat.not_lt_zero _)
      show ∃ a, History.applyUpdate { s.history with queue } h.cidx h.tsCall h.tsResp key value
        = .ok a
      rw [History.applyUpdate]
      simp only [hlookup]
      refine exists_bind_ok (debugAssert_of_true _ (decide_eq_true hmaxtr)) ?_
      refine exists_bind_ok (debugAssert_of_true _ (decide_eq_true hspans)) ?_
      refine exists_bind_ok (debugAssert_of_true _ hlast) ?_
      exact exists_bind_ok (unwrap_eq_ok.mpr hm) ⟨_, rfl⟩

/-- The response of an outstanding call passes the assertions of the queue. -/
lemma LoopInv.addToQueue_eq (hinv : LoopInv cfg evs s) (hhist : HistInv cfg evs s)
    (hpass : s.passed = true) {cidx t : ℕ} {call : KvCall} (hcalled : .called cidx t call ∈ evs)
    (resp : KvResp) :
    s.history.addToQueue t (s.timestamp + 1) resp = .ok
      { s.history with queue := s.history.queue ++ [⟨t, s.timestamp + 1, resp⟩] } := by
  have hspan : decide (t < s.timestamp + 1) = true := by
    refine decide_eq_true ?_
    rw [hinv.timestamp]
    exact Nat.lt_succ_of_le (hinv.ts_le hcalled).2
  have horder : (s.history.queue.getLast?.all
      fun e => decide (e.tsResp < s.timestamp + 1)) = true := by
    cases hgetLast : s.history.queue.getLast? with
    | none => rfl
    | some e =>
        have he := List.mem_of_getLast? hgetLast
        rw [hhist.queue (hhist.passed hpass)] at he
        obtain ⟨h, hh, rfl⟩ := mem_entries.mp (List.mem_filter.mp he).1
        refine decide_eq_true ?_
        rw [hinv.timestamp]
        exact Nat.lt_succ_of_le (hinv.tsResp_le hh)
  rw [History.addToQueue, debugAssert_of_true _ hspan, debugAssert_of_true _ horder]
  rfl

lemma LoopInv.harvest_abortsOnly (hinv : LoopInv cfg evs s) (hhist : HistInv cfg evs s)
    (hrun : s.Running cfg) (hops : 100 ≤ cfg.totalOps)
    (hwait : genCallVsWait s.opsCalled cfg.totalOps s.flying d.coin = false) :
    AbortsOnly (Unsettled cfg s d) (harvest cfg { s with timestamp := s.timestamp + 1 } d) := by
  rw [harvest]
  refine (hinv.client_abortsOnly hrun hwait).bind fun cidx hcidx => ?_
  have hflying := genRandClient_eq_ok hcidx
  have hlt : cidx < cfg.numClis := hinv.lt_numClis hflying
  cases hinv.slots hrun.2 cidx hlt with
  | idle hidle _ _ =>
      rw [hflying] at hidle
      cases hidle
  | busy t call _ hproc hmemo hcalled hlast hdone =>
      refine (abortsOnly_ok (index_eq_ok.mpr hproc)).bind fun client hclient => ?_
      obtain rfl : client = ⟨[call]⟩ := by
        rw [index_eq_ok.mpr hproc] at hclient
        exact (Except.ok.inj hclient).symm
      cases hresp : d.resp with
      | error e =>
          -- the channel fails
          intro a ha
          cases ha
          refine ⟨fun p h => (by cases h), fun hsettle => ?_⟩
          obtain ⟨resp, hok⟩ := hsettle.resp
          rw [hok] at hresp
          cases hresp
      | ok resp =>
          refine AbortsOnly.bind (abortsOnly_ok rfl) fun r hr => ?_
          obtain rfl := Except.ok.inj hr
          have hout : Outstanding evs ⟨cidx, call, t, s.timestamp + 1, resp, none, []⟩ []
              call.updateInfo := ⟨rfl, rfl, hcalled, hlast, hdone⟩
          by_cases hstop : resp = .stop
          · simp only [if_pos hstop]
            exact abortsOnly_ok rfl
          · simp only [if_neg hstop]
            refine (abortsOnly_ok (index_eq_ok.mpr hmemo)).bind fun memo hmemo' => ?_
            obtain rfl : memo = (t, call.updateInfo) := by
              rw [index_eq_ok.mpr hmemo] at hmemo'
              exact (Except.ok.inj hmemo').symm
            have hqueue := hinv.addToQueue_eq hhist hrun.2 hcalled resp
            refine (abortsOnly_ok hqueue).bind fun history hhistory => ?_
            obtain rfl := Except.ok.inj (hqueue.symm.trans hhistory)
            obtain ⟨applied, happlied⟩ := hhist.exists_applyMemo hinv.toTraceInv
              (s.history.queue ++ [⟨t, s.timestamp + 1, resp⟩]) hlt hout
            refine (abortsOnly_ok happlied).bind fun applied _ => ?_
            split_ifs
            · exact abortsOnly_ok rfl
            · have hmodulus : decide (cfg.totalOps / 100 ≠ 0) = true := by
                refine decide_eq_true ?_
                omega
              exact (abortsOnly_ok (debugAssert_of_true _ hmodulus)).bind fun _ _ =>
                abortsOnly_ok rfl

/-! ### The whole loop -/

/-- An iteration panics for no draws, and aborts only for draws that do not
settle it. -/
lemma FuzzRun.fuzzIter_abortsOnly (h : FuzzRun cfg evs s) (hrun : s.Running cfg)
    (hops : 100 ≤ cfg.totalOps) (hclock : 2 * cfg.totalOps ≤ u64Max) (d : Draws) :
    AbortsOnly (Unsettled cfg s d) (fuzzIter cfg s d) := by
  have hinv := h.loopInv
  have hts : decide (s.timestamp + 1 ≤ u64Max) = true := by
    refine decide_eq_true ?_
    have := hinv.clock_ops hrun.2
    have := hinv.called_le
    have := hrun.1
    omega
  rw [fuzzIter, debugAssert_of_true _ hts]
  show AbortsOnly _ (if genCallVsWait s.opsCalled cfg.totalOps s.flying d.coin = true then
    makeCall cfg { s with timestamp := s.timestamp + 1 } d
    else harvest cfg { s with timestamp := s.timestamp + 1 } d)
  split_ifs with hcall
  · exact hinv.makeCall_abortsOnly hrun hcall
  · exact hinv.harvest_abortsOnly h.histInv hrun hops (Bool.eq_false_iff.mpr hcall)

/-- What holds at the top of an iteration, or where the loop has ended. -/
structure TopOfLoop (cfg : FuzzConfig) (evs : List Event) (s : FuzzState) : Prop where
  flying_count : s.opsCalled = s.opsWaited + s.flying.count true
  called_le : s.opsCalled ≤ cfg.totalOps
  timestamp : s.timestamp = s.opsCalled + s.opsWaited
  /-- Some client has the status that `gen_rand_client` is asked for. -/
  wanted : s.Running cfg → ∀ coin,
    (!genCallVsWait s.opsCalled cfg.totalOps s.flying coin) ∈ s.flying
  modulus : cfg.totalOps / 100 ≠ 0
  noPanic : s.Running cfg → ∀ d p, fuzzIter cfg s d ≠ .error (.panic p)
  progress : s.Running cfg → ∀ d : Draws, d.Settle cfg s →
    ∃ s' ev, fuzzIter cfg s d = .ok (s', ev)
  /-- `apply_update` does not see a key outside the pool. -/
  expected : s.Running cfg → ∀ d s' h, fuzzIter cfg s d = .ok (s', .waited h) →
    h.returned ≠ some none
  length_le : evs.length ≤ 2 * cfg.totalOps
  ended : ¬ s.Running cfg ↔ evs.length = 2 * cfg.totalOps
  answered : ¬ s.Running cfg → s.opsWaited = cfg.totalOps ∧ (∀ b ∈ s.flying, b = false)
    ∧ ∀ j t call, .called j t call ∈ evs → Answered evs j t

/-- The loop ends with every call answered. -/
lemma LoopInv.answered (hinv : LoopInv cfg evs s) (hpass : s.passed = true)
    (hdone : s.opsWaited = cfg.totalOps) :
    (∀ b ∈ s.flying, b = false) ∧ ∀ j t call, .called j t call ∈ evs → Answered evs j t := by
  have hcount := hinv.flying_count hpass
  have hle := hinv.called_le
  have hzero : s.flying.count true = 0 := by omega
  have hnone : true ∉ s.flying := List.count_eq_zero.mp hzero
  constructor
  · intro b hb
    cases b with
    | false => rfl
    | true => exact absurd hb hnone
  · intro j t call hcalled
    cases hinv.slots hpass j (hinv.cidx _ hcalled) with
    | idle _ _ done => exact done t call hcalled
    | busy _ _ flying _ _ _ _ _ => exact absurd (List.mem_of_getElem? flying) hnone

/-- **The fuzz loop keeps its invariant, does not panic and ends** after two
iterations for each operation, provided that many timestamps fit in 64 bits. -/
theorem fuzzRun_topOfLoop (hops : 1000 ≤ cfg.numOps) (hclock : 2 * cfg.totalOps ≤ u64Max)
    (h : FuzzRun cfg evs s) (hpass : s.passed = true) : TopOfLoop cfg evs s := by
  have hinv := h.loopInv
  have hcount := hinv.flying_count hpass
  have hle := hinv.called_le
  have hts := hinv.clock_ops hpass
  have htotal : 1000 ≤ cfg.totalOps := by
    calc 1000 ≤ cfg.numOps := hops
      _ ≤ cfg.numOps * cfg.numClis := Nat.le_mul_of_pos_right _ cfg.numClis_pos
  have habort := fun hrun d => h.fuzzIter_abortsOnly hrun (by omega) hclock d
  have hlen : evs.length = s.opsCalled + s.opsWaited := by rw [← hinv.timestamp, hts]
  have hended : ¬ s.Running cfg ↔ s.opsWaited = cfg.totalOps := by
    rw [FuzzState.Running, not_and_or, not_lt]
    constructor
    · rintro (hge | hne)
      · omega
      · exact absurd hpass hne
    · intro heq
      omega
  refine ⟨hcount, hle, hts, hinv.wanted, by omega, ?_, ?_, ?_, by omega, ?_, ?_⟩
  · intro hrun d p hpanic
    exact (habort hrun d _ hpanic).1 p rfl
  · intro hrun d hsettle
    cases hiter : fuzzIter cfg s d with
    | error a => exact absurd hsettle (habort hrun d a hiter).2
    | ok r => exact ⟨r.1, r.2, rfl⟩
  · intro hrun d s' g hiter
    have hnext : FuzzRun cfg (evs ++ [.waited g]) s' := h.snoc ⟨hrun, d, hiter⟩
    exact (hnext.histInv.returned g (by simp)).1
  · rw [hended]
    omega
  · intro hnot
    have hdone := hended.mp hnot
    exact ⟨hdone, hinv.answered hpass hdone⟩

theorem fuzzRun_topOfLoop_lostWrite :
    TopOfLoop disjointCfg (runOf disjointCfg lostWriteDraws).1
      (runOf disjointCfg lostWriteDraws).2 :=
  fuzzRun_topOfLoop (by decide) (by decide) (fuzzRun_runOf disjointCfg lostWriteDraws) (by decide)

/-! ### A clock that overflows -/

lemma length_oneKey : [["a"]].length = 1 := rfl

lemma oneKey_ne_nil : ∀ cliKeys ∈ [["a"]], cliKeys ≠ [] := by decide

/-- A single client with so many operations that the clock does not fit. -/
def hugeCfg : FuzzConfig where
  numClis := 1
  numOps := 2 ^ 63
  keys := [["a"]]
  numClis_pos := Nat.one_pos
  keys_length := length_oneKey
  keys_ne_nil := oneKey_ne_nil

/-- The state after `k` Gets, each answered at once. -/
def getsDone (k : ℕ) (queue : List QueuedSpan) : FuzzState :=
  { FuzzState.init hugeCfg with
    timestamp := 2 * k
    history := { History.new 1 [["a"]] with queue }
    stats := ⟨0, 0, k, 0, 0, [[k]]⟩
    opsCalled := k
    opsWaited := k }

/-- The state after `k` Gets answered and one more called. -/
def getCalled (k : ℕ) (queue : List QueuedSpan) : FuzzState :=
  { getsDone k queue with
    flying := [true]
    timestamp := 2 * k + 1
    callMemo := [(2 * k + 1, none)]
    clients := [⟨[.get "a"]⟩]
    stats := ⟨0, 0, k + 1, 0, 0, [[k + 1]]⟩
    opsCalled := k + 1 }

lemma getCalled_step {k : ℕ} (hk : k < 2 ^ 63) (queue : List QueuedSpan) :
    FuzzStep hugeCfg (getsDone k queue) (.called 0 (2 * k + 1) (.get "a")) (getCalled k queue) := by
  have hts : 2 * k + 1 ≤ u64Max := by
    simp only [u64Max]
    omega
  exact get_called rfl (by simpa [FuzzConfig.totalOps, hugeCfg] using hk) hts 0 0 k 0 0 k

/-- Every number of rounds short of the clock's end can be run. -/
lemma exists_getsDone (k : ℕ) (hk : k < 2 ^ 63) :
    ∃ evs queue, FuzzRun hugeCfg evs (getsDone k queue) := by
  have hrun : FuzzRun hugeCfg [] (.idle 0 0 (History.new 1 [["a"]]) ⟨0, 0, 0, 0, 0, [[0]]⟩) := .nil
  have hn : 0 + k ≤ hugeCfg.totalOps := by
    simp only [FuzzConfig.totalOps, hugeCfg]
    omega
  have hts : 0 + 2 * k ≤ u64Max := by
    simp only [u64Max]
    omega
  obtain ⟨evs, queue, hgets, -⟩ :=
    exists_gets hrun rfl (by decide) (fun e he => absurd he List.not_mem_nil) none k hn hts
  simp only [Nat.zero_add] at hgets
  exact ⟨_, queue, hgets⟩

/-- With 2 ^ 63 operations the product fits in 64 bits but the clock does not:
the loop panics before its end, whatever is drawn. -/
theorem exists_clock_overflow :
    ¬ ∀ (cfg : FuzzConfig) (evs : List Event) (s : FuzzState), 1000 ≤ cfg.numOps →
        cfg.totalOps ≤ u64Max → FuzzRun cfg evs s → s.passed = true → TopOfLoop cfg evs s := by
  intro h
  obtain ⟨evs, queue, hrun⟩ := exists_getsDone (2 ^ 63 - 1) (by norm_num)
  have hcalled := hrun.snoc (getCalled_step (by norm_num) queue)
  have htop := h hugeCfg _ _ (by decide) (by decide) hcalled rfl
  have hrunning : (getCalled (2 ^ 63 - 1) queue).Running hugeCfg := by
    refine ⟨?_, rfl⟩
    show 2 ^ 63 - 1 < hugeCfg.totalOps
    decide
  refine htop.noPanic hrunning (drawResp 0 .stop) .clock ?_
  have hts : ¬ decide ((getCalled (2 ^ 63 - 1) queue).timestamp + 1 ≤ u64Max) = true := by
    show ¬ decide (2 * (2 ^ 63 - 1) + 1 + 1 ≤ u64Max) = true
    decide
  rw [fuzzIter, debugAssert, if_neg hts]
  rfl

end Madkv
