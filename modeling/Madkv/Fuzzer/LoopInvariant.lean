import Mathlib.Data.List.Range
import Mathlib.Data.List.Count
import Madkv.Fuzzer.Trace

/-!
What holds at the top of every iteration of the fuzz loop, of the events so far
(`TraceInv`) and of the variables that track the clients (`LoopInv`): the
bitmap, the memo, the counters and the clock.

Each client is in one of two states (`Slot`): idle with every call answered, or
busy with one call that the memo and the client process agree on. `LoopInv.step`
carries the invariant over one iteration and `FuzzRun.loopInv` over a run.
-/

namespace Madkv

open Execution

/-- What the events of a run satisfy. -/
structure TraceInv (cfg : FuzzConfig) (evs : List Event) : Prop where
  clock : evs.map Event.ts = List.range' 1 evs.length
  cidx : ∀ ev ∈ evs, ev.cidx < cfg.numClis
  span : ∀ h ∈ harvests evs, h.tsCall < h.tsResp
  call : ∀ h ∈ harvests evs, .called h.cidx h.tsCall h.call ∈ evs
  generated : ∀ j t call, .called j t call ∈ evs →
    ∃ cliKeys, cfg.keys[j]? = some cliKeys ∧ GeneratedFrom cliKeys call
  resp : ∀ h ∈ harvests evs, h.resp ≠ .stop
  sequential : (harvests evs).Pairwise fun a b => a.cidx = b.cidx → a.tsResp < b.tsCall
  pending : ∀ j t call, .called j t call ∈ evs →
    Answered evs j t ∨ ∀ h ∈ harvests evs, h.cidx = j → h.tsResp < t

namespace TraceInv

variable {cfg : FuzzConfig} {evs : List Event}

/-- Timestamps count the iterations. -/
lemma ts_le (hinv : TraceInv cfg evs) {ev : Event} (hev : ev ∈ evs) :
    1 ≤ ev.ts ∧ ev.ts ≤ evs.length := by
  have hmem : ev.ts ∈ evs.map Event.ts := List.mem_map.mpr ⟨ev, hev, rfl⟩
  rw [hinv.clock, List.mem_range'_1] at hmem
  omega

/-- Timestamps are fresh. -/
lemma eq_of_ts_eq (hinv : TraceInv cfg evs) {ev ev' : Event} (hev : ev ∈ evs) (hev' : ev' ∈ evs)
    (h : ev.ts = ev'.ts) : ev = ev' := by
  have hnodup : (evs.map Event.ts).Nodup := by
    rw [hinv.clock]
    exact List.nodup_range'
  exact List.inj_on_of_nodup_map hnodup hev hev' h

/-- Responses are harvested in the order of their timestamps. -/
lemma ordered (hinv : TraceInv cfg evs) :
    (harvests evs).Pairwise fun a b => a.tsResp < b.tsResp := by
  have hts : evs.Pairwise fun a b => a.ts < b.ts := by
    rw [← List.pairwise_map, hinv.clock]
    exact List.pairwise_lt_range'
  refine hts.filterMap _ ?_
  intro a b hab x hx y hy
  cases a <;> cases hx
  cases b <;> cases hy
  exact hab

lemma tsResp_le (hinv : TraceInv cfg evs) {h : Harvest} (hh : h ∈ harvests evs) :
    h.tsResp ≤ evs.length :=
  (hinv.ts_le (mem_harvests.mp hh)).2

lemma tsCall_pos (hinv : TraceInv cfg evs) {h : Harvest} (hh : h ∈ harvests evs) :
    1 ≤ h.tsCall :=
  (hinv.ts_le (hinv.call h hh)).1

/-- The keys of a call are keys of the pool. -/
lemma generated_pool (hinv : TraceInv cfg evs) {j t : ℕ} {call : KvCall}
    (hcalled : .called j t call ∈ evs) : GeneratedFrom cfg.pool call := by
  obtain ⟨cliKeys, hkeys, hgen⟩ := hinv.generated j t call hcalled
  exact hgen.mono fun k hk => List.mem_flatten.mpr ⟨cliKeys, List.mem_of_getElem? hkeys, hk⟩

/-- One call has one answer. -/
lemma eq_of_tsCall_eq (hinv : TraceInv cfg evs) {h h' : Harvest} (hh : h ∈ harvests evs)
    (hh' : h' ∈ harvests evs) (heq : h.tsCall = h'.tsCall) : h = h' := by
  have hcall := hinv.eq_of_ts_eq (hinv.call h hh) (hinv.call h' hh') heq
  have hcidx : h.cidx = h'.cidx := by injection hcall
  have h1 := hinv.span h hh
  have h2 := hinv.span h' hh'
  rcases Intervals.eq_or_rel_of_pairwise hinv.sequential hh hh' with heq | hlt | hlt
  · exact heq
  · have := hlt hcidx
    omega
  · have := hlt hcidx.symm
    omega

end TraceInv

/-- The state of one client between iterations: idle with every call answered,
or busy with the call that its process and the memo hold. -/
inductive Slot (evs : List Event) (s : FuzzState) (j : ℕ) : Prop
  | idle (flying : s.flying[j]? = some false) (proc : s.clients[j]? = some ⟨[]⟩)
      (done : ∀ t call, .called j t call ∈ evs → Answered evs j t) : Slot evs s j
  | busy (t : ℕ) (call : KvCall) (flying : s.flying[j]? = some true)
      (proc : s.clients[j]? = some ⟨[call]⟩) (memo : s.callMemo[j]? = some (t, call.updateInfo))
      (called : .called j t call ∈ evs) (last : ∀ h ∈ harvests evs, h.cidx = j → h.tsResp < t)
      (done : ∀ t' call', .called j t' call' ∈ evs → t' = t ∨ Answered evs j t') : Slot evs s j

/-- The loop invariant. -/
structure LoopInv (cfg : FuzzConfig) (evs : List Event) (s : FuzzState) : Prop
    extends TraceInv cfg evs where
  timestamp : s.timestamp = evs.length
  flying_length : s.flying.length = cfg.numClis
  memo_length : s.callMemo.length = cfg.numClis
  clients_length : s.clients.length = cfg.numClis
  freq_lengths : s.stats.keysFreq.map List.length = cfg.keys.map List.length
  slots : s.passed = true → ∀ j < cfg.numClis, Slot evs s j
  called_le : s.opsCalled ≤ cfg.totalOps
  flying_count : s.passed = true → s.opsCalled = s.opsWaited + s.flying.count true
  clock_ops : s.passed = true → s.timestamp = s.opsCalled + s.opsWaited

lemma LoopInv.init (cfg : FuzzConfig) : LoopInv cfg [] (FuzzState.init cfg) where
  clock := rfl
  cidx := by simp
  span := by simp
  call := by simp
  generated := by simp
  resp := by simp
  sequential := by simp
  pending := by simp
  timestamp := rfl
  flying_length := by simp [FuzzState.init]
  memo_length := by simp [FuzzState.init]
  clients_length := by simp [FuzzState.init]
  freq_lengths := by simp [FuzzState.init, Stats.new, Function.comp_def]
  slots := by
    intro _ j hj
    exact .idle (by simp [FuzzState.init, hj]) (by simp [FuzzState.init, hj]) (by simp)
  called_le := Nat.zero_le _
  flying_count := by
    intro _
    simp [FuzzState.init, List.count_replicate]
  clock_ops := by
    intro _
    rfl

/-- A client is not touched by an iteration for another one. -/
lemma Slot.frame {evs : List Event} {s s' : FuzzState} {j : ℕ} {ev : Event}
    (hslot : Slot evs s j) (hne : ev.cidx ≠ j) (hflying : s'.flying[j]? = s.flying[j]?)
    (hproc : s'.clients[j]? = s.clients[j]?) (hmemo : s'.callMemo[j]? = s.callMemo[j]?) :
    Slot (evs ++ [ev]) s' j := by
  have hold : ∀ t call, Event.called j t call ∈ evs ++ [ev] → Event.called j t call ∈ evs := by
    intro t call hmem
    rcases List.mem_append.mp hmem with hmem | hmem
    · exact hmem
    · rw [← List.mem_singleton.mp hmem] at hne
      exact absurd rfl hne
  have hharvests : ∀ h ∈ harvests (evs ++ [ev]), h.cidx = j → h ∈ harvests evs := by
    intro h hh hj
    rcases List.mem_append.mp (mem_harvests.mp hh) with hmem | hmem
    · exact mem_harvests.mpr hmem
    · rw [← List.mem_singleton.mp hmem] at hne
      exact absurd hj hne
  cases hslot with
  | idle flying proc done =>
      exact .idle (hflying.trans flying) (hproc.trans proc)
        fun t call hmem => (done t call (hold t call hmem)).append ev
  | busy t call flying proc memo called last done =>
      refine .busy t call (hflying.trans flying) (hproc.trans proc) (hmemo.trans memo)
        (List.mem_append_left _ called) (fun h hh hj => last h (hharvests h hh hj) hj) ?_
      intro t' call' hmem
      exact (done t' call' (hold t' call' hmem)).imp_right fun h => h.append ev

/-- A client with a `flying` flag is one of the configuration's. -/
lemma LoopInv.lt_numClis {cfg : FuzzConfig} {evs : List Event} {s : FuzzState}
    (hinv : LoopInv cfg evs s) {j : ℕ} {b : Bool} (h : s.flying[j]? = some b) :
    j < cfg.numClis := by
  rw [← hinv.flying_length]
  exact (List.getElem?_eq_some_iff.mp h).1

/-- The next event carries the next timestamp. -/
lemma TraceInv.clock_snoc {cfg : FuzzConfig} {evs : List Event} (hinv : TraceInv cfg evs)
    {ev : Event} (hts : ev.ts = evs.length + 1) :
    (evs ++ [ev]).map Event.ts = List.range' 1 (evs ++ [ev]).length := by
  rw [List.map_append, hinv.clock, List.length_append, List.length_singleton,
    List.range'_1_concat, List.map_singleton, hts, Nat.add_comm 1]

lemma TraceInv.cidx_snoc {cfg : FuzzConfig} {evs : List Event} (hinv : TraceInv cfg evs)
    {ev : Event} (hev : ev.cidx < cfg.numClis) : ∀ e ∈ evs ++ [ev], e.cidx < cfg.numClis := by
  intro e he
  rcases List.mem_append.mp he with he | he
  · exact hinv.cidx e he
  · rw [List.mem_singleton.mp he]; exact hev

/-- What the memo and the client process say of a call harvested. -/
structure Outstanding (evs : List Event) (h : Harvest) (rest : List KvCall)
    (updateInfo : Option (String × Option String)) : Prop where
  rest : rest = []
  memo : updateInfo = h.call.updateInfo
  called : .called h.cidx h.tsCall h.call ∈ evs
  last : ∀ h' ∈ harvests evs, h'.cidx = h.cidx → h'.tsResp < h.tsCall
  done : ∀ t call, .called h.cidx t call ∈ evs → t = h.tsCall ∨ Answered evs h.cidx t

lemma Harvested.outstanding {cfg : FuzzConfig} {evs : List Event} {s s' : FuzzState} {h : Harvest}
    {rest : List KvCall} {updateInfo : Option (String × Option String)} {applied : Applied}
    (hh : Harvested cfg s h rest updateInfo applied s') (hinv : LoopInv cfg evs s)
    (hpass : s.passed = true) : Outstanding evs h rest updateInfo := by
  have hlt : h.cidx < cfg.numClis := hinv.lt_numClis hh.flying
  cases hinv.slots hpass h.cidx hlt with
  | idle flying _ _ =>
      rw [hh.flying] at flying
      cases flying
  | busy t call flying proc memo called last done =>
      have hproc := hh.proc.symm.trans proc
      have hmemo := hh.memo.symm.trans memo
      simp only [Option.some.injEq, ClientProc.mk.injEq, List.cons.injEq] at hproc
      simp only [Option.some.injEq, Prod.mk.injEq] at hmemo
      obtain ⟨rfl, rfl⟩ := hproc
      obtain ⟨rfl, rfl⟩ := hmemo
      exact ⟨rfl, rfl, called, last, done⟩

/-- A bit cleared or set in the bitmap. -/
lemma count_set_of_ne {l : List Bool} {i : ℕ} {b : Bool} (h : l[i]? = some b) :
    (l.set i (!b)).count true + b.toNat = l.count true + (!b).toNat := by
  obtain ⟨hi, hb⟩ := List.getElem?_eq_some_iff.mp h
  rw [List.count_set hi, hb]
  cases b with
  | false => simp
  | true =>
      have hpos : 0 < l.count true := by
        rw [List.count_pos_iff, ← hb]
        exact List.getElem_mem hi
      simp
      omega

/-! ### One iteration -/

section Step

variable {cfg : FuzzConfig} {evs : List Event} {s s' : FuzzState}

lemma TraceInv.called {cidx : ℕ} {call : KvCall} {cliKeys : List String}
    (hinv : TraceInv cfg evs) (hlt : cidx < cfg.numClis) (hkeys : cfg.keys[cidx]? = some cliKeys)
    (hgen : GeneratedFrom cliKeys call) :
    TraceInv cfg (evs ++ [.called cidx (evs.length + 1) call]) where
  clock := hinv.clock_snoc rfl
  cidx := hinv.cidx_snoc hlt
  span := by simpa using hinv.span
  call := by
    intro h hh
    rw [harvests_called] at hh
    exact List.mem_append_left _ (hinv.call h hh)
  generated := by
    intro j t c hmem
    rcases List.mem_append.mp hmem with hmem | hmem
    · exact hinv.generated j t c hmem
    · obtain ⟨rfl, rfl, rfl⟩ := Event.called.inj (List.mem_singleton.mp hmem)
      exact ⟨cliKeys, hkeys, hgen⟩
  resp := by simpa using hinv.resp
  sequential := by
    rw [harvests_called]
    exact hinv.sequential
  pending := by
    intro j t c hmem
    rw [harvests_called]
    rcases List.mem_append.mp hmem with hmem | hmem
    · exact (hinv.pending j t c hmem).imp_left fun h => h.append _
    · obtain ⟨rfl, rfl, rfl⟩ := Event.called.inj (List.mem_singleton.mp hmem)
      exact Or.inr fun h hh _ => Nat.lt_succ_of_le (hinv.tsResp_le hh)

lemma TraceInv.stopped {cidx : ℕ} (hinv : TraceInv cfg evs) (hlt : cidx < cfg.numClis) :
    TraceInv cfg (evs ++ [.stopped cidx (evs.length + 1)]) where
  clock := hinv.clock_snoc rfl
  cidx := hinv.cidx_snoc hlt
  span := by simpa using hinv.span
  call := by
    intro h hh
    rw [harvests_stopped] at hh
    exact List.mem_append_left _ (hinv.call h hh)
  generated := by
    intro j t c hmem
    exact hinv.generated j t c (by simpa using hmem)
  resp := by simpa using hinv.resp
  sequential := by
    rw [harvests_stopped]
    exact hinv.sequential
  pending := by
    intro j t c hmem
    rw [harvests_stopped]
    exact (hinv.pending j t c (by simpa using hmem)).imp_left fun h => h.append _

lemma TraceInv.waited {h : Harvest} {rest : List KvCall}
    {updateInfo : Option (String × Option String)} (hinv : TraceInv cfg evs)
    (hlt : h.cidx < cfg.numClis) (hts : h.tsResp = evs.length + 1) (hspan : h.tsCall < h.tsResp)
    (hresp : h.resp ≠ .stop) (hout : Outstanding evs h rest updateInfo) :
    TraceInv cfg (evs ++ [.waited h]) where
  clock := hinv.clock_snoc hts
  cidx := hinv.cidx_snoc hlt
  span := forall_harvests_waited.mpr ⟨hinv.span, hspan⟩
  call := forall_harvests_waited.mpr
    ⟨fun h' hh' => List.mem_append_left _ (hinv.call h' hh'), List.mem_append_left _ hout.called⟩
  generated := by
    intro j t c hmem
    exact hinv.generated j t c (by simpa using hmem)
  resp := forall_harvests_waited.mpr ⟨hinv.resp, hresp⟩
  sequential := by
    rw [harvests_waited, List.pairwise_append]
    refine ⟨hinv.sequential, List.pairwise_singleton _ _, ?_⟩
    intro a ha b hb heq
    obtain rfl := List.mem_singleton.mp hb
    exact hout.last a ha heq
  pending := by
    intro j t c hmem
    have hold : Event.called j t c ∈ evs := by simpa using hmem
    by_cases hj : h.cidx = j
    · -- the client harvested from has no other call outstanding
      subst hj
      left
      rcases hout.done t c hold with rfl | hans
      · exact ⟨h, by simp, rfl, rfl⟩
      · exact hans.append _
    · exact (hinv.pending j t c hold).imp (fun h => h.append _) fun hlast =>
        forall_harvests_waited.mpr ⟨hlast, fun hj' => absurd hj' hj⟩

lemma LoopInv.called {cidx : ℕ} {call : KvCall} {cliKeys : List String} {client : ClientProc}
    {stats : Stats} (hinv : LoopInv cfg evs s) (hpass : s.passed = true)
    (hh : MadeCall cfg s cidx call cliKeys client stats s') :
    LoopInv cfg (evs ++ [.called cidx (s.timestamp + 1) call]) s' := by
  have hlt : cidx < cfg.numClis := hinv.lt_numClis hh.idle
  have hcount := count_set_of_ne hh.idle
  have hflying := hinv.flying_count hpass
  have hclock := hinv.clock_ops hpass
  have hcalled := hinv.called_le
  have hready := hh.notAll
  obtain ⟨d, hdrawn⟩ := hh.drawn
  obtain ⟨hgen, hshape⟩ := genRandKvcall_eq_ok hdrawn
  -- the client called was idle, with all its calls answered
  have hidle : s.clients[cidx]? = some ⟨[]⟩
      ∧ ∀ t c, .called cidx t c ∈ evs → Answered evs cidx t := by
    cases hinv.slots hpass cidx hlt with
    | idle _ proc done => exact ⟨proc, done⟩
    | busy _ _ flying _ _ _ _ _ =>
        rw [hh.idle] at flying
        cases flying
  have hproc : client = ⟨[]⟩ := Option.some.inj (hh.proc.symm.trans hidle.1)
  rw [hh.state, hinv.timestamp]
  refine ⟨hinv.toTraceInv.called hlt hh.keys hgen, ?_, ?_, ?_, ?_, ?_, ?_, ?_, ?_, ?_⟩
  · simp
  · simpa using hinv.flying_length
  · simpa using hinv.memo_length
  · simpa using hinv.clients_length
  · exact hshape.trans hinv.freq_lengths
  · intro _ j hj
    by_cases hjc : j = cidx
    · subst hjc
      refine .busy (evs.length + 1) call ?_ ?_ ?_ (by simp) ?_ ?_
      · exact List.getElem?_set_self (by rw [hinv.flying_length]; exact hlt)
      · rw [hproc]
        exact List.getElem?_set_self (by rw [hinv.clients_length]; exact hlt)
      · exact List.getElem?_set_self (by rw [hinv.memo_length]; exact hlt)
      · intro h hh' _
        rw [harvests_called] at hh'
        exact Nat.lt_succ_of_le (hinv.tsResp_le hh')
      · intro t c hmem
        rcases List.mem_append.mp hmem with hmem | hmem
        · exact Or.inr ((hidle.2 t c hmem).append _)
        · exact Or.inl (Event.called.inj (List.mem_singleton.mp hmem)).2.1
    · refine (hinv.slots hpass j hj).frame (Ne.symm hjc) ?_ ?_ ?_
      · exact List.getElem?_set_ne (Ne.symm hjc)
      · exact List.getElem?_set_ne (Ne.symm hjc)
      · exact List.getElem?_set_ne (Ne.symm hjc)
  · show s.opsCalled + 1 ≤ cfg.totalOps
    omega
  · intro _
    show s.opsCalled + 1 = s.opsWaited + (s.flying.set cidx true).count true
    simp only [Bool.not_false, Bool.toNat_false, Bool.toNat_true, Nat.add_zero] at hcount
    omega
  · intro _
    show evs.length + 1 = s.opsCalled + 1 + s.opsWaited
    rw [← hinv.timestamp]
    omega

lemma LoopInv.stopped {cidx : ℕ} (hinv : LoopInv cfg evs s) (hh : HarvestedStop s cidx s') :
    LoopInv cfg (evs ++ [.stopped cidx (s.timestamp + 1)]) s' := by
  have hlt : cidx < cfg.numClis := hinv.lt_numClis hh.flying
  obtain ⟨rest, rfl⟩ := hh.state
  rw [hinv.timestamp]
  refine ⟨hinv.toTraceInv.stopped hlt, by simp, hinv.flying_length, hinv.memo_length, ?_,
    hinv.freq_lengths, fun h => (nomatch h), hinv.called_le, fun h => (nomatch h),
    fun h => (nomatch h)⟩
  simpa using hinv.clients_length

lemma LoopInv.waited {h : Harvest} {rest : List KvCall}
    {updateInfo : Option (String × Option String)} {applied : Applied}
    (hinv : LoopInv cfg evs s) (hpass : s.passed = true)
    (hh : Harvested cfg s h rest updateInfo applied s') :
    LoopInv cfg (evs ++ [.waited h]) s' := by
  have hlt : h.cidx < cfg.numClis := hinv.lt_numClis hh.flying
  have hout := hh.outstanding hinv hpass
  have hcount := count_set_of_ne hh.flying
  have hflying := hinv.flying_count hpass
  have hclock := hinv.clock_ops hpass
  have htrace := hinv.toTraceInv.waited hlt (hinv.timestamp ▸ hh.tsResp) hh.span hh.resp hout
  rw [hh.state]
  by_cases hret : h.returned = none
  · simp only [if_pos hret]
    refine ⟨htrace, by simp [hinv.timestamp], by simpa using hinv.flying_length,
      by simpa using hinv.memo_length, by simpa using hinv.clients_length, hinv.freq_lengths, ?_,
      hinv.called_le, ?_, ?_⟩
    · intro _ j hj
      by_cases hjc : j = h.cidx
      · subst hjc
        refine .idle ?_ ?_ ?_
        · exact List.getElem?_set_self (by rw [hinv.flying_length]; exact hlt)
        · rw [hout.rest]
          exact List.getElem?_set_self (by rw [hinv.clients_length]; exact hlt)
        · intro t c hmem
          rcases hout.done t c (by simpa using hmem) with rfl | hans
          · exact ⟨h, by simp, rfl, rfl⟩
          · exact hans.append _
      · refine (hinv.slots hpass j hj).frame (Ne.symm hjc) ?_ ?_ ?_
        · exact List.getElem?_set_ne (Ne.symm hjc)
        · exact List.getElem?_set_ne (Ne.symm hjc)
        · exact List.getElem?_set_ne (Ne.symm hjc)
    · intro _
      show s.opsCalled = s.opsWaited + 1 + (s.flying.set h.cidx false).count true
      simp only [Bool.not_true, Bool.toNat_false, Bool.toNat_true, Nat.add_zero] at hcount
      omega
    · intro _
      show s.timestamp + 1 = s.opsCalled + (s.opsWaited + 1)
      omega
  · simp only [if_neg hret]
    exact ⟨htrace, by simp [hinv.timestamp], hinv.flying_length, by simpa using hinv.memo_length,
      by simpa using hinv.clients_length, hinv.freq_lengths, fun h => (nomatch h),
      hinv.called_le, fun h => (nomatch h), fun h => (nomatch h)⟩

/-- One iteration keeps the invariant. -/
lemma LoopInv.step {ev : Event} (hinv : LoopInv cfg evs s) (hstep : FuzzStep cfg s ev s') :
    LoopInv cfg (evs ++ [ev]) s' := by
  obtain ⟨⟨-, hpass⟩, hcase⟩ := hstep.cases
  cases hcase with
  | called hh => exact hinv.called hpass hh
  | stopped hh => exact hinv.stopped hh
  | waited hh => exact hinv.waited hpass hh

end Step

/-- **The loop invariant** holds at the top of every iteration. -/
theorem FuzzRun.loopInv {cfg : FuzzConfig} {evs : List Event} {s : FuzzState}
    (h : FuzzRun cfg evs s) : LoopInv cfg evs s :=
  h.invariant (LoopInv.init cfg) fun _ _ _ _ _ hinv hstep => hinv.step hstep

end Madkv
