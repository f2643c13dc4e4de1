import Madkv.Library.Interleaving
import Madkv.Refcli.Stopping
import Madkv.Fuzzer.LoopInvariant

/-!
The fuzz loop with the client processes it works on.

* `LiveFuzz`, `LiveStep`: the loop and the handles of its clients. An iteration works on
  one handle, and may end the loop by an error of it (`failedOp`); between iterations the
  drivers and the processes go on by themselves.
* `LiveRun.fuzzRun`, `LiveRun.procRun`: the loop alone runs as `FuzzRun` has it, and each
  handle as `ProcRun`.
* `ClientInv`: what the loop has sent to a client and got back from it, by the responses
  harvested. `LiveRun.clientInv`: so it is in every run.
* `LiveRun.answers`: what the reference client answered in a run, by the client's own
  calls (`harvestsBy`).
-/

namespace Madkv

open Execution Refcli

/-- What the handle of a client does in an iteration. -/
def Event.handled : Event → ℕ × Runner.Event
  | .called cidx _ call => (cidx, .sendCall call (.ok ()))
  | .stopped cidx _ => (cidx, .waitResp (.ok .stop))
  | .waited h => (h.cidx, .waitResp (.ok h.resp))

/-- What the handle of a client does in an iteration that ends by an error of it. -/
def failedOp (cfg : FuzzConfig) (s : FuzzState) (d : Draws) (err : RunnerError) :
    Except Abort (ℕ × Runner.Event) := do
  if genCallVsWait s.opsCalled cfg.totalOps s.flying d.coin then
    let cidx ← genRandClient s.flying false d.cidxs
    let cliKeys ← index cfg.keys cidx
    let (call, _) ← genRandKvcall cliKeys s.stats cidx d
    .ok (cidx, .sendCall call (.error err))
  else
    let cidx ← genRandClient s.flying true d.cidxs
    .ok (cidx, .waitResp (.error err))

/-- The loop, with the handles to its clients. -/
structure LiveFuzz (P : Type) where
  fuzz : FuzzState
  procs : List (Runner.ClientProc P)
  /-- the error that the loop has been left with by `?` -/
  err : Option RunnerError

/-- An iteration, or a step of the driver or the process of a client. -/
inductive LiveEvent where
  | iter (ev : Event)
  | fails (cidx : ℕ) (e : Runner.Event)
  | inner (cidx : ℕ) (e : Runner.Event)

/-- The loop goes through one more iteration, or a client goes on. -/
inductive LiveStep {P : Type} (prog : Runner.Program P) (cfg : FuzzConfig) :
    LiveFuzz P → LiveEvent → LiveFuzz P → Prop
  | iter {l : LiveFuzz P} {s' : FuzzState} {procs' : List (Runner.ClientProc P)} {ev : Event}
      (herr : l.err = none) (hfuzz : FuzzStep cfg l.fuzz ev s')
      (hprocs : SideBySide (Runner.Step prog) l.procs ev.handled procs') :
      LiveStep prog cfg l (.iter ev) { l with fuzz := s', procs := procs' }
  /-- `send_call` or `wait_resp` fails -/
  | fails {l : LiveFuzz P} {procs' : List (Runner.ClientProc P)} {d : Draws} {err : RunnerError}
      {cidx : ℕ} {e : Runner.Event} (herr : l.err = none) (hrun : l.fuzz.Running cfg)
      (hiter : fuzzIter cfg l.fuzz d = .error (.error err))
      (hop : failedOp cfg l.fuzz d err = .ok (cidx, e))
      (hprocs : SideBySide (Runner.Step prog) l.procs (cidx, e) procs') :
      LiveStep prog cfg l (.fails cidx e) { l with procs := procs', err := some err }
  | inner {l : LiveFuzz P} {procs' : List (Runner.ClientProc P)} {cidx : ℕ} {e : Runner.Event}
      (he : e.Internal) (hprocs : SideBySide (Runner.Step prog) l.procs (cidx, e) procs') :
      LiveStep prog cfg l (.inner cidx e) { l with procs := procs' }

/-- The variables before the first iteration, and the processes started. -/
def LiveFuzz.init {P : Type} (prog : Runner.Program P) (cfg : FuzzConfig) : LiveFuzz P where
  fuzz := FuzzState.init cfg
  procs := List.replicate cfg.numClis (.new prog)
  err := none

/-- The interleavings of the loop and its clients. -/
abbrev LiveRun {P : Type} (prog : Runner.Program P) (cfg : FuzzConfig) :
    List LiveEvent → LiveFuzz P → Prop :=
  Exec (LiveStep prog cfg) (LiveFuzz.init prog cfg)

/-! ### The parts of a run -/

/-- What the loop did. -/
@[simp] def LiveEvent.fuzz? : LiveEvent → Option Event
  | .iter ev => some ev
  | .fails _ _ | .inner _ _ => none

/-- What a handle did, and whose. -/
@[simp] def LiveEvent.proc : LiveEvent → ℕ × Runner.Event
  | .iter ev => ev.handled
  | .fails cidx e | .inner cidx e => (cidx, e)

/-- The events of the loop. -/
def fuzzOf (es : List LiveEvent) : List Event := es.filterMap LiveEvent.fuzz?

/-- The events of the handle of a client. -/
def procOf (j : ℕ) (es : List LiveEvent) : List Runner.Event :=
  labelsOf j (es.map LiveEvent.proc)

section Parts

variable {es : List LiveEvent} {e : LiveEvent} {j : ℕ}

@[simp] lemma fuzzOf_iter (ev : Event) : fuzzOf (es ++ [.iter ev]) = fuzzOf es ++ [ev] := by
  simp [fuzzOf]

lemma fuzzOf_of_none (h : e.fuzz? = none) : fuzzOf (es ++ [e]) = fuzzOf es := by
  rw [fuzzOf, List.filterMap_append, List.filterMap_cons_none h, List.filterMap_nil,
    List.append_nil, fuzzOf]

lemma procOf_self (h : e.proc.1 = j) : procOf j (es ++ [e]) = procOf j es ++ [e.proc.2] := by
  rw [procOf, List.map_append, List.map_singleton, labelsOf_self h, procOf]

lemma procOf_other (h : e.proc.1 ≠ j) : procOf j (es ++ [e]) = procOf j es := by
  rw [procOf, List.map_append, List.map_singleton, labelsOf_other h, procOf]

end Parts

section Run

variable {P : Type} {prog : Runner.Program P} {cfg : FuzzConfig} {es : List LiveEvent}
  {l l' : LiveFuzz P} {e : LiveEvent} {j : ℕ} {c : Runner.ClientProc P}

lemma LiveStep.procs (h : LiveStep prog cfg l e l') :
    SideBySide (Runner.Step prog) l.procs e.proc l'.procs := by
  cases h with
  | iter _ _ hprocs | fails _ _ _ _ hprocs | inner _ hprocs => exact hprocs

/-- An operation that failed has neither sent nor received anything. -/
lemma failedOp_eq_ok {s : FuzzState} {d : Draws} {err : RunnerError} {op : ℕ × Runner.Event}
    (h : failedOp cfg s d err = .ok op) :
    op.2 = .waitResp (.error err) ∨ ∃ call, op.2 = .sendCall call (.error err) := by
  rw [failedOp] at h
  split_ifs at h
  · simp only [Fallible.bind_eq_ok] at h
    obtain ⟨cidx, -, cliKeys, -, ⟨call, stats⟩, -, h⟩ := h
    cases h
    exact .inr ⟨call, rfl⟩
  · simp only [Fallible.bind_eq_ok] at h
    obtain ⟨cidx, -, h⟩ := h
    cases h
    exact .inl rfl

/-- What a step other than an iteration leaves as it is. -/
lemma LiveStep.quiet (h : LiveStep prog cfg l e l') (hfuzz : e.fuzz? = none) :
    l'.fuzz = l.fuzz ∧ e.proc.2.sent = none ∧ e.proc.2.received = none
      ∧ e.proc.2.leaves = false := by
  cases h with
  | iter => cases hfuzz
  | @fails _ d err cidx e _ _ _ hop _ =>
      rcases failedOp_eq_ok hop with heq | ⟨call, heq⟩ <;>
        exact ⟨rfl, by simp [heq], by simp [heq], by simp [heq, Runner.Event.leaves]⟩
  | @inner _ cidx e he _ => cases e <;> first | exact he.elim | exact ⟨rfl, rfl, rfl, rfl⟩

/-- **The loop alone** runs as it does for clients that may answer anything. -/
theorem LiveRun.fuzzRun (h : LiveRun prog cfg es l) : FuzzRun cfg (fuzzOf es) l.fuzz := by
  induction h with
  | nil => exact .nil
  | snoc _ hlast ih =>
      cases hlast with
      | iter _ hfuzz _ =>
          rw [fuzzOf_iter]
          exact ih.snoc hfuzz
      | fails | inner =>
          rw [fuzzOf_of_none rfl]
          exact ih

lemma LiveRun.procs (h : LiveRun prog cfg es l) :
    Exec (SideBySide (Runner.Step prog)) (List.replicate cfg.numClis (.new prog))
      (es.map LiveEvent.proc) l.procs := by
  induction h with
  | nil => exact .nil
  | snoc _ hlast ih =>
      rw [List.map_append]
      exact ih.snoc hlast.procs

lemma LiveRun.procs_length (h : LiveRun prog cfg es l) : l.procs.length = cfg.numClis := by
  rw [exec_length h.procs, List.length_replicate]

/-- **Each handle alone** runs as it does for any owner. -/
theorem LiveRun.procRun (h : LiveRun prog cfg es l) (hc : l.procs[j]? = some c) :
    Runner.ProcRun prog (procOf j es) c := by
  have hlt : j < cfg.numClis := by
    rw [← h.procs_length]
    exact (List.getElem?_eq_some_iff.mp hc).1
  exact exec_component h.procs (by simp [hlt]) hc

end Run

/-! ### What a client has been sent -/

/-- The responses harvested from a client, in order. -/
def harvestsBy (evs : List Event) (j : ℕ) : List Harvest := (harvests evs).filter (·.cidx = j)

/-- The calls sent to a client are those it has answered and those it has not, and the
responses got back are those harvested. -/
structure ClientInv (es : List LiveEvent) (s : FuzzState) (j : ℕ) : Prop where
  sent : ∃ client, s.clients[j]? = some client
    ∧ Runner.sentOf (procOf j es)
      = (harvestsBy (fuzzOf es) j).map Harvest.call ++ client.unanswered
  received : Runner.receivedOf (procOf j es) = (harvestsBy (fuzzOf es) j).map Harvest.resp

section Sent

variable {P : Type} {prog : Runner.Program P} {cfg : FuzzConfig} {es : List LiveEvent}
  {l l' : LiveFuzz P} {e : LiveEvent} {j : ℕ} {c : Runner.ClientProc P} {s s' : FuzzState}
  {evs : List Event}

lemma harvestsBy_waited_self (h : Harvest) :
    harvestsBy (evs ++ [.waited h]) h.cidx = harvestsBy evs h.cidx ++ [h] := by
  simp [harvestsBy]

lemma harvestsBy_other {ev : Event} (hne : ev.cidx ≠ j) :
    harvestsBy (evs ++ [ev]) j = harvestsBy evs j := by
  cases ev with
  | called | stopped => simp [harvestsBy]
  | waited h =>
      have hj : ¬ h.cidx = j := hne
      simp [harvestsBy, hj]

lemma Event.handled_fst (ev : Event) : ev.handled.1 = ev.cidx := by cases ev <;> rfl

/-- Clients are not touched by an iteration for another one. -/
lemma ClientInv.other {ev : Event} (h : ClientInv es s j) (hne : ev.cidx ≠ j)
    (hclients : s'.clients[j]? = s.clients[j]?) : ClientInv (es ++ [.iter ev]) s' j := by
  have hproc : procOf j (es ++ [.iter ev]) = procOf j es :=
    procOf_other (by rw [LiveEvent.proc, ev.handled_fst]; exact hne)
  have hby : harvestsBy (fuzzOf (es ++ [.iter ev])) j = harvestsBy (fuzzOf es) j := by
    rw [fuzzOf_iter, harvestsBy_other hne]
  refine ⟨?_, ?_⟩
  · rw [hproc, hby, hclients]
    exact h.sent
  · rw [hproc, hby]
    exact h.received

/-- Between iterations nothing is sent, and nothing harvested. -/
lemma ClientInv.quiet (h : ClientInv es s j) (hfuzz : e.fuzz? = none)
    (hsent : e.proc.2.sent = none) (hreceived : e.proc.2.received = none) :
    ClientInv (es ++ [e]) s j := by
  have hsame : Runner.sentOf (procOf j (es ++ [e])) = Runner.sentOf (procOf j es)
      ∧ Runner.receivedOf (procOf j (es ++ [e])) = Runner.receivedOf (procOf j es) := by
    by_cases hj : e.proc.1 = j
    · rw [procOf_self hj, Runner.sentOf_concat, Runner.receivedOf_concat, hsent, hreceived]
      exact ⟨List.append_nil _, List.append_nil _⟩
    · rw [procOf_other hj]
      exact ⟨rfl, rfl⟩
  refine ⟨?_, ?_⟩
  · rw [hsame.1, fuzzOf_of_none hfuzz]
    exact h.sent
  · rw [hsame.2, fuzzOf_of_none hfuzz]
    exact h.received

lemma ClientInv.called {ts : ℕ} {call : KvCall} {client : ClientProc} (h : ClientInv es s j)
    (hclient : s.clients[j]? = some client)
    (hclient' : s'.clients[j]? = some ⟨client.unanswered ++ [call]⟩) :
    ClientInv (es ++ [.iter (.called j ts call)]) s' j := by
  obtain ⟨client', hclient₁, hsent⟩ := h.sent
  obtain rfl : client = client' := Option.some.inj (hclient.symm.trans hclient₁)
  have hproc : procOf j (es ++ [.iter (.called j ts call)])
      = procOf j es ++ [.sendCall call (.ok ())] := procOf_self rfl
  have hby : harvestsBy (fuzzOf (es ++ [.iter (.called j ts call)])) j
      = harvestsBy (fuzzOf es) j := by
    rw [fuzzOf_iter, harvestsBy, harvestsBy, harvests_called]
  refine ⟨⟨_, hclient', ?_⟩, ?_⟩
  · rw [hproc, hby, Runner.sentOf_concat, hsent]
    exact List.append_assoc _ _ _
  · rw [hproc, hby, Runner.receivedOf_concat, h.received]
    exact List.append_nil _

lemma ClientInv.waited {g : Harvest} {rest : List KvCall} (h : ClientInv es s g.cidx)
    (hclient : s.clients[g.cidx]? = some ⟨g.call :: rest⟩)
    (hclient' : s'.clients[g.cidx]? = some ⟨rest⟩) :
    ClientInv (es ++ [.iter (.waited g)]) s' g.cidx := by
  obtain ⟨client', hclient₁, hsent⟩ := h.sent
  obtain rfl : (⟨g.call :: rest⟩ : ClientProc) = client' :=
    Option.some.inj (hclient.symm.trans hclient₁)
  have hproc : procOf g.cidx (es ++ [.iter (.waited g)])
      = procOf g.cidx es ++ [.waitResp (.ok g.resp)] := procOf_self rfl
  have hby : harvestsBy (fuzzOf (es ++ [.iter (.waited g)])) g.cidx
      = harvestsBy (fuzzOf es) g.cidx ++ [g] := by
    rw [fuzzOf_iter, harvestsBy_waited_self]
  refine ⟨⟨_, hclient', ?_⟩, ?_⟩
  · rw [hproc, hby, Runner.sentOf_concat, hsent]
    simp
  · rw [hproc, hby, Runner.receivedOf_concat, h.received]
    simp

/-- **In every run** that has harvested no Stop. -/
theorem LiveRun.clientInv (h : LiveRun prog cfg es l) (hstop : ∀ j ts, .stopped j ts ∉ fuzzOf es)
    (hj : j < cfg.numClis) : ClientInv es l.fuzz j := by
  revert hstop
  refine h.invariant (P := fun es l => (∀ j ts, .stopped j ts ∉ fuzzOf es) →
    ClientInv es l.fuzz j) ?_ ?_
  · intro _
    refine ⟨⟨⟨[]⟩, by simp [LiveFuzz.init, FuzzState.init, hj], rfl⟩, rfl⟩
  · intro es l e l' hpre ih hstep hstop
    have hquiet := hstep.quiet
    cases hstep with
    | fails | inner =>
        obtain ⟨-, hsent, hreceived, -⟩ := hquiet rfl
        rw [fuzzOf_of_none rfl] at hstop
        exact (ih hstop).quiet rfl hsent hreceived
    | @iter s' procs' ev _ hfuzz _ =>
        rw [fuzzOf_iter] at hstop
        have hold := ih fun j ts hmem => hstop j ts (List.mem_append_left _ hmem)
        by_cases hcidx : ev.cidx = j
        · subst hcidx
          cases hfuzz.cases.2 with
          | @called cidx call cliKeys client stats _ hmade =>
              refine hold.called hmade.proc ?_
              rw [hmade.state]
              exact List.getElem?_set_self (List.getElem?_eq_some_iff.mp hmade.proc).1
          | stopped _ =>
              exact absurd (List.mem_append_right _ (List.mem_singleton.mpr rfl)) (hstop _ _)
          | waited hh =>
              refine hold.waited hh.proc ?_
              rw [hh.state]
              exact List.getElem?_set_self (List.getElem?_eq_some_iff.mp hh.proc).1
        · refine hold.other hcidx ?_
          cases hfuzz.cases.2 with
          | called hmade =>
              rw [hmade.state]
              exact List.getElem?_set_ne hcidx
          | stopped _ =>
              exact absurd (List.mem_append_right _ (List.mem_singleton.mpr rfl)) (hstop _ _)
          | waited hh =>
              rw [hh.state]
              exact List.getElem?_set_ne hcidx

/-- What happens other than in an iteration sends nothing. -/
lemma LiveRun.quiet (h : LiveRun prog cfg es l) (he : e ∈ es) (hfuzz : e.fuzz? = none) :
    e.proc.2.sent = none := by
  induction h with
  | nil => exact absurd he List.not_mem_nil
  | snoc _ hlast ih =>
      rcases List.mem_append.mp he with he | he
      · exact ih he
      · obtain rfl := List.mem_singleton.mp he
        exact (hlast.quiet hfuzz).2.1

/-- What has been sent to a client are calls of the loop. -/
lemma LiveRun.sent_called (h : LiveRun prog cfg es l) {call : KvCall}
    (hcall : call ∈ Runner.sentOf (procOf j es)) : ∃ ts, .called j ts call ∈ fuzzOf es := by
  obtain ⟨e, he, hsent⟩ := List.mem_filterMap.mp hcall
  obtain ⟨le, hle, heq⟩ := List.mem_map.mp (mem_labelsOf.mp he)
  cases le with
  | fails cidx e' | inner cidx e' =>
      have hquiet := h.quiet hle rfl
      rw [heq, hsent] at hquiet
      cases hquiet
  | iter ev =>
      cases ev with
      | called cidx ts call' =>
          obtain ⟨rfl, rfl⟩ := Prod.mk.inj heq
          cases hsent
          exact ⟨ts, List.mem_filterMap.mpr ⟨_, hle, rfl⟩⟩
      | stopped cidx ts | waited g =>
          obtain ⟨rfl, rfl⟩ := Prod.mk.inj heq
          cases hsent

/-- The loop keeps its handles. -/
lemma LiveRun.owner (h : LiveRun prog cfg es l) (hc : l.procs[j]? = some c) : c.owner = .owns := by
  induction h generalizing c with
  | nil =>
      obtain rfl := List.eq_of_mem_replicate (List.mem_of_getElem? hc)
      rfl
  | @snoc es l l' e _ hlast ih =>
      by_cases hj : e.proc.1 = j
      · obtain ⟨c₁, c₂, hc₁, hstep, hc₂⟩ := hlast.procs.self
        rw [hj] at hc₁ hc₂
        obtain rfl : c₂ = c := Option.some.inj (hc₂.symm.trans hc)
        rw [hstep.owner_eq ?_, ih hc₁]
        have hquiet := hlast.quiet
        cases hlast with
        | @iter _ _ ev _ _ _ => cases ev <;> rfl
        | fails | inner => exact (hquiet rfl).2.2.2
      · exact ih (by rw [← hlast.procs.other hj, hc])

end Sent

/-! ### What the reference client answers -/

section Answers

variable {cfg : FuzzConfig} {es : List LiveEvent} {l : LiveFuzz Process} {j : ℕ}

/-- The calls that the loop makes are clean. -/
def CleanCalls (es : List LiveEvent) : Prop :=
  ∀ j ts call, .called j ts call ∈ fuzzOf es → call.Clean

lemma LiveRun.session (h : LiveRun program cfg es l) (hclean : CleanCalls es)
    {c : Runner.ClientProc Process} (hc : l.procs[j]? = some c) :
    SessionInv c (procOf j es) ∧ ∀ call ∈ Runner.sentOf (procOf j es), call.Clean := by
  have hsent : ∀ call ∈ Runner.sentOf (procOf j es), call.Clean := fun call hcall => by
    obtain ⟨ts, hcalled⟩ := h.sent_called hcall
    exact hclean _ _ _ hcalled
  exact ⟨SessionInv.run (h.procRun hc) hsent, hsent⟩

lemma CleanCalls.of_concat {e : LiveEvent} (h : CleanCalls (es ++ [e])) : CleanCalls es := by
  intro j ts call hcalled
  refine h j ts call ?_
  rw [fuzzOf, List.filterMap_append]
  exact List.mem_append_left _ hcalled

/-- The reference client never stops by itself. -/
lemma LiveRun.not_stopped (h : LiveRun program cfg es l) (hclean : CleanCalls es) (j ts : ℕ) :
    .stopped j ts ∉ fuzzOf es := by
  induction h with
  | nil => exact List.not_mem_nil
  | @snoc es l l' e hpre hlast ih =>
      have hold := ih hclean.of_concat
      have hrun : LiveRun program cfg (es ++ [e]) l' := hpre.snoc hlast
      cases hlast with
      | fails | inner =>
          rw [fuzzOf_of_none rfl]
          exact hold
      | @iter s' procs' ev _ _ hprocs =>
          rw [fuzzOf_iter, List.mem_append, not_or]
          refine ⟨hold, fun hmem => ?_⟩
          obtain rfl := List.mem_singleton.mp hmem
          -- the Stop would answer a call, which then is a Stop
          obtain ⟨c, c', hc, -, hc'⟩ := hprocs.self
          obtain ⟨hsession, hcleanSent⟩ := hrun.session hclean hc'
          have hproc : procOf j (es ++ [.iter (.stopped j ts)])
              = procOf j es ++ [.waitResp (.ok .stop)] := procOf_self rfl
          have hn : (Runner.receivedOf (procOf j (es ++ [.iter (.stopped j ts)])))[
              (Runner.receivedOf (procOf j es)).length]? = some .stop := by
            rw [hproc, Runner.receivedOf_concat]
            exact List.getElem?_concat_length
          obtain ⟨call, hcall, hanswer⟩ := hsession.answers hcleanSent hn
          obtain ⟨ts', hcalled⟩ := hrun.sent_called (List.mem_of_getElem? hcall)
          have hgen := hrun.fuzzRun.loopInv.generated_pool hcalled
          cases hgen <;> exact hanswer.elim

/-- **The answers of the reference client**: a response harvested answers the call that
it was harvested for, on the map that the client's own calls before it leave. -/
theorem LiveRun.answers (h : LiveRun program cfg es l) (hclean : CleanCalls es)
    {pre post : List Harvest} {g : Harvest} (hsplit : harvestsBy (fuzzOf es) j = pre ++ g :: post) :
    HalfOpenAnswers (KvMap.afterAll (pre.map Harvest.call)) g.call g.resp := by
  have hmem : g ∈ harvestsBy (fuzzOf es) j := by
    rw [hsplit]
    simp
  obtain ⟨hg, hcidx⟩ := List.mem_filter.mp hmem
  have hlt : j < cfg.numClis := by
    rw [← of_decide_eq_true hcidx]
    exact h.fuzzRun.loopInv.cidx _ (mem_harvests.mp hg)
  have hproc : j < l.procs.length := by rwa [h.procs_length]
  obtain ⟨hsession, hcleanSent⟩ := h.session hclean (List.getElem?_eq_getElem hproc)
  have hinv := h.clientInv (h.not_stopped hclean) hlt
  obtain ⟨client, -, hsent⟩ := hinv.sent
  have hn : (Runner.receivedOf (procOf j es))[pre.length]? = some g.resp := by
    rw [hinv.received, hsplit]
    simp
  obtain ⟨call, hcall, hanswer⟩ := hsession.answers hcleanSent hn
  rw [hsent, hsplit] at hcall hanswer
  have hsame : g.call = call := by simpa using hcall
  rw [hsame]
  simpa using hanswer

end Answers

end Madkv
