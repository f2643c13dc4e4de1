import Madkv.Fuzzer.LiveClients
import Madkv.Fuzzer.Outcome
import Madkv.Fuzzer.Termination

/-!
A fuzz testing round over reference clients comes to its end.

* `LiveEvent.Drawn`: the values written are such as `gen_rand_string` returns.
* `LiveRun.alive`: no driver leaves its loop. `LiveRun.err_eq`: so the loop fails by a
  time-out only. `LiveRun.exists_resp`: where a client has come to rest, the response that
  the loop waits for is there.
* `LiveRun.exists_step`: so the loop can go on until it has ended. `LiveRun.acc`: it
  cannot go on forever.
* `fuzz_completes`: hence every schedule completes the round.
-/

namespace Madkv

open Execution Refcli Fallible

/-- The value written in an iteration has been drawn. -/
def LiveEvent.Drawn : LiveEvent → Prop
  | .iter (.called _ _ call) => call.Drawn
  | _ => True

/-- No response has been waited for in vain. -/
def LiveEvent.Timely : LiveEvent → Prop
  | .fails _ e => e ≠ .waitResp (.error Runner.timeoutError)
  | _ => True

/-- The iteration makes no call but a Get, and does not fail. -/
def LiveEvent.Gets : LiveEvent → Prop
  | .iter (.called _ _ call) => ∃ key, call = .get key
  | .fails _ _ => False
  | _ => True

lemma LiveEvent.Gets.timely {e : LiveEvent} (h : e.Gets) : e.Timely := by
  cases e with
  | fails => exact h.elim
  | iter | inner => trivial

lemma LiveEvent.Gets.drawn {e : LiveEvent} (h : e.Gets) : e.Drawn := by
  cases e with
  | fails | inner => trivial
  | iter ev =>
      cases ev with
      | called cidx ts call =>
          obtain ⟨key, rfl⟩ := h
          trivial
      | stopped | waited => trivial

/-! ### Iterations and their handles -/

section Handled

variable {cfg : FuzzConfig} {s s' : FuzzState} {d : Draws} {ev : Event}

/-- A Get is among the calls that can be drawn. -/
lemma genRandKvcall_get {keys : List String} {stats stats' : Stats} {cidx : ℕ} {call : KvCall}
    (hvariant : d.variant = 4) (h : genRandKvcall keys stats cidx d = .ok (call, stats')) :
    ∃ key, call = .get key := by
  rw [genRandKvcall, hvariant, bind_eq_ok] at h
  obtain ⟨variant, hindex, h⟩ := h
  obtain rfl : 4 = variant := by
    rw [genRandIndex_of_pos 4 (by omega)] at hindex
    exact Except.ok.inj hindex
  rw [if_neg (by omega), if_neg (by omega), if_pos (by omega)] at h
  simp only [bind_eq_ok] at h
  obtain ⟨_, -, _, -, key, -, h⟩ := h
  cases h
  exact ⟨key, rfl⟩

/-- What a call does to which handle. -/
lemma makeCall_handled (hvariant : d.variant = 4) (h : makeCall cfg s d = .ok (s', ev)) :
    ∃ cidx call, s.flying[cidx]? = some false ∧ ev.handled = (cidx, .sendCall call (.ok ()))
      ∧ (LiveEvent.iter ev).Gets := by
  simp only [makeCall, bind_eq_ok] at h
  obtain ⟨cidx, hcidx, _, -, ⟨call, _⟩, hcall, _, -, _, -, h⟩ := h
  cases h
  exact ⟨cidx, call, genRandClient_eq_ok hcidx, rfl, genRandKvcall_get hvariant hcall⟩

/-- What a harvest does to which handle. -/
lemma harvest_handled (h : harvest cfg s d = .ok (s', ev)) :
    ∃ cidx resp, genRandClient s.flying true d.cidxs = .ok cidx ∧ d.resp = .ok resp
      ∧ ev.handled = (cidx, .waitResp (.ok resp)) ∧ (LiveEvent.iter ev).Gets := by
  simp only [harvest, bind_eq_ok] at h
  obtain ⟨cidx, hcidx, client, -, ⟨call, resp, client'⟩, hwait, h⟩ := h
  have hresp : d.resp = .ok resp := by
    cases hd : d.resp with
    | error e =>
        rw [hd] at hwait
        cases hwait
    | ok resp' =>
        rw [hd] at hwait
        obtain ⟨unanswered⟩ := client
        cases unanswered with
        | nil => cases hwait
        | cons =>
            cases hwait
            rfl
  refine ⟨cidx, resp, hcidx, hresp, ?_⟩
  by_cases hstop : resp = .stop
  · rw [if_pos hstop] at h
    cases h
    rw [hstop]
    exact ⟨rfl, trivial⟩
  · simp only [if_neg hstop, bind_eq_ok] at h
    obtain ⟨_, -, _, -, applied, -, h⟩ := h
    split_ifs at h
    · cases h
      exact ⟨rfl, trivial⟩
    · simp only [bind_eq_ok] at h
      obtain ⟨_, -, h⟩ := h
      cases h
      exact ⟨rfl, trivial⟩

lemma genRandClient_singleton {flying : List Bool} {want : Bool} {j cidx : ℕ}
    (hj : j < flying.length) (h : genRandClient flying want [j] = .ok cidx) : cidx = j := by
  simp only [genRandClient, bind_eq_ok, retryClient] at h
  obtain ⟨_, -, _, -, i, hi, _, -, h⟩ := h
  rw [genRandIndex_of_pos j (Nat.zero_lt_of_lt hj), Nat.mod_eq_of_lt hj] at hi
  cases hi
  split_ifs at h
  cases h
  rfl

end Handled

/-! ### The handles during a round -/

section Alive

variable {cfg : FuzzConfig} {es : List LiveEvent} {l : LiveFuzz Process} {j : ℕ}
  {c : Runner.ClientProc Process}

lemma LiveRun.sent_generated (h : LiveRun program cfg es l) {call : KvCall}
    (hcall : call ∈ Runner.sentOf (procOf j es)) : GeneratedFrom cfg.pool call := by
  obtain ⟨ts, hcalled⟩ := h.sent_called hcall
  exact h.fuzzRun.loopInv.generated_pool hcalled

lemma LiveRun.stop_notMem (h : LiveRun program cfg es l) :
    .stop ∉ Runner.sentOf (procOf j es) := fun hstop => by
  cases h.sent_generated hstop

lemma LiveRun.inOrderScans (h : LiveRun program cfg es l) :
    InOrderScans (Runner.sentOf (procOf j es)) := fun keyStart keyEnd hscan => by
  cases h.sent_generated hscan with
  | scan _ _ hle => exact hle

/-- **The drivers stay in their loops** as long as the round goes on. -/
lemma LiveRun.alive (h : LiveRun program cfg es l) (hclean : CleanCalls es)
    (hc : l.procs[j]? = some c) : c.driver.hasEnded = false := by
  obtain ⟨-, hcleanSent⟩ := h.session hclean hc
  exact alive_of_session (h.procRun hc) hcleanSent (by rw [h.owner hc]; decide) h.stop_notMem
    h.inOrderScans

/-- The clients do not go round at the end of a pipe. -/
lemma LiveRun.advances (h : LiveRun program cfg es l) (hclean : CleanCalls es)
    {c' : Runner.ClientProc Process} {e : Runner.Event} (hc : l.procs[j]? = some c)
    (he : e.Internal) (hstep : Runner.Step program c e c') : e.Advances := by
  obtain ⟨-, hcleanSent⟩ := h.session hclean hc
  exact advances_of_internal (h.procRun hc) hcleanSent (by rw [h.owner hc]; decide)
    (respond_concat_stop h.stop_notMem h.inOrderScans).1 he hstep

/-- **At rest the response is there** that the loop waits for. -/
lemma LiveRun.exists_resp (h : LiveRun program cfg es l) (hclean : CleanCalls es)
    (hc : l.procs[j]? = some c) (hpass : l.fuzz.passed = true)
    (hflying : l.fuzz.flying[j]? = some true)
    (hrest : AtRest (Runner.Step program) Runner.Event.Advances c) :
    ∃ resp rest, c.respQueue = resp :: rest := by
  obtain ⟨-, hcleanSent⟩ := h.session hclean hc
  have hloop := h.fuzzRun.loopInv
  have hlt := hloop.lt_numClis hflying
  have hinv := h.clientInv (h.not_stopped hclean) hlt
  obtain ⟨client, hclient, hsent⟩ := hinv.sent
  have hone : client.unanswered.length = 1 := by
    cases hloop.slots hpass j hlt with
    | idle hidle _ _ =>
        rw [hflying] at hidle
        cases hidle
    | busy t call _ hproc _ _ _ _ =>
        obtain rfl : (⟨[call]⟩ : ClientProc) = client := Option.some.inj (hproc.symm.trans hclient)
        rfl
  refine exists_resp_of_session (h.procRun hc) hcleanSent (by rw [h.owner hc]; decide)
    h.stop_notMem h.inOrderScans hrest ?_
  rw [hsent, hinv.received, List.length_append, List.length_map, List.length_map, hone]
  exact Nat.lt_succ_self _

end Alive

/-! ### Going on and coming to the end -/

section Progress

variable {cfg : FuzzConfig} {es : List LiveEvent} {l : LiveFuzz Process}

/-- **The loop can go on** where the clients have come to rest, if only with Gets. -/
lemma LiveRun.exists_step (h : LiveRun program cfg es l) (hclean : CleanCalls es)
    (hops : 100 ≤ cfg.totalOps) (hclock : 2 * cfg.totalOps ≤ u64Max) (herr : l.err = none)
    (hrun : l.fuzz.Running cfg) : ∃ e l', e.Gets ∧ LiveStep program cfg l e l' := by
  by_contra hnone
  have hrest : AtRest (LiveStep program cfg) LiveEvent.Gets l :=
    fun e l' he hstep => hnone ⟨e, l', he, hstep⟩
  have hloop := h.fuzzRun.loopInv
  have hproc : ∀ {j b}, l.fuzz.flying[j]? = some b → ∃ c, l.procs[j]? = some c := fun hj =>
    ⟨_, List.getElem?_eq_getElem (by rw [h.procs_length]; exact hloop.lt_numClis hj)⟩
  -- the draws: a client of the status looked for, and what its channels do
  obtain ⟨j, hj⟩ := List.mem_iff_getElem?.mp (hloop.wanted hrun true)
  obtain ⟨c, hc⟩ := hproc hj
  have hlt : j < l.fuzz.flying.length := (List.getElem?_eq_some_iff.mp hj).1
  have hstuck : AtRest (Runner.Step program) Runner.Event.Advances c := fun e c' he hstep =>
    hrest (.inner j e) _ trivial (.inner he.internal (sideBySide_of hc hstep))
  obtain ⟨resp, hresp⟩ : ∃ resp, genCallVsWait l.fuzz.opsCalled cfg.totalOps l.fuzz.flying true
      = false → ∃ rest, c.respQueue = resp :: rest := by
    cases hwait : genCallVsWait l.fuzz.opsCalled cfg.totalOps l.fuzz.flying true with
    | true => exact ⟨.stop, fun hfalse => (by cases hfalse)⟩
    | false =>
        rw [hwait] at hj
        obtain ⟨resp, rest, hqueue⟩ := h.exists_resp hclean hc hrun.2 hj hstuck
        exact ⟨resp, fun _ => ⟨rest, hqueue⟩⟩
  set d : Draws := ⟨true, [j], 4, 0, 0, "", .ok (), .ok resp⟩ with hd
  have hsettle : d.Settle cfg l.fuzz := by
    refine ⟨⟨j, List.mem_singleton.mpr rfl, ?_⟩, rfl, ⟨resp, rfl⟩⟩
    rw [Nat.mod_eq_of_lt hlt]
    exact hj
  cases hiter : fuzzIter cfg l.fuzz d with
  | error a => exact (h.fuzzRun.fuzzIter_abortsOnly hrun hops hclock d a hiter).2 hsettle
  | ok out =>
      obtain ⟨s', ev⟩ := out
      have hfuzz : FuzzStep cfg l.fuzz ev s' := ⟨hrun, d, hiter⟩
      -- the iteration works with a handle that can do what it asks for
      suffices hside : (LiveEvent.iter ev).Gets
          ∧ ∃ procs', SideBySide (Runner.Step program) l.procs ev.handled procs' by
        obtain ⟨hgets, procs', hprocs⟩ := hside
        exact hrest (.iter ev) _ hgets (.iter herr hfuzz hprocs)
      simp only [fuzzIter, bind_eq_ok] at hiter
      obtain ⟨_, -, hiter⟩ := hiter
      split_ifs at hiter with hcall
      · obtain ⟨cidx, call, hidle, hhandled, hgets⟩ := makeCall_handled rfl hiter
        obtain ⟨c', hc'⟩ := hproc hidle
        rw [hhandled]
        exact ⟨hgets, _,
          sideBySide_of hc' (Runner.step_sendCall call (h.owner hc') (h.alive hclean hc'))⟩
      · obtain ⟨cidx, resp', hcidx, hdresp, hhandled, hgets⟩ := harvest_handled hiter
        obtain rfl : cidx = j := genRandClient_singleton hlt hcidx
        cases hdresp
        obtain ⟨rest, hqueue⟩ := hresp (Bool.eq_false_iff.mpr hcall)
        have hwait : c.waitResp false = some (.ok resp, { c with respQueue := rest }) := by
          rw [Runner.ClientProc.waitResp, hqueue]
        rw [hhandled]
        exact ⟨hgets, _, sideBySide_of hc (Runner.step_waitResp false (h.owner hc) hwait)⟩

/-- The loop breaks on a report only. -/
lemma LiveRun.passed_iff (h : LiveRun program cfg es l) (hclean : CleanCalls es) :
    l.fuzz.passed = true ↔ Unreported (fuzzOf es) :=
  h.fuzzRun.passed_iff_unreported.trans (and_iff_right (h.not_stopped hclean))

/-- **A round fails by a time-out only**: the drivers stay in their loops. -/
lemma LiveRun.err_eq (h : LiveRun program cfg es l) (hclean : CleanCalls es) {err : RunnerError}
    (herr : l.err = some err) : err = Runner.timeoutError
      ∧ ∃ cidx, .fails cidx (.waitResp (.error Runner.timeoutError)) ∈ es := by
  induction h with
  | nil => cases herr
  | @snoc es l l' e hpre hlast ih =>
      have hold : l.err = some err → err = Runner.timeoutError
          ∧ ∃ cidx, .fails cidx (.waitResp (.error Runner.timeoutError)) ∈ es ++ [e] := by
        intro herr
        obtain ⟨heq, cidx, hmem⟩ := ih hclean.of_concat herr
        exact ⟨heq, cidx, List.mem_append_left _ hmem⟩
      cases hlast with
      | iter | inner => exact hold herr
      | @fails _ d err' cidx ev _ _ _ hop hprocs =>
          obtain rfl := Option.some.inj herr
          obtain ⟨c, c', hc, hstep, -⟩ := hprocs.self
          replace hpre : LiveRun program cfg es l := hpre
          have halive := hpre.alive hclean.of_concat hc
          rcases failedOp_eq_ok hop with heq | ⟨call, heq⟩
          · obtain rfl : ev = .waitResp (.error err') := heq
            cases hstep with
            | waitResp _ hwait =>
                rcases Runner.ClientProc.waitResp_error_cases hwait with hended | rfl
                · rw [halive] at hended
                  cases hended
                · exact ⟨rfl, cidx, by simp⟩
          · obtain rfl : ev = .sendCall call (.error err') := heq
            cases hstep with
            | sendCall _ hsend =>
                rw [(Runner.ClientProc.sendCall_eq_error hsend).1] at halive
                cases halive

end Progress

section Main

variable {args : Args} {drawn : ℕ → ℕ → String} {es : List LiveEvent} {l : LiveFuzz Process}

/-- The calls that `main` makes are clean. -/
lemma cleanCalls_of_drawn (h : args.Checked) (hkeys : ∀ j i, RandString keyLen (drawn j i))
    (hrun : LiveRun program (args.config h drawn) es l) (hes : ∀ e ∈ es, e.Drawn) :
    CleanCalls es := by
  intro j ts call hcalled
  obtain ⟨le, hle, heq⟩ := List.mem_filterMap.mp hcalled
  cases le with
  | fails cidx e | inner cidx e => cases heq
  | iter ev =>
      cases heq
      refine clean_of_generated (hrun.fuzzRun.loopInv.generated_pool hcalled) ?_ (hes _ hle)
      exact fun key hkey => RandString.mem_genKeys h hkeys hkey

/-- How far the loop is from its end. -/
def LiveFuzz.work {P : Type} (cfg : FuzzConfig) (l : LiveFuzz P) : ℕ :=
  if l.err = none then 2 * cfg.totalOps + 1 - l.fuzz.timestamp else 0

/-- An iteration uses up the clock, and an error ends the loop. -/
lemma LiveRun.work_lt {P : Type} {prog : Runner.Program P} {cfg : FuzzConfig} {l l' : LiveFuzz P}
    {e : LiveEvent} (h : LiveRun prog cfg es l) (hstep : LiveStep prog cfg l e l')
    (hloop : ∀ cidx ev, e ≠ .inner cidx ev) : l'.work cfg < l.work cfg := by
  have hinv := h.fuzzRun.loopInv
  have hcalled := hinv.called_le
  cases hstep with
  | inner => exact absurd rfl (hloop _ _)
  | fails herr hrunning =>
      have hclock := hinv.clock_ops hrunning.2
      have hwaited := hrunning.1
      simp only [LiveFuzz.work, herr, if_true, reduceCtorEq, if_false]
      omega
  | @iter s' procs' ev herr hfuzz _ =>
      have hclock := hinv.clock_ops hfuzz.cases.1.2
      have hwaited := hfuzz.cases.1.1
      have hts : s'.timestamp = l.fuzz.timestamp + 1 := by
        cases hfuzz.cases.2 with
        | called hmade => rw [hmade.state]
        | stopped hh =>
            obtain ⟨rest, hstate⟩ := hh.state
            rw [hstate]
        | waited hh => rw [hh.state]
      simp only [LiveFuzz.work, herr, if_true]
      omega

/-- **The round cannot go on forever**: each iteration uses up the clock, and between
two of them the clients come to rest. -/
lemma LiveRun.acc (h : args.Checked) (hkeys : ∀ j i, RandString keyLen (drawn j i))
    (hrun : LiveRun program (args.config h drawn) es l) (hes : ∀ e ∈ es, e.Drawn) :
    Acc (fun l' l => Leads (LiveStep program (args.config h drawn)) LiveEvent.Drawn l l') l := by
  have hwf : ∀ x : ℕ × List (Runner.ClientProc Process), Acc (Prod.Lex (· < ·) fun procs' procs =>
      Leads (SideBySide (Runner.Step program)) (fun e => e.2.Advances) procs procs') x := fun x =>
    Prod.lexAccessible (Nat.lt_wfRel.wf.apply x.1)
      (fun procs => sideBySide_acc fun c _ => advances_acc c) x.2
  have hall : ∀ x, ∀ es l, LiveRun program (args.config h drawn) es l → (∀ e ∈ es, e.Drawn) →
      (l.work (args.config h drawn), l.procs) = x →
      Acc (fun l' l => Leads (LiveStep program (args.config h drawn)) LiveEvent.Drawn l l') l := by
    intro x
    induction hwf x with
    | intro x _ ih =>
        rintro es l hrun hes rfl
        have hclean := cleanCalls_of_drawn h hkeys hrun hes
        refine ⟨_, ?_⟩
        rintro l' ⟨e, he, hstep⟩
        refine ih _ ?_ (es ++ [e]) l' (hrun.snoc hstep) (fun e' he' => ?_) rfl
        · cases hstep with
          | inner hinternal hprocs =>
              obtain ⟨c, c', hc, hclient, hprocs'⟩ := id hprocs
              exact Prod.Lex.right _ ⟨_, hrun.advances hclean hc hinternal hclient, hprocs⟩
          | fails herr hrunning hiter hop hprocs =>
              exact Prod.Lex.left _ _
                (hrun.work_lt (.fails herr hrunning hiter hop hprocs) fun _ _ h => by cases h)
          | iter herr hfuzz hprocs =>
              exact Prod.Lex.left _ _
                (hrun.work_lt (.iter herr hfuzz hprocs) fun _ _ h => by cases h)
        · rcases List.mem_append.mp he' with he' | he'
          · exact hes e' he'
          · exact List.mem_singleton.mp he' ▸ he
  exact hall _ es l hrun hes rfl

lemma hundred_le_totalOps (h : args.Checked) : 100 ≤ (args.config h drawn).totalOps := by
  calc 100 ≤ args.numOps := by
        have := h.numOps
        omega
    _ ≤ args.numOps * args.numClis := Nat.le_mul_of_pos_right _ (Nat.pos_of_ne_zero h.numClis)

end Main

/-- **A fuzz testing round over reference clients completes**, on any schedule of the
loop, the drivers and the processes: it cannot go on forever, it fails only where a
response has been waited for too long, and where it can go on only so the loop has ended,
with every call answered unless a response was reported. -/
theorem fuzz_completes (args : Args) (hargs : args.Checked) (drawn : ℕ → ℕ → String)
    (hkeys : ∀ j i, RandString keyLen (drawn j i))
    (hclock : 2 * (args.numOps * args.numClis) ≤ u64Max) (es : List LiveEvent)
    (l : LiveFuzz Process) (h : LiveRun program (args.config hargs drawn) es l)
    (hes : ∀ e ∈ es, e.Drawn) :
    Acc (fun l' l => Leads (LiveStep program (args.config hargs drawn)) LiveEvent.Drawn l l') l
      ∧ (∀ err, l.err = some err → err = Runner.timeoutError
        ∧ ∃ cidx, .fails cidx (.waitResp (.error Runner.timeoutError)) ∈ es)
      ∧ (AtRest (LiveStep program (args.config hargs drawn)) (fun e => e.Drawn ∧ e.Timely) l →
        l.err = none → ¬ l.fuzz.Running (args.config hargs drawn)
          ∧ (Unreported (fuzzOf es) → l.fuzz.passed = true
            ∧ l.fuzz.opsWaited = args.numOps * args.numClis
            ∧ ∀ j ts call, .called j ts call ∈ fuzzOf es → Answered (fuzzOf es) j ts)) := by
  have hclean := cleanCalls_of_drawn hargs hkeys h hes
  refine ⟨h.acc hargs hkeys hes, fun err => h.err_eq hclean, fun hrest herr => ?_⟩
  have hended : ¬ l.fuzz.Running (args.config hargs drawn) := fun hrun => by
    obtain ⟨e, l', he, hstep⟩ := h.exists_step hclean (hundred_le_totalOps hargs) hclock herr hrun
    exact hrest e l' ⟨he.drawn, he.timely⟩ hstep
  refine ⟨hended, fun hquiet => ?_⟩
  have hpass := (h.passed_iff hclean).mpr hquiet
  have hloop := h.fuzzRun.loopInv
  have hdone : l.fuzz.opsWaited = args.numOps * args.numClis := by
    have hge : ¬ l.fuzz.opsWaited < args.numOps * args.numClis := fun hlt => hended ⟨hlt, hpass⟩
    have hcount := hloop.flying_count hpass
    have hle : l.fuzz.opsCalled ≤ args.numOps * args.numClis := hloop.called_le
    omega
  exact ⟨hpass, hdone, (hloop.answered hpass hdone).2⟩

/-- One client, with one key. -/
def oneArgs : Args := ⟨1, 1, 1000, true⟩

lemma checked_oneArgs : oneArgs.Checked := by constructor <;> decide

/-- The keys drawn are not used where the clients conflict. -/
lemma randString_unused : ∀ _ _ : ℕ, RandString keyLen "aaaaaaaa" := fun _ _ =>
  ⟨rfl, List.all_eq_true.mp (by decide)⟩

/-- Some round in which no response is waited for too long, to its end. -/
theorem fuzz_completes_oneArgs : ∃ es l,
    LiveRun program (oneArgs.config checked_oneArgs fun _ _ => "aaaaaaaa") es l
      ∧ ¬ l.fuzz.Running (oneArgs.config checked_oneArgs fun _ _ => "aaaaaaaa")
      ∧ (Unreported (fuzzOf es) → l.fuzz.passed = true ∧ l.fuzz.opsWaited = 1000 * 1
        ∧ ∀ j ts call, .called j ts call ∈ fuzzOf es → Answered (fuzzOf es) j ts) := by
  have hstart : LiveRun program (oneArgs.config checked_oneArgs fun _ _ => "aaaaaaaa") [] _ := .nil
  obtain ⟨hacc, -⟩ := fuzz_completes oneArgs checked_oneArgs _ randString_unused (by decide) [] _
    hstart fun e he => absurd he List.not_mem_nil
  have hacc' := Subrelation.accessible (fun hlead =>
    Leads.mono (L := fun e : LiveEvent => e.Drawn ∧ e.Timely) hlead fun e he => he.1) hacc
  obtain ⟨es, l, hrun, hes, hrest⟩ := exists_atRest hacc'
  obtain ⟨-, herr, hends⟩ := fuzz_completes oneArgs checked_oneArgs _ randString_unused (by decide)
    es l hrun fun e he => (hes e he).1
  refine ⟨es, l, hrun, hends hrest ?_⟩
  rw [Option.eq_none_iff_forall_ne_some]
  intro err hfailed
  obtain ⟨-, cidx, hmem⟩ := herr err hfailed
  exact (hes _ hmem).2 rfl

end Madkv
