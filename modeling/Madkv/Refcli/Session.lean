import Madkv.Refcli.Main
import Madkv.Runner.ProcOrder

/-!
The reference client behind its handle.

* `Process.At`: where the main loop is once it has handled some calls, by the
  responses to them (`respond`).
* `SessionInv`: the driver is where `DriverInv` says, and the reference client has
  handled the first of the calls written to it. `SessionInv.step`: every step of every
  party keeps it.
* `received_session`: the owner gets the responses to its calls, in order.
-/

namespace Madkv

open Execution Words Runner Replies Refcli

namespace Refcli

/-- The responses of the reference client to some calls, from the empty map. -/
def respond (calls : List KvCall) : List KvResp := replies answer (some ∅) calls

/-- The map that it goes on with after them, if it does. -/
def mapAfter (calls : List KvCall) : Option State := after answer (some ∅) calls

/-- Where the main loop is after the calls handled and the text written. -/
def Process.At (handled : List KvCall) (written : Stream) : Process → Prop
  | .reads state => mapAfter handled = some state ∧ written = writeResponses (respond handled)
  | .writes pending next => mapAfter handled = next
      ∧ written ++ pending.flatMap writeln = writeResponses (respond handled)
  | .exited => mapAfter handled = none ∧ written = writeResponses (respond handled)

/-- The reference client writes whole lines. -/
lemma program_writesLines : program.WritesLines := by
  rintro p stdin p' stdin' out (⟨fuel, h⟩ | ⟨-, -, -, -, rfl⟩)
  swap
  · exact wholeLines_nil
  cases p with
  | reads state =>
      rw [mainStep] at h
      split at h
      · cases h
      · cases h
        exact wholeLines_nil
      · cases h
        exact wholeLines_nil
  | writes pending next =>
      cases pending with
      | cons line pending =>
          cases h
          exact wholeLines_newline line
      | nil =>
          cases next with
          | none | some state =>
              cases h
              exact wholeLines_nil
  | exited => cases h

end Refcli

/-- The calls and the responses of a session, and the reference client. -/
structure SessionInv (c : Runner.ClientProc Process) (es : List Runner.Event) : Prop where
  driver : DriverInv c es
  process : ∃ handled unread, askedOf es = handled ++ unread
    ∧ c.process.At handled (writtenOf es)
    ∧ (program.exited c.process = false → c.stdin = writeCalls unread)

section Process

variable {handled unread : List KvCall} {written stdin stdin' out : Stream} {p p' : Process}
  {call : KvCall} {state : State}

lemma readCall_unique {m n : ℕ} {r : Reader} {a b : Except IoError KvCall × Reader}
    (ha : readCall m r = some a) (hb : readCall n r = some b) : a = b := by
  rw [readCall] at ha hb
  cases hm : readNextLine m r with
  | none =>
      rw [hm] at ha
      cases ha
  | some line =>
      cases hn : readNextLine n r with
      | none =>
          rw [hn] at hb
          cases hb
      | some line' =>
          obtain rfl := Loop.run_unique hm hn
          rw [hm] at ha
          rw [hn] at hb
          exact Option.some.inj (ha.symm.trans hb)

/-- The call read is the first one that was written. -/
lemma readCall_writeCalls {fuel : ℕ} {res : Except IoError KvCall} {r : Reader}
    (hwords : ∀ call ∈ unread, call.Clean)
    (h : readCall fuel ⟨writeCalls unread, []⟩ = some (res, r)) :
    ∃ call rest, unread = call :: rest ∧ res = .ok call ∧ r.stream = writeCalls rest := by
  cases unread with
  | nil =>
      rw [show writeCalls [] = [] from rfl, readCall_nil] at h
      cases h
  | cons call rest =>
      obtain ⟨r', hread, hrest⟩ := exists_readCall (hwords call List.mem_cons_self).words
        (writeCalls rest) []
      obtain ⟨rfl, rfl⟩ := Prod.mk.inj (readCall_unique h hread)
      exact ⟨call, rest, rfl, rfl, hrest⟩

lemma mapAfter_concat (h : mapAfter handled = some state) (call : KvCall) :
    mapAfter (handled ++ [call]) = after answer (some state) [call] := by
  rw [mapAfter, after_append]
  exact congrArg (after answer · [call]) h

lemma respond_concat (h : mapAfter handled = some state) (call : KvCall) :
    respond (handled ++ [call]) = respond handled ++ replies answer (some state) [call] := by
  rw [respond, replies_append]
  exact congrArg (respond handled ++ replies answer · [call]) h

/-- Handling a call. -/
lemma at_handled (hmap : mapAfter handled = some state)
    (hwritten : written = writeResponses (respond handled)) (call : KvCall) :
    (Refcli.handled call state).At (handled ++ [call]) written := by
  rw [Refcli.handled]
  cases hhandle : handleKvCall call state with
  | none =>
      have hanswer : answer state call = none := by rw [answer, hhandle]; rfl
      refine ⟨?_, ?_⟩
      · rw [mapAfter_concat hmap, after_cons_of_none hanswer]
      · rw [respond_concat hmap, replies_cons_of_none hanswer, List.append_nil, hwritten]
  | some out =>
      obtain ⟨resp, state'⟩ := out
      have hanswer : answer state call = some (resp, afterResp resp state') := by
        rw [answer, hhandle]
        rfl
      refine ⟨?_, ?_⟩
      · rw [mapAfter_concat hmap, after_cons hanswer, after_nil]
      · rw [respond_concat hmap, replies_cons hanswer, replies_nil, writeResponses_append, hwritten,
          flatMap_responseLines, writeResponses, writeResponses, List.flatMap_singleton]

/-- **A step of the reference client**: it handles the next call, or writes more of
the responses. -/
lemma Refcli.Process.At.mainStep {fuel : ℕ} (h : p.At handled written)
    (hstdin : program.exited p = false → stdin = writeCalls unread)
    (hclean : ∀ call ∈ unread, call.Clean)
    (hstep : mainStep fuel p stdin = some (p', stdin', out)) :
    ∃ handled' unread', handled ++ unread = handled' ++ unread'
      ∧ p'.At handled' (written ++ out)
      ∧ (program.exited p' = false → stdin' = writeCalls unread') := by
  cases p with
  | reads state =>
      obtain ⟨hmap, hwritten⟩ := h
      rw [hstdin rfl, Refcli.mainStep] at hstep
      split at hstep
      · cases hstep
      · rename_i e r hread
        obtain ⟨_, _, _, hok, _⟩ := readCall_writeCalls hclean hread
        cases hok
      · rename_i call r hread
        obtain ⟨_, rest, rfl, hok, hrest⟩ := readCall_writeCalls hclean hread
        cases hok
        cases hstep
        refine ⟨handled ++ [call], rest, by simp, ?_, fun _ => hrest⟩
        rw [List.append_nil]
        exact at_handled hmap hwritten call
  | writes pending next =>
      obtain ⟨hmap, hwritten⟩ := h
      cases pending with
      | cons line pending =>
          cases hstep
          refine ⟨handled, unread, rfl, ⟨hmap, ?_⟩, fun _ => hstdin rfl⟩
          rw [← hwritten, List.flatMap_cons, List.append_assoc]
      | nil =>
          rw [List.flatMap_nil, List.append_nil] at hwritten
          cases next with
          | none =>
              cases hstep
              exact ⟨handled, unread, rfl, ⟨hmap, by rw [List.append_nil, hwritten]⟩,
                fun hlive => absurd hlive (by simp [program])⟩
          | some state =>
              cases hstep
              exact ⟨handled, unread, rfl, ⟨hmap, by rw [List.append_nil, hwritten]⟩,
                fun _ => hstdin rfl⟩
  | exited => cases hstep

/-- What is written is the beginning of the responses. -/
lemma Refcli.Process.At.written_isPrefix (h : p.At handled written) :
    written <+: writeResponses (respond handled) := by
  cases p with
  | reads state =>
      rw [h.2]
  | writes pending next =>
      rw [← h.2]
      exact List.prefix_append _ _
  | exited => rw [h.2]

end Process

section Session

variable {c c' : Runner.ClientProc Process} {es : List Runner.Event} {e : Runner.Event}

lemma SessionInv.start : SessionInv (Runner.ClientProc.new program) [] where
  driver := .start
  process := ⟨[], [], rfl, ⟨rfl, rfl⟩, fun _ => rfl⟩

lemma writeCalls_append (calls calls' : List KvCall) :
    writeCalls (calls ++ calls') = writeCalls calls ++ writeCalls calls' := by
  simp [writeCalls]

/-- A step that neither asks the process nor is its own. -/
lemma SessionInv.of_same (h : SessionInv c es) (hdriver : DriverInv c' (es ++ [e]))
    (hprocess : c'.process = c.process) (hstdin : c'.stdin = c.stdin)
    (hasked : e.asked = none) (hwritten : e.written = []) : SessionInv c' (es ++ [e]) := by
  refine ⟨hdriver, ?_⟩
  rw [hprocess, hstdin, askedOf_concat, writtenOf_concat, hasked, hwritten]
  simpa using h.process

/-- **Every step** keeps the invariant. -/
lemma SessionInv.step (h : SessionInv c es) (hclean : ∀ call ∈ sentOf es, call.Clean)
    (hstep : Step program c e c') : SessionInv c' (es ++ [e]) := by
  have hdriver := h.driver.step program_writesLines hstep
  cases hstep.cases with
  | owner hinternal =>
      obtain ⟨hasked, -, hwritten⟩ := Runner.Event.quiet_of_owner hinternal
      exact h.of_same hdriver rfl rfl hasked hwritten
  | driver hdriverStep =>
      cases hdriverStep with
      | @writes call hreads hlive =>
          obtain ⟨handled, unread, hasked, hat, hstdin⟩ := h.process
          refine ⟨hdriver, handled, unread ++ [call], ?_, ?_, fun _ => ?_⟩
          · rw [askedOf_concat, hasked, List.append_assoc]
            rfl
          · simpa using hat
          · show c.stdin ++ _ = _
            rw [hstdin hlive, writeCalls_append, writeCalls, writeCalls, List.flatMap_singleton]
      | receives | reads | sends | unowned | broken | garbled | unheard =>
          exact h.of_same hdriver rfl rfl rfl rfl
  | spins => exact h.of_same hdriver rfl rfl rfl rfl
  | clientEnd _ hclient =>
      obtain ⟨-, -, rfl, rfl, rfl⟩ := hclient
      exact h.of_same hdriver rfl rfl rfl rfl
  | client hclient =>
      obtain ⟨fuel, hmain⟩ := hclient
      obtain ⟨handled, unread, hasked, hat, hstdin⟩ := h.process
      have hunread : ∀ call ∈ unread, call.Clean := fun call hcall =>
        hclean call (h.driver.asked.subset (hasked ▸ List.mem_append_right handled hcall))
      obtain ⟨handled', unread', hsplit, hat', hstdin'⟩ := hat.mainStep hstdin hunread hmain
      refine ⟨hdriver, handled', unread', ?_, ?_, hstdin'⟩
      · rw [askedOf_concat, ← hsplit, ← hasked]
        exact List.append_nil _
      · rw [writtenOf_concat]
        exact hat'

/-- The rule for sessions: what each step keeps while the calls sent are clean holds throughout. -/
theorem session_induction {I : Runner.ClientProc Process → List Runner.Event → Prop}
    (hstart : I (.new program) [])
    (hkeeps : ∀ {es c e c'}, ProcRun program es c → (∀ call ∈ sentOf es, call.Clean) → I c es →
      Step program c e c' → I c' (es ++ [e]))
    (h : ProcRun program es c) (hclean : ∀ call ∈ sentOf es, call.Clean) : I c es := by
  refine h.invariant (P := fun es c => (∀ call ∈ sentOf es, call.Clean) → I c es)
    (fun _ => hstart) ?_ hclean
  intro es c e c' hpre ih hstep hclean
  have hclean' : ∀ call ∈ sentOf es, call.Clean := fun call hcall =>
    hclean call (by rw [sentOf_concat]; exact List.mem_append_left _ hcall)
  exact hkeeps hpre hclean' (ih hclean') hstep

/-- **A whole session** keeps it, if its calls are clean. -/
theorem SessionInv.run (h : ProcRun program es c) (hclean : ∀ call ∈ sentOf es, call.Clean) :
    SessionInv c es :=
  session_induction .start (fun _ hclean ih hstep => ih.step hclean hstep) h hclean

/-! ### In order -/

lemma SessionInv.respond_clean {calls : List KvCall} (hclean : ∀ call ∈ sentOf es, call.Clean)
    (hsub : calls <+: sentOf es) : ∀ resp ∈ respond calls, resp.Clean :=
  replies_clean State.clean_empty fun call hcall => hclean call (hsub.subset hcall)

/-- What the reference client has written tells the first of its responses. -/
lemma SessionInv.written (h : SessionInv c es) (hclean : ∀ call ∈ sentOf es, call.Clean) :
    answers .head (liveLines (writtenOf es)) <+: (respond (sentOf es)).map some := by
  obtain ⟨handled, unread, hasked, hat, -⟩ := h.process
  have hsub : handled <+: sentOf es := by
    refine List.IsPrefix.trans ?_ h.driver.asked
    rw [hasked]
    exact List.prefix_append _ _
  obtain ⟨rest, hrest⟩ := hat.written_isPrefix
  have htold : answers .head (liveLines (writtenOf es)) <+: (respond handled).map some := by
    rw [← answers_writeResponses (SessionInv.respond_clean hclean hsub), ← hrest,
      liveLines_append h.driver.lines.1]
    exact answers_isPrefix _ _ _
  exact htold.trans ((replies_isPrefix _ hsub).map some)

/-- The responses read are the first of those to the calls sent. -/
lemma SessionInv.read (h : SessionInv c es) (hclean : ∀ call ∈ sentOf es, call.Clean) :
    readOf es <+: respond (sentOf es) := by
  rw [← List.prefix_map_iff_of_injective (Option.some_injective _)]
  exact h.driver.read.trans (h.written hclean)

/-- What the reference client writes is never an error to its handle. -/
lemma SessionInv.not_garbled (h : SessionInv c es) (hclean : ∀ call ∈ sentOf es, call.Clean)
    (hdriver : c.driver = .reads) {fuel : ℕ} {err : RunnerError} {r : Reader}
    (hread : fromRead fuel c.stdout = some (.error err, r)) : False := by
  have hwritten := h.written hclean
  have htold := h.driver.told
  rw [hdriver] at htold
  have hall := htold []
  have hout := fromRead_outcome hread
  cases hresp : readResponse (liveLines c.stdout.stream) with
  | waits | reads =>
      rw [hresp] at hout
      simp [Outcome.Of] at hout
  | fails =>
      rw [List.append_nil, List.append_nil, @answers_head (liveLines c.stdout.stream),
        hresp] at hall
      rw [hall] at hwritten
      have hmem : none ∈ (respond (sentOf es)).map some :=
        hwritten.subset (List.mem_append_right _ List.mem_cons_self)
      simp at hmem

end Session

/-! ### The sequential map -/

/-- The sequential map after some calls. -/
def KvMap.afterAll (calls : List KvCall) : KvMap := calls.foldl KvMap.after KvMap.empty

/-- The map of the reference client is the sequential one. -/
lemma toMap_mapAfter {calls : List KvCall} {state : State} (h : mapAfter calls = some state) :
    state.toMap = KvMap.afterAll calls := by
  have hgen : ∀ (start : State), after answer (some start) calls = some state →
      state.toMap = calls.foldl KvMap.after start.toMap := by
    clear h
    induction calls with
    | nil =>
        intro start hstart
        cases hstart
        rfl
    | cons call calls ih =>
        intro start hstart
        cases hanswer : answer start call with
        | none =>
            rw [after_cons_of_none hanswer] at hstart
            cases hstart
        | some reply =>
            obtain ⟨resp, next⟩ := reply
            obtain ⟨⟨resp', state'⟩, hhandle, heq⟩ := Option.map_eq_some_iff.mp hanswer
            cases heq
            rw [after_cons hanswer, afterResp] at hstart
            split_ifs at hstart
            · rw [after_none] at hstart
              cases hstart
            · rw [List.foldl_cons, ← (handleKvCall_spec hhandle).2]
              exact ih state' hstart
  rw [hgen ∅ h, State.toMap_empty]
  rfl

/-- Each response is the one that the sequential map gives after the calls before it. -/
lemma halfOpenAnswers_respond {calls : List KvCall} {n : ℕ} {resp : KvResp}
    (h : (respond calls)[n]? = some resp) : ∃ call, calls[n]? = some call
      ∧ HalfOpenAnswers (KvMap.afterAll (calls.take n)) call resp := by
  obtain ⟨call, state, next, hcall, hafter, hanswer⟩ := exists_of_getElem? h
  obtain ⟨⟨resp', state'⟩, hhandle, heq⟩ := Option.map_eq_some_iff.mp hanswer
  cases heq
  refine ⟨call, hcall, ?_⟩
  rw [← toMap_mapAfter hafter]
  exact (handleKvCall_spec hhandle).1

variable {c : Runner.ClientProc Process} {es : List Runner.Event}

/-- The responses received are the first of those to the calls sent. -/
lemma SessionInv.received (h : SessionInv c es) (hclean : ∀ call ∈ sentOf es, call.Clean) :
    receivedOf es <+: respond (sentOf es) :=
  h.driver.received.trans (h.read hclean)

/-- A response received answers the call in its place. -/
lemma SessionInv.answers (h : SessionInv c es) (hclean : ∀ call ∈ sentOf es, call.Clean) {n : ℕ}
    {resp : KvResp} (hn : (receivedOf es)[n]? = some resp) : ∃ call, (sentOf es)[n]? = some call
      ∧ HalfOpenAnswers (KvMap.afterAll ((sentOf es).take n)) call resp := by
  obtain ⟨rest, hrest⟩ := h.received hclean
  have hrespond : (respond (sentOf es))[n]? = some resp := by
    rw [← hrest, List.getElem?_append_left (List.getElem?_eq_some_iff.mp hn).1, hn]
  exact halfOpenAnswers_respond hrespond

/-- **A session with the reference client**: whatever the interleaving, the responses
that the owner gets are the first of those to the calls it has sent, in order, and each
answers the call in its place as the sequential map does. -/
theorem received_session (es : List Runner.Event) (c : Runner.ClientProc Process)
    (h : ProcRun program es c) (hclean : ∀ call ∈ sentOf es, call.Clean) :
    receivedOf es <+: respond (sentOf es)
      ∧ ∀ n resp, (receivedOf es)[n]? = some resp → ∃ call, (sentOf es)[n]? = some call
        ∧ HalfOpenAnswers (KvMap.afterAll ((sentOf es).take n)) call resp := by
  have hinv := SessionInv.run h hclean
  exact ⟨hinv.received hclean, fun _ _ hn => hinv.answers hclean hn⟩

/-- A Put, and the beginning of a Get while the response is on its way. -/
def putEvents : List Runner.Event :=
  [.sendCall (.put "a" "x") (.ok ()), .driver (.receives (.put "a" "x")),
    .driver (.writes (.put "a" "x")), .sendCall (.get "a") (.ok ()), .client [],
    .client (writeln "PUT a not_found"), .driver (.reads (.put "a" false)),
    .driver (.sends (.put "a" false)), .client [], .waitResp (.ok (.put "a" false))]

lemma exists_putRun : ∃ c, ProcRun program putEvents c ∧ c.owner = .owns
    ∧ c.driver.hasEnded = false := by
  have hstart : ProcRun program [] _ := .nil
  have hput := hstart.snoc (step_sendCall (.put "a" "x") rfl rfl)
  have hreceives := hput.snoc (step_driver 0 rfl)
  have hwrites := hreceives.snoc (step_driver 0 rfl)
  have hget := hwrites.snoc (step_sendCall (.get "a") rfl rfl)
  have hhandled := hget.snoc (.client ⟨1, rfl⟩)
  have hline := hhandled.snoc (.client ⟨0, rfl⟩)
  have hreads := hline.snoc (step_driver 1 rfl)
  have hsends := hreads.snoc (step_driver 0 rfl)
  have hnext := hsends.snoc (.client ⟨0, rfl⟩)
  exact ⟨_, hnext.snoc (step_waitResp false rfl rfl), rfl, rfl⟩

lemma cleanEntry_of_all {key value : String} (hkey : key.toList.isEmpty = false)
    (hkeyAll : (key.toList.all fun c => !isWhitespace c) = true)
    (hvalue : value.toList.isEmpty = false)
    (hvalueAll : (value.toList.all fun c => !isWhitespace c) = true) (hnull : value ≠ "null")
    (hend : (key, value) ≠ ("SCAN", "END")) : CleanEntry key value :=
  ⟨word_of_all hkey hkeyAll, word_of_all hvalue hvalueAll, hnull, hend⟩

lemma clean_putEvents : ∀ call ∈ sentOf putEvents, call.Clean := by
  have hsent : sentOf putEvents = [.put "a" "x", .get "a"] := rfl
  rw [hsent]
  refine List.forall_mem_cons.mpr ⟨?_, List.forall_mem_singleton.mpr (word_of_all rfl rfl)⟩
  exact cleanEntry_of_all rfl rfl rfl rfl (by decide) (by decide)

theorem received_session_put : receivedOf putEvents <+: respond (sentOf putEvents)
    ∧ ∀ n resp, (receivedOf putEvents)[n]? = some resp → ∃ call, (sentOf putEvents)[n]? = some call
      ∧ HalfOpenAnswers (KvMap.afterAll ((sentOf putEvents).take n)) call resp := by
  obtain ⟨c, hrun, -⟩ := exists_putRun
  exact received_session putEvents c hrun clean_putEvents

end Madkv
