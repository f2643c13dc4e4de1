import Madkv.Runner.Proc

/-!
Calls and responses in order, whatever the client process does.

* `DriverCase`: everything that the driver thread can do. `StepCase`: everything that a step
  of any party can do.
* `driver_of_atRest`: where the driver thread has nothing left to do.
* `DriverInv`: where the calls and the responses of a run are. The lines that the
  driver has not read yet tell the responses that are still to come.
  `DriverInv.step`: every step of every party keeps it.
* `received_inOrder`: the owner gets the responses that the output of the process
  tells, in order, and no call is written before the one before it is answered.
-/

namespace Madkv.Runner

open Execution

variable {P : Type} {prog : Program P} {c c' : ClientProc P}

/-! ### The operations -/

/-- Everything that the driver thread can do. -/
inductive DriverCase (prog : Program P) (c : ClientProc P) : DriverEvent → ClientProc P → Prop
  | receives {call : KvCall} {callQueue : List KvCall} (hdriver : c.driver = .receives)
      (hqueue : c.callQueue = call :: callQueue) :
      DriverCase prog c (.receives call) { c with
        callQueue
        driver := .writes call
        stopped := c.stopped || call = .stop }
  | writes {call : KvCall} (hdriver : c.driver = .writes call)
      (hlive : prog.exited c.process = false) :
      DriverCase prog c (.writes call) { c with
        stdin := c.stdin ++ ofText call.intoWrite.toList
        driver := .reads }
  | reads {fuel : ℕ} {resp : KvResp} {r : Reader} (hdriver : c.driver = .reads)
      (hread : fromRead fuel c.stdout = some (.ok resp, r)) :
      DriverCase prog c (.reads resp) { c with stdout := r, driver := .sends resp }
  | sends {resp : KvResp} (hdriver : c.driver = .sends resp) (howner : c.owner ≠ .dropped) :
      DriverCase prog c (.sends resp) { c with
        respQueue := c.respQueue ++ [resp]
        driver := .receives }
  /-- there is no owner to receive from -/
  | unowned (hdriver : c.driver = .receives) (hqueue : c.callQueue = [])
      (howner : c.owner = .dropped) :
      DriverCase prog c (.ends recvError) { c with driver := .ended recvError }
  /-- there is no process to write to -/
  | broken {call : KvCall} (hdriver : c.driver = .writes call)
      (hexited : prog.exited c.process = true) :
      DriverCase prog c (.ends brokenPipe) { c with driver := .ended brokenPipe }
  /-- what the process wrote is no response -/
  | garbled {fuel : ℕ} {e : RunnerError} {r : Reader} (hdriver : c.driver = .reads)
      (hread : fromRead fuel c.stdout = some (.error e, r)) :
      DriverCase prog c (.ends e) { c with stdout := r, driver := .ended e }
  /-- there is no owner to send to -/
  | unheard {resp : KvResp} (hdriver : c.driver = .sends resp) (howner : c.owner = .dropped) :
      DriverCase prog c (.ends sendError) { c with driver := .ended sendError }

lemma driverStep_cases {fuel : ℕ} {ev : DriverEvent} (h : c.driverStep prog fuel = some (ev, c')) :
    DriverCase prog c ev c' := by
  rw [ClientProc.driverStep] at h
  cases hdriver : c.driver with
  | receives =>
      rw [hdriver] at h
      cases hqueue : c.callQueue with
      | cons call callQueue =>
          rw [hqueue] at h
          cases h
          exact .receives hdriver hqueue
      | nil =>
          simp only [hqueue] at h
          split_ifs at h with howner
          cases h
          exact .unowned hdriver hqueue howner
  | writes call =>
      simp only [hdriver] at h
      split_ifs at h with hexited
      · cases h
        exact .broken hdriver hexited
      · cases h
        exact .writes hdriver (Bool.eq_false_iff.mpr hexited)
  | reads =>
      simp only [hdriver] at h
      cases hread : fromRead fuel c.stdout with
      | none =>
          rw [hread] at h
          cases h
      | some out =>
          obtain ⟨res, r⟩ := out
          rw [hread] at h
          cases res with
          | ok resp =>
              cases h
              exact .reads hdriver hread
          | error e =>
              cases h
              exact .garbled hdriver hread
  | sends resp =>
      simp only [hdriver] at h
      split_ifs at h with howner
      · cases h
        exact .unheard hdriver howner
      · cases h
        exact .sends hdriver howner
  | ended err =>
      rw [hdriver] at h
      cases h

/-- A communication is not a round of `read_next_line`. -/
lemma advances_of_driverStep {fuel : ℕ} {ev : DriverEvent}
    (h : c.driverStep prog fuel = some (ev, c')) : (Event.driver ev).Advances := by
  cases driverStep_cases h <;> trivial

/-- **Where a driver rests** while the handle is owned: it has no call, or no response to
its call, or has left its loop. -/
lemma driver_of_atRest (hrest : AtRest (Step prog) Event.Advances c) (howner : c.owner ≠ .dropped) :
    (c.driver = .receives ∧ c.callQueue = [])
      ∨ (c.driver = .reads ∧ ∀ fuel resp r, fromRead fuel c.stdout ≠ some (.ok resp, r))
      ∨ c.driver.hasEnded = true := by
  have hstuck : ∀ fuel ev c', c.driverStep prog fuel ≠ some (ev, c') :=
    fun fuel ev c' hstep => hrest (.driver ev) _ (advances_of_driverStep hstep) (.driver hstep)
  cases hd : c.driver with
  | receives =>
      cases hqueue : c.callQueue with
      | nil => exact Or.inl ⟨rfl, rfl⟩
      | cons call callQueue =>
          refine absurd ?_ (hstuck 0 (.receives call) { c with
            callQueue
            driver := .writes call
            stopped := c.stopped || call = .stop })
          rw [ClientProc.driverStep, hd]
          simp only [hqueue]
  | writes call =>
      exfalso
      cases hlive : prog.exited c.process with
      | true =>
          refine hstuck 0 (.ends brokenPipe) { c with driver := .ended brokenPipe } ?_
          rw [ClientProc.driverStep, hd]
          exact if_pos hlive
      | false =>
          refine hstuck 0 (.writes call) { c with
            stdin := c.stdin ++ ofText call.intoWrite.toList
            driver := .reads } ?_
          rw [ClientProc.driverStep, hd]
          exact if_neg (Bool.eq_false_iff.mp hlive)
  | reads =>
      refine Or.inr (Or.inl ⟨rfl, fun fuel resp r hfrom => ?_⟩)
      refine hstuck fuel (.reads resp) { c with stdout := r, driver := .sends resp } ?_
      rw [ClientProc.driverStep, hd]
      simp only [hfrom]
  | sends resp =>
      refine absurd ?_ (hstuck 0 (.sends resp) { c with
        respQueue := c.respQueue ++ [resp]
        driver := .receives })
      rw [ClientProc.driverStep, hd]
      exact if_neg howner
  | ended err => exact Or.inr (Or.inr rfl)

lemma ClientProc.sendCall_eq_ok {call : KvCall} (h : c.sendCall call = (.ok (), c')) :
    c.driver.hasEnded = false ∧ c' = { c with callQueue := c.callQueue ++ [call] } := by
  rw [ClientProc.sendCall] at h
  split_ifs at h with hended
  · cases h
  · cases h
    exact ⟨Bool.eq_false_iff.mpr hended, rfl⟩

lemma ClientProc.sendCall_eq_error {call : KvCall} {e : RunnerError}
    (h : c.sendCall call = (.error e, c')) : c.driver.hasEnded = true ∧ c' = c := by
  rw [ClientProc.sendCall] at h
  split_ifs at h with hended
  · cases h
    exact ⟨hended, rfl⟩
  · cases h

lemma ClientProc.waitResp_eq_ok {late : Bool} {resp : KvResp}
    (h : c.waitResp late = some (.ok resp, c')) :
    c.respQueue = resp :: c'.respQueue ∧ c' = { c with respQueue := c'.respQueue } := by
  rw [ClientProc.waitResp] at h
  cases hqueue : c.respQueue with
  | cons resp' respQueue =>
      rw [hqueue] at h
      cases h
      exact ⟨rfl, rfl⟩
  | nil =>
      simp only [hqueue] at h
      split_ifs at h <;> cases h

lemma ClientProc.waitResp_eq_error {late : Bool} {e : RunnerError}
    (h : c.waitResp late = some (.error e, c')) : c.respQueue = [] ∧ c' = c := by
  rw [ClientProc.waitResp] at h
  cases hqueue : c.respQueue with
  | cons resp' respQueue =>
      rw [hqueue] at h
      cases h
  | nil =>
      simp only [hqueue] at h
      split_ifs at h <;> cases h <;> exact ⟨rfl, rfl⟩

/-- A wait fails by its time-out, as long as the driver is in its loop. -/
lemma ClientProc.waitResp_error_cases {late : Bool} {e : RunnerError}
    (h : c.waitResp late = some (.error e, c')) :
    c.driver.hasEnded = true ∨ e = timeoutError := by
  rw [ClientProc.waitResp, (ClientProc.waitResp_eq_error h).1] at h
  simp only at h
  split_ifs at h with hended
  · exact Or.inl hended
  · cases h
    exact Or.inr rfl

/-- The owner is about to give up the handle. -/
def Event.leaves : Event → Bool
  | .stop _ | .stopWaits _ | .drop => true
  | _ => false

/-- What an operation makes of the owner. -/
inductive Turns (c : ClientProc P) : Event → Owner → Prop
  | stays {e : Event} (hleaves : e.leaves = false) (howns : c.owner = .owns) : Turns c e .owns
  | stopping (howns : c.owner = .owns) (hlive : c.driver.hasEnded = false) :
      Turns c (.stop (.ok ())) .stopping
  | drops {e : Event} (hleaves : e.leaves = true) : Turns c e .dropped

/-- Everything that a step can do. An operation of the owner has to do with the channels
only: a call joins the one, a response is taken from the other. -/
inductive StepCase (prog : Program P) (c : ClientProc P) : Event → ClientProc P → Prop
  | owner {e : Event} {owner : Owner} {callQueue : List KvCall} {respQueue : List KvResp}
      (hinternal : ¬ e.Internal) (howner : Turns c e owner)
      (hcalls : callQueue = c.callQueue ++ e.sent.toList)
      (hresps : c.respQueue = e.received.toList ++ respQueue) :
      StepCase prog c e { c with owner, callQueue, respQueue }
  | driver {ev : DriverEvent} {c' : ClientProc P} (h : DriverCase prog c ev c') :
      StepCase prog c (.driver ev) c'
  | spins (hdriver : c.driver = .reads) : StepCase prog c (.driver .spins) c
  | client {p : P} {stdin out : Stream} (h : prog.step c.process c.stdin p stdin out) :
      StepCase prog c (.client out) (c.goOn p stdin out)
  | clientEnd {p : P} {stdin out : Stream} (hended : c.driver.hasEnded = true)
      (h : prog.stepEnd c.process c.stdin p stdin out) :
      StepCase prog c (.clientEnd out) (c.goOn p stdin out)

lemma Step.cases {e : Event} (h : Step prog c e c') : StepCase prog c e c' := by
  cases h with
  | @sendCall _ call res howner hcall =>
      cases res with
      | error err =>
          obtain ⟨-, rfl⟩ := ClientProc.sendCall_eq_error hcall
          exact .owner id (howner ▸ .stays rfl howner) (List.append_nil _).symm rfl
      | ok =>
          obtain ⟨-, rfl⟩ := ClientProc.sendCall_eq_ok hcall
          exact .owner id (howner ▸ .stays rfl howner) rfl rfl
  | @waitResp _ late res howner hwait =>
      cases res with
      | error err =>
          obtain ⟨-, rfl⟩ := ClientProc.waitResp_eq_error hwait
          exact .owner id (howner ▸ .stays rfl howner) (List.append_nil _).symm rfl
      | ok resp =>
          obtain ⟨hqueue, hc'⟩ := ClientProc.waitResp_eq_ok hwait
          rw [hc']
          exact .owner id (howner ▸ .stays rfl howner) (List.append_nil _).symm hqueue
  | stop howner hcall =>
      obtain ⟨hlive, rfl⟩ := ClientProc.sendCall_eq_ok hcall
      exact .owner id (.stopping howner hlive) rfl rfl
  | stopFails _ hcall =>
      obtain ⟨-, rfl⟩ := ClientProc.sendCall_eq_error hcall
      exact .owner id (.drops rfl) (List.append_nil _).symm rfl
  | @stopWaits c₁ late res _ hwait =>
      cases res with
      | error err =>
          obtain ⟨-, rfl⟩ := ClientProc.waitResp_eq_error hwait
          exact .owner id (.drops rfl) (List.append_nil _).symm rfl
      | ok resp =>
          obtain ⟨hqueue, hc'⟩ := ClientProc.waitResp_eq_ok hwait
          rw [hc']
          exact .owner id (.drops rfl) (List.append_nil _).symm hqueue
  | drop => exact .owner id (.drops rfl) (List.append_nil _).symm rfl
  | driver hdriver => exact .driver (driverStep_cases hdriver)
  | spins hdriver => exact .spins hdriver
  | client hclient => exact .client hclient
  | clientEnd hended hclient => exact .clientEnd hended hclient

/-- The owner stays who it is, unless it gives up the handle. -/
lemma Step.owner_eq {e : Event} (h : Step prog c e c') (hstay : e.leaves = false) :
    c'.owner = c.owner := by
  cases h.cases with
  | owner _ howner =>
      cases howner with
      | stays _ howns => exact howns.symm
      | stopping => cases hstay
      | drops hleaves =>
          rw [hleaves] at hstay
          cases hstay
  | driver hdriver => cases hdriver <;> rfl
  | spins | client | clientEnd => rfl

/-- The owner neither writes nor reads. -/
lemma Event.quiet_of_owner {e : Event} (h : ¬ e.Internal) :
    e.asked = none ∧ e.read = none ∧ e.written = [] := by
  cases e with
  | driver | client | clientEnd => exact absurd trivial h
  | sendCall | waitResp | stop | stopWaits | drop => exact ⟨rfl, rfl, rfl⟩

/-! ### The invariant -/

/-- The calls and the responses that the driver has in hand. Those that it had when
it left its loop are lost. -/
def Driver.Holds : Driver → List KvCall → List KvResp → Prop
  | .receives, calls, resps => calls = [] ∧ resps = []
  | .writes call, calls, resps => calls = [call] ∧ resps = []
  | .reads, calls, resps => calls = [] ∧ resps = []
  | .sends resp, calls, resps => calls = [] ∧ resps = [resp]
  | .ended _, _, _ => True

/-- A call is written, then a response is read. -/
def Driver.InTurn : Driver → (asked read : ℕ) → Prop
  | .reads, asked, read => asked = read + 1
  | .ended _, asked, read => read ≤ asked ∧ asked ≤ read + 1
  | _, asked, read => asked = read

/-- What the lines of the whole output tell is what has been read, and what the
lines left tell, whatever lines come later. -/
def Driver.Told (written left : List Stream) (read : List KvResp) : Driver → Prop
  | .ended _ => ∀ later, read.map some <+: answers .head (written ++ later)
  | _ => ∀ later, answers .head (written ++ later) =
      read.map some ++ answers .head (left ++ later)

/-- Where the calls and the responses of a run are. -/
structure DriverInv (c : ClientProc P) (es : List Event) : Prop where
  inHand : ∃ calls resps, c.driver.Holds calls resps
    ∧ sentOf es = askedOf es ++ calls ++ c.callQueue
    ∧ readOf es = receivedOf es ++ c.respQueue ++ resps
  inTurn : c.driver.InTurn (askedOf es).length (readOf es).length
  lines : WholeLines (writtenOf es) ∧ WholeLines c.stdout.stream
  told : c.driver.Told (liveLines (writtenOf es)) (liveLines c.stdout.stream) (readOf es)

lemma DriverInv.start : DriverInv (ClientProc.new prog) [] where
  inHand := ⟨[], [], ⟨rfl, rfl⟩, rfl, rfl⟩
  inTurn := rfl
  lines := ⟨wholeLines_nil, wholeLines_nil⟩
  told _ := rfl

section Told

variable {written left : List Stream} {read : List KvResp} {d : Driver}

/-- What has been read stays told once the loop has been left. -/
lemma Driver.Told.ended (h : d.Told written left read) (err : RunnerError) :
    Driver.Told written left read (.ended err) := by
  intro later
  cases d with
  | ended err => exact h later
  | receives | writes | reads | sends =>
      rw [h later]
      exact List.prefix_append _ _

/-- More lines. -/
lemma Driver.Told.more (h : d.Told written left read) (out : List Stream) :
    d.Told (written ++ out) (left ++ out) read := by
  cases d with
  | ended err =>
      intro later
      rw [List.append_assoc]
      exact h (out ++ later)
  | receives | writes | reads | sends =>
      intro later
      rw [List.append_assoc, List.append_assoc]
      exact h (out ++ later)

end Told

variable {es : List Event}

/-- **A step of the driver** keeps the invariant. -/
lemma DriverInv.driverCase (h : DriverInv c es) {ev : DriverEvent}
    (hcase : DriverCase prog c ev c') : DriverInv c' (es ++ [.driver ev]) := by
  obtain ⟨calls, resps, hholds, hsent, hread⟩ := h.inHand
  have hturn := h.inTurn
  have hlines := h.lines
  have htold := h.told
  cases hcase with
  | receives hdriver hqueue =>
      rw [hdriver] at hholds hturn htold
      obtain ⟨rfl, rfl⟩ := hholds
      rw [hqueue] at hsent
      exact ⟨⟨_, _, ⟨rfl, rfl⟩, by simpa using hsent, by simpa using hread⟩,
        by simpa [Driver.InTurn] using hturn, by simpa using hlines,
        by simpa [Driver.Told] using htold⟩
  | writes hdriver hlive =>
      rw [hdriver] at hholds hturn htold
      obtain ⟨rfl, rfl⟩ := hholds
      exact ⟨⟨_, _, ⟨rfl, rfl⟩, by simpa using hsent, by simpa using hread⟩,
        by simpa [Driver.InTurn] using hturn, by simpa using hlines,
        by simpa [Driver.Told] using htold⟩
  | @reads fuel resp r hdriver hfrom =>
      rw [hdriver] at hholds hturn htold
      obtain ⟨rfl, rfl⟩ := hholds
      refine ⟨⟨_, _, ⟨rfl, rfl⟩, by simpa using hsent, by simp [hread]⟩,
        by simpa [Driver.InTurn] using hturn,
        ⟨by simpa using hlines.1, fromRead_wholeLines hlines.2 hfrom⟩, ?_⟩
      intro later
      have hout := fromRead_outcome hfrom
      cases hresp : readResponse (liveLines c.stdout.stream) with
      | waits | fails =>
          rw [hresp] at hout
          simp [Outcome.Of] at hout
      | reads resp' rest =>
          rw [hresp] at hout
          obtain ⟨heq, hrest⟩ := hout
          cases heq
          simp only [writtenOf_concat, readOf_concat, Event.written, Event.read,
            List.append_nil, Option.toList_some, List.map_append, List.map_singleton]
          rw [htold later, answers_append_of_reads hresp later, ← hrest, List.append_assoc,
            List.singleton_append]
  | sends hdriver howner =>
      rw [hdriver] at hholds hturn htold
      obtain ⟨rfl, rfl⟩ := hholds
      exact ⟨⟨_, _, ⟨rfl, rfl⟩, by simpa using hsent, by simpa using hread⟩,
        by simpa [Driver.InTurn] using hturn, by simpa using hlines,
        by simpa [Driver.Told] using htold⟩
  | unowned hdriver | broken hdriver | unheard hdriver =>
      rw [hdriver] at hturn
      simp only [Driver.InTurn] at hturn
      exact ⟨⟨calls, resps, trivial, by simpa using hsent, by simpa using hread⟩,
        by simp [Driver.InTurn, hturn], by simpa using hlines, by simpa using htold.ended _⟩
  | garbled hdriver hfrom =>
      rw [hdriver] at hturn
      simp only [Driver.InTurn] at hturn
      refine ⟨⟨calls, resps, trivial, by simpa using hsent, by simpa using hread⟩,
        by simp [Driver.InTurn, hturn],
        ⟨by simpa using hlines.1, fromRead_wholeLines hlines.2 hfrom⟩, ?_⟩
      intro later
      simpa using htold.ended recvError later

/-- The process writes whole lines. -/
def Program.WritesLines (prog : Program P) : Prop :=
  ∀ p stdin p' stdin' out,
    prog.step p stdin p' stdin' out ∨ prog.stepEnd p stdin p' stdin' out → WholeLines out

/-- **A step of the process** keeps the invariant. -/
lemma DriverInv.goOn (h : DriverInv c es) {p : P} {stdin out : Stream} (hout : WholeLines out)
    {e : Event} (he : e = .client out ∨ e = .clientEnd out) :
    DriverInv (c.goOn p stdin out) (es ++ [e]) := by
  have hlines : WholeLines (writtenOf es ++ out) ∧ WholeLines (c.stdout.stream ++ out) :=
    ⟨h.lines.1.append hout, h.lines.2.append hout⟩
  have hmore := h.told.more (liveLines out)
  rw [← liveLines_append h.lines.1, ← liveLines_append h.lines.2] at hmore
  rcases he with rfl | rfl <;>
    exact ⟨by simpa [ClientProc.goOn] using h.inHand, by simpa [ClientProc.goOn] using h.inTurn,
      by simpa [ClientProc.goOn] using hlines, by simpa [ClientProc.goOn] using hmore⟩

/-- **Every step** keeps the invariant. -/
lemma DriverInv.step (hprog : prog.WritesLines) (h : DriverInv c es) {e : Event}
    (hstep : Step prog c e c') : DriverInv c' (es ++ [e]) := by
  obtain ⟨calls, resps, hholds, hsent, hread⟩ := h.inHand
  have hturn := h.inTurn
  have hlines := h.lines
  have htold := h.told
  cases hstep.cases with
  | @owner _ _ callQueue respQueue hinternal _ hcalls hresps =>
      obtain ⟨hasked, hread', hwritten⟩ := Event.quiet_of_owner hinternal
      have hquiet : askedOf (es ++ [e]) = askedOf es ∧ readOf (es ++ [e]) = readOf es
          ∧ writtenOf (es ++ [e]) = writtenOf es := by
        simp only [askedOf_concat, readOf_concat, writtenOf_concat, hasked, hread', hwritten,
          Option.toList_none, List.append_nil, and_self]
      refine ⟨⟨calls, resps, hholds, ?_, ?_⟩, ?_, ?_, ?_⟩
      · rw [sentOf_concat, hquiet.1, hsent, hcalls, List.append_assoc, List.append_assoc]
      · rw [receivedOf_concat, hquiet.2.1, hread, hresps]
        simp only [List.append_assoc]
      · rwa [hquiet.1, hquiet.2.1]
      · rwa [hquiet.2.2]
      · rwa [hquiet.2.1, hquiet.2.2]
  | driver hdriver => exact h.driverCase hdriver
  | spins =>
      exact ⟨⟨calls, resps, hholds, by simpa using hsent, by simpa using hread⟩,
        by simpa using hturn, by simpa using hlines, by simpa using htold⟩
  | client hclient => exact h.goOn (hprog _ _ _ _ _ (.inl hclient)) (.inl rfl)
  | clientEnd _ hclient => exact h.goOn (hprog _ _ _ _ _ (.inr hclient)) (.inr rfl)

/-- **A whole run** keeps it. -/
theorem DriverInv.run (hprog : prog.WritesLines) (h : ProcRun prog es c) : DriverInv c es :=
  h.invariant (P := fun es c => DriverInv c es) .start
    fun _ _ _ _ _ ih hstep => ih.step hprog hstep

/-- The responses that the owner has got are the first of those read. -/
lemma DriverInv.received (h : DriverInv c es) : receivedOf es <+: readOf es := by
  obtain ⟨-, resps, -, -, hread⟩ := h.inHand
  rw [hread, List.append_assoc]
  exact List.prefix_append _ _

lemma DriverInv.asked (h : DriverInv c es) : askedOf es <+: sentOf es := by
  obtain ⟨calls, -, -, hsent, -⟩ := h.inHand
  rw [hsent, List.append_assoc]
  exact List.prefix_append _ _

lemma DriverInv.read (h : DriverInv c es) :
    (readOf es).map some <+: answers .head (liveLines (writtenOf es)) := by
  have htold := h.told
  cases hdriver : c.driver with
  | ended err =>
      rw [hdriver] at htold
      simpa using htold []
  | receives | writes | reads | sends =>
      rw [hdriver] at htold
      have hall := htold []
      rw [List.append_nil, List.append_nil] at hall
      rw [hall]
      exact List.prefix_append _ _

lemma DriverInv.turns (h : DriverInv c es) : (readOf es).length ≤ (askedOf es).length
    ∧ (askedOf es).length ≤ (readOf es).length + 1 := by
  have hturn := h.inTurn
  cases hdriver : c.driver <;> simp only [hdriver, Driver.InTurn] at hturn <;> omega

/-- **Responses in order**: for a process that writes whole lines, whatever they are
and whenever they come, the responses that the owner gets are the first ones that its
whole output is read as. The calls reach the process in order, each after the response
to the one before it. -/
theorem received_inOrder (prog : Program P) (hprog : prog.WritesLines) (es : List Event)
    (c : ClientProc P) (h : ProcRun prog es c) :
    (∃ results, Reads ⟨writtenOf es, []⟩ results ∧ (receivedOf es).map some <+: results)
      ∧ askedOf es <+: sentOf es
      ∧ (receivedOf es).length ≤ (askedOf es).length
      ∧ (askedOf es).length ≤ (readOf es).length + 1 := by
  have hinv := DriverInv.run hprog h
  refine ⟨⟨_, reads_answers _, ?_⟩, hinv.asked, ?_, hinv.turns.2⟩
  · exact (hinv.received.map some).trans hinv.read
  · exact hinv.received.length_le.trans hinv.turns.1

/-- A program that answers Stop, and exits. -/
def answersStop : Program Bool where
  start := false
  step p stdin p' stdin' out := p = false ∧ stdin = ofText "STOP\n".toList ∧ p' = true
    ∧ stdin' = [] ∧ out = ofText "STOP\n".toList
  stepEnd _ _ _ _ _ := False
  exited p := p

/-- A handle is stopped. -/
def stopEvents : List Event :=
  [.stop (.ok ()), .driver (.receives .stop), .driver (.writes .stop),
    .client (ofText "STOP\n".toList), .driver (.reads .stop), .driver (.sends .stop),
    .stopWaits (.ok .stop)]

lemma exists_stopRun : ∃ c, ProcRun answersStop stopEvents c := by
  have hstart : ProcRun answersStop [] _ := .nil
  have hstop := hstart.snoc (.stop rfl rfl)
  have hreceives := hstop.snoc (step_driver 0 rfl)
  have hwrites := hreceives.snoc (step_driver 0 rfl)
  have hclient := hwrites.snoc (.client ⟨rfl, rfl, rfl, rfl, rfl⟩)
  have hreads := hclient.snoc (step_driver 1 rfl)
  have hsends := hreads.snoc (step_driver 0 rfl)
  exact ⟨_, hsends.snoc (step_stopWaits false rfl rfl)⟩

theorem received_inOrder_stop :
    (∃ results, Reads ⟨writtenOf stopEvents, []⟩ results
        ∧ (receivedOf stopEvents).map some <+: results)
      ∧ askedOf stopEvents <+: sentOf stopEvents
      ∧ (receivedOf stopEvents).length ≤ (askedOf stopEvents).length
      ∧ (askedOf stopEvents).length ≤ (readOf stopEvents).length + 1 := by
  obtain ⟨c, hrun⟩ := exists_stopRun
  refine received_inOrder answersStop ?_ stopEvents c hrun
  rintro p stdin p' stdin' out (⟨-, -, -, -, rfl⟩ | hend)
  · exact wholeLines_line "STOP".toList
  · exact hend.elim

end Madkv.Runner
