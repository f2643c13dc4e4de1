import Madkv.Library.Execution
import Madkv.Runner.Output

/-!
Handles to client processes (`ClientProc` of `proc.rs`).

A handle is four parties that run concurrently: its owner, the driver thread, the
client process, and between them the two channels and the two pipes.

* `Program`: what a client process does, left open.
* `ClientProc`: the state of the parties. `sendCall`, `waitResp`: the operations of
  the owner; `driverStep`: the next communication of the driver.
* `Step`: a step of one of the parties. `ProcRun`: their interleavings. A reader at the
  end of its pipe goes round in `read_next_line`, which is a step of its own.
* `Event.Internal`: the steps that are not the owner's. `Event.Advances`: those that do
  not go round.
* `sentOf`, `askedOf`, `readOf`, `receivedOf`: how far calls and responses have
  come in a run. `writtenOf`: what the process has written.
-/

namespace Madkv.Runner

open Execution

/-! ### Errors -/

/-- `SendError`: the receiver is gone. -/
def sendError : RunnerError := .chan "sending on a closed channel"

/-- `RecvError`: there is no sender left. -/
def recvError : RunnerError := .chan "receiving on a closed channel"

/-- `RecvTimeoutError::Timeout`. -/
def timeoutError : RunnerError := .chan "timed out waiting on channel"

/-- `RecvTimeoutError::Disconnected`. -/
def disconnectedError : RunnerError := .chan "channel is empty and sending half is closed"

/-- Writing to a process that has closed its input. -/
def brokenPipe : RunnerError := .io "Broken pipe (os error 32)"

/-! ### The parties -/

/-- A client program. With `stdin` still to be read, a process at `p` may take a
step to `p'` that leaves `stdin'` and writes `out`. -/
structure Program (P : Type) where
  start : P
  step : (p : P) → (stdin : Stream) → (p' : P) → (stdin' out : Stream) → Prop
  /-- a step that it takes as nothing more will follow `stdin` -/
  stepEnd : (p : P) → (stdin : Stream) → (p' : P) → (stdin' out : Stream) → Prop
  /-- the process has exited, and closed its ends of the pipes -/
  exited : P → Bool

/-- What the owner of a handle can still do with it. -/
inductive Owner where
  | owns
  /-- within `stop`, waiting for the response -/
  | stopping
  /-- its ends of the channels are closed -/
  | dropped
  deriving DecidableEq

/-- What the driver thread is about to do. -/
inductive Driver where
  /-- `call_rx.recv()` -/
  | receives
  /-- `call.into_write(stdin)` -/
  | writes (call : KvCall)
  /-- `KvResp::from_read(stdout, line)` -/
  | reads
  /-- `resp_tx.send(resp)` -/
  | sends (resp : KvResp)
  /-- the loop has been left, and the channels are closed -/
  | ended (err : RunnerError)
  deriving DecidableEq

def Driver.hasEnded : Driver → Bool
  | .ended _ => true
  | _ => false

/-- Wrapper handle to a KV client process. -/
structure ClientProc (P : Type) where
  owner : Owner
  /-- the channel of `call_tx` and `call_rx` -/
  callQueue : List KvCall
  driver : Driver
  stopped : Bool
  stdin : Stream
  process : P
  /-- the pipe, and the line buffer of the driver -/
  stdout : Reader
  /-- the channel of `resp_tx` and `resp_rx` -/
  respQueue : List KvResp

/-- What the driver did. -/
inductive DriverEvent where
  | receives (call : KvCall)
  | writes (call : KvCall)
  | reads (resp : KvResp)
  | sends (resp : KvResp)
  | ends (err : RunnerError)
  /-- one more round of `read_next_line`, at the end of the output -/
  | spins
  deriving DecidableEq

/-- What one of the parties did. -/
inductive Event where
  | sendCall (call : KvCall) (res : Except RunnerError Unit)
  | waitResp (res : Except RunnerError KvResp)
  /-- the Stop that `stop` sends -/
  | stop (res : Except RunnerError Unit)
  /-- what `stop` waits for -/
  | stopWaits (res : Except RunnerError KvResp)
  | drop
  | driver (ev : DriverEvent)
  | client (out : Stream)
  /-- with its input closed -/
  | clientEnd (out : Stream)

namespace ClientProc

variable {P : Type}

/-- Run a client process, with a driver thread for it. -/
def new (prog : Program P) : ClientProc P where
  owner := .owns
  callQueue := []
  driver := .receives
  stopped := false
  stdin := []
  process := prog.start
  stdout := ⟨[], []⟩
  respQueue := []

/-- Send a KV operation call to the client process. -/
def sendCall (call : KvCall) (c : ClientProc P) : Except RunnerError Unit × ClientProc P :=
  if c.driver.hasEnded then (.error sendError, c)
  else (.ok (), { c with callQueue := c.callQueue ++ [call] })

/-- Wait for the next KV operation response from the client process, `late` once
the time for it has passed. The result is `none` as long as it waits. -/
def waitResp (late : Bool) (c : ClientProc P) :
    Option (Except RunnerError KvResp × ClientProc P) :=
  match c.respQueue with
  | resp :: respQueue => some (.ok resp, { c with respQueue })
  | [] =>
      if c.driver.hasEnded then some (.error disconnectedError, c)
      else if late then some (.error timeoutError, c)
      else none

/-- What `stop` returns after the response it waited for. -/
def stopResult : Except RunnerError KvResp → Except RunnerError Unit
  | .ok .stop => .ok ()
  | .ok _ => .error (.io "unexpected response, expecting STOP")
  | .error e => .error e

/-- The driver leaves its loop. -/
def fail (c : ClientProc P) (err : RunnerError) : DriverEvent × ClientProc P :=
  (.ends err, { c with driver := .ended err })

/-- The error that the driver thread prints as it leaves its loop. -/
def reports (c : ClientProc P) : Option RunnerError :=
  match c.driver with
  | .ended (.chan _) => none
  | .ended err => if c.stopped then none else some err
  | _ => none

/-- The next communication of the driver thread: an iteration of its loop is one
of each kind. The result is `none` as long as there is none: it waits, or it goes
round in `read_next_line`. -/
def driverStep (prog : Program P) (fuel : ℕ) (c : ClientProc P) :
    Option (DriverEvent × ClientProc P) :=
  match c.driver with
  | .receives =>
      match c.callQueue with
      | call :: callQueue =>
          some (.receives call,
            { c with callQueue, driver := .writes call, stopped := c.stopped || call = .stop })
      | [] => if c.owner = .dropped then some (c.fail recvError) else none
  | .writes call =>
      if prog.exited c.process then some (c.fail brokenPipe)
      else some (.writes call,
        { c with stdin := c.stdin ++ ofText call.intoWrite.toList, driver := .reads })
  | .reads =>
      match fromRead fuel c.stdout with
      | none => none
      | some (.ok resp, stdout) => some (.reads resp, { c with stdout, driver := .sends resp })
      | some (.error e, stdout) => some (fail { c with stdout } e)
  | .sends resp =>
      if c.owner = .dropped then some (c.fail sendError)
      else some (.sends resp, { c with respQueue := c.respQueue ++ [resp], driver := .receives })
  | .ended _ => none

/-- The process goes on: what it writes joins what the driver has not read. -/
def goOn (c : ClientProc P) (process : P) (stdin out : Stream) : ClientProc P :=
  { c with process, stdin, stdout := { c.stdout with stream := c.stdout.stream ++ out } }

end ClientProc

/-- A step of one of the parties. The owner does one thing after the other. -/
inductive Step {P : Type} (prog : Program P) : ClientProc P → Event → ClientProc P → Prop
  | sendCall {c c' : ClientProc P} {call : KvCall} {res : Except RunnerError Unit}
      (howner : c.owner = .owns) (h : c.sendCall call = (res, c')) :
      Step prog c (.sendCall call res) c'
  | waitResp {c c' : ClientProc P} {late : Bool} {res : Except RunnerError KvResp}
      (howner : c.owner = .owns) (h : c.waitResp late = some (res, c')) :
      Step prog c (.waitResp res) c'
  | stop {c c' : ClientProc P} (howner : c.owner = .owns) (h : c.sendCall .stop = (.ok (), c')) :
      Step prog c (.stop (.ok ())) { c' with owner := .stopping }
  | stopFails {c c' : ClientProc P} {e : RunnerError} (howner : c.owner = .owns)
      (h : c.sendCall .stop = (.error e, c')) :
      Step prog c (.stop (.error e)) { c' with owner := .dropped }
  | stopWaits {c c' : ClientProc P} {late : Bool} {res : Except RunnerError KvResp}
      (howner : c.owner = .stopping) (h : c.waitResp late = some (res, c')) :
      Step prog c (.stopWaits res) { c' with owner := .dropped }
  | drop {c : ClientProc P} (howner : c.owner = .owns) :
      Step prog c .drop { c with owner := .dropped }
  | driver {c c' : ClientProc P} {ev : DriverEvent} {fuel : ℕ}
      (h : c.driverStep prog fuel = some (ev, c')) : Step prog c (.driver ev) c'
  /-- `read_next_line` takes the end of the output for an empty line -/
  | spins {c : ClientProc P} (hdriver : c.driver = .reads) (hexited : prog.exited c.process = true)
      (hread : ∀ fuel, fromRead fuel c.stdout = none) : Step prog c (.driver .spins) c
  | client {c : ClientProc P} {p : P} {stdin out : Stream}
      (h : prog.step c.process c.stdin p stdin out) : Step prog c (.client out) (c.goOn p stdin out)
  /-- the driver has closed the input of the process -/
  | clientEnd {c : ClientProc P} {p : P} {stdin out : Stream} (hended : c.driver.hasEnded = true)
      (h : prog.stepEnd c.process c.stdin p stdin out) :
      Step prog c (.clientEnd out) (c.goOn p stdin out)

/-- The interleavings of the parties. -/
abbrev ProcRun {P : Type} (prog : Program P) : List Event → ClientProc P → Prop :=
  Exec (Step prog) (ClientProc.new prog)

/-- The step is none of the owner's. -/
def Event.Internal : Event → Prop
  | .driver _ | .client _ | .clientEnd _ => True
  | _ => False

/-- The step is one of the driver or the process that does not go round at the end of
what it reads. -/
def Event.Advances : Event → Prop
  | .driver .spins => False
  | .driver _ | .client _ => True
  | _ => False

lemma Event.Advances.internal {e : Event} (h : e.Advances) : e.Internal := by
  cases e <;> first | exact h.elim | trivial

section Steps

variable {P : Type} {prog : Program P} {c c' : ClientProc P} {ev : DriverEvent}
  {res : Except RunnerError KvResp}

lemma step_sendCall (call : KvCall) (howner : c.owner = .owns) (hlive : c.driver.hasEnded = false) :
    Step prog c (.sendCall call (.ok ())) { c with callQueue := c.callQueue ++ [call] } :=
  .sendCall howner (if_neg (by simp [hlive]))

lemma step_stop (howner : c.owner = .owns) (hlive : c.driver.hasEnded = false) :
    Step prog c (.stop (.ok ()))
      { c with callQueue := c.callQueue ++ [.stop], owner := .stopping } := by
  have hsend : c.sendCall .stop = (.ok (), { c with callQueue := c.callQueue ++ [.stop] }) :=
    if_neg (by simp [hlive])
  exact .stop howner hsend

lemma step_waitResp (late : Bool) (howner : c.owner = .owns)
    (h : c.waitResp late = some (res, c')) : Step prog c (.waitResp res) c' :=
  .waitResp howner h

lemma step_stopWaits (late : Bool) (howner : c.owner = .stopping)
    (h : c.waitResp late = some (res, c')) :
    Step prog c (.stopWaits res) { c' with owner := .dropped } :=
  .stopWaits howner h

lemma step_driver (fuel : ℕ) (h : c.driverStep prog fuel = some (ev, c')) :
    Step prog c (.driver ev) c' :=
  .driver h

end Steps

/-! ### What has happened in a run -/

/-- The call that is sent with success. -/
@[simp] def Event.sent : Event → Option KvCall
  | .sendCall call (.ok ()) => some call
  | .stop (.ok ()) => some .stop
  | _ => none

/-- The call that is written to the process. -/
@[simp] def Event.asked : Event → Option KvCall
  | .driver (.writes call) => some call
  | _ => none

/-- The response that is read from the process. -/
@[simp] def Event.read : Event → Option KvResp
  | .driver (.reads resp) => some resp
  | _ => none

/-- The response that the owner gets. -/
@[simp] def Event.received : Event → Option KvResp
  | .waitResp (.ok resp) => some resp
  | .stopWaits (.ok resp) => some resp
  | _ => none

/-- What the process writes. -/
@[simp] def Event.written : Event → Stream
  | .client out | .clientEnd out => out
  | _ => []

def sentOf (es : List Event) : List KvCall := es.filterMap Event.sent

def askedOf (es : List Event) : List KvCall := es.filterMap Event.asked

def readOf (es : List Event) : List KvResp := es.filterMap Event.read

def receivedOf (es : List Event) : List KvResp := es.filterMap Event.received

def writtenOf (es : List Event) : Stream := es.flatMap Event.written

section Projections

variable {es : List Event} {e : Event}

lemma filterMap_concat {α β : Type} (f : α → Option β) (l : List α) (a : α) :
    (l ++ [a]).filterMap f = l.filterMap f ++ (f a).toList := by
  rw [List.filterMap_append]
  cases h : f a <;> simp [h]

@[simp] lemma sentOf_concat : sentOf (es ++ [e]) = sentOf es ++ e.sent.toList :=
  filterMap_concat _ _ _

@[simp] lemma askedOf_concat : askedOf (es ++ [e]) = askedOf es ++ e.asked.toList :=
  filterMap_concat _ _ _

@[simp] lemma readOf_concat : readOf (es ++ [e]) = readOf es ++ e.read.toList :=
  filterMap_concat _ _ _

@[simp] lemma receivedOf_concat : receivedOf (es ++ [e]) = receivedOf es ++ e.received.toList :=
  filterMap_concat _ _ _

@[simp] lemma writtenOf_concat : writtenOf (es ++ [e]) = writtenOf es ++ e.written := by
  rw [writtenOf, List.flatMap_append, List.flatMap_singleton, writtenOf]

end Projections

end Madkv.Runner
