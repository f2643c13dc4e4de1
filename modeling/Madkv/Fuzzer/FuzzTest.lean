import Madkv.Library.Execution
import Madkv.Runner.KvMap
import Madkv.Fuzzer.History
import Madkv.Fuzzer.Random

/-!
The fuzz testing loop (`fuzz_test` of the fuzzer's `main.rs`).

* `FuzzConfig`: the arguments of a round, with what `main` checks of them.
* `FuzzState`, `fuzzIter`: the variables of the loop and one iteration of it,
  as a function of what the iteration draws.
* `Event`: what an iteration did, as the trace lines of the source tell it.
* `FuzzRun`: the executions of the loop, with their events.
* `fuzzIter_cases`: everything an iteration can do, one case for a call made
  (`MadeCall`), one for a Stop harvested (`HarvestedStop`) and one for any
  other response (`Harvested`).
* `fuzzRun_of_drive`, `runOf`: a computed run is an execution.
* `exists_gets`: a run of a single client can go on with Gets.
-/

namespace Madkv

open Execution Fallible

/-- The arguments of a fuzz testing round: what `main` parses, checks and
generates. -/
structure FuzzConfig where
  numClis : ℕ
  numOps : ℕ
  /-- The key pool, one list of keys for each client. -/
  keys : List (List String)
  numClis_pos : 0 < numClis
  keys_length : keys.length = numClis
  keys_ne_nil : ∀ ks ∈ keys, ks ≠ []

namespace FuzzConfig

/-- `args.num_ops * args.num_clis`. -/
def totalOps (cfg : FuzzConfig) : ℕ := cfg.numOps * cfg.numClis

/-- The keys that some client works on. -/
def pool (cfg : FuzzConfig) : List String := cfg.keys.flatten

end FuzzConfig

/-- Wrapper handle to a client process, as the fuzzer sees it: the calls sent
to it that it has not answered, oldest first. -/
structure ClientProc where
  unanswered : List KvCall
  deriving DecidableEq, Repr

/-- Send a KV operation call to the client process. -/
def ClientProc.sendCall (client : ClientProc) (call : KvCall) (send : Except RunnerError Unit) :
    Except Abort ClientProc :=
  match send with
  | .ok () => .ok ⟨client.unanswered ++ [call]⟩
  | .error e => .error (.error e)

/-- Wait for the next KV operation response from the client process: it answers
the oldest call. -/
def ClientProc.waitResp (client : ClientProc) (resp : Except RunnerError KvResp) :
    Except Abort (KvCall × KvResp × ClientProc) :=
  match resp, client.unanswered with
  | .ok resp, call :: rest => .ok (call, resp, ⟨rest⟩)
  | .ok _, [] => .error (.error (.chan "timed out waiting on channel"))
  | .error e, _ => .error (.error e)

/-- The variables of the loop. `passed` is cleared where the loop breaks. -/
structure FuzzState where
  flying : List Bool
  timestamp : ℕ
  callMemo : List (ℕ × Option (String × Option String))
  clients : List ClientProc
  history : History
  stats : Stats
  opsCalled : ℕ
  opsWaited : ℕ
  passed : Bool

/-- The variables before the first iteration. -/
def FuzzState.init (cfg : FuzzConfig) : FuzzState where
  flying := List.replicate cfg.numClis false
  timestamp := 0
  callMemo := List.replicate cfg.numClis (0, none)
  clients := List.replicate cfg.numClis ⟨[]⟩
  history := History.new cfg.numClis cfg.keys
  stats := Stats.new cfg.keys
  opsCalled := 0
  opsWaited := 0
  passed := true

/-- A response harvested, with the call it answers, what `apply_update`
returned (`none` also where it is not called) and the checks it made. -/
structure Harvest where
  cidx : ℕ
  call : KvCall
  tsCall : ℕ
  tsResp : ℕ
  resp : KvResp
  returned : Option (Option KvResp)
  checks : List (QueuedSpan × Bool)
  deriving DecidableEq

/-- What an iteration did. -/
inductive Event where
  | called (cidx ts : ℕ) (call : KvCall)
  | stopped (cidx ts : ℕ)
  | waited (h : Harvest)
  deriving DecidableEq

/-- The branch of an iteration that makes a new call. -/
def makeCall (cfg : FuzzConfig) (s : FuzzState) (d : Draws) : Except Abort (FuzzState × Event) := do
  let cidx ← genRandClient s.flying false d.cidxs
  let cliKeys ← index cfg.keys cidx
  let (call, stats) ← genRandKvcall cliKeys s.stats cidx d
  let client ← index s.clients cidx
  let client ← client.sendCall call d.send
  .ok
    ({ s with
        flying := s.flying.set cidx true
        callMemo := s.callMemo.set cidx (s.timestamp, call.updateInfo)
        clients := s.clients.set cidx client
        stats
        opsCalled := s.opsCalled + 1 },
      .called cidx s.timestamp call)

/-- The update part of a harvest: `apply_update` on what the memo remembers. -/
def applyMemo (history : History) (cidx tsCall tsResp : ℕ) :
    Option (String × Option String) → Except Abort Applied
  | some (key, value) => history.applyUpdate cidx tsCall tsResp key value
  | none => .ok ⟨history, none, []⟩

/-- The branch of an iteration that harvests a response. -/
def harvest (cfg : FuzzConfig) (s : FuzzState) (d : Draws) : Except Abort (FuzzState × Event) := do
  let cidx ← genRandClient s.flying true d.cidxs
  let client ← index s.clients cidx
  let (call, resp, client) ← client.waitResp d.resp
  let clients := s.clients.set cidx client
  if resp = .stop then
    .ok ({ s with clients, passed := false }, .stopped cidx s.timestamp)
  else
    -- `mem::take` leaves the default behind
    let (tsCall, updateInfo) ← index s.callMemo cidx
    let callMemo := s.callMemo.set cidx (0, none)
    let history ← s.history.addToQueue tsCall s.timestamp resp
    let applied ← applyMemo history cidx tsCall s.timestamp updateInfo
    let event :=
      .waited ⟨cidx, call, tsCall, s.timestamp, resp, applied.returned, applied.checks⟩
    if applied.returned.isSome then
      .ok ({ s with clients, callMemo, history := applied.history, passed := false }, event)
    else
      debugAssert (cfg.totalOps / 100 ≠ 0) .modulus
      .ok
        ({ s with
            clients
            callMemo
            history := applied.history
            flying := s.flying.set cidx false
            opsWaited := s.opsWaited + 1 },
          event)

/-- One iteration of the loop. -/
def fuzzIter (cfg : FuzzConfig) (s : FuzzState) (d : Draws) :
    Except Abort (FuzzState × Event) := do
  debugAssert (s.timestamp + 1 ≤ u64Max) .clock
  let s := { s with timestamp := s.timestamp + 1 }
  if genCallVsWait s.opsCalled cfg.totalOps s.flying d.coin then makeCall cfg s d
  else harvest cfg s d

/-- The condition under which the loop goes on: not all answered, no break. -/
def FuzzState.Running (cfg : FuzzConfig) (s : FuzzState) : Prop :=
  s.opsWaited < cfg.totalOps ∧ s.passed = true

instance (cfg : FuzzConfig) (s : FuzzState) : Decidable (s.Running cfg) :=
  inferInstanceAs (Decidable (_ ∧ _))

/-- The loop goes through one more iteration. -/
def FuzzStep (cfg : FuzzConfig) (s : FuzzState) (ev : Event) (s' : FuzzState) : Prop :=
  s.Running cfg ∧ ∃ d, fuzzIter cfg s d = .ok (s', ev)

/-- The executions of the loop. -/
abbrev FuzzRun (cfg : FuzzConfig) : List Event → FuzzState → Prop :=
  Exec (FuzzStep cfg) (FuzzState.init cfg)

/-- What `fuzz_test` returns once the loop has ended and the clients stopped. -/
def FuzzState.result (s : FuzzState) : Option ℕ :=
  if s.passed then some s.history.queueLen else none

/-! ### Everything an iteration can do -/

/-- The response harvested as an entry of the check queue. -/
def Harvest.entry (h : Harvest) : QueuedSpan := ⟨h.tsCall, h.tsResp, h.resp⟩

/-- What an iteration that made a call did. -/
structure MadeCall (cfg : FuzzConfig) (s : FuzzState) (cidx : ℕ) (call : KvCall)
    (cliKeys : List String) (client : ClientProc) (stats : Stats) (s' : FuzzState) : Prop where
  notAll : s.opsCalled ≠ cfg.totalOps
  idle : s.flying[cidx]? = some false
  keys : cfg.keys[cidx]? = some cliKeys
  drawn : ∃ d, genRandKvcall cliKeys s.stats cidx d = .ok (call, stats)
  proc : s.clients[cidx]? = some client
  state : s' = { s with
    timestamp := s.timestamp + 1
    flying := s.flying.set cidx true
    callMemo := s.callMemo.set cidx (s.timestamp + 1, call.updateInfo)
    clients := s.clients.set cidx ⟨client.unanswered ++ [call]⟩
    stats
    opsCalled := s.opsCalled + 1 }

/-- What an iteration that harvested a Stop did. -/
structure HarvestedStop (s : FuzzState) (cidx : ℕ) (s' : FuzzState) : Prop where
  flying : s.flying[cidx]? = some true
  state : ∃ rest, s' = { s with
    timestamp := s.timestamp + 1
    clients := s.clients.set cidx rest
    passed := false }

/-- What an iteration that harvested any other response did. -/
structure Harvested (cfg : FuzzConfig) (s : FuzzState) (h : Harvest) (rest : List KvCall)
    (updateInfo : Option (String × Option String)) (applied : Applied) (s' : FuzzState) :
    Prop where
  flying : s.flying[h.cidx]? = some true
  tsResp : h.tsResp = s.timestamp + 1
  proc : s.clients[h.cidx]? = some ⟨h.call :: rest⟩
  resp : h.resp ≠ .stop
  memo : s.callMemo[h.cidx]? = some (h.tsCall, updateInfo)
  span : h.tsCall < h.tsResp
  update : applyMemo { s.history with queue := s.history.queue ++ [h.entry] } h.cidx h.tsCall
    h.tsResp updateInfo = .ok applied
  returned : h.returned = applied.returned
  checks : h.checks = applied.checks
  state : s' = { s with
    timestamp := s.timestamp + 1
    clients := s.clients.set h.cidx ⟨rest⟩
    callMemo := s.callMemo.set h.cidx (0, none)
    history := applied.history
    flying := if h.returned = none then s.flying.set h.cidx false else s.flying
    opsWaited := if h.returned = none then s.opsWaited + 1 else s.opsWaited
    passed := if h.returned = none then s.passed else false }

/-- Everything an iteration can do. -/
inductive IterCase (cfg : FuzzConfig) (s : FuzzState) : Event → FuzzState → Prop
  | called {cidx : ℕ} {call : KvCall} {cliKeys : List String} {client : ClientProc}
      {stats : Stats} {s' : FuzzState} (h : MadeCall cfg s cidx call cliKeys client stats s') :
      IterCase cfg s (.called cidx (s.timestamp + 1) call) s'
  | stopped {cidx : ℕ} {s' : FuzzState} (h : HarvestedStop s cidx s') :
      IterCase cfg s (.stopped cidx (s.timestamp + 1)) s'
  | waited {h : Harvest} {rest : List KvCall} {updateInfo : Option (String × Option String)}
      {applied : Applied} {s' : FuzzState} (hh : Harvested cfg s h rest updateInfo applied s') :
      IterCase cfg s (.waited h) s'

lemma addToQueue_eq_ok {history history' : History} {tsCall tsResp : ℕ} {resp : KvResp}
    (h : history.addToQueue tsCall tsResp resp = .ok history') :
    tsCall < tsResp
      ∧ history' = { history with queue := history.queue ++ [⟨tsCall, tsResp, resp⟩] } := by
  simp only [History.addToQueue, bind_eq_ok] at h
  obtain ⟨_, hspan, _, -, h⟩ := h
  cases h
  exact ⟨by simpa using debugAssert_eq_ok hspan, rfl⟩

lemma waitResp_eq_ok {client client' : ClientProc} {r : Except RunnerError KvResp} {call : KvCall}
    {resp : KvResp} (h : client.waitResp r = .ok (call, resp, client')) :
    client = ⟨call :: client'.unanswered⟩ := by
  obtain ⟨unanswered⟩ := client
  cases r with
  | error e => cases h
  | ok resp =>
      cases unanswered with
      | nil => cases h
      | cons call rest =>
          cases h
          rfl

lemma makeCall_cases {cfg : FuzzConfig} {s s' : FuzzState} {d : Draws} {ev : Event}
    (hcall : s.opsCalled ≠ cfg.totalOps)
    (h : makeCall cfg { s with timestamp := s.timestamp + 1 } d = .ok (s', ev)) :
    IterCase cfg s ev s' := by
  simp only [makeCall, bind_eq_ok] at h
  obtain ⟨cidx, hcidx, cliKeys, hkeys, ⟨call, stats⟩, hdrawn, client, hclient, client', hsend,
    h⟩ := h
  cases h
  have hsent : client' = ⟨client.unanswered ++ [call]⟩ := by
    cases hd : d.send with
    | ok u =>
        rw [hd] at hsend
        cases hsend
        rfl
    | error e =>
        rw [hd] at hsend
        cases hsend
  subst hsent
  exact .called ⟨hcall, genRandClient_eq_ok hcidx, index_eq_ok.mp hkeys, ⟨d, hdrawn⟩,
    index_eq_ok.mp hclient, rfl⟩

lemma harvest_cases {cfg : FuzzConfig} {s s' : FuzzState} {d : Draws} {ev : Event}
    (h : harvest cfg { s with timestamp := s.timestamp + 1 } d = .ok (s', ev)) :
    IterCase cfg s ev s' := by
  simp only [harvest, bind_eq_ok] at h
  obtain ⟨cidx, hcidx, client, hclient, ⟨call, resp, client'⟩, hwait, h⟩ := h
  have hflying := genRandClient_eq_ok hcidx
  have hcalls := waitResp_eq_ok hwait
  subst hcalls
  by_cases hstop : resp = .stop
  · rw [if_pos hstop] at h
    cases h
    exact .stopped ⟨hflying, _, rfl⟩
  · simp only [if_neg hstop, bind_eq_ok] at h
    obtain ⟨⟨tsCall, updateInfo⟩, hmemo, history, hqueue, applied, happlied, h⟩ := h
    obtain ⟨hspan, rfl⟩ := addToQueue_eq_ok hqueue
    by_cases hfail : applied.returned.isSome
    · rw [if_pos hfail] at h
      cases h
      have hne : ¬ applied.returned = none := by
        intro hnone
        rw [hnone] at hfail
        cases hfail
      refine .waited ⟨hflying, rfl, index_eq_ok.mp hclient, hstop, index_eq_ok.mp hmemo, hspan,
        happlied, rfl, rfl, ?_⟩
      simp only [if_neg hne]
    · simp only [if_neg hfail, bind_eq_ok] at h
      obtain ⟨_, -, h⟩ := h
      cases h
      have hnone : applied.returned = none := by simpa using hfail
      refine .waited ⟨hflying, rfl, index_eq_ok.mp hclient, hstop, index_eq_ok.mp hmemo, hspan,
        happlied, rfl, rfl, ?_⟩
      simp only [if_pos hnone]

lemma fuzzIter_cases {cfg : FuzzConfig} {s s' : FuzzState} {d : Draws} {ev : Event}
    (h : fuzzIter cfg s d = .ok (s', ev)) : s.timestamp + 1 ≤ u64Max ∧ IterCase cfg s ev s' := by
  simp only [fuzzIter, bind_eq_ok] at h
  obtain ⟨_, hclock, h⟩ := h
  refine ⟨by simpa using debugAssert_eq_ok hclock, ?_⟩
  split at h
  · rename_i hcall
    refine makeCall_cases ?_ h
    intro heq
    simp [genCallVsWait, heq] at hcall
  · exact harvest_cases h

lemma FuzzStep.cases {cfg : FuzzConfig} {s s' : FuzzState} {ev : Event}
    (h : FuzzStep cfg s ev s') : s.Running cfg ∧ IterCase cfg s ev s' := by
  obtain ⟨hrun, d, hd⟩ := h
  exact ⟨hrun, (fuzzIter_cases hd).2⟩

/-! ### Computed runs -/

/-- An iteration where the loop goes on, an abort where it has ended. -/
def fuzzNext (cfg : FuzzConfig) (s : FuzzState) (d : Draws) : Except Abort (FuzzState × Event) :=
  if s.Running cfg then fuzzIter cfg s d else .error .retrying

/-- The events and the state of the loop after the iterations drawn. -/
def fuzzDrive (cfg : FuzzConfig) (ds : List Draws) : Except Abort (List Event × FuzzState) :=
  drive (fuzzNext cfg) (FuzzState.init cfg) ds

lemma fuzzRun_of_drive {cfg : FuzzConfig} {ds : List Draws} {evs : List Event} {s : FuzzState}
    (h : fuzzDrive cfg ds = .ok (evs, s)) : FuzzRun cfg evs s := by
  have hnext : ∀ s d s' ev, fuzzNext cfg s d = .ok (s', ev) → FuzzStep cfg s ev s' := ?_
  · exact exec_of_drive hnext ds _ _ _ h
  intro s d s' ev hnext
  rw [fuzzNext] at hnext
  split at hnext
  · exact ⟨by assumption, d, hnext⟩
  · cases hnext

/-- The computed run, the empty one where an iteration aborts. -/
def runOf (cfg : FuzzConfig) (ds : List Draws) : List Event × FuzzState :=
  match fuzzDrive cfg ds with
  | .ok run => run
  | .error _ => ([], FuzzState.init cfg)

lemma fuzzRun_runOf (cfg : FuzzConfig) (ds : List Draws) :
    FuzzRun cfg (runOf cfg ds).1 (runOf cfg ds).2 := by
  rw [runOf]
  cases hdrive : fuzzDrive cfg ds with
  | error a => exact .nil
  | ok run => exact fuzzRun_of_drive hdrive

/-- Draws that make a call of client `cidx`, on the first key of its list. -/
def drawCall (cidx variant : ℕ) (value : String) : Draws :=
  ⟨true, [cidx], variant, 0, 0, value, .ok (), .error .join⟩

/-- Draws that harvest a response from client `cidx`. -/
def drawResp (cidx : ℕ) (resp : KvResp) : Draws :=
  ⟨false, [cidx], 0, 0, 0, "", .ok (), .ok resp⟩

/-! ### Gets of a single client -/

/-- The only client waits for its next call. -/
def FuzzState.idle (ts n : ℕ) (history : History) (stats : Stats) : FuzzState where
  flying := [false]
  timestamp := ts
  callMemo := [(0, none)]
  clients := [⟨[]⟩]
  history := history
  stats := stats
  opsCalled := n
  opsWaited := n
  passed := true

/-- The only client has been called for a Get. -/
def FuzzState.getting (ts n : ℕ) (key : String) (history : History) (stats : Stats) :
    FuzzState where
  flying := [true]
  timestamp := ts
  callMemo := [(ts, none)]
  clients := [⟨[.get key]⟩]
  history := history
  stats := stats
  opsCalled := n + 1
  opsWaited := n
  passed := true

section Gets

variable {cfg : FuzzConfig} {key : String} {ts n : ℕ} {history : History}

lemma get_called (hkeys : cfg.keys = [[key]]) (hn : n < cfg.totalOps) (hts : ts + 1 ≤ u64Max)
    (puts swaps gets scans deletes freq : ℕ) :
    FuzzStep cfg (.idle ts n history ⟨puts, swaps, gets, scans, deletes, [[freq]]⟩)
      (.called 0 (ts + 1) (.get key))
      (.getting (ts + 1) n key history ⟨puts, swaps, gets + 1, scans, deletes, [[freq + 1]]⟩) := by
  refine ⟨⟨hn, rfl⟩, drawCall 0 4 "", ?_⟩
  have hcall : genCallVsWait n cfg.totalOps [false] true = true := by
    simp [genCallVsWait, hn.ne]
  rw [fuzzIter]
  refine bind_of_eq_ok (debugAssert_of_true _ (decide_eq_true hts)) ?_
  show (if genCallVsWait n cfg.totalOps [false] true = true then _ else _) = _
  rw [if_pos hcall]
  refine bind_of_eq_ok (a := 0) rfl ?_
  refine bind_of_eq_ok (a := [key]) (by rw [hkeys]; rfl) ?_
  rfl

/-- The response to the Get joins the queue, and no check is made. -/
lemma get_answered (hn : n < cfg.totalOps) (hops : cfg.totalOps / 100 ≠ 0)
    (hts : ts + 1 ≤ u64Max) (hqueue : ∀ e ∈ history.queue, e.tsResp ≤ ts) (value : Option String)
    (stats : Stats) :
    FuzzStep cfg (.getting ts n key history stats)
      (.waited ⟨0, .get key, ts, ts + 1, .get key value, none, []⟩)
      (.idle (ts + 1) (n + 1)
        { history with queue := history.queue ++ [⟨ts, ts + 1, .get key value⟩] } stats) := by
  refine ⟨⟨hn, rfl⟩, drawResp 0 (.get key value), ?_⟩
  have hwait : genCallVsWait (n + 1) cfg.totalOps [true] false = false := by
    simp [genCallVsWait]
  have horder : (history.queue.getLast?.all fun e => decide (e.tsResp < ts + 1)) = true := by
    cases hlast : history.queue.getLast? with
    | none => rfl
    | some e => exact decide_eq_true (Nat.lt_succ_of_le (hqueue e (List.mem_of_getLast? hlast)))
  rw [fuzzIter]
  refine bind_of_eq_ok (debugAssert_of_true _ (decide_eq_true hts)) ?_
  show (if genCallVsWait (n + 1) cfg.totalOps [true] false = true then _ else _) = _
  rw [if_neg (by rw [hwait]; exact Bool.false_ne_true)]
  refine bind_of_eq_ok (a := 0) rfl ?_
  refine bind_of_eq_ok (a := ⟨[.get key]⟩) rfl ?_
  refine bind_of_eq_ok (a := (.get key, .get key value, ⟨[]⟩)) rfl ?_
  refine bind_of_eq_ok (a := (ts, none)) rfl ?_
  refine bind_of_eq_ok (bind_of_eq_ok (debugAssert_of_true _ (decide_eq_true (Nat.lt_succ_self ts)))
    (bind_of_eq_ok (debugAssert_of_true _ horder) rfl)) ?_
  refine bind_of_eq_ok (a := ⟨_, none, []⟩) rfl ?_
  exact bind_of_eq_ok (debugAssert_of_true _ (decide_eq_true hops)) rfl

/-- A run can go on with any number of Gets that its clock allows. -/
lemma exists_gets {evs : List Event} {puts swaps gets scans deletes freq : ℕ}
    (hrun : FuzzRun cfg evs (.idle ts n history ⟨puts, swaps, gets, scans, deletes, [[freq]]⟩))
    (hkeys : cfg.keys = [[key]]) (hops : cfg.totalOps / 100 ≠ 0)
    (hqueue : ∀ e ∈ history.queue, e.tsResp ≤ ts) (value : Option String) (k : ℕ)
    (hn : n + k ≤ cfg.totalOps) (hts : ts + 2 * k ≤ u64Max) :
    ∃ evs' queue, FuzzRun cfg (evs ++ evs') (.idle (ts + 2 * k) (n + k) { history with queue }
        ⟨puts, swaps, gets + k, scans, deletes, [[freq + k]]⟩)
      ∧ (∀ e ∈ queue, e.tsResp ≤ ts + 2 * k) ∧ queue.length = history.queue.length + k := by
  induction k with
  | zero => exact ⟨[], history.queue, by rw [List.append_nil]; exact hrun, hqueue, rfl⟩
  | succ k ih =>
      obtain ⟨evs', queue, hgets, hqueue', hlength⟩ := ih (by omega) (by omega)
      have hlt : n + k < cfg.totalOps := by omega
      have hcalled := hgets.snoc (get_called hkeys hlt (by omega) _ _ _ _ _ _)
      have hlater : ∀ e ∈ queue, e.tsResp ≤ ts + 2 * k + 1 :=
        fun e he => (hqueue' e he).trans (Nat.le_succ _)
      have hanswered := hcalled.snoc (get_answered hlt hops (by omega) hlater value _)
      rw [List.append_assoc, List.append_assoc] at hanswered
      refine ⟨_, _, hanswered, fun e he => ?_, ?_⟩
      · rcases List.mem_append.mp he with he | he
        · exact (hqueue' e he).trans (by omega)
        · rw [List.mem_singleton.mp he]
          exact le_rfl
      · rw [List.length_append, hlength, List.length_singleton, Nat.add_assoc]

end Gets

end Madkv
