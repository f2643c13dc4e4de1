import Mathlib.Logic.Function.Basic
import Madkv.Library.Execution
import Madkv.Pmodel.RefObjPool

/-!
The clients, the object pool and the monitor together.

* `Client.makeRequests`, `Client.clientResponse`: the handlers of a client.
* `System`: the machines and their queues. `ServiceStep`: a client sends a request or
  finishes, the pool serves one, or a client observes a response, each handler
  being atomic.
* `ServiceInv`: the messages on their way are older than the clock, and the
  monitor records the responses seen.
* `monitor_never_fails`: whenever a client observes a response, the history of
  the monitor is linearizable.
-/

namespace Madkv

open Execution

/-- A client is about to enter `MakeRequests`, waits there, or is done. -/
inductive ClientState where
  | makeRequests
  | waiting
  | finished
deriving DecidableEq

structure Client where
  cId : ℤ
  numReqs : ℤ
  numKeys : ℤ
  state : ClientState

/-- The operations that `GenerateOp` may return. The source never sets the bound
on the values, so that any value is allowed for. -/
def Client.Generates (c : Client) (op : Operation) : Prop :=
  0 ≤ op.key ∧ op.key < c.numKeys ∧ op.ret = 0

/-- The entry of `MakeRequests`, for the operation and the time stamp that it
gets: go to `Finished` or send a request. -/
def Client.makeRequests {ι : Type} (c : Client) (this : ι) (op : Operation) (ts : ℤ) :
    Except Failure (Client × Option (ClientRequest ι)) :=
  if c.numReqs ≤ 0 then
    -- the entry of `Finished`
    if c.numReqs = 0 then .ok ({ c with state := .finished }, none) else .error .assertion
  else .ok ({ c with state := .waiting }, some ⟨op, this, c.cId, ts⟩)

/-- The handler for a response: what the client announces, and its next state. -/
def Client.clientResponse {ι : Type} [DecidableEq ι] (c : Client) (this : ι)
    (resp : ClientResponse ι) (ts : ℤ) : Except Failure (SeenResponse × Client) :=
  if this = resp.cli then
    if 0 ≤ resp.op.key ∧ resp.op.key < c.numKeys then
      .ok (⟨resp.op, c.cId, resp.tsReq, ts⟩,
        { c with numReqs := c.numReqs - 1, state := .makeRequests })
    else .error .assertion
  else .error .assertion

/-- The machines and the queues of their events. The clients are referred to by
the elements of `ι`. -/
structure System (ι : Type) where
  clients : ι → Client
  /-- the queue of the pool, first in first out -/
  requests : List (ClientRequest ι)
  /-- the queues of the clients -/
  responses : ι → List (ClientResponse ι)
  pool : PMap ℤ
  monitor : Monitor
  /-- the last time stamp -/
  now : ℤ
  /-- the responses that the pool has sent so far, in their order; no machine
  reads it -/
  served : List (ClientResponse ι)

inductive ServiceEvent (ι : Type) where
  | send (req : ClientRequest ι)
  | finish (cli : ι)
  | serve (resp : ClientResponse ι)
  | observe (resp : ClientResponse ι) (seen : SeenResponse)

def System.start {ι : Type} (initialPool : PMap ℤ) (clients : ι → Client) : System ι where
  clients := clients
  requests := []
  responses _ := []
  pool := initialPool
  monitor := .serviceInitialPool initialPool
  now := 0
  served := []

section Steps

variable {ι : Type} [DecidableEq ι]

/-- The steps of the machines. A time stamp is later than all before it. -/
inductive ServiceStep : System ι → ServiceEvent ι → System ι → Prop
  | send {s : System ι} {cli : ι} {op : Operation} {ts : ℤ} {client : Client}
      {req : ClientRequest ι} (hstate : (s.clients cli).state = .makeRequests)
      (hop : (s.clients cli).Generates op) (hts : s.now < ts)
      (henter : (s.clients cli).makeRequests cli op ts = .ok (client, some req)) :
      ServiceStep s (.send req) { s with
        clients := Function.update s.clients cli client
        requests := s.requests ++ [req]
        now := ts }
  | finish {s : System ι} {cli : ι} {op : Operation} {ts : ℤ} {client : Client}
      (hstate : (s.clients cli).state = .makeRequests)
      (henter : (s.clients cli).makeRequests cli op ts = .ok (client, none)) :
      ServiceStep s (.finish cli) { s with clients := Function.update s.clients cli client }
  | serve {s : System ι} {req : ClientRequest ι} {rest : List (ClientRequest ι)} {pool : PMap ℤ}
      {resp : ClientResponse ι} (hqueue : s.requests = req :: rest)
      (hserve : waitForRequests s.pool req = .ok (pool, resp)) :
      ServiceStep s (.serve resp) { s with
        requests := rest
        responses := Function.update s.responses req.cli (s.responses req.cli ++ [resp])
        pool := pool
        served := s.served ++ [resp] }
  | observe {s : System ι} {cli : ι} {resp : ClientResponse ι} {rest : List (ClientResponse ι)}
      {ts : ℤ} {seen : SeenResponse} {client : Client} {orders : ∀ ordering, CheckOrders ordering}
      {fuel : ℕ} {monitor : Monitor} (hstate : (s.clients cli).state = .waiting)
      (hqueue : s.responses cli = resp :: rest) (hts : s.now < ts)
      (hresp : (s.clients cli).clientResponse cli resp ts = .ok (seen, client))
      (hsees : s.monitor.clientSeesResponse orders fuel seen = some (.ok monitor)) :
      ServiceStep s (.observe resp seen) { s with
        clients := Function.update s.clients cli client
        responses := Function.update s.responses cli rest
        monitor := monitor
        now := ts }

/-! ### The handlers of a client -/

variable {c c' : Client} {this : ι} {op : Operation} {ts : ℤ} {resp : ClientResponse ι}
  {saw : SeenResponse}

omit [DecidableEq ι] in
lemma makeRequests_some {req : ClientRequest ι}
    (h : c.makeRequests this op ts = .ok (c', some req)) :
    c' = { c with state := .waiting } ∧ req = ⟨op, this, c.cId, ts⟩ := by
  rw [Client.makeRequests] at h
  split_ifs at h
  · cases h
  · cases h
    exact ⟨rfl, rfl⟩

omit [DecidableEq ι] in
lemma makeRequests_none (h : c.makeRequests this op ts = .ok (c', none)) :
    c' = { c with state := .finished } := by
  rw [Client.makeRequests] at h
  split_ifs at h
  · cases h
    rfl
  · cases h

lemma clientResponse_of_key (hthis : this = resp.cli)
    (hkey : 0 ≤ resp.op.key ∧ resp.op.key < c.numKeys) :
    c.clientResponse this resp ts = .ok (⟨resp.op, c.cId, resp.tsReq, ts⟩,
      { c with numReqs := c.numReqs - 1, state := .makeRequests }) := by
  rw [Client.clientResponse, if_pos hthis, if_pos hkey]

lemma clientResponse_eq_ok (h : c.clientResponse this resp ts = .ok (saw, c')) :
    this = resp.cli ∧ saw = ⟨resp.op, c.cId, resp.tsReq, ts⟩
      ∧ c' = { c with numReqs := c.numReqs - 1, state := .makeRequests } := by
  rw [Client.clientResponse] at h
  split_ifs at h with hthis hkey
  cases h
  exact ⟨hthis, rfl, rfl⟩

/-! ### The invariant -/

lemma mem_update_iff {β : Type} {queues : ι → List β} {queue : List β} {cli cli' : ι} {x : β} :
    x ∈ Function.update queues cli queue cli'
      ↔ cli' = cli ∧ x ∈ queue ∨ cli' ≠ cli ∧ x ∈ queues cli' := by
  by_cases hcli : cli' = cli
  · subst hcli
    simp
  · simp [hcli]

/-- What the monitor sees at a step. -/
def ServiceEvent.seen : ServiceEvent ι → List SeenResponse
  | .observe _ seen => [seen]
  | _ => []

/-- The responses that the monitor has seen in a run. -/
def seenOf (es : List (ServiceEvent ι)) : List SeenResponse := es.flatMap ServiceEvent.seen

omit [DecidableEq ι] in
lemma seenOf_concat {es : List (ServiceEvent ι)} {e : ServiceEvent ι} :
    seenOf (es ++ [e]) = seenOf es ++ e.seen := by
  rw [seenOf, List.flatMap_append, List.flatMap_singleton]
  rfl

/-- A message about a key that the client may ask for, older than the clock. -/
structure Admissible (s : System ι) (cli : ι) (op : Operation) (tsReq : ℤ) : Prop where
  bound : 0 ≤ op.key ∧ op.key < (s.clients cli).numKeys
  sent : tsReq ≤ s.now

structure ServiceInv (initialPool : PMap ℤ) (s : System ι) (seen : List SeenResponse) : Prop where
  records : Records initialPool seen s.monitor
  timed : Timed seen s.now
  pool : ∀ k, k ∈ s.pool ↔ k ∈ initialPool
  requests : ∀ req ∈ s.requests, Admissible s req.cli req.op req.tsReq
  responses : ∀ cli, ∀ resp ∈ s.responses cli,
    resp.cli = cli ∧ resp.op.key ∈ initialPool ∧ Admissible s cli resp.op resp.tsReq

variable {initialPool : PMap ℤ} {s s' : System ι} {e : ServiceEvent ι} {seen : List SeenResponse}
  {cli : ι} {tsReq : ℤ}

omit [DecidableEq ι] in
lemma ServiceInv.start (initialPool : PMap ℤ) (clients : ι → Client) :
    ServiceInv initialPool (System.start initialPool clients) [] where
  records := .start initialPool
  timed := .start le_rfl
  pool _ := Iff.rfl
  requests _ hreq := absurd hreq List.not_mem_nil
  responses _ _ hresp := absurd hresp List.not_mem_nil

/-- The clock only advances, and the clients keep their numbers of keys. -/
lemma Admissible.step (h : Admissible s cli op tsReq) (hstep : ServiceStep s e s') :
    Admissible s' cli op tsReq := by
  have hclients : ∀ {cli' : ι} {client : Client}, client.numKeys = (s.clients cli').numKeys →
      op.key < (Function.update s.clients cli' client cli).numKeys := by
    intro cli' client hkeys
    by_cases hcli : cli = cli'
    · subst hcli
      rw [Function.update_self, hkeys]
      exact h.bound.2
    · rw [Function.update_of_ne hcli]
      exact h.bound.2
  cases hstep with
  | send _ _ hts henter =>
      obtain ⟨rfl, -⟩ := makeRequests_some henter
      exact ⟨⟨h.bound.1, hclients rfl⟩, h.sent.trans hts.le⟩
  | finish _ henter =>
      rw [makeRequests_none henter]
      exact ⟨⟨h.bound.1, hclients rfl⟩, h.sent⟩
  | serve => exact ⟨h.bound, h.sent⟩
  | observe _ _ hts hresp _ =>
      obtain ⟨-, -, rfl⟩ := clientResponse_eq_ok hresp
      exact ⟨⟨h.bound.1, hclients rfl⟩, h.sent.trans hts.le⟩

/-- **One step** keeps the invariant. -/
lemma ServiceInv.step (h : ServiceInv initialPool s seen) (hstep : ServiceStep s e s') :
    ServiceInv initialPool s' (seen ++ e.seen) := by
  have hrequests : ∀ req ∈ s.requests, Admissible s' req.cli req.op req.tsReq :=
    fun req hreq => (h.requests req hreq).step hstep
  have hresponses : ∀ cli, ∀ resp ∈ s.responses cli,
      resp.cli = cli ∧ resp.op.key ∈ initialPool ∧ Admissible s' cli resp.op resp.tsReq := by
    intro cli resp hresp
    obtain ⟨hcli, hkey, hadm⟩ := h.responses cli resp hresp
    exact ⟨hcli, hkey, hadm.step hstep⟩
  cases hstep with
  | @send cli op ts client req hstate hop hts henter =>
      obtain ⟨rfl, rfl⟩ := makeRequests_some henter
      refine ⟨?_, ?_, h.pool, fun req hreq => ?_, hresponses⟩
      · simpa [ServiceEvent.seen] using h.records
      · simpa [ServiceEvent.seen] using h.timed.later hts.le
      · rcases List.mem_append.mp hreq with hreq | hreq
        · exact hrequests req hreq
        · rw [List.mem_singleton.mp hreq]
          exact ⟨⟨hop.1, by simpa using hop.2.1⟩, le_rfl⟩
  | finish =>
      refine ⟨?_, ?_, h.pool, hrequests, hresponses⟩
      · simpa [ServiceEvent.seen] using h.records
      · simpa [ServiceEvent.seen] using h.timed
  | @serve req rest pool resp hqueue hserve =>
      have hreq := hrequests req (by rw [hqueue]; exact List.mem_cons_self)
      obtain ⟨hkey, rfl, rfl⟩ := waitForRequests_eq_ok hserve
      refine ⟨?_, ?_, fun k => (mem_apply_iff hkey).trans (h.pool k), fun req hreq => ?_,
        fun cli resp hresp => ?_⟩
      · simpa [ServiceEvent.seen] using h.records
      · simpa [ServiceEvent.seen] using h.timed
      · exact hrequests req (by rw [hqueue]; exact List.mem_cons_of_mem _ hreq)
      · rcases mem_update_iff.mp hresp with ⟨rfl, hmem⟩ | ⟨-, hmem⟩
        · rcases List.mem_append.mp hmem with hmem | hmem
          · exact hresponses _ resp hmem
          · rw [List.mem_singleton.mp hmem]
            exact ⟨rfl, (h.pool _).mp hkey, hreq.bound, hreq.sent⟩
        · exact hresponses cli resp hmem
  | @observe cli resp rest ts saw client orders fuel monitor hstate hqueue hts hresp hsees =>
      obtain ⟨-, hkey, -, hsent⟩ := h.responses cli resp (by rw [hqueue]; exact List.mem_cons_self)
      obtain ⟨-, rfl, rfl⟩ := clientResponse_eq_ok hresp
      refine ⟨h.records.of_clientSeesResponse hkey hsees, h.timed.append hsent hts, h.pool,
        hrequests, fun cli' resp' hresp' => hresponses cli' resp' ?_⟩
      rcases mem_update_iff.mp hresp' with ⟨rfl, hmem⟩ | ⟨-, hmem⟩
      · rw [hqueue]
        exact List.mem_cons_of_mem _ hmem
      · exact hmem

/-- **A whole run**: the monitor records the responses seen in it. -/
theorem ServiceInv.run {clients : ι → Client} {es : List (ServiceEvent ι)}
    (hrun : Exec ServiceStep (System.start initialPool clients) es s) :
    ServiceInv initialPool s (seenOf es) := by
  refine hrun.invariant (P := fun es s => ServiceInv initialPool s (seenOf es))
    (.start initialPool clients) fun es s e s' _ ih hstep => ?_
  rw [seenOf_concat]
  exact ih.step hstep

/-- The response at the head of a client's queue can be handled, by the client
and by the monitor. -/
lemma ServiceInv.observe (h : ServiceInv initialPool s seen) {rest : List (ClientResponse ι)}
    (hqueue : s.responses cli = resp :: rest) (hts : s.now < ts) :
    ∃ saw client, (s.clients cli).clientResponse cli resp ts = .ok (saw, client)
      ∧ ∀ orders : ∀ ordering, CheckOrders ordering, ∃ fuel monitor,
        s.monitor.clientSeesResponse orders fuel saw = some (.ok monitor)
          ∧ satisfiedConstraints monitor.history (orders monitor.history) fuel
            = some (.ok (.cSo, .rRt)) := by
  obtain ⟨hthis, hkey, hbound, hsent⟩ :=
    h.responses cli resp (by rw [hqueue]; exact List.mem_cons_self)
  refine ⟨_, _, clientResponse_of_key hthis.symm hbound, fun orders => ?_⟩
  have hresp : s.now < SeenResponse.tsResp ⟨resp.op, (s.clients cli).cId, resp.tsReq, ts⟩ := hts
  obtain ⟨fuel, monitor, hsees, -, hlevels⟩ :=
    h.records.clientSeesResponse h.timed hkey hsent hresp orders
  exact ⟨fuel, monitor, hsees, hlevels⟩

end Steps

/-- **The monitor never fails**: in every run, whenever a client observes a
response, the graph of the monitor with this response is linearizable, for all
orders of the loops of the check. -/
theorem monitor_never_fails {ι : Type} [DecidableEq ι] (initialPool : PMap ℤ)
    (clients : ι → Client) (es : List (ServiceEvent ι)) (s : System ι)
    (hrun : Exec ServiceStep (System.start initialPool clients) es s)
    (cli : ι) (resp : ClientResponse ι) (rest : List (ClientResponse ι))
    (hqueue : s.responses cli = resp :: rest) (ts : ℤ) (hts : s.now < ts) :
    ∃ seen client, (s.clients cli).clientResponse cli resp ts = .ok (seen, client)
      ∧ ∀ orders : ∀ ordering, CheckOrders ordering, ∃ fuel monitor,
        s.monitor.clientSeesResponse orders fuel seen = some (.ok monitor)
          ∧ satisfiedConstraints monitor.history (orders monitor.history) fuel
            = some (.ok (.cSo, .rRt)) :=
  (ServiceInv.run hrun).observe hqueue hts

/-! ### A write and a read by two clients -/

/-- A step of a client that has requests left. -/
lemma step_send {ι : Type} [DecidableEq ι] (s : System ι) (cli : ι) (op : Operation) (ts : ℤ)
    (hstate : (s.clients cli).state = .makeRequests) (hreqs : 0 < (s.clients cli).numReqs)
    (hop : (s.clients cli).Generates op) (hts : s.now < ts) :
    ServiceStep s (.send ⟨op, cli, (s.clients cli).cId, ts⟩) { s with
      clients := Function.update s.clients cli { s.clients cli with state := .waiting }
      requests := s.requests ++ [⟨op, cli, (s.clients cli).cId, ts⟩]
      now := ts } :=
  .send hstate hop hts (if_neg (by omega))

/-- A step of the pool for a request on a key of it. -/
lemma step_serve {ι : Type} [DecidableEq ι] (s : System ι) (req : ClientRequest ι)
    (rest : List (ClientRequest ι)) (hqueue : s.requests = req :: rest)
    (hkey : req.op.key ∈ s.pool) :
    ServiceStep s (.serve ⟨req.op.answer s.pool, req.cli, req.cId, req.tsReq⟩) { s with
      requests := rest
      responses := Function.update s.responses req.cli
        (s.responses req.cli ++ [⟨req.op.answer s.pool, req.cli, req.cId, req.tsReq⟩])
      pool := req.op.apply s.pool
      served := s.served ++ [⟨req.op.answer s.pool, req.cli, req.cId, req.tsReq⟩] } :=
  .serve hqueue (waitForRequests_of_mem hkey)

/-- Clients that make one request each. -/
def oneRequest (n : ℕ) : Client := ⟨n, 1, 1, .makeRequests⟩

/-- Client 0 writes 7 and client 1 reads; the pool serves them in this order. -/
def writeAndRead : List (ServiceEvent ℕ) :=
  [.send ⟨⟨.opWrite, 0, 7, 0⟩, 0, 0, 1⟩, .send ⟨⟨.opRead, 0, 0, 0⟩, 1, 1, 2⟩,
    .serve ⟨⟨.opWrite, 0, 0, 0⟩, 0, 0, 1⟩, .serve ⟨⟨.opRead, 0, 0, 7⟩, 1, 1, 2⟩]

/-- The state in which both responses are on their way. -/
structure BothServed (s : System ℕ) : Prop where
  run : Exec ServiceStep (System.start (Finmap.singleton 0 5) oneRequest) writeAndRead s
  clients : s.clients 0 = ⟨0, 1, 1, .waiting⟩ ∧ s.clients 1 = ⟨1, 1, 1, .waiting⟩
  responses : s.responses 0 = [⟨⟨.opWrite, 0, 0, 0⟩, 0, 0, 1⟩]
    ∧ s.responses 1 = [⟨⟨.opRead, 0, 0, 7⟩, 1, 1, 2⟩]
  served : s.served = [⟨⟨.opWrite, 0, 0, 0⟩, 0, 0, 1⟩, ⟨⟨.opRead, 0, 0, 7⟩, 1, 1, 2⟩]
  now : s.now = 2

lemma exists_bothServed : ∃ s, BothServed s := by
  have hstart : Exec ServiceStep (System.start (Finmap.singleton 0 5) oneRequest) [] _ := .nil
  have hsend₀ := hstart.snoc (step_send _ 0 ⟨.opWrite, 0, 7, 0⟩ 1 rfl (by decide)
    ⟨by decide, by decide, rfl⟩ (by decide))
  have hsend₁ := hsend₀.snoc (step_send _ 1 ⟨.opRead, 0, 0, 0⟩ 2 rfl (by decide)
    ⟨by decide, by decide, rfl⟩ (by decide))
  have hserve₀ := hsend₁.snoc (step_serve _ ⟨⟨.opWrite, 0, 7, 0⟩, 0, 0, 1⟩ _ rfl (by decide))
  have hserve₁ := hserve₀.snoc (step_serve _ ⟨⟨.opRead, 0, 0, 0⟩, 1, 1, 2⟩ _ rfl (by decide))
  exact ⟨_, hserve₁, ⟨rfl, rfl⟩, ⟨rfl, rfl⟩, rfl, rfl⟩

theorem monitor_never_fails_writeAndRead : ∃ s, BothServed s ∧ ∃ seen client,
    (s.clients 1).clientResponse 1 ⟨⟨.opRead, 0, 0, 7⟩, 1, 1, 2⟩ 3 = .ok (seen, client)
      ∧ ∀ orders : ∀ ordering, CheckOrders ordering, ∃ fuel monitor,
        s.monitor.clientSeesResponse orders fuel seen = some (.ok monitor)
          ∧ satisfiedConstraints monitor.history (orders monitor.history) fuel
            = some (.ok (.cSo, .rRt)) := by
  obtain ⟨s, hs⟩ := exists_bothServed
  refine ⟨s, hs, ?_⟩
  exact monitor_never_fails (Finmap.singleton 0 5) oneRequest writeAndRead s hs.run 1 _ []
    hs.responses.2 3 (by rw [hs.now]; decide)

end Madkv
