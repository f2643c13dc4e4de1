import Madkv.Pmodel.Service

/-!
The pool of the monitor against the pool of the service, when each response is
observed before the next request is sent.

* `RoundStep`: the pool serves a request, the client announces the response, and
  the monitor appends it. `exists_roundStep`: on empty queues, three steps of the
  machines are a round.
* `drift`: what the last write to a key and the additions after it sum up to. The
  response does not carry the value of the request, so that the monitor misses it.
* `RoundInv.step`: a value of the pool is the value in the monitor's pool and the
  drift of its key.
* `monitor_pool_iff`: the two pools are equal if and only if no key drifts.
-/

namespace Madkv

open Execution

/-- A request and the time stamp that its response gets. -/
structure Round (ι : Type) where
  req : ClientRequest ι
  tsResp : ℤ

structure Service where
  pool : PMap ℤ
  monitor : Monitor

def Service.start (initialPool : PMap ℤ) : Service where
  pool := initialPool
  monitor := .serviceInitialPool initialPool

/-- The pool in the last node of the history. -/
def Monitor.lastPool (m : Monitor) : Option (PMap ℤ) :=
  (m.history.nodes.lookup (m.nodeId - 1)).map (·.pool)

section Rounds

variable {ι : Type}

/-- A request is served, its response announced by the client and appended. -/
inductive RoundStep (orders : ∀ ordering, CheckOrders ordering) :
    Service → Round ι → Service → Prop
  | round {s : Service} {r : Round ι} {pool : PMap ℤ} {resp : ClientResponse ι} {fuel : ℕ}
      {monitor : Monitor} (hserve : waitForRequests s.pool r.req = .ok (pool, resp))
      (hsees : s.monitor.clientSeesResponse orders fuel
        ⟨resp.op, resp.cId, resp.tsReq, r.tsResp⟩ = some (.ok monitor)) :
      RoundStep orders s r ⟨pool, monitor⟩

/-- The time stamps of the rounds, in the order in which they are taken. -/
def timeStamps (rounds : List (Round ι)) : List ℤ :=
  0 :: rounds.flatMap fun r => [r.req.tsReq, r.tsResp]

/-- The operations of the rounds. -/
def requestedOps (rounds : List (Round ι)) : List Operation := rounds.map (·.req.op)

end Rounds

/-- What the drift `d` of a key becomes with an operation. -/
def Operation.drift (op : Operation) (k d : ℤ) : ℤ :=
  if op.key = k then
    match op.typ with
    | .opRead => d
    | .opWrite => op.val
    | .opRaddw => d + op.val
  else d

/-- The sum of the last write to the key and the additions after it. -/
def drift (k : ℤ) (ops : List Operation) : ℤ := ops.foldl (fun d op => op.drift k d) 0

lemma drift_concat {k : ℤ} {ops : List Operation} {op : Operation} :
    drift k (ops ++ [op]) = op.drift k (drift k ops) := by
  rw [drift, List.foldl_append]
  rfl

/-! ### The two pools -/

section Pools

variable {pool mirror initialPool : PMap ℤ} {op : Operation} {d : ℤ → ℤ} {k : ℤ}

lemma lookup_apply_of_ne (h : k ≠ op.key) : (op.apply pool).lookup k = pool.lookup k := by
  rw [Operation.apply]
  cases op.typ with
  | opRead => rfl
  | opWrite => exact Finmap.lookup_insert_of_ne _ h
  | opRaddw => exact Finmap.lookup_insert_of_ne _ h

/-- The operation on the pool and the response on the mirror change the
difference of the two values as `Operation.drift` says. -/
lemma lookup_apply_answer (h : ∀ k, pool.lookup k = (mirror.lookup k).map (· + d k))
    (hkey : op.key ∈ pool) :
    (op.apply pool).lookup k
      = (((op.answer pool).apply mirror).lookup k).map (· + op.drift k (d k)) := by
  by_cases hk : k = op.key
  · subst hk
    obtain ⟨value, hvalue⟩ := Finmap.mem_iff.mp hkey
    obtain ⟨value', hvalue', rfl⟩ := Option.map_eq_some_iff.mp ((h op.key).symm.trans hvalue)
    cases htyp : op.typ with
    | opRead => simpa [Operation.apply, Operation.answer, Operation.drift, htyp] using h op.key
    | opWrite => simp [Operation.apply, Operation.answer, Operation.drift, htyp]
    | opRaddw =>
        simp [Operation.apply, Operation.answer, Operation.drift, htyp, hvalue, hvalue', add_assoc]
  · have hdrift : op.drift k (d k) = d k := if_neg fun heq => hk heq.symm
    rw [lookup_apply_of_ne hk, lookup_apply_of_ne (show k ≠ (op.answer pool).key from hk),
      hdrift, h]

end Pools

/-! ### The rounds -/

section Rounds

variable {ι : Type} {initialPool : PMap ℤ} {rounds : List (Round ι)} {s s' : Service} {r : Round ι}
  {orders : ∀ ordering, CheckOrders ordering}

/-- What the rounds keep: the history records the responses `seen`, and the pool
is the one of the history up to the drifts. -/
structure RoundInv (initialPool : PMap ℤ) (rounds : List (Round ι)) (s : Service)
    (seen : List SeenResponse) : Prop where
  records : Records initialPool seen s.monitor
  value : ∀ k, s.pool.lookup k
    = ((poolAfter initialPool seen).lookup k).map (· + drift k (requestedOps rounds))

lemma RoundInv.start (initialPool : PMap ℤ) :
    RoundInv initialPool ([] : List (Round ι)) (Service.start initialPool) [] where
  records := .start initialPool
  value k := by
    show initialPool.lookup k = (initialPool.lookup k).map (· + 0)
    simp

lemma RoundInv.mem_iff {seen : List SeenResponse} (h : RoundInv initialPool rounds s seen) {k : ℤ} :
    k ∈ s.pool ↔ k ∈ initialPool := by
  rw [← mem_poolAfter_iff h.records.keys, Finmap.mem_iff, Finmap.mem_iff, h.value]
  simp

/-- **One round** keeps the invariant. -/
lemma RoundInv.step {seen : List SeenResponse} (h : RoundInv initialPool rounds s seen)
    (hstep : RoundStep orders s r s') :
    ∃ resp, RoundInv initialPool (rounds ++ [r]) s' (seen ++ [resp])
      ∧ resp.tsReq = r.req.tsReq ∧ resp.tsResp = r.tsResp := by
  obtain ⟨hserve, hsees⟩ := hstep
  obtain ⟨hkey, rfl, rfl⟩ := waitForRequests_eq_ok hserve
  refine ⟨_, ⟨h.records.of_clientSeesResponse (h.mem_iff.mp hkey) hsees, fun k => ?_⟩, rfl, rfl⟩
  rw [requestedOps, List.map_append, poolAfter_concat]
  exact (lookup_apply_answer h.value hkey).trans (by rw [← drift_concat]; rfl)

/-- **All rounds**: the pool is the one of the history up to the drifts. -/
lemma RoundInv.run (hrun : Exec (RoundStep orders) (Service.start initialPool) rounds s) :
    ∃ seen, RoundInv initialPool rounds s seen := by
  refine hrun.invariant (P := fun rounds s => ∃ seen, RoundInv initialPool rounds s seen)
    ⟨[], .start initialPool⟩ fun _ _ _ _ _ ih hstep => ?_
  obtain ⟨seen, h⟩ := ih
  obtain ⟨resp, h, -, -⟩ := h.step hstep
  exact ⟨seen ++ [resp], h⟩

/-- The pool in the last node is the one after the responses. -/
lemma Records.lastPool {seen : List SeenResponse} {m : Monitor} (h : Records initialPool seen m) :
    m.lastPool = some (poolAfter initialPool seen) := by
  have hlast : m.nodeId - 1 = seen.length := by rw [h.nodeId]; omega
  rw [Monitor.lastPool, hlast, h.lookup_eq_some_iff.mpr ⟨⟨by omega, le_rfl⟩, rfl⟩]
  simp [recordedNode]

/-- The two pools are equal if no key drifts, and only then. -/
lemma RoundInv.lastPool_iff {seen : List SeenResponse} (h : RoundInv initialPool rounds s seen) :
    s.monitor.lastPool = some s.pool ↔ ∀ k ∈ initialPool, drift k (requestedOps rounds) = 0 := by
  rw [h.records.lastPool, Option.some_inj]
  constructor
  · intro heq k hk
    obtain ⟨value, hvalue⟩ := Finmap.mem_iff.mp ((mem_poolAfter_iff h.records.keys).mpr hk)
    have hsum := h.value k
    rw [← heq, hvalue] at hsum
    have hsum : value = value + drift k (requestedOps rounds) := Option.some.inj hsum
    omega
  · intro hdrift
    refine Finmap.ext_lookup fun k => ?_
    rw [h.value]
    by_cases hk : k ∈ initialPool
    · simp [hdrift k hk]
    · rw [Finmap.lookup_eq_none.mpr fun hmem => hk ((mem_poolAfter_iff h.records.keys).mp hmem)]
      rfl

/-- Neither the pool nor the monitor fails in a round. -/
lemma RoundInv.exists_step {seen : List SeenResponse} (h : RoundInv initialPool rounds s seen)
    (orders : ∀ ordering, CheckOrders ordering) {now : ℤ} (htimed : Timed seen now)
    (hkey : r.req.op.key ∈ initialPool) (hreq : now < r.req.tsReq)
    (hresp : r.req.tsReq < r.tsResp) :
    ∃ s' seen', RoundStep orders s r s' ∧ RoundInv initialPool (rounds ++ [r]) s' seen'
      ∧ Timed seen' r.tsResp := by
  have hserve := waitForRequests_of_mem (h.mem_iff.mpr hkey)
  have htimed := htimed.later hreq.le
  have hseen : r.req.tsReq < SeenResponse.tsResp
      ⟨r.req.op.answer s.pool, r.req.cId, r.req.tsReq, r.tsResp⟩ := hresp
  obtain ⟨fuel, monitor, hsees, -⟩ := h.records.clientSeesResponse htimed hkey le_rfl hseen orders
  have hstep := RoundStep.round hserve hsees
  obtain ⟨resp, hinv, htsReq, htsResp⟩ := h.step hstep
  refine ⟨_, _, hstep, hinv, ?_⟩
  rw [← htsResp] at hresp ⊢
  exact htimed.append htsReq.le hresp

/-- The rounds run, for all orders of the loops of the monitor's check. -/
lemma exists_rounds (orders : ∀ ordering, CheckOrders ordering)
    (hkeys : ∀ r ∈ rounds, r.req.op.key ∈ initialPool)
    (htimes : (timeStamps rounds).Pairwise (· < ·)) :
    ∃ s, Exec (RoundStep orders) (Service.start initialPool) rounds s := by
  suffices h : ∃ s seen now, Exec (RoundStep orders) (Service.start initialPool) rounds s
      ∧ RoundInv initialPool rounds s seen ∧ Timed seen now ∧ now ∈ timeStamps rounds by
    obtain ⟨s, -, -, hrun, -⟩ := h
    exact ⟨s, hrun⟩
  induction rounds using List.reverseRecOn with
  | nil => exact ⟨_, [], 0, .nil, .start initialPool, .start le_rfl, List.mem_singleton_self 0⟩
  | append_singleton rounds r ih =>
      have hsplit : timeStamps (rounds ++ [r]) = timeStamps rounds ++ [r.req.tsReq, r.tsResp] := by
        simp [timeStamps]
      rw [hsplit, List.pairwise_append] at htimes
      obtain ⟨htimes, hround, hlater⟩ := htimes
      obtain ⟨s, seen, now, hrun, hinv, htimed, hnow⟩ :=
        ih (fun r' hr' => hkeys r' (List.mem_append_left _ hr')) htimes
      obtain ⟨s', seen', hstep, hinv', htimed'⟩ := hinv.exists_step orders htimed
        (hkeys r (by simp)) (hlater now hnow _ (by simp)) (by simpa using hround)
      exact ⟨s', _, _, hrun.snoc hstep, hinv', htimed', by rw [hsplit]; simp⟩

end Rounds

/-! ### Rounds as steps of the machines -/

section Machines

variable {ι : Type} [DecidableEq ι] {s s' s₁ s₂ s₃ : System ι} {req : ClientRequest ι}
  {resp : ClientResponse ι} {saw : SeenResponse}

lemma ServiceStep.of_send (h : ServiceStep s (.send req) s') :
    (s'.clients req.cli).cId = req.cId ∧ s'.requests = s.requests ++ [req]
      ∧ s'.responses = s.responses ∧ s'.pool = s.pool ∧ s'.monitor = s.monitor := by
  cases h with
  | send _ _ _ henter =>
      obtain ⟨rfl, rfl⟩ := makeRequests_some henter
      simp

lemma ServiceStep.of_serve (h : ServiceStep s (.serve resp) s') :
    ∃ req rest, s.requests = req :: rest ∧ waitForRequests s.pool req = .ok (s'.pool, resp)
      ∧ s'.requests = rest ∧ s'.clients = s.clients ∧ s'.monitor = s.monitor
      ∧ s'.responses = Function.update s.responses req.cli (s.responses req.cli ++ [resp]) := by
  cases h with
  | serve hqueue hserve => exact ⟨_, _, hqueue, hserve, rfl, rfl, rfl, rfl⟩

lemma ServiceStep.of_observe (h : ServiceStep s (.observe resp saw) s') :
    ∃ cli rest orders fuel, s.responses cli = resp :: rest
      ∧ saw = ⟨resp.op, (s.clients cli).cId, resp.tsReq, saw.tsResp⟩
      ∧ s.monitor.clientSeesResponse orders fuel saw = some (.ok s'.monitor)
      ∧ s'.responses = Function.update s.responses cli rest ∧ s'.requests = s.requests
      ∧ s'.pool = s.pool := by
  cases h with
  | observe _ hqueue _ hresp hsees =>
      obtain ⟨-, rfl, -⟩ := clientResponse_eq_ok hresp
      exact ⟨_, _, _, _, hqueue, rfl, hsees, rfl, rfl, rfl⟩

/-- On empty queues, the steps of a client that sends a request, of the pool that
serves it, and of a client that observes the response are a round. -/
lemma exists_roundStep (hrequests : s.requests = []) (hresponses : ∀ cli, s.responses cli = [])
    (hsend : ServiceStep s (.send req) s₁) (hserve : ServiceStep s₁ (.serve resp) s₂)
    (hobserve : ServiceStep s₂ (.observe resp saw) s₃) :
    (∃ orders, RoundStep orders ⟨s.pool, s.monitor⟩ ⟨req, saw.tsResp⟩ ⟨s₃.pool, s₃.monitor⟩)
      ∧ s₃.requests = [] ∧ ∀ cli, s₃.responses cli = [] := by
  obtain ⟨hcId, hreqs₁, hresps₁, hpool₁, hmonitor₁⟩ := hsend.of_send
  obtain ⟨req', rest, hqueue, hok, hreqs₂, hclients₂, hmonitor₂, hresps₂⟩ := hserve.of_serve
  obtain ⟨cli, rest', orders, fuel, hqueue', hsaw, hsees, hresps₃, hreqs₃, hpool₃⟩ :=
    hobserve.of_observe
  rw [hreqs₁, hrequests] at hqueue
  obtain ⟨rfl, rfl⟩ := List.cons.inj hqueue
  obtain ⟨-, -, hresp⟩ := waitForRequests_eq_ok hok
  rw [hresps₁, hresponses] at hresps₂
  -- the queue of the sender is the only one that holds a response
  have hcli : cli = req.cli := by
    by_contra hne
    rw [hresps₂, Function.update_of_ne hne, hresponses] at hqueue'
    exact absurd hqueue' (List.cons_ne_nil _ _).symm
  subst hcli
  rw [hresps₂, Function.update_self] at hqueue'
  obtain ⟨-, rfl⟩ := List.cons.inj hqueue'
  have hcId' : (s₂.clients req.cli).cId = resp.cId := by rw [hclients₂, hcId, hresp]
  rw [hpool₁, ← hpool₃] at hok
  rw [hsaw, hcId', hmonitor₂, hmonitor₁] at hsees
  refine ⟨⟨orders, .round hok hsees⟩, hreqs₃.trans hreqs₂, fun cli => ?_⟩
  rw [hresps₃, hresps₂]
  by_cases hcli : cli = req.cli
  · rw [hcli, Function.update_self]
  · rw [Function.update_of_ne hcli, Function.update_of_ne hcli, hresponses]

end Machines

/-- **The pool of the monitor tracks the pool of the service** if no key drifts,
and only then. -/
theorem monitor_pool_iff {ι : Type} (initialPool : PMap ℤ) (rounds : List (Round ι))
    (hkeys : ∀ r ∈ rounds, r.req.op.key ∈ initialPool)
    (htimes : (timeStamps rounds).Pairwise (· < ·)) (orders : ∀ ordering, CheckOrders ordering) :
    (∃ s, Exec (RoundStep orders) (Service.start initialPool) rounds s)
      ∧ ∀ s, Exec (RoundStep orders) (Service.start initialPool) rounds s →
        (s.monitor.lastPool = some s.pool
          ↔ ∀ k ∈ initialPool, drift k (requestedOps rounds) = 0) := by
  refine ⟨exists_rounds orders hkeys htimes, fun s hrun => ?_⟩
  obtain ⟨seen, hinv⟩ := RoundInv.run hrun
  exact hinv.lastPool_iff

/-- A write of 7, and an addition that takes it back. -/
def writeAndTakeBack : List (Round ℕ) :=
  [⟨⟨⟨.opWrite, 0, 7, 0⟩, 0, 0, 1⟩, 2⟩, ⟨⟨⟨.opRaddw, 0, -7, 0⟩, 0, 0, 3⟩, 4⟩]

theorem monitor_pool_iff_writeAndTakeBack :
    ∃ s, Exec (RoundStep fun _ => .increasing _) (Service.start (Finmap.singleton 0 5))
        writeAndTakeBack s ∧ s.monitor.lastPool = some s.pool := by
  obtain ⟨⟨s, hrun⟩, hiff⟩ := monitor_pool_iff (Finmap.singleton 0 5) writeAndTakeBack (by decide)
    (by decide) fun _ => .increasing _
  exact ⟨s, hrun, (hiff s hrun).mpr (by decide)⟩

/-- After a write of 7 the monitor takes the value for 0. -/
theorem exists_lost_write :
    ∃ s, Exec (RoundStep fun _ => .increasing _) (Service.start (Finmap.singleton 0 5))
        (writeAndTakeBack.take 1) s ∧ s.monitor.lastPool ≠ some s.pool := by
  have hrun : ∃ s, Exec (RoundStep fun _ => .increasing _) (Service.start (Finmap.singleton 0 5))
      (writeAndTakeBack.take 1) s := exists_rounds _ (by decide) (by decide)
  obtain ⟨s, hrun⟩ := hrun
  obtain ⟨seen, hinv⟩ := RoundInv.run hrun
  exact ⟨s, hrun, fun heq => absurd (hinv.lastPool_iff.mp heq 0 (by decide)) (by decide)⟩

end Madkv
