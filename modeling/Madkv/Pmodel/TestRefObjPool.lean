import Mathlib.Algebra.BigOperators.Ring.Finset
import Mathlib.Data.Fintype.BigOperators
import Madkv.Pmodel.Requests

/-!
The test driver `TestRefObjectPool`, and what becomes of the clients it starts.

* `TestRefObjectPool`: what the driver chooses. `setupService`, `setupClients`: the
  pool and the clients that it starts.
* `Ready`: clients that may ask for keys of the pool only, as those of the driver.
* `CountInv`: what a client has sent is what it has observed and what is on its way.
* `stepsLeft`: how many steps there are to come, whatever their order.
* `existsUnique_node`: the monitor has one node for each request whose response has been
  observed.
* `clients_finish`: a run ends after a fixed number of steps, and then every client
  has got all of its responses.
-/

namespace Madkv

open Execution

/-! ### The driver -/

/-- The entry of the pool's `Init`. -/
def initObjectPool (initialPool : PMap ℤ) : Except Failure (PMap ℤ) :=
  if 0 < initialPool.keys.card then .ok initialPool else .error .assertion

/-- The entry of a client's `Init`. -/
def Client.init (cId numReqs numKeys : ℤ) : Except Failure Client :=
  if 0 < numKeys then .ok ⟨cId, numReqs, numKeys, .makeRequests⟩ else .error .assertion

/-- The choices of the driver. -/
structure TestRefObjectPool where
  numClients : ℕ
  numKeys : ℤ
  /-- the initial value of each key -/
  initial : ℕ → ℤ
  numReqs : ℤ
  keys_pos : 1 ≤ numKeys
  reqs_pos : 1 ≤ numReqs

namespace TestRefObjectPool

/-- The loop over the keys, each of which gets its value. -/
def initPool (initial : ℕ → ℤ) : ℕ → PMap ℤ
  | 0 => ∅
  | ki + 1 => (initPool initial ki).insert ki (initial ki)

def setupService (t : TestRefObjectPool) : Except Failure (PMap ℤ) :=
  initObjectPool (initPool t.initial t.numKeys.toNat)

def setupClients (t : TestRefObjectPool) (ci : Fin t.numClients) : Except Failure Client :=
  Client.init ci t.numReqs t.numKeys

/-- The driver has started the pool and the clients. -/
structure Starts (t : TestRefObjectPool) (initialPool : PMap ℤ)
    (clients : Fin t.numClients → Client) : Prop where
  service : t.setupService = .ok initialPool
  clients : ∀ ci, t.setupClients ci = .ok (clients ci)

lemma mem_initPool {initial : ℕ → ℤ} {n : ℕ} {k : ℤ} :
    k ∈ initPool initial n ↔ 0 ≤ k ∧ k < n := by
  induction n with
  | zero =>
      rw [initPool]
      exact ⟨fun h => absurd h Finmap.notMem_empty, fun h => by omega⟩
  | succ n ih =>
      rw [initPool, Finmap.mem_insert, ih]
      omega

lemma setupClients_eq (t : TestRefObjectPool) (ci : Fin t.numClients) :
    t.setupClients ci = .ok ⟨ci, t.numReqs, t.numKeys, .makeRequests⟩ :=
  if_pos (zero_lt_one.trans_le t.keys_pos)

/-- No assertion of the `Init` states fails. -/
lemma exists_starts (t : TestRefObjectPool) :
    ∃ initialPool clients, t.Starts initialPool clients := by
  have hkeys := t.keys_pos
  have hzero : (0 : ℤ) ∈ (initPool t.initial t.numKeys.toNat).keys :=
    Finmap.mem_keys.mpr (mem_initPool.mpr ⟨le_rfl, by omega⟩)
  exact ⟨_, _, if_pos (Finset.card_pos.mpr ⟨0, hzero⟩), t.setupClients_eq⟩

end TestRefObjectPool

section Clients

variable {ι : Type}

/-- Clients that have their requests before them, on keys of the pool. -/
structure Ready (initialPool : PMap ℤ) (clients : ι → Client) : Prop where
  state : ∀ cli, (clients cli).state = .makeRequests
  numReqs : ∀ cli, 0 ≤ (clients cli).numReqs
  numKeys : ∀ cli, 0 < (clients cli).numKeys
  keys : ∀ cli k, 0 ≤ k → k < (clients cli).numKeys → k ∈ initialPool

lemma TestRefObjectPool.Starts.ready {t : TestRefObjectPool} {initialPool : PMap ℤ}
    {clients : Fin t.numClients → Client} (h : t.Starts initialPool clients) :
    Ready initialPool clients := by
  have hkeys := t.keys_pos
  have hreqs := t.reqs_pos
  obtain ⟨hservice, hclients⟩ := h
  rw [setupService, initObjectPool] at hservice
  split_ifs at hservice
  obtain rfl := Except.ok.inj hservice
  have hclient : ∀ ci, clients ci = ⟨ci, t.numReqs, t.numKeys, .makeRequests⟩ := fun ci =>
    (Except.ok.inj ((t.setupClients_eq ci).symm.trans (hclients ci))).symm
  refine ⟨fun ci => ?_, fun ci => ?_, fun ci => ?_, fun ci k hk hlt => ?_⟩
  · rw [hclient ci]
  · rw [hclient ci]
    exact zero_le_one.trans hreqs
  · rw [hclient ci]
    exact zero_lt_one.trans_le hkeys
  · rw [hclient ci] at hlt
    exact mem_initPool.mpr ⟨hk, lt_of_lt_of_le hlt (Int.self_le_toNat _)⟩

/-! ### The requests of one client -/

section Count

variable [DecidableEq ι]

/-- The time stamps of the requests that the client has sent. -/
def sentBy (cli : ι) (es : List (ServiceEvent ι)) : List ℤ :=
  ((requestsOf es).filter (·.cli = cli)).map (·.tsReq)

/-- The time stamps of the requests whose responses the client has observed. -/
def observedBy (cli : ι) (es : List (ServiceEvent ι)) : List ℤ :=
  ((deliveredOf es).filter (·.cli = cli)).map (·.tsReq)

/-- The requests of the client that are on their way, the response first. -/
def System.outstanding (s : System ι) (cli : ι) : List ℤ :=
  (s.responses cli).map (·.tsReq) ++ (s.requests.filter (·.cli = cli)).map (·.tsReq)

/-- What the state of the client says about its requests. -/
def Standing (state : ClientState) (numReqs : ℤ) (outstanding : List ℤ) : Prop :=
  match state with
  | .makeRequests => 0 ≤ numReqs ∧ outstanding = []
  | .waiting => 0 < numReqs ∧ outstanding.length = 1
  | .finished => numReqs = 0 ∧ outstanding = []

/-- A client has sent what it has observed and what is on its way, in this order. -/
structure CountInv (clients : ι → Client) (s : System ι) (es : List (ServiceEvent ι)) (cli : ι) :
    Prop where
  fifo : sentBy cli es = observedBy cli es ++ s.outstanding cli
  numKeys : (s.clients cli).numKeys = (clients cli).numKeys
  numReqs : (s.clients cli).numReqs + (observedBy cli es).length = (clients cli).numReqs
  standing : Standing (s.clients cli).state (s.clients cli).numReqs (s.outstanding cli)

variable {initialPool : PMap ℤ} {clients : ι → Client} {s s' : System ι}
  {es : List (ServiceEvent ι)} {e : ServiceEvent ι} {cli : ι}

lemma sentBy_concat : sentBy cli (es ++ [e])
    = sentBy cli es ++ (e.sent.filter (·.cli = cli)).map (·.tsReq) := by
  rw [sentBy, requestsOf_concat, List.filter_append, List.map_append, sentBy]

lemma observedBy_concat : observedBy cli (es ++ [e])
    = observedBy cli es ++ (e.delivered.filter (·.cli = cli)).map (·.tsReq) := by
  rw [observedBy, deliveredOf_concat, List.filter_append, List.map_append, observedBy]

lemma CountInv.start (hready : Ready initialPool clients) (cli : ι) :
    CountInv clients (System.start initialPool clients) [] cli where
  fifo := rfl
  numKeys := rfl
  numReqs := add_zero _
  standing := by
    show Standing (clients cli).state (clients cli).numReqs []
    rw [hready.state cli]
    exact ⟨hready.numReqs cli, rfl⟩

omit [DecidableEq ι] in
lemma numReqs_pos_of_some {c c' : Client} {op : Operation} {ts : ℤ} {req : ClientRequest ι}
    (h : c.makeRequests cli op ts = .ok (c', some req)) : 0 < c.numReqs := by
  rw [Client.makeRequests] at h
  split_ifs at h with hnone
  · cases h
  · exact not_le.mp hnone

omit [DecidableEq ι] in
lemma numReqs_of_none {c c' : Client} {op : Operation} {ts : ℤ}
    (h : c.makeRequests cli op ts = .ok (c', none)) : c.numReqs = 0 := by
  rw [Client.makeRequests] at h
  split_ifs at h with _ hzero
  · exact hzero
  · cases h

/-- A step of another client's is no concern of this one. -/
lemma CountInv.other (h : CountInv clients s es cli) (hclients : s'.clients cli = s.clients cli)
    (hout : s'.outstanding cli = s.outstanding cli) (hsent : ∀ req ∈ e.sent, req.cli ≠ cli)
    (hdelivered : ∀ resp ∈ e.delivered, resp.cli ≠ cli) :
    CountInv clients s' (es ++ [e]) cli := by
  have hsent' : sentBy cli (es ++ [e]) = sentBy cli es := by
    rw [sentBy_concat, List.filter_eq_nil_iff.mpr (by simpa using hsent)]
    exact List.append_nil _
  have hobserved' : observedBy cli (es ++ [e]) = observedBy cli es := by
    rw [observedBy_concat, List.filter_eq_nil_iff.mpr (by simpa using hdelivered)]
    exact List.append_nil _
  refine ⟨?_, ?_, ?_, ?_⟩
  · rw [hsent', hobserved', hout, h.fifo]
  · rw [hclients, h.numKeys]
  · rw [hclients, hobserved', h.numReqs]
  · rw [hclients, hout]
    exact h.standing

/-- **One step** keeps the accounts of every client. -/
lemma CountInv.step (h : CountInv clients s es cli)
    (hqueues : ∀ cli, ∀ resp ∈ s.responses cli, resp.cli = cli) (hstep : ServiceStep s e s') :
    CountInv clients s' (es ++ [e]) cli := by
  cases hstep with
  | @send cli₀ op ts client req hstate hop hts henter =>
      have hpos := numReqs_pos_of_some henter
      obtain ⟨rfl, rfl⟩ := makeRequests_some henter
      by_cases hcli : cli₀ = cli
      · subst hcli
        have hout : System.outstanding { s with
            clients := Function.update s.clients cli₀ { s.clients cli₀ with state := .waiting }
            requests := s.requests ++ [⟨op, cli₀, (s.clients cli₀).cId, ts⟩]
            now := ts } cli₀ = s.outstanding cli₀ ++ [ts] := by
          simp [System.outstanding]
        have hstanding := h.standing
        rw [hstate] at hstanding
        refine ⟨?_, ?_, ?_, ?_⟩
        · rw [sentBy_concat, observedBy_concat, hout, h.fifo]
          simp [ServiceEvent.sent, ServiceEvent.delivered]
        · simpa using h.numKeys
        · rw [observedBy_concat]
          simpa [ServiceEvent.delivered] using h.numReqs
        · rw [hout, hstanding.2]
          simpa [Standing] using hpos
      · refine h.other (Function.update_of_ne (Ne.symm hcli) _ _) ?_ ?_ ?_
        · simp [System.outstanding, hcli]
        · simpa [ServiceEvent.sent] using hcli
        · simp [ServiceEvent.delivered]
  | @finish cli₀ op ts client hstate henter =>
      have hzero := numReqs_of_none henter
      obtain rfl := makeRequests_none henter
      by_cases hcli : cli₀ = cli
      · subst hcli
        have hstanding := h.standing
        rw [hstate] at hstanding
        refine ⟨?_, ?_, ?_, ?_⟩
        · rw [sentBy_concat, observedBy_concat]
          simpa [ServiceEvent.sent, ServiceEvent.delivered, System.outstanding] using h.fifo
        · simpa using h.numKeys
        · rw [observedBy_concat]
          simpa [ServiceEvent.delivered] using h.numReqs
        · have hout : s.outstanding cli₀ = [] := hstanding.2
          simpa [Standing, hzero, System.outstanding] using hout
      · refine h.other (Function.update_of_ne (Ne.symm hcli) _ _) rfl ?_ ?_
        · simp [ServiceEvent.sent]
        · simp [ServiceEvent.delivered]
  | @serve req rest pool resp hqueue hserve =>
      obtain ⟨-, -, rfl⟩ := waitForRequests_eq_ok hserve
      -- the request leaves its place in the queue for the one just before it
      have hout : System.outstanding { s with
          requests := rest
          responses := Function.update s.responses req.cli
            (s.responses req.cli ++ [⟨req.op.answer s.pool, req.cli, req.cId, req.tsReq⟩])
          pool := pool
          served := s.served ++ [⟨req.op.answer s.pool, req.cli, req.cId, req.tsReq⟩] } cli
            = s.outstanding cli := by
        by_cases hcli : req.cli = cli
        · subst hcli
          simp [System.outstanding, hqueue]
        · simp [System.outstanding, hqueue, hcli, Function.update_of_ne (Ne.symm hcli)]
      refine ⟨?_, h.numKeys, ?_, ?_⟩
      · rw [sentBy_concat, observedBy_concat, hout, h.fifo]
        simp [ServiceEvent.sent, ServiceEvent.delivered]
      · rw [observedBy_concat]
        simpa [ServiceEvent.delivered] using h.numReqs
      · rw [hout]
        exact h.standing
  | @observe cli₀ resp rest ts saw client orders fuel monitor hstate hqueue hts hresp hsees =>
      have howner : resp.cli = cli₀ := hqueues cli₀ resp (by rw [hqueue]; exact List.mem_cons_self)
      obtain ⟨-, rfl, rfl⟩ := clientResponse_eq_ok hresp
      by_cases hcli : cli₀ = cli
      · subst hcli
        have hout : s.outstanding cli₀ = resp.tsReq :: (rest.map (·.tsReq)
            ++ (s.requests.filter (·.cli = cli₀)).map (·.tsReq)) := by
          rw [System.outstanding, hqueue]
          rfl
        have hstanding := h.standing
        rw [hstate] at hstanding
        obtain ⟨hpos, hlen⟩ := hstanding
        have hfifo := h.fifo
        rw [hout] at hlen hfifo
        have hnone : rest.map (·.tsReq) ++ (s.requests.filter (·.cli = cli₀)).map (·.tsReq) = [] :=
          List.eq_nil_of_length_eq_zero (Nat.succ.inj hlen)
        have hreqs := h.numReqs
        refine ⟨?_, ?_, ?_, ?_⟩
        · rw [sentBy_concat, observedBy_concat, hfifo]
          simp [ServiceEvent.sent, ServiceEvent.delivered, howner, System.outstanding]
        · simpa using h.numKeys
        · rw [observedBy_concat]
          simp [ServiceEvent.delivered, howner]
          omega
        · simp only [System.outstanding, Function.update_self]
          exact ⟨Int.sub_nonneg.mpr hpos, hnone⟩
      · refine h.other (Function.update_of_ne (Ne.symm hcli) _ _) ?_ ?_ ?_
        · rw [System.outstanding, System.outstanding]
          simp only [Function.update_of_ne (Ne.symm hcli)]
        · simp [ServiceEvent.sent]
        · simpa [ServiceEvent.delivered, howner] using hcli

lemma CountInv.run (hready : Ready initialPool clients)
    (hrun : Exec ServiceStep (System.start initialPool clients) es s) (cli : ι) :
    CountInv clients s es cli :=
  hrun.invariant (P := fun es s => CountInv clients s es cli) (.start hready cli)
    fun _ _ _ _ hpre ih hstep => ih.step (fun cli => ((OrderInv.run hpre).queues cli).2) hstep

/-! ### How many steps there are to come -/

/-- The steps of a client, its own and those of the pool for it, before it finishes. -/
def Client.stepsLeft (c : Client) : ℤ :=
  match c.state with
  | .makeRequests => 3 * c.numReqs + 1
  | .waiting => 3 * c.numReqs - 2
  | .finished => 0

variable [Fintype ι]

/-- The steps to come of a client, a response to it having one more. -/
def System.due (s : System ι) (cli : ι) : ℤ :=
  (s.clients cli).stepsLeft + (s.responses cli).length

/-- The steps to come: those of the clients, and two for a request on its way. -/
def System.stepsLeft (s : System ι) : ℤ := ∑ cli, s.due cli + 2 * s.requests.length

/-- The sum changes by what changes for one client. -/
lemma stepsLeft_eq (s : System ι) (cli : ι) (d : ℤ) (hcli : s'.due cli = s.due cli + d)
    (hother : ∀ other ≠ cli, s'.due other = s.due other) :
    s'.stepsLeft = s.stepsLeft + d + 2 * (s'.requests.length - s.requests.length) := by
  have hsum : ∑ cli, s'.due cli = ∑ cli, s.due cli + d := by
    rw [← Finset.add_sum_erase _ s'.due (Finset.mem_univ cli),
      ← Finset.add_sum_erase _ s.due (Finset.mem_univ cli),
      Finset.sum_congr rfl fun other h => hother other (Finset.ne_of_mem_erase h), hcli,
      add_right_comm]
  rw [System.stepsLeft, System.stepsLeft, hsum]
  omega

/-- **Each step is one of them.** -/
lemma ServiceStep.stepsLeft (hstep : ServiceStep s e s') : s'.stepsLeft = s.stepsLeft - 1 := by
  cases hstep with
  | @send cli op ts client req hstate hop hts henter =>
      obtain ⟨rfl, rfl⟩ := makeRequests_some henter
      rw [stepsLeft_eq s cli (-3)]
      · simp only [List.length_append, List.length_singleton]
        push_cast
        omega
      · simp only [System.due, Function.update_self, Client.stepsLeft, hstate]
        omega
      · intro other hother
        simp only [System.due, Function.update_of_ne hother]
  | @finish cli op ts client hstate henter =>
      have hzero := numReqs_of_none henter
      obtain rfl := makeRequests_none henter
      rw [stepsLeft_eq s cli (-1)]
      · simp only
        omega
      · simp only [System.due, Function.update_self, Client.stepsLeft, hstate]
        omega
      · intro other hother
        simp only [System.due, Function.update_of_ne hother]
  | @serve req rest pool resp hqueue hserve =>
      rw [stepsLeft_eq s req.cli 1]
      · simp only [hqueue, List.length_cons]
        push_cast
        omega
      · simp only [System.due, Function.update_self, List.length_append, List.length_singleton]
        push_cast
        omega
      · intro other hother
        simp only [System.due, Function.update_of_ne hother]
  | @observe cli resp rest ts saw client orders fuel monitor hstate hqueue hts hresp hsees =>
      obtain ⟨-, -, rfl⟩ := clientResponse_eq_ok hresp
      rw [stepsLeft_eq s cli (-1)]
      · simp only
        omega
      · simp only [System.due, Function.update_self, Client.stepsLeft, hstate, hqueue,
          List.length_cons]
        push_cast
        omega
      · intro other hother
        simp only [System.due, Function.update_of_ne hother]

/-- The steps of the whole run. -/
def stepsOf (clients : ι → Client) : ℤ := ∑ cli, (3 * (clients cli).numReqs + 1)

lemma length_add_stepsLeft (hready : Ready initialPool clients)
    (hrun : Exec ServiceStep (System.start initialPool clients) es s) :
    es.length + s.stepsLeft = stepsOf clients := by
  refine hrun.invariant (P := fun es s => (es.length : ℤ) + s.stepsLeft = stepsOf clients) ?_
    fun es s e s' _ ih hstep => ?_
  · have hclient : ∀ cli, (clients cli).stepsLeft = 3 * (clients cli).numReqs + 1 := fun cli => by
      rw [Client.stepsLeft, hready.state cli]
    simp [System.stepsLeft, System.due, System.start, stepsOf, hclient]
  · rw [List.length_append, List.length_singleton, hstep.stepsLeft]
    push_cast
    omega

/-! ### The end of a run -/

omit [Fintype ι] in
/-- In a state that is not the end of a run some machine can go on. -/
lemma exists_step (hready : Ready initialPool clients)
    (hrun : Exec ServiceStep (System.start initialPool clients) es s)
    (h : s.requests ≠ [] ∨ ∃ cli, (s.clients cli).state ≠ .finished) :
    ∃ e s', ServiceStep s e s' := by
  have hinv := ServiceInv.run hrun
  cases hrequests : s.requests with
  | cons req rest =>
      -- the pool has the key of the request
      have hadm := hinv.requests req (by rw [hrequests]; exact List.mem_cons_self)
      have hkey := hadm.bound
      rw [(CountInv.run hready hrun req.cli).numKeys] at hkey
      exact ⟨_, _, step_serve s req rest hrequests
        ((hinv.pool _).mpr (hready.keys req.cli _ hkey.1 hkey.2))⟩
  | nil =>
      obtain ⟨cli, hcli⟩ := h.resolve_left (absurd hrequests)
      have hcount := CountInv.run hready hrun cli
      have hstanding := hcount.standing
      cases hstate : (s.clients cli).state with
      | makeRequests =>
          rw [hstate] at hstanding
          rcases eq_or_lt_of_le hstanding.1 with hzero | hpos
          · have henter : (s.clients cli).makeRequests cli ⟨.opRead, 0, 0, 0⟩ 0
                = .ok ({ s.clients cli with state := .finished }, none) :=
              (if_pos hzero.symm.le).trans (if_pos hzero.symm)
            exact ⟨_, _, .finish hstate henter⟩
          · have hkeys : 0 < (s.clients cli).numKeys := hcount.numKeys ▸ hready.numKeys cli
            exact ⟨_, _, step_send s cli ⟨.opRead, 0, 0, 0⟩ (s.now + 1) hstate hpos
              ⟨le_rfl, hkeys, rfl⟩ (by omega)⟩
      | waiting =>
          -- its only request is not in the queue of the pool
          rw [hstate] at hstanding
          have hlen := hstanding.2
          rw [System.outstanding, hrequests] at hlen
          cases hqueue : s.responses cli with
          | nil => simp [hqueue] at hlen
          | cons resp rest =>
              obtain ⟨s', hstep, -⟩ :=
                exists_step_observe hinv hstate hqueue (show s.now < s.now + 1 by omega)
              exact ⟨_, s', hstep⟩
      | finished => exact absurd hstate hcli

omit [Fintype ι] in
lemma CountInv.stepsLeft_pos (h : CountInv clients s es cli) :
    0 ≤ (s.clients cli).stepsLeft
      ∧ ((s.clients cli).stepsLeft = 0 ↔ (s.clients cli).state = .finished) := by
  have hstanding := h.standing
  rw [Client.stepsLeft]
  cases hstate : (s.clients cli).state with
  | makeRequests =>
      rw [hstate] at hstanding
      have := hstanding.1
      exact ⟨by simp only; omega, iff_of_false (by simp only; omega) (by decide)⟩
  | waiting =>
      rw [hstate] at hstanding
      have := hstanding.1
      exact ⟨by simp only; omega, iff_of_false (by simp only; omega) (by decide)⟩
  | finished => exact ⟨le_rfl, iff_of_true rfl rfl⟩

lemma stepsLeft_eq_zero_iff (hcount : ∀ cli, CountInv clients s es cli) :
    0 ≤ s.stepsLeft ∧ (s.stepsLeft = 0 ↔
      s.requests = [] ∧ ∀ cli, (s.clients cli).state = .finished ∧ s.responses cli = []) := by
  have hterm : ∀ cli ∈ Finset.univ, 0 ≤ s.due cli := fun cli _ => by
    have := (hcount cli).stepsLeft_pos.1
    rw [System.due]
    omega
  have hsum := Finset.sum_nonneg hterm
  refine ⟨by rw [System.stepsLeft]; omega, ?_⟩
  have hsum_iff : ∑ cli, s.due cli = 0
      ↔ ∀ cli, (s.clients cli).state = .finished ∧ s.responses cli = [] := by
    rw [Finset.sum_eq_zero_iff_of_nonneg hterm]
    refine ⟨fun h cli => ?_, fun h cli _ => ?_⟩
    · obtain ⟨hpos, hiff⟩ := (hcount cli).stepsLeft_pos
      have hdue := h cli (Finset.mem_univ cli)
      rw [System.due] at hdue
      exact ⟨hiff.mp (by omega), List.eq_nil_of_length_eq_zero (by omega)⟩
    · rw [System.due, (hcount cli).stepsLeft_pos.2.mpr (h cli).1, (h cli).2]
      rfl
  rw [← hsum_iff, ← List.length_eq_zero_iff, System.stepsLeft]
  omega

/-- A run cannot go on if and only if there are no steps left. -/
lemma atRest_iff (hready : Ready initialPool clients)
    (hrun : Exec ServiceStep (System.start initialPool clients) es s) :
    AtRest ServiceStep (fun _ => True) s ↔ s.stepsLeft = 0 := by
  have hcount := CountInv.run hready hrun
  constructor
  · intro hrest
    by_contra hne
    refine (exists_step hready hrun ?_).elim fun e ⟨s', hstep⟩ => hrest e s' trivial hstep
    by_contra hdone
    push Not at hdone
    refine hne ((stepsLeft_eq_zero_iff hcount).2.mpr ⟨hdone.1, fun cli => ⟨hdone.2 cli, ?_⟩⟩)
    have hstanding := (hcount cli).standing
    rw [hdone.2 cli] at hstanding
    exact List.map_eq_nil_iff.mp (List.append_eq_nil_iff.mp hstanding.2).1
  · -- one more step would be one too many
    intro hzero e s' _ hstep
    have hnonneg := (stepsLeft_eq_zero_iff (CountInv.run hready (hrun.snoc hstep))).1
    rw [hstep.stepsLeft] at hnonneg
    omega

/-- Each run can be completed. -/
lemma exists_completed (hready : Ready initialPool clients)
    (hrun : Exec ServiceStep (System.start initialPool clients) es s) :
    ∃ es' s', Exec ServiceStep (System.start initialPool clients) es' s'
      ∧ AtRest ServiceStep (fun _ => True) s' := by
  have hnonneg := (stepsLeft_eq_zero_iff (CountInv.run hready hrun)).1
  obtain ⟨n, hn⟩ := Int.eq_ofNat_of_zero_le hnonneg
  induction n generalizing es s with
  | zero => exact ⟨es, s, hrun, (atRest_iff hready hrun).mpr hn⟩
  | succ n ih =>
      by_cases hrest : AtRest ServiceStep (fun _ => True) s
      · exact ⟨es, s, hrun, hrest⟩
      · simp only [AtRest, not_forall, not_not] at hrest
        obtain ⟨e, s', -, hstep⟩ := hrest
        have hleft := hstep.stepsLeft
        exact ih (hrun.snoc hstep) (by omega) (by omega)

omit [Fintype ι] in
/-- The monitor has seen what the clients have observed. -/
lemma seenOf_tsReq (hrun : Exec ServiceStep (System.start initialPool clients) es s) :
    (seenOf es).map (·.tsReq) = (deliveredOf es).map (·.tsReq) := by
  refine hrun.invariant (P := fun es _ => (seenOf es).map (·.tsReq)
    = (deliveredOf es).map (·.tsReq)) rfl fun es s e s' _ ih hstep => ?_
  rw [seenOf_concat, deliveredOf_concat, List.map_append, List.map_append, ih, hstep.seen_tsReq]

omit [Fintype ι] in
/-- And nothing twice. -/
lemma nodup_seenOf_tsReq (hrun : Exec ServiceStep (System.start initialPool clients) es s) :
    ((seenOf es).map (·.tsReq)).Nodup := by
  have horder := OrderInv.run hrun
  have hserved : ∀ r ∈ deliveredOf es, r ∈ s.served := fun r hr =>
    (horder.sound.served_iff r).mpr (Or.inr hr)
  rw [seenOf_tsReq hrun]
  refine List.Nodup.map_on (fun r hr r' hr' heq => ?_) horder.sound.nodup
  exact horder.eq_of_tsReq (hserved r hr) (hserved r' hr') heq

/-- A node with a time stamp records the response in its place. -/
lemma exists_seen_of_tsReq {seen : List SeenResponse} {ts : ℤ} {i : ℕ} (hpos : 0 < ts)
    (h : (recordedNode initialPool seen i).tsReq = ts) :
    ∃ j, i = j + 1 ∧ (seen.map (·.tsReq))[j]? = some ts := by
  cases i with
  | zero =>
      have hzero : (recordedNode initialPool seen 0).tsReq = 0 := rfl
      omega
  | succ j =>
      refine ⟨j, rfl, ?_⟩
      by_cases hj : j < seen.length
      · simpa [recordedNode, hj] using h
      · have hzero : (recordedNode initialPool seen (j + 1)).tsReq = 0 := by
          simp [recordedNode, List.getElem?_eq_none (not_lt.mp hj), initialResponse]
        omega

omit [Fintype ι] in
/-- **One node for each request** whose response has been observed. -/
lemma existsUnique_node (hrun : Exec ServiceStep (System.start initialPool clients) es s) {ts : ℤ}
    (hts : ts ∈ observedBy cli es) :
    ∃! n, ∃ node, s.monitor.history.nodes.lookup n = some node ∧ node.tsReq = ts := by
  have hrecords := (ServiceInv.run hrun).records
  have horder := OrderInv.run hrun
  obtain ⟨resp, hresp, rfl⟩ := List.mem_map.mp hts
  replace hresp := (List.mem_filter.mp hresp).1
  have hpos : 0 < resp.tsReq := by
    have hserved := (horder.sound.served_iff resp).mpr (Or.inr hresp)
    exact (horder.past _ (List.mem_append_left _ (List.mem_map_of_mem hserved))).1
  have hmem : resp.tsReq ∈ (seenOf es).map (·.tsReq) := by
    rw [seenOf_tsReq hrun]
    exact List.mem_map_of_mem hresp
  obtain ⟨j, hj, heq⟩ := List.mem_iff_getElem.mp hmem
  rw [List.length_map] at hj
  rw [List.getElem_map] at heq
  refine ⟨(j + 1 : ℕ), ⟨_, hrecords.lookup_eq_some_iff.mpr ⟨by omega, rfl⟩, ?_⟩, ?_⟩
  · rw [Int.toNat_natCast]
    simpa [recordedNode, hj] using heq
  · rintro n ⟨node, hlookup, hsame⟩
    obtain ⟨hn, rfl⟩ := hrecords.lookup_eq_some_iff.mp hlookup
    obtain ⟨k, hk, hlook⟩ := exists_seen_of_tsReq hpos hsame
    have hjlook : ((seenOf es).map (·.tsReq))[j]? = some resp.tsReq := by simp [hj, heq]
    have hkj : k = j := by
      refine (List.getElem?_inj ?_ (nodup_seenOf_tsReq hrun)).mp (hlook.trans hjlook.symm)
      exact (List.getElem?_eq_some_iff.mp hlook).1
    omega

lemma length_seenOf (hrun : Exec ServiceStep (System.start initialPool clients) es s) :
    (seenOf es).length = ∑ cli, (observedBy cli es).length := by
  have hlength : ∀ l : List (ClientResponse ι),
      ∑ cli, (l.filter (·.cli = cli)).length = l.length := by
    intro l
    induction l with
    | nil => simp
    | cons resp l ih =>
        have hcons : ∀ cli, ((resp :: l).filter (·.cli = cli)).length
            = (l.filter (·.cli = cli)).length + if resp.cli = cli then 1 else 0 := by
          intro cli
          by_cases hcli : resp.cli = cli <;> simp [hcli]
        rw [Finset.sum_congr rfl fun cli _ => hcons cli, Finset.sum_add_distrib, ih]
        simp
  have hlen := congrArg List.length (seenOf_tsReq hrun)
  rw [List.length_map, List.length_map] at hlen
  rw [hlen, ← hlength]
  exact Finset.sum_congr rfl fun cli _ => (List.length_map _).symm

end Count

end Clients

/-- **The clients finish**: no run is longer than three steps for each request and one for
each client, and a run that cannot go on has come this far. Then all clients have finished,
each has got the responses to its requests in their order, and the monitor has a node for
each of them and one for the initial pool. -/
theorem clients_finish {ι : Type} [Fintype ι] [DecidableEq ι] (initialPool : PMap ℤ)
    (clients : ι → Client) (hready : Ready initialPool clients) (es : List (ServiceEvent ι))
    (s : System ι) (hrun : Exec ServiceStep (System.start initialPool clients) es s) :
    (es.length : ℤ) ≤ stepsOf clients
      ∧ (AtRest ServiceStep (fun _ => True) s ↔ (es.length : ℤ) = stepsOf clients)
      ∧ (AtRest ServiceStep (fun _ => True) s →
        (∀ n, n ∈ s.monitor.history.nodes ↔ 0 ≤ n ∧ n ≤ ∑ cli, (clients cli).numReqs)
          ∧ (∃ node, s.monitor.history.nodes.lookup 0 = some node ∧ node.pool = initialPool)
          ∧ (∀ req ∈ requestsOf es, ∃! n, ∃ node,
            s.monitor.history.nodes.lookup n = some node ∧ node.tsReq = req.tsReq)
          ∧ ∀ cli, (s.clients cli).state = .finished ∧ observedBy cli es = sentBy cli es
            ∧ ((observedBy cli es).length : ℤ) = (clients cli).numReqs) := by
  have hcount := CountInv.run hready hrun
  obtain ⟨hnonneg, hzero⟩ := stepsLeft_eq_zero_iff hcount
  have hlength := length_add_stepsLeft hready hrun
  have hrest := atRest_iff hready hrun
  have hend : ∀ cli, AtRest ServiceStep (fun _ => True) s →
      (s.clients cli).state = .finished ∧ observedBy cli es = sentBy cli es
        ∧ ((observedBy cli es).length : ℤ) = (clients cli).numReqs := by
    intro cli h
    have hfinished := ((hzero.mp (hrest.mp h)).2 cli).1
    have hstanding := (hcount cli).standing
    rw [hfinished] at hstanding
    refine ⟨hfinished, by rw [(hcount cli).fifo, hstanding.2, List.append_nil], ?_⟩
    rw [← (hcount cli).numReqs, hstanding.1, zero_add]
  have hrecords := (ServiceInv.run hrun).records
  refine ⟨by omega, by rw [hrest]; omega, fun h => ⟨fun n => ?_, ?_, fun req hreq => ?_,
    fun cli => hend cli h⟩⟩
  · have htotal : ((seenOf es).length : ℤ) = ∑ cli, (clients cli).numReqs := by
      rw [length_seenOf hrun, Nat.cast_sum]
      exact Finset.sum_congr rfl fun cli _ => (hend cli h).2.2
    rw [hrecords.mem_iff, htotal]
  · exact ⟨_, hrecords.lookup_eq_some_iff.mpr ⟨by omega, rfl⟩, rfl⟩
  · have hobserved : req.tsReq ∈ observedBy req.cli es := by
      rw [(hend req.cli h).2.1]
      exact List.mem_map_of_mem (List.mem_filter.mpr ⟨hreq, by simp⟩)
    exact existsUnique_node hrun hobserved

/-! ### One client -/

/-- A driver that starts one client with one request. -/
def oneClient : TestRefObjectPool := ⟨1, 1, fun _ => 5, 1, le_rfl, le_rfl⟩

theorem clients_finish_oneClient : ∃ initialPool clients es s,
    oneClient.Starts initialPool clients
      ∧ Exec ServiceStep (System.start initialPool clients) es s
      ∧ AtRest ServiceStep (fun _ => True) s
      ∧ (es.length : ℤ) = stepsOf clients
      ∧ ∀ cli, (s.clients cli).state = .finished ∧ observedBy cli es = sentBy cli es := by
  obtain ⟨initialPool, clients, hstarts⟩ := oneClient.exists_starts
  obtain ⟨es, s, hrun, hrest⟩ := exists_completed hstarts.ready .nil
  obtain ⟨-, hlength, hend⟩ := clients_finish initialPool clients hstarts.ready es s hrun
  refine ⟨initialPool, clients, es, s, hstarts, hrun, hrest, hlength.mp hrest, fun cli => ?_⟩
  obtain ⟨-, -, -, hclients⟩ := hend hrest
  exact ⟨(hclients cli).1, (hclients cli).2.1⟩

end Madkv
