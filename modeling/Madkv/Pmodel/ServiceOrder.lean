import Madkv.Library.Delivery
import Madkv.Pmodel.Service

/-!
The order of the monitor's history against the order of service.

* `Conflicting`: two operations on a key, one of which changes it.
* `InServiceOrder`: in the history, conflicting operations are in the order in
  which the pool served them. `PromptStep`: a client observes a response when no
  conflicting one that was served before it waits in a queue.
* `System.outbox`: the responses as items that are served and delivered.
  `OrderInv.step`: the steps of the machines are steps of the outbox.
* `history_inServiceOrder`: in runs whose steps are prompt the history is in the
  order of service. `exists_overtaken`: a read observed before the write that it
  returned comes before it in the history.
-/

namespace Madkv

open Execution Delivery Relation

/-- The operations are on the same key, and one of them changes it. -/
def Conflicting (op op' : Operation) : Prop :=
  op.key = op'.key ∧ (op.typ ≠ .opRead ∨ op'.typ ≠ .opRead)

section Order

variable {ι : Type}

/-- The nodes of conflicting operations, known by the time stamps of their
requests, are in the order in which the pool served them. -/
def InServiceOrder (s : System ι) : Prop :=
  ∀ r r', Before s.served r r' → Conflicting r.op r'.op →
    ∀ n n' node node', s.monitor.history.nodes.lookup n = some node →
      s.monitor.history.nodes.lookup n' = some node' → node.tsReq = r.tsReq →
      node'.tsReq = r'.tsReq → TransGen s.monitor.history.Edge n n'

/-- When a client observes a response, no conflicting one that was served before
it is in a queue. -/
def PromptStep (s : System ι) : ServiceEvent ι → Prop
  | .observe resp _ => ∀ cli, ∀ other ∈ s.responses cli,
      Conflicting other.op resp.op → ¬ Before s.served other resp
  | _ => True

/-! ### The responses as items that are served and delivered -/

/-- What a client receives at a step. -/
def ServiceEvent.delivered : ServiceEvent ι → List (ClientResponse ι)
  | .observe resp _ => [resp]
  | _ => []

/-- The responses that the clients have received in a run. -/
def deliveredOf (es : List (ServiceEvent ι)) : List (ClientResponse ι) :=
  es.flatMap ServiceEvent.delivered

lemma deliveredOf_concat {es : List (ServiceEvent ι)} {e : ServiceEvent ι} :
    deliveredOf (es ++ [e]) = deliveredOf es ++ e.delivered := by
  rw [deliveredOf, List.flatMap_append, List.flatMap_singleton]
  rfl

/-- The responses that are in a queue. -/
def waitingIn (queues : ι → List (ClientResponse ι)) : Set (ClientResponse ι) :=
  {r | ∃ cli, r ∈ queues cli}

def System.outbox (s : System ι) (delivered : List (ClientResponse ι)) :
    Outbox (ClientResponse ι) where
  served := s.served
  waiting := waitingIn s.responses
  delivered := delivered

/-- The time stamps of the requests served, then of those that wait for it. -/
def System.tickets (s : System ι) : List ℤ :=
  s.served.map (·.tsReq) ++ s.requests.map (·.tsReq)

/-- No two requests share a time stamp, and each response waits in one place. -/
structure OrderInv (s : System ι) (delivered : List (ClientResponse ι)) : Prop where
  nodup : s.tickets.Nodup
  past : ∀ t ∈ s.tickets, 0 < t ∧ t ≤ s.now
  now : 0 ≤ s.now
  queues : ∀ cli, (s.responses cli).Nodup ∧ ∀ resp ∈ s.responses cli, resp.cli = cli
  sound : (s.outbox delivered).Sound

lemma OrderInv.start (initialPool : PMap ℤ) (clients : ι → Client) :
    OrderInv (System.start initialPool clients) [] where
  nodup := List.nodup_nil
  past t ht := absurd ht List.not_mem_nil
  now := le_rfl
  queues cli := ⟨List.nodup_nil, fun resp hresp => absurd hresp List.not_mem_nil⟩
  sound :=
    ⟨List.nodup_nil, fun r => by simp [System.outbox, System.start, waitingIn],
      fun r _ hr => absurd hr List.not_mem_nil⟩

variable [DecidableEq ι] {s s' : System ι} {e : ServiceEvent ι}
  {delivered : List (ClientResponse ι)} {r r' : ClientResponse ι}

omit [DecidableEq ι] in
lemma OrderInv.eq_of_tsReq (h : OrderInv s delivered) (hr : r ∈ s.served) (hr' : r' ∈ s.served)
    (heq : r.tsReq = r'.tsReq) : r = r' :=
  List.inj_on_of_nodup_map (List.nodup_append.mp h.nodup).1 hr hr' heq

omit [DecidableEq ι] in
/-- A response that the pool is about to send is a new one. -/
lemma OrderInv.notMem_served (h : OrderInv s delivered) {req : ClientRequest ι}
    {rest : List (ClientRequest ι)} (hqueue : s.requests = req :: rest)
    (heq : r.tsReq = req.tsReq) : r ∉ s.served := by
  intro hr
  have hdisjoint := (List.nodup_append.mp h.nodup).2.2
  refine hdisjoint r.tsReq (List.mem_map_of_mem hr) req.tsReq ?_ heq
  rw [hqueue]
  exact List.mem_map_of_mem List.mem_cons_self

omit [DecidableEq ι] in
lemma OrderInv.mem_served (h : OrderInv s delivered) {cli : ι} (hr : r ∈ s.responses cli) :
    r ∈ s.served :=
  (h.sound.served_iff r).mpr (Or.inl ⟨cli, hr⟩)

/-- A response joins a queue. -/
lemma waiting_push {queues : ι → List (ClientResponse ι)} {cli : ι} :
    waitingIn (Function.update queues cli (queues cli ++ [r])) = insert r (waitingIn queues) := by
  ext x
  simp only [waitingIn, Set.mem_ofPred_eq, Set.mem_insert_iff, mem_update_iff, List.mem_append,
    List.mem_singleton]
  constructor
  · rintro ⟨cli', ⟨rfl, hx | rfl⟩ | ⟨-, hx⟩⟩
    · exact Or.inr ⟨cli', hx⟩
    · exact Or.inl rfl
    · exact Or.inr ⟨cli', hx⟩
  · rintro (rfl | ⟨cli', hx⟩)
    · exact ⟨cli, Or.inl ⟨rfl, Or.inr rfl⟩⟩
    · by_cases hcli : cli' = cli
      · exact ⟨cli, Or.inl ⟨rfl, Or.inl (hcli ▸ hx)⟩⟩
      · exact ⟨cli', Or.inr ⟨hcli, hx⟩⟩

/-- The head of a queue leaves it, and waits nowhere else. -/
lemma OrderInv.waiting_pop (h : OrderInv s delivered) {cli : ι} {rest : List (ClientResponse ι)}
    (hqueue : s.responses cli = r :: rest) :
    waitingIn (Function.update s.responses cli rest) = waitingIn s.responses \ {r} := by
  obtain ⟨hnodup, hcli⟩ := h.queues cli
  rw [hqueue] at hnodup hcli
  have hr := List.nodup_cons.mp hnodup
  ext x
  simp only [waitingIn, Set.mem_ofPred_eq, Set.mem_sdiff, Set.mem_singleton_iff, mem_update_iff]
  constructor
  · rintro ⟨cli', ⟨rfl, hx⟩ | ⟨hne, hx⟩⟩
    · refine ⟨⟨cli', ?_⟩, ?_⟩
      · rw [hqueue]
        exact List.mem_cons_of_mem _ hx
      · rintro rfl
        exact hr.1 hx
    · refine ⟨⟨cli', hx⟩, ?_⟩
      rintro rfl
      exact hne (((h.queues cli').2 x hx).symm.trans (hcli x List.mem_cons_self))
  · rintro ⟨⟨cli', hx⟩, hne⟩
    by_cases hcli' : cli' = cli
    · subst hcli'
      rw [hqueue] at hx
      exact ⟨cli', Or.inl ⟨rfl, (List.mem_cons.mp hx).resolve_left hne⟩⟩
    · exact ⟨cli', Or.inr ⟨hcli', hx⟩⟩

/-- A response that joins its client's queue is a new one there. -/
lemma OrderInv.queues_push (h : OrderInv s delivered) (hnew : r ∉ s.served) (cli : ι) :
    (Function.update s.responses r.cli (s.responses r.cli ++ [r]) cli).Nodup
      ∧ ∀ resp ∈ Function.update s.responses r.cli (s.responses r.cli ++ [r]) cli,
        resp.cli = cli := by
  by_cases hcli : cli = r.cli
  · subst hcli
    obtain ⟨hnodup, hqueues⟩ := h.queues r.cli
    rw [Function.update_self]
    refine ⟨?_, fun resp hresp => ?_⟩
    · rw [← List.concat_eq_append]
      exact hnodup.concat fun hr => hnew (h.mem_served hr)
    · rcases List.mem_append.mp hresp with hresp | hresp
      · exact hqueues resp hresp
      · rw [List.mem_singleton.mp hresp]
  · rw [Function.update_of_ne hcli]
    exact h.queues cli

lemma OrderInv.queues_pop (h : OrderInv s delivered) {cli : ι} {rest : List (ClientResponse ι)}
    (hqueue : s.responses cli = r :: rest) (cli' : ι) :
    (Function.update s.responses cli rest cli').Nodup
      ∧ ∀ resp ∈ Function.update s.responses cli rest cli', resp.cli = cli' := by
  by_cases hcli : cli' = cli
  · subst hcli
    obtain ⟨hnodup, hqueues⟩ := h.queues cli'
    rw [hqueue] at hnodup hqueues
    rw [Function.update_self]
    exact ⟨(List.nodup_cons.mp hnodup).2, fun r hr => hqueues r (List.mem_cons_of_mem _ hr)⟩
  · rw [Function.update_of_ne hcli]
    exact h.queues cli'

omit [DecidableEq ι] in
/-- A request that is sent later than now gets a new ticket. -/
lemma OrderInv.tickets_concat (h : OrderInv s delivered) {ts : ℤ} (hts : s.now < ts) :
    (s.tickets ++ [ts]).Nodup ∧ ∀ t ∈ s.tickets ++ [ts], 0 < t ∧ t ≤ ts := by
  refine ⟨?_, fun t ht => ?_⟩
  · rw [← List.concat_eq_append]
    exact h.nodup.concat fun hmem => absurd (h.past ts hmem).2 (not_le.mpr hts)
  · have hnow := h.now
    rcases List.mem_append.mp ht with ht | ht
    · have := h.past t ht
      omega
    · rw [List.mem_singleton.mp ht]
      omega

/-- What a step does to the outbox. -/
inductive OutboxStep (d : Outbox (ClientResponse ι)) :
    ServiceEvent ι → Outbox (ClientResponse ι) → Prop
  | stay {e : ServiceEvent ι} (h : e.delivered = []) : OutboxStep d e d
  | serve {resp : ClientResponse ι} (hnew : resp ∉ d.served) :
      OutboxStep d (.serve resp) (d.serve resp)
  | deliver {resp : ClientResponse ι} {saw : SeenResponse} (hwaiting : resp ∈ d.waiting) :
      OutboxStep d (.observe resp saw) (d.deliver resp)

/-- **The steps of the machines are steps of the outbox.** -/
lemma OrderInv.outboxStep (h : OrderInv s delivered) (hstep : ServiceStep s e s') :
    OutboxStep (s.outbox delivered) e (s'.outbox (delivered ++ e.delivered)) := by
  cases hstep with
  | @send cli op ts client req =>
      rw [show ServiceEvent.delivered (.send req) = [] from rfl, List.append_nil]
      exact .stay rfl
  | @finish cli =>
      rw [show ServiceEvent.delivered (.finish cli) = [] from rfl, List.append_nil]
      exact .stay rfl
  | @serve req rest pool resp hqueue hserve =>
      obtain ⟨-, -, rfl⟩ := waitForRequests_eq_ok hserve
      have hnew := h.notMem_served hqueue
        (r := ⟨req.op.answer s.pool, req.cli, req.cId, req.tsReq⟩) rfl
      convert OutboxStep.serve (d := s.outbox delivered) hnew using 1
      exact (Outbox.mk.injEq ..).mpr ⟨rfl, waiting_push, List.append_nil _⟩
  | @observe cli resp rest ts saw client orders fuel monitor hstate hqueue hts hresp hsees =>
      have hmem : resp ∈ s.responses cli := by rw [hqueue]; exact List.mem_cons_self
      convert OutboxStep.deliver (d := s.outbox delivered) ⟨cli, hmem⟩ using 1
      exact (Outbox.mk.injEq ..).mpr ⟨rfl, h.waiting_pop hqueue, rfl⟩

omit [DecidableEq ι] in
lemma OutboxStep.sound {d d' : Outbox (ClientResponse ι)} (hsound : d.Sound)
    (hstep : OutboxStep d e d') : d'.Sound := by
  cases hstep with
  | stay => exact hsound
  | serve hnew => exact hsound.serve hnew
  | deliver hwaiting => exact hsound.deliver hwaiting

/-- The conflicts of responses are those of their operations. -/
def conflict (r r' : ClientResponse ι) : Prop := Conflicting r.op r'.op

omit [DecidableEq ι] in
/-- A step that is prompt keeps the order of service. -/
lemma OutboxStep.inOrder {d d' : Outbox (ClientResponse ι)} (horder : InOrder conflict d)
    (hsound : d.Sound) (hprompt : ∀ resp ∈ e.delivered, Prompt conflict d resp)
    (hstep : OutboxStep d e d') : InOrder conflict d' := by
  cases hstep with
  | stay => exact horder
  | serve hnew => exact horder.serve hsound hnew
  | deliver => exact horder.deliver hsound (hprompt _ (List.mem_singleton_self _))

omit [DecidableEq ι] in
lemma PromptStep.prompt (h : PromptStep s e) :
    ∀ resp ∈ e.delivered, Prompt conflict (s.outbox delivered) resp := by
  cases e with
  | observe resp saw =>
      intro resp' hresp' other hother hconflict
      rw [List.mem_singleton.mp hresp'] at hconflict ⊢
      obtain ⟨cli, hother⟩ := hother
      exact h cli other hother hconflict
  | send | finish | serve => exact fun resp hresp => absurd hresp List.not_mem_nil

/-! ### The run -/

/-- **One step** keeps the invariant. -/
lemma OrderInv.step (h : OrderInv s delivered) (hstep : ServiceStep s e s') :
    OrderInv s' (delivered ++ e.delivered) := by
  have hsound := (h.outboxStep hstep).sound h.sound
  cases hstep with
  | @send cli op ts client req hstate hop hts henter =>
      obtain ⟨rfl, rfl⟩ := makeRequests_some henter
      have htickets : System.tickets { s with
          clients := Function.update s.clients cli { s.clients cli with state := .waiting }
          requests := s.requests ++ [⟨op, cli, (s.clients cli).cId, ts⟩]
          now := ts } = s.tickets ++ [ts] := by
        simp [System.tickets]
      obtain ⟨hnodup, hpast⟩ := h.tickets_concat hts
      exact ⟨htickets ▸ hnodup, htickets ▸ hpast, h.now.trans hts.le, h.queues, hsound⟩
  | finish => exact ⟨h.nodup, h.past, h.now, h.queues, hsound⟩
  | @serve req rest pool resp hqueue hserve =>
      obtain ⟨-, -, rfl⟩ := waitForRequests_eq_ok hserve
      -- the request served keeps its ticket
      have htickets : ∀ r : ClientResponse ι, r.tsReq = req.tsReq →
          (s.served ++ [r]).map (·.tsReq) ++ rest.map (·.tsReq) = s.tickets := by
        intro r hr
        simp [System.tickets, hqueue, hr]
      have hnodup := h.nodup
      have hpast := h.past
      rw [← htickets ⟨req.op.answer s.pool, req.cli, req.cId, req.tsReq⟩ rfl] at hnodup hpast
      have hnew := h.notMem_served hqueue
        (r := ⟨req.op.answer s.pool, req.cli, req.cId, req.tsReq⟩) rfl
      exact ⟨hnodup, hpast, h.now, h.queues_push hnew, hsound⟩
  | @observe cli resp rest ts saw client orders fuel monitor hstate hqueue hts hresp hsees =>
      refine ⟨h.nodup, fun t ht => ?_, h.now.trans hts.le, h.queues_pop hqueue, hsound⟩
      exact ⟨(h.past t ht).1, (h.past t ht).2.trans hts.le⟩

/-- Runs in which every step is prompt. -/
abbrev PromptRun (initialPool : PMap ℤ) (clients : ι → Client) :
    List (ServiceEvent ι) → System ι → Prop :=
  Exec (fun s e s' => ServiceStep s e s' ∧ PromptStep s e) (System.start initialPool clients)

/-- The responses reach the monitor in the order in which the clients observe them. -/
lemma ServiceStep.seen_tsReq (hstep : ServiceStep s e s') :
    e.seen.map (·.tsReq) = e.delivered.map (·.tsReq) := by
  cases hstep with
  | observe _ _ _ hresp _ =>
      obtain ⟨-, rfl, -⟩ := clientResponse_eq_ok hresp
      rfl
  | send | finish | serve => rfl

/-- What a run of prompt steps keeps. -/
structure PromptInv (s : System ι) (es : List (ServiceEvent ι)) : Prop where
  inv : OrderInv s (deliveredOf es)
  order : InOrder conflict (s.outbox (deliveredOf es))
  seen : (seenOf es).map (·.tsReq) = (deliveredOf es).map (·.tsReq)

lemma PromptInv.run {initialPool : PMap ℤ} {clients : ι → Client} {es : List (ServiceEvent ι)}
    (hrun : PromptRun initialPool clients es s) : PromptInv s es := by
  refine hrun.invariant (P := fun es s => PromptInv s es)
    ⟨.start initialPool clients, fun a b _ _ hb => absurd hb List.not_mem_nil, rfl⟩
    fun es s e s' _ ih hstep => ?_
  obtain ⟨hstep, hprompt⟩ := hstep
  have hdelivered : deliveredOf (es ++ [e]) = deliveredOf es ++ e.delivered := deliveredOf_concat
  refine ⟨hdelivered ▸ ih.inv.step hstep, ?_, ?_⟩
  · rw [hdelivered]
    exact (ih.inv.outboxStep hstep).inOrder ih.order ih.inv.sound hprompt.prompt
  · rw [hdelivered, seenOf_concat, List.map_append, List.map_append, ih.seen, hstep.seen_tsReq]

omit [DecidableEq ι] in
/-- A node that has the time stamp of a request records the response to it. -/
lemma PromptInv.delivered_of_node {es : List (ServiceEvent ι)} {initialPool : PMap ℤ} {n : ℤ}
    {node : OrderingNode} (h : PromptInv s es)
    (hrecords : Records initialPool (seenOf es) s.monitor) (hr : r ∈ s.served)
    (hnode : s.monitor.history.nodes.lookup n = some node)
    (hts : node.tsReq = r.tsReq) : ∃ i : ℕ, n = i + 1 ∧ (deliveredOf es)[i]? = some r := by
  obtain ⟨hn, rfl⟩ := hrecords.lookup_eq_some_iff.mp hnode
  have hpos : 0 < r.tsReq :=
    (h.inv.past _ (List.mem_append_left _ (List.mem_map_of_mem hr))).1
  obtain ⟨i, rfl⟩ := Int.eq_ofNat_of_zero_le hn.1
  cases i with
  | zero =>
      -- the node of the initial pool has the time stamp zero
      exact absurd (hpos.trans_eq hts.symm) (lt_irrefl 0)
  | succ i =>
      have hi : i < (seenOf es).length := by omega
      refine ⟨i, by omega, ?_⟩
      have hseen : ((seenOf es).map (·.tsReq))[i]? = some r.tsReq := by
        rw [List.getElem?_map, List.getElem?_eq_getElem hi, ← hts]
        simp [recordedNode, hi]
      rw [h.seen, List.getElem?_map] at hseen
      obtain ⟨d, hd, heq⟩ := Option.map_eq_some_iff.mp hseen
      have hserved : d ∈ s.served :=
        (h.inv.sound.served_iff d).mpr (Or.inr (List.mem_of_getElem? hd))
      rw [hd, h.inv.eq_of_tsReq hserved hr heq]

/-- **In a run of prompt steps the history is in the order of service.** -/
theorem history_inServiceOrder (initialPool : PMap ℤ) (clients : ι → Client)
    (es : List (ServiceEvent ι)) (s : System ι) (hrun : PromptRun initialPool clients es s) :
    InServiceOrder s := by
  intro r r' hbefore hconflict n n' node node' hnode hnode' hts hts'
  have hinv := PromptInv.run hrun
  have hrecords := (ServiceInv.run (hrun.mono fun _ _ _ hstep => hstep.1)).records
  obtain ⟨i, rfl, hi⟩ := hinv.delivered_of_node hrecords hbefore.mem_left hnode hts
  obtain ⟨i', rfl, hi'⟩ := hinv.delivered_of_node hrecords hbefore.mem_right hnode' hts'
  have hdelivered := hinv.order r r' hbefore hconflict (List.mem_of_getElem? hi')
  have hlt : i < i' := hdelivered.lt hinv.inv.sound.nodup hi hi'
  have hrange := (hrecords.lookup_eq_some_iff.mp hnode').1
  exact hrecords.transGen_iff.mpr (by omega)

end Order

/-! ### A write and a read that are observed in the order of service -/

/-- A run in which no response is observed is a run of prompt steps. -/
lemma promptRun_of_delivered_nil {ι : Type} [DecidableEq ι] {initialPool : PMap ℤ}
    {clients : ι → Client} {es : List (ServiceEvent ι)} {s : System ι}
    (hrun : Exec ServiceStep (System.start initialPool clients) es s)
    (h : deliveredOf es = []) : PromptRun initialPool clients es s := by
  induction hrun with
  | nil => exact .nil
  | @snoc es s s' e hrun hstep ih =>
      rw [deliveredOf_concat, List.append_eq_nil_iff] at h
      refine (ih h.1).snoc ⟨hstep, ?_⟩
      cases e with
      | observe => exact absurd h.2 (List.cons_ne_nil _ _)
      | send | finish | serve => trivial

/-- A client that waits can observe the response at the head of its queue. -/
lemma exists_step_observe {ι : Type} [DecidableEq ι] {initialPool : PMap ℤ} {s : System ι}
    {seen : List SeenResponse} (h : ServiceInv initialPool s seen) {cli : ι}
    {resp : ClientResponse ι} {rest : List (ClientResponse ι)} {ts : ℤ}
    (hstate : (s.clients cli).state = .waiting) (hqueue : s.responses cli = resp :: rest)
    (hts : s.now < ts) : ∃ s',
      ServiceStep s (.observe resp ⟨resp.op, (s.clients cli).cId, resp.tsReq, ts⟩) s'
        ∧ s'.served = s.served ∧ s'.now = ts
        ∧ ∀ other ≠ cli, s'.clients other = s.clients other
          ∧ s'.responses other = s.responses other := by
  obtain ⟨saw, client, hresp, hsees⟩ := h.observe hqueue hts
  obtain ⟨fuel, monitor, hsees, -⟩ := hsees fun _ => .increasing _
  obtain ⟨-, rfl, -⟩ := clientResponse_eq_ok hresp
  refine ⟨_, .observe hstate hqueue hts hresp hsees, rfl, rfl, fun other hother => ?_⟩
  exact ⟨Function.update_of_ne hother _ _, Function.update_of_ne hother _ _⟩

/-- From the two responses on their way, the clients observe the write, then the read. -/
theorem history_inServiceOrder_writeAndRead : ∃ es s,
    PromptRun (Finmap.singleton 0 5) oneRequest es s
      ∧ seenOf es = [⟨⟨.opWrite, 0, 0, 0⟩, 0, 1, 3⟩, ⟨⟨.opRead, 0, 0, 7⟩, 1, 2, 4⟩]
      ∧ InServiceOrder s := by
  obtain ⟨s, hs⟩ := exists_bothServed
  have hrun := promptRun_of_delivered_nil hs.run rfl
  have hnodup : s.served.Nodup := by simp [hs.served]
  have hwrite : s.served[0]? = some ⟨⟨.opWrite, 0, 0, 0⟩, 0, 0, 1⟩ := by rw [hs.served]; rfl
  have hread : s.served[1]? = some ⟨⟨.opRead, 0, 0, 7⟩, 1, 1, 2⟩ := by rw [hs.served]; rfl
  obtain ⟨s₁, hobserve, hserved, hnow, hframe⟩ := exists_step_observe (ServiceInv.run hs.run)
    (by rw [hs.clients.1]) hs.responses.1 (show s.now < 3 by rw [hs.now]; decide)
  obtain ⟨hclient, hresponses⟩ := hframe 1 (by decide)
  -- nothing was served before the write
  have hrun₁ := hrun.snoc ⟨hobserve, fun cli other _ _ hbefore => by
    obtain ⟨i, j, hij, hi, hj⟩ := hbefore
    exact absurd (Before.lt ⟨i, j, hij, hi, hj⟩ hnodup hi hwrite) (Nat.not_lt_zero i)⟩
  have hrun₁' := hrun₁.mono fun _ _ _ hstep => hstep.1
  obtain ⟨s₂, hobserve₂, -, -, -⟩ := exists_step_observe (ServiceInv.run hrun₁')
    (by rw [hclient, hs.clients.2]) (hresponses.trans hs.responses.2)
    (show s₁.now < 4 by rw [hnow]; decide)
  -- only the write was served before the read, and it does not wait any more
  have hrun₂ := hrun₁.snoc ⟨hobserve₂, fun cli other hother _ hbefore => by
    rw [hserved] at hbefore
    obtain ⟨i, j, hij, hi, hj⟩ := hbefore
    obtain rfl : i = 0 := Nat.lt_one_iff.mp (Before.lt ⟨i, j, hij, hi, hj⟩ hnodup hi hread)
    obtain rfl := Option.some.inj (hi.symm.trans hwrite)
    exact (PromptInv.run hrun₁).inv.sound.disjoint _ ⟨cli, hother⟩ (List.mem_singleton_self _)⟩
  refine ⟨_, s₂, hrun₂, ?_, history_inServiceOrder _ _ _ s₂ hrun₂⟩
  rw [hclient, hs.clients.1, hs.clients.2]
  rfl

/-! ### A read that overtakes a write -/

/-- From the two responses on their way, client 1 observes its own first. -/
lemma BothServed.exists_overtaking {s : System ℕ} (hs : BothServed s) : ∃ es s',
    Exec ServiceStep (System.start (Finmap.singleton 0 5) oneRequest) es s'
      ∧ s'.served = s.served
      ∧ seenOf es = [⟨⟨.opRead, 0, 0, 7⟩, 1, 2, 3⟩, ⟨⟨.opWrite, 0, 0, 0⟩, 0, 1, 4⟩] := by
  obtain ⟨s₁, hread, hserved₁, hnow₁, hframe⟩ := exists_step_observe (ServiceInv.run hs.run)
    (by rw [hs.clients.2]) hs.responses.2 (show s.now < 3 by rw [hs.now]; decide)
  obtain ⟨hclient, hresponses⟩ := hframe 0 (by decide)
  have hrun₁ := hs.run.snoc hread
  obtain ⟨s₂, hwrite, hserved₂, -, -⟩ := exists_step_observe (ServiceInv.run hrun₁)
    (by rw [hclient, hs.clients.1]) (hresponses.trans hs.responses.1)
    (show s₁.now < 4 by rw [hnow₁]; decide)
  refine ⟨_, s₂, hrun₁.snoc hwrite, hserved₂.trans hserved₁, ?_⟩
  rw [hclient, hs.clients.1, hs.clients.2]
  rfl

/-- Client 0 writes 7, and client 1 reads this value. The read is the first node of the
history and the write is the second one. -/
theorem exists_overtaken : ∃ es s,
    Exec ServiceStep (System.start (Finmap.singleton 0 5) oneRequest) es s
      ∧ ¬ InServiceOrder s := by
  obtain ⟨s₀, hs₀⟩ := exists_bothServed
  obtain ⟨es, s, hrun, hserved, hseen⟩ := hs₀.exists_overtaking
  have hrecords := (ServiceInv.run hrun).records
  rw [hseen] at hrecords
  refine ⟨es, s, hrun, fun horder => ?_⟩
  have hbefore : Before s.served ⟨⟨.opWrite, 0, 0, 0⟩, 0, 0, 1⟩ ⟨⟨.opRead, 0, 0, 7⟩, 1, 1, 2⟩ := by
    rw [hserved, hs₀.served]
    exact ⟨0, 1, by decide, rfl, rfl⟩
  have hnode : ∀ n : ℤ, 0 ≤ n ∧ n ≤ 2 → s.monitor.history.nodes.lookup n = some _ :=
    fun n hn => hrecords.lookup_eq_some_iff.mpr ⟨hn, rfl⟩
  have hreach := horder _ _ hbefore ⟨rfl, Or.inl (by decide)⟩ 2 1 _ _ (hnode 2 (by decide))
    (hnode 1 (by decide)) rfl rfl
  have := hrecords.transGen_iff.mp hreach
  omega

end Madkv
