import Madkv.Library.Linearization
import Madkv.Pmodel.ServiceOrder

/-!
The service as its clients see it.

* `ServiceCall`: a request that was sent, with the response that was announced for
  it. `serviceCalls`: those of a run.
* `PointsInv`: the requests served, each with the time at which the pool served it.
* `service_linearizable`: the order of service is a linearization of the calls of
  a run, whatever the order of the monitor's history is.
-/

namespace Madkv

open Execution Linearization

/-- A request and the response that its client has announced, if it has. -/
structure ServiceCall (ι : Type) where
  req : ClientRequest ι
  seen : Option SeenResponse

namespace ServiceCall

variable {ι : Type}

def invoked (c : ServiceCall ι) : ℤ := c.req.tsReq

def returned (c : ServiceCall ι) : Option ℤ := c.seen.map (·.tsResp)

/-- What the call does to the pool. -/
def effect (pool : PMap ℤ) (c : ServiceCall ι) : PMap ℤ := c.req.op.apply pool

/-- The response announced is the one of a pool in this state. -/
def RightIn (pool : PMap ℤ) (c : ServiceCall ι) : Prop :=
  ∀ saw ∈ c.seen, saw.op = c.req.op.answer pool

end ServiceCall

section Requests

variable {ι : Type}

/-- What a client sends at a step. -/
def ServiceEvent.sent : ServiceEvent ι → List (ClientRequest ι)
  | .send req => [req]
  | _ => []

/-- The requests sent in a run. -/
def requestsOf (es : List (ServiceEvent ι)) : List (ClientRequest ι) := es.flatMap ServiceEvent.sent

lemma requestsOf_concat {es : List (ServiceEvent ι)} {e : ServiceEvent ι} :
    requestsOf (es ++ [e]) = requestsOf es ++ e.sent := by
  rw [requestsOf, List.flatMap_append, List.flatMap_singleton]
  rfl

lemma requestsOf_quiet {es : List (ServiceEvent ι)} {e : ServiceEvent ι} (h : e.sent = []) :
    requestsOf (es ++ [e]) = requestsOf es := by
  rw [requestsOf_concat, h, List.append_nil]

/-- The call of a request: a response is told by the time stamp of its request. -/
def callOf (es : List (ServiceEvent ι)) (req : ClientRequest ι) : ServiceCall ι where
  req := req
  seen := (seenOf es).find? (·.tsReq = req.tsReq)

/-- The calls of a run. -/
def serviceCalls (es : List (ServiceEvent ι)) : List (ServiceCall ι) :=
  (requestsOf es).map (callOf es)

/-- The pool after some requests. -/
def poolServed (initialPool : PMap ℤ) (reqs : List (ClientRequest ι)) : PMap ℤ :=
  reqs.foldl (fun pool req => req.op.apply pool) initialPool

lemma poolServed_concat {initialPool : PMap ℤ} {reqs : List (ClientRequest ι)}
    {req : ClientRequest ι} :
    poolServed initialPool (reqs ++ [req]) = req.op.apply (poolServed initialPool reqs) := by
  rw [poolServed, List.foldl_append]
  rfl

/-! ### The points at which the requests are served -/

/-- A request with this time stamp was served no later than `t`, with the answer `op`. -/
def AnsweredAt (initialPool : PMap ℤ) (points : List (ClientRequest ι × ℤ)) (op : Operation)
    (tsReq t : ℤ) : Prop :=
  ∃ (i : ℕ) (p : ClientRequest ι × ℤ), points[i]? = some p ∧ p.1.tsReq = tsReq ∧ p.2 ≤ t
    ∧ op = p.1.op.answer (poolServed initialPool ((points.map Prod.fst).take i))

/-- The requests served so far, each with the clock of its service. -/
structure PointsInv (initialPool : PMap ℤ) (s : System ι) (es : List (ServiceEvent ι))
    (points : List (ClientRequest ι × ℤ)) : Prop where
  requests : requestsOf es = points.map Prod.fst ++ s.requests
  increasing : (requestsOf es).Pairwise (·.tsReq < ·.tsReq)
  sent : ∀ req ∈ requestsOf es, req.tsReq ≤ s.now
  pool : s.pool = poolServed initialPool (points.map Prod.fst)
  tickets : s.served.map (·.tsReq) = points.map (·.1.tsReq)
  ordered : points.Pairwise (·.2 ≤ ·.2)
  between : ∀ p ∈ points, p.1.tsReq ≤ p.2 ∧ p.2 ≤ s.now
  served : ∀ resp ∈ s.served, AnsweredAt initialPool points resp.op resp.tsReq s.now
  seen : ∀ saw ∈ seenOf es, AnsweredAt initialPool points saw.op saw.tsReq saw.tsResp

variable {initialPool : PMap ℤ} {points : List (ClientRequest ι × ℤ)} {op : Operation}
  {tsReq t t' : ℤ} {s s' : System ι} {es : List (ServiceEvent ι)} {e : ServiceEvent ι}

lemma AnsweredAt.later (h : AnsweredAt initialPool points op tsReq t) (ht : t ≤ t') :
    AnsweredAt initialPool points op tsReq t' := by
  obtain ⟨i, p, hp, hts, hle, hop⟩ := h
  exact ⟨i, p, hp, hts, hle.trans ht, hop⟩

lemma AnsweredAt.append (h : AnsweredAt initialPool points op tsReq t)
    (more : List (ClientRequest ι × ℤ)) :
    AnsweredAt initialPool (points ++ more) op tsReq t := by
  obtain ⟨i, p, hp, hts, hle, rfl⟩ := h
  have hi : i < points.length := (List.getElem?_eq_some_iff.mp hp).1
  refine ⟨i, p, by rw [List.getElem?_append_left hi, hp], hts, hle, ?_⟩
  rw [List.map_append, List.take_append_of_le_length (by simpa using hi.le)]

lemma PointsInv.start (initialPool : PMap ℤ) (clients : ι → Client) :
    PointsInv initialPool (System.start initialPool clients) [] [] where
  requests := rfl
  increasing := .nil
  sent _ hreq := absurd hreq List.not_mem_nil
  pool := rfl
  tickets := rfl
  ordered := .nil
  between _ hp := absurd hp List.not_mem_nil
  served _ hresp := absurd hresp List.not_mem_nil
  seen _ hsaw := absurd hsaw List.not_mem_nil

/-- The places of the requests served are told apart by their time stamps. -/
lemma PointsInv.nodup (h : PointsInv initialPool s es points) :
    (points.map (·.1.tsReq)).Nodup := by
  have hincreasing := h.increasing
  rw [h.requests] at hincreasing
  have hpoints := (List.pairwise_append.mp hincreasing).1
  rw [List.pairwise_map] at hpoints
  rw [List.Nodup, List.pairwise_map]
  exact hpoints.imp fun hlt => hlt.ne

lemma PointsInv.eq_of_tsReq (h : PointsInv initialPool s es points) {i j : ℕ}
    {p q : ClientRequest ι × ℤ} (hp : points[i]? = some p) (hq : points[j]? = some q)
    (heq : p.1.tsReq = q.1.tsReq) : i = j ∧ p = q := by
  have hi : (points.map (·.1.tsReq))[i]? = some p.1.tsReq := by rw [List.getElem?_map, hp]; rfl
  have hj : (points.map (·.1.tsReq))[j]? = some p.1.tsReq := by
    rw [List.getElem?_map, hq, heq]
    rfl
  obtain rfl := (List.getElem?_inj (List.getElem?_eq_some_iff.mp hi).1 h.nodup).mp
    (hi.trans hj.symm)
  exact ⟨rfl, Option.some.inj (hp.symm.trans hq)⟩

lemma PointsInv.mem_requestsOf (h : PointsInv initialPool s es points)
    {p : ClientRequest ι × ℤ} (hp : p ∈ points) : p.1 ∈ requestsOf es := by
  rw [h.requests]
  exact List.mem_append_left _ (List.mem_map_of_mem hp)

variable [DecidableEq ι]

lemma OrderInv.run {clients : ι → Client}
    (hrun : Exec ServiceStep (System.start initialPool clients) es s) :
    OrderInv s (deliveredOf es) := by
  refine hrun.invariant (P := fun es s => OrderInv s (deliveredOf es))
    (.start initialPool clients) fun es s e s' _ ih hstep => ?_
  rw [deliveredOf_concat]
  exact ih.step hstep

/-- **One step**: the pool serves at the time of the clock, and no other step adds a point. -/
lemma PointsInv.step (h : PointsInv initialPool s es points)
    (horder : OrderInv s (deliveredOf es)) (hstep : ServiceStep s e s') :
    ∃ points', PointsInv initialPool s' (es ++ [e]) points' := by
  cases hstep with
  | @send cli op ts client req hstate hop hts henter =>
      obtain ⟨rfl, rfl⟩ := makeRequests_some henter
      have hrequests : requestsOf (es ++ [.send ⟨op, cli, (s.clients cli).cId, ts⟩])
          = requestsOf es ++ [⟨op, cli, (s.clients cli).cId, ts⟩] := requestsOf_concat
      refine ⟨points, ?_, ?_, ?_, h.pool, h.tickets, h.ordered, ?_, ?_, ?_⟩
      · rw [hrequests, h.requests, List.append_assoc]
      · -- the request is later than all before it
        rw [hrequests, List.pairwise_append]
        refine ⟨h.increasing, List.pairwise_singleton _ _, fun req hreq req' hreq' => ?_⟩
        rw [List.mem_singleton.mp hreq']
        exact (h.sent req hreq).trans_lt hts
      · rw [hrequests]
        intro req hreq
        rcases List.mem_append.mp hreq with hreq | hreq
        · exact (h.sent req hreq).trans hts.le
        · rw [List.mem_singleton.mp hreq]
      · exact fun p hp => ⟨(h.between p hp).1, (h.between p hp).2.trans hts.le⟩
      · exact fun resp hresp => (h.served resp hresp).later hts.le
      · rw [seenOf_concat]
        simpa [ServiceEvent.seen] using h.seen
  | @finish cli =>
      have hrequests : requestsOf (es ++ [.finish cli]) = requestsOf es := requestsOf_quiet rfl
      refine ⟨points, ?_, ?_, ?_, h.pool, h.tickets, h.ordered, h.between, h.served, ?_⟩
      · rw [hrequests, h.requests]
      · rw [hrequests]
        exact h.increasing
      · rw [hrequests]
        exact h.sent
      · rw [seenOf_concat]
        simpa [ServiceEvent.seen] using h.seen
  | @serve req rest pool resp hqueue hserve =>
      obtain ⟨-, rfl, rfl⟩ := waitForRequests_eq_ok hserve
      have hrequests : requestsOf (es ++ [.serve
          ⟨req.op.answer s.pool, req.cli, req.cId, req.tsReq⟩]) = requestsOf es :=
        requestsOf_quiet rfl
      have hreq : req ∈ requestsOf es := by
        rw [h.requests, hqueue]
        exact List.mem_append_right _ List.mem_cons_self
      refine ⟨points ++ [(req, s.now)], ?_, ?_, ?_, ?_, ?_, ?_, ?_, ?_, ?_⟩
      · rw [hrequests, h.requests, hqueue, List.map_append, List.append_assoc]
        rfl
      · rw [hrequests]
        exact h.increasing
      · rw [hrequests]
        exact h.sent
      · rw [List.map_append, List.map_singleton, poolServed_concat, ← h.pool]
      · rw [List.map_append, List.map_append, h.tickets]
        rfl
      · rw [List.pairwise_append]
        refine ⟨h.ordered, List.pairwise_singleton _ _, fun p hp q hq => ?_⟩
        rw [List.mem_singleton.mp hq]
        exact (h.between p hp).2
      · intro p hp
        rcases List.mem_append.mp hp with hp | hp
        · exact h.between p hp
        · rw [List.mem_singleton.mp hp]
          exact ⟨h.sent req hreq, le_rfl⟩
      · intro resp hresp
        rcases List.mem_append.mp hresp with hresp | hresp
        · exact (h.served resp hresp).append _
        · rw [List.mem_singleton.mp hresp]
          refine ⟨points.length, (req, s.now), List.getElem?_concat_length, rfl, le_rfl, ?_⟩
          rw [List.map_append, List.take_append_of_le_length (by simp),
            List.take_of_length_le (by simp), ← h.pool]
      · rw [seenOf_concat]
        intro saw hsaw
        exact (h.seen saw (by simpa [ServiceEvent.seen] using hsaw)).append _
  | @observe cli resp rest ts saw client orders fuel monitor hstate hqueue hts hresp hsees =>
      obtain ⟨-, rfl, rfl⟩ := clientResponse_eq_ok hresp
      have hrequests : requestsOf (es ++ [.observe resp
          ⟨resp.op, (s.clients cli).cId, resp.tsReq, ts⟩]) = requestsOf es := requestsOf_quiet rfl
      refine ⟨points, ?_, ?_, ?_, h.pool, h.tickets, h.ordered, ?_, ?_, ?_⟩
      · rw [hrequests, h.requests]
      · rw [hrequests]
        exact h.increasing
      · rw [hrequests]
        exact fun req hreq => (h.sent req hreq).trans hts.le
      · exact fun p hp => ⟨(h.between p hp).1, (h.between p hp).2.trans hts.le⟩
      · exact fun resp hresp => (h.served resp hresp).later hts.le
      · rw [seenOf_concat]
        intro saw hsaw
        rcases List.mem_append.mp hsaw with hsaw | hsaw
        · exact h.seen saw hsaw
        · -- what is observed was served before
          rw [List.mem_singleton.mp hsaw]
          have hwaiting : resp ∈ s.responses cli := by
            rw [hqueue]
            exact List.mem_cons_self
          have hserved := horder.mem_served hwaiting
          exact (h.served resp hserved).later hts.le

lemma exists_pointsInv {clients : ι → Client}
    (hrun : Exec ServiceStep (System.start initialPool clients) es s) :
    ∃ points, PointsInv initialPool s es points :=
  hrun.invariant (P := fun es s => ∃ points, PointsInv initialPool s es points)
    ⟨[], .start initialPool clients⟩ fun _ _ _ _ hpre ⟨_, ih⟩ hstep => ih.step (.run hpre) hstep

/-! ### The linearization -/

omit [DecidableEq ι] in
lemma mem_seen_callOf {req : ClientRequest ι} {saw : SeenResponse}
    (h : saw ∈ (callOf es req).seen) : saw ∈ seenOf es ∧ saw.tsReq = req.tsReq :=
  ⟨List.mem_of_find?_eq_some h, by simpa using List.find?_some h⟩

omit [DecidableEq ι] in
/-- The response announced for a request served is the answer at its point. -/
lemma PointsInv.answer (h : PointsInv initialPool s es points) {i : ℕ} {p : ClientRequest ι × ℤ}
    {saw : SeenResponse} (hp : points[i]? = some p) (hsaw : saw ∈ (callOf es p.1).seen) :
    p.2 ≤ saw.tsResp
      ∧ saw.op = p.1.op.answer (poolServed initialPool ((points.map Prod.fst).take i)) := by
  obtain ⟨hmem, hts⟩ := mem_seen_callOf hsaw
  obtain ⟨j, q, hq, hqts, hle, hop⟩ := h.seen saw hmem
  obtain ⟨rfl, rfl⟩ := h.eq_of_tsReq hq hp (hqts.trans hts)
  exact ⟨hle, hop⟩

omit [DecidableEq ι] in
/-- A request that got its response was served. -/
lemma PointsInv.exists_point (h : PointsInv initialPool s es points) {req : ClientRequest ι}
    (hreq : req ∈ requestsOf es) {saw : SeenResponse} (hsaw : saw ∈ (callOf es req).seen) :
    ∃ t, (req, t) ∈ points := by
  obtain ⟨hmem, hts⟩ := mem_seen_callOf hsaw
  obtain ⟨i, ⟨q, t⟩, hq, hqts, -, -⟩ := h.seen saw hmem
  have hqmem := List.mem_of_getElem? hq
  have hnodup : ((requestsOf es).map (·.tsReq)).Nodup := by
    rw [List.Nodup, List.pairwise_map]
    exact h.increasing.imp fun hlt => hlt.ne
  obtain rfl : q = req :=
    List.inj_on_of_nodup_map hnodup (h.mem_requestsOf hqmem) hreq (hqts.trans hts)
  exact ⟨t, hqmem⟩

omit [DecidableEq ι] in
lemma PointsInv.linearizes (h : PointsInv initialPool s es points) :
    Linearizes ServiceCall.invoked ServiceCall.returned ServiceCall.effect ServiceCall.RightIn
      initialPool (serviceCalls es) (points.map fun p => (callOf es p.1, p.2)) where
  nodup := by
    refine List.Nodup.of_map (fun c : ServiceCall ι => c.req.tsReq) ?_
    rw [List.map_map, List.map_map]
    exact h.nodup
  mem p hp := by
    obtain ⟨q, hq, rfl⟩ := List.mem_map.mp hp
    exact List.mem_map_of_mem (h.mem_requestsOf hq)
  complete c hc hret := by
    obtain ⟨req, hreq, rfl⟩ := List.mem_map.mp hc
    obtain ⟨saw, hsaw⟩ := Option.isSome_iff_exists.mp (by simpa [ServiceCall.returned] using hret)
    obtain ⟨t, ht⟩ := h.exists_point hreq hsaw
    exact ⟨t, List.mem_map.mpr ⟨_, ht, rfl⟩⟩
  ordered := by
    rw [List.pairwise_map]
    exact h.ordered
  afterInv p hp := by
    obtain ⟨q, hq, rfl⟩ := List.mem_map.mp hp
    exact (h.between q hq).1
  beforeRet p hp t ht := by
    obtain ⟨q, hq, rfl⟩ := List.mem_map.mp hp
    obtain ⟨saw, hsaw, rfl⟩ := Option.map_eq_some_iff.mp ht
    obtain ⟨i, hi⟩ := List.getElem?_of_mem hq
    exact (h.answer hi hsaw).1
  legal := by
    refine legal_of_getElem? fun i c hc saw hsaw => ?_
    rw [List.map_map, List.getElem?_map] at hc
    obtain ⟨p, hp, rfl⟩ := Option.map_eq_some_iff.mp hc
    have heffect : (((points.map fun p => (callOf es p.1, p.2)).map Prod.fst).take i).foldl
        ServiceCall.effect initialPool
          = poolServed initialPool ((points.map Prod.fst).take i) := by
      rw [List.map_map, ← List.map_take, ← List.map_take, List.foldl_map, poolServed,
        List.foldl_map]
      rfl
    rw [heffect]
    exact (h.answer hp hsaw).2

end Requests

/-- **The service is linearizable**: in every run the calls of the clients, with the
responses announced, have a linearization, and it is the order of service. -/
theorem service_linearizable {ι : Type} [DecidableEq ι] (initialPool : PMap ℤ)
    (clients : ι → Client) (es : List (ServiceEvent ι)) (s : System ι)
    (hrun : Exec ServiceStep (System.start initialPool clients) es s) :
    ∃ l : List (ServiceCall ι × ℤ),
      Linearizes ServiceCall.invoked ServiceCall.returned ServiceCall.effect ServiceCall.RightIn
          initialPool (serviceCalls es) l
        ∧ l.map (·.1.req.tsReq) = s.served.map (·.tsReq) := by
  obtain ⟨points, hpoints⟩ := exists_pointsInv hrun
  refine ⟨_, hpoints.linearizes, ?_⟩
  rw [hpoints.tickets, List.map_map]
  rfl

/-- The run in which the read overtakes the write that it returns. -/
theorem service_linearizable_overtaking : ∃ es s,
    Exec ServiceStep (System.start (Finmap.singleton 0 5) oneRequest) es s
      ∧ seenOf es = [⟨⟨.opRead, 0, 0, 7⟩, 1, 2, 3⟩, ⟨⟨.opWrite, 0, 0, 0⟩, 0, 1, 4⟩]
      ∧ ∃ l : List (ServiceCall ℕ × ℤ),
        Linearizes ServiceCall.invoked ServiceCall.returned ServiceCall.effect ServiceCall.RightIn
            (Finmap.singleton 0 5) (serviceCalls es) l
          ∧ l.map (·.1.req.tsReq) = s.served.map (·.tsReq) := by
  obtain ⟨s₀, hs₀⟩ := exists_bothServed
  obtain ⟨es, s, hrun, -, hseen⟩ := hs₀.exists_overtaking
  exact ⟨es, s, hrun, hseen, service_linearizable _ _ es s hrun⟩

end Madkv
