import Mathlib.Data.List.GetD
import Madkv.Pmodel.Constraints

/-!
The monitor `ServiceIsLinearizable`, which appends each response that a client
observes to a linear history and asserts that this is linearizable.

* `Monitor.appendResponse`, `Monitor.clientSeesResponse`: its handler.
* `Records`: the history is the list of the responses seen, one node each, with
  the pools that their operations lead to. `Records.append`: the handler appends
  to the list.
* `Timed`: the responses are seen in the order of their time stamps.
* `Records.linearizable`: such a history has the levels C_SO and R_RT.
* `Records.clientSeesResponse`: the handler never fails.
-/

namespace Madkv

open DepthFirst Fallible Relation

/-- What a client announces when it observes a response. -/
structure SeenResponse where
  op : Operation
  cId : ℤ
  tsReq : ℤ
  tsResp : ℤ
deriving DecidableEq

/-- The variables of the monitor. -/
structure Monitor where
  history : OrderingGraph
  /-- next node id to assign -/
  nodeId : ℤ

/-- The dummy response that the history starts with. -/
def initialResponse : SeenResponse := ⟨⟨.opRead, 0, 0, 0⟩, 0, 0, 0⟩

/-- The monitor after the event with the initial pool. -/
def Monitor.serviceInitialPool (initialPool : PMap ℤ) : Monitor where
  history :=
    { nodes := Finmap.singleton 0
        { nId := 0, cId := initialResponse.cId, op := initialResponse.op,
          tsReq := initialResponse.tsReq, tsResp := initialResponse.tsResp,
          pool := initialPool, next := ∅ }
      head := 0 }
  nodeId := 1

/-- Append an incoming response to the end of the linear history. -/
def Monitor.appendResponse (m : Monitor) (resp : SeenResponse) : Except Failure OrderingGraph := do
  let last ← demand (m.history.nodes.lookup (m.nodeId - 1))
  let pool ← applyOpToPool resp.op last.pool
  let node : OrderingNode :=
    { nId := m.nodeId, cId := resp.cId, op := resp.op, tsReq := resp.tsReq,
      tsResp := resp.tsResp, pool := pool, next := ∅ }
  let nodes := m.history.nodes.insert (m.nodeId - 1)
    { last with next := insert m.nodeId last.next }
  -- a map takes only new keys
  if m.nodeId ∈ nodes then .error .assertion
  else .ok { m.history with nodes := nodes.insert m.nodeId node }

/-- The handler for a response that a client sees. -/
def Monitor.clientSeesResponse (orders : ∀ ordering, CheckOrders ordering) (fuel : ℕ)
    (m : Monitor) (resp : SeenResponse) : Option (Except Failure Monitor) :=
  match m.appendResponse resp with
  | .error e => some (.error e)
  | .ok history =>
      (assertLinearizability history (orders history) fuel).map fun result => do
        let _ ← result
        .ok { history := history, nodeId := m.nodeId + 1 }

/-! ### The history as a list of responses -/

/-- The pool after the operations of the responses. -/
def poolAfter (initialPool : PMap ℤ) (seen : List SeenResponse) : PMap ℤ :=
  seen.foldl (fun pool resp => resp.op.apply pool) initialPool

/-- The node number `i` of a history. -/
def recordedNode (initialPool : PMap ℤ) (seen : List SeenResponse) (i : ℕ) : OrderingNode :=
  let resp := (initialResponse :: seen).getD i initialResponse
  { nId := i, cId := resp.cId, op := resp.op, tsReq := resp.tsReq, tsResp := resp.tsResp
    pool := poolAfter initialPool (seen.take i)
    next := if i < seen.length then {(i + 1 : ℤ)} else ∅ }

/-- The history of the monitor is the list of the responses seen. -/
structure Records (initialPool : PMap ℤ) (seen : List SeenResponse) (m : Monitor) : Prop where
  nodeId : m.nodeId = seen.length + 1
  head : m.history.head = 0
  lookup : ∀ n : ℤ, m.history.nodes.lookup n =
    if 0 ≤ n ∧ n ≤ seen.length then some (recordedNode initialPool seen n.toNat) else none
  /-- the pools have the keys of the operations -/
  keys : ∀ resp ∈ seen, resp.op.key ∈ initialPool

section History

variable {initialPool : PMap ℤ} {seen : List SeenResponse} {m : Monitor} {resp : SeenResponse}
  {i : ℕ} {k n v w : ℤ}

lemma poolAfter_concat : poolAfter initialPool (seen ++ [resp])
    = resp.op.apply (poolAfter initialPool seen) := by
  rw [poolAfter, List.foldl_append]
  rfl

lemma mem_poolAfter_iff (h : ∀ resp ∈ seen, resp.op.key ∈ initialPool) :
    k ∈ poolAfter initialPool seen ↔ k ∈ initialPool := by
  induction seen using List.reverseRecOn generalizing k with
  | nil => exact Iff.rfl
  | append_singleton seen resp ih =>
      have ih' := fun k => ih (k := k) fun r hr => h r (List.mem_append_left [resp] hr)
      have hkey := h resp (List.mem_append_right seen (List.mem_singleton_self resp))
      rw [poolAfter_concat, mem_apply_iff ((ih' _).mpr hkey), ih']

/-- Appending leaves all nodes but the last one as they are. -/
lemma recordedNode_concat_of_lt (h : i < seen.length) :
    recordedNode initialPool (seen ++ [resp]) i = recordedNode initialPool seen i := by
  have hresp : (initialResponse :: (seen ++ [resp])).getD i initialResponse
      = (initialResponse :: seen).getD i initialResponse := by
    rw [← List.cons_append, List.getD_append _ _ _ _ (by simp; omega)]
  simp only [recordedNode, hresp, List.take_append_of_le_length h.le, List.length_append,
    List.length_singleton, h, if_true, Nat.lt_succ_of_lt h]

/-- The last node gets an edge to the new one. -/
lemma recordedNode_concat_length :
    recordedNode initialPool (seen ++ [resp]) seen.length
      = { recordedNode initialPool seen seen.length with next := {(seen.length + 1 : ℤ)} } := by
  have hresp : (initialResponse :: (seen ++ [resp])).getD seen.length initialResponse
      = (initialResponse :: seen).getD seen.length initialResponse := by
    rw [← List.cons_append, List.getD_append _ _ _ _ (by simp)]
  simp only [recordedNode, hresp, List.take_append_of_le_length le_rfl, List.length_append,
    List.length_singleton, Nat.lt_succ_self, if_true]

/-- The node of the response appended. -/
lemma recordedNode_concat_succ :
    recordedNode initialPool (seen ++ [resp]) (seen.length + 1)
      = { nId := seen.length + 1, cId := resp.cId, op := resp.op, tsReq := resp.tsReq,
          tsResp := resp.tsResp, pool := resp.op.apply (poolAfter initialPool seen),
          next := ∅ } := by
  have hresp : (initialResponse :: (seen ++ [resp])).getD (seen.length + 1) initialResponse
      = resp := by simp
  have htake : (seen ++ [resp]).take (seen.length + 1) = seen ++ [resp] :=
    List.take_of_length_le (by simp)
  simp only [recordedNode, hresp, htake, poolAfter_concat]
  simp

lemma Records.start (initialPool : PMap ℤ) :
    Records initialPool [] (Monitor.serviceInitialPool initialPool) where
  nodeId := rfl
  head := rfl
  lookup n := by
    by_cases hn : n = 0
    · subst hn
      simp [Monitor.serviceInitialPool, recordedNode, poolAfter]
    · have hrange : ¬ (0 ≤ n ∧ n ≤ ([] : List SeenResponse).length) := by simp; omega
      rw [if_neg hrange]
      exact Finmap.lookup_eq_none.mpr fun hmem => hn ((Finmap.mem_singleton ..).mp hmem)
  keys resp hresp := absurd hresp List.not_mem_nil

/-- **The handler appends to the list.** -/
lemma Records.append (h : Records initialPool seen m) (hkey : resp.op.key ∈ initialPool) :
    ∃ history, m.appendResponse resp = .ok history
      ∧ Records initialPool (seen ++ [resp]) ⟨history, m.nodeId + 1⟩ := by
  have hlast : m.history.nodes.lookup (m.nodeId - 1)
      = some (recordedNode initialPool seen seen.length) := by
    rw [h.lookup, h.nodeId, if_pos (by omega)]
    congr 2
    omega
  have hpool : (recordedNode initialPool seen seen.length).pool = poolAfter initialPool seen := by
    rw [recordedNode, List.take_length]
  have happly : applyOpToPool resp.op (recordedNode initialPool seen seen.length).pool
      = .ok (resp.op.apply (poolAfter initialPool seen)) := by
    rw [hpool]
    exact applyOpToPool_of_mem ((mem_poolAfter_iff h.keys).mpr hkey)
  have hnext : insert m.nodeId (recordedNode initialPool seen seen.length).next
      = {(seen.length + 1 : ℤ)} := by
    simp [recordedNode, h.nodeId]
  have hnew : m.nodeId ∉ m.history.nodes.insert (m.nodeId - 1)
      { recordedNode initialPool seen seen.length with
        next := insert m.nodeId (recordedNode initialPool seen seen.length).next } := by
    rw [Finmap.mem_insert, not_or]
    refine ⟨by omega, ?_⟩
    rw [← Finmap.lookup_eq_none, h.lookup, if_neg (by rw [h.nodeId]; omega)]
  refine ⟨_, bind_of_eq_ok (by rw [hlast]; rfl) (bind_of_eq_ok happly (if_neg hnew)), ?_, h.head,
    fun n => ?_, fun r hr => ?_⟩
  · simp [h.nodeId]
  · rw [List.length_append, List.length_singleton]
    by_cases hn : n = seen.length + 1
    · have hnat : n.toNat = seen.length + 1 := by omega
      rw [if_pos (by omega), hnat, recordedNode_concat_succ, hn, ← h.nodeId]
      exact Finmap.lookup_insert _
    · rw [Finmap.lookup_insert_of_ne _ (by rw [h.nodeId]; exact hn)]
      by_cases hn' : n = seen.length
      · have hnat : n.toNat = seen.length := by omega
        have hid : m.nodeId - 1 = n := by rw [h.nodeId]; omega
        rw [if_pos (by omega), hnat, recordedNode_concat_length, ← hnext, ← hid]
        exact Finmap.lookup_insert _
      · rw [Finmap.lookup_insert_of_ne _ (by rw [h.nodeId]; omega), h.lookup]
        by_cases hrange : 0 ≤ n ∧ n ≤ seen.length
        · rw [if_pos hrange, if_pos (by omega), recordedNode_concat_of_lt (by omega)]
        · rw [if_neg hrange, if_neg (by omega)]
  · rcases List.mem_append.mp hr with hr | hr
    · exact h.keys r hr
    · rwa [List.mem_singleton.mp hr]

/-! ### The levels of the history -/

lemma Records.mem_iff (h : Records initialPool seen m) :
    n ∈ m.history.nodes ↔ 0 ≤ n ∧ n ≤ seen.length := by
  rw [Finmap.mem_iff, h.lookup]
  by_cases hn : 0 ≤ n ∧ n ≤ seen.length
  · simp [hn]
  · simp [hn]

lemma Records.lookup_eq_some_iff (h : Records initialPool seen m) {node : OrderingNode} :
    m.history.nodes.lookup n = some node
      ↔ (0 ≤ n ∧ n ≤ seen.length) ∧ recordedNode initialPool seen n.toNat = node := by
  rw [h.lookup]
  by_cases hn : 0 ≤ n ∧ n ≤ seen.length
  · simp [hn]
  · simp [hn]

/-- The edges lead from each node to the next one. -/
lemma Records.edge_iff (h : Records initialPool seen m) :
    m.history.Edge v w ↔ 0 ≤ v ∧ v < seen.length ∧ w = v + 1 := by
  constructor
  · rintro ⟨node, hnode, hw⟩
    obtain ⟨hv, rfl⟩ := h.lookup_eq_some_iff.mp hnode
    by_cases hlt : v.toNat < seen.length
    · simp only [recordedNode, hlt, if_true, Finset.mem_singleton] at hw
      omega
    · simp only [recordedNode, hlt, if_false] at hw
      exact absurd hw (Finset.notMem_empty w)
  · rintro ⟨hv, hlt, rfl⟩
    refine ⟨_, h.lookup_eq_some_iff.mpr ⟨by omega, rfl⟩, ?_⟩
    have hlt' : v.toNat < seen.length := by omega
    simp only [recordedNode, hlt', if_true, Finset.mem_singleton]
    omega

lemma Records.transGen_iff (h : Records initialPool seen m) :
    TransGen m.history.Edge v w ↔ 0 ≤ v ∧ v < w ∧ w ≤ seen.length := by
  constructor
  · intro hreach
    induction hreach with
    | single hedge =>
        have hedge := h.edge_iff.mp hedge
        omega
    | tail _ hedge ih =>
        have hedge := h.edge_iff.mp hedge
        omega
  · rintro ⟨hv, hlt, hw⟩
    obtain ⟨d, rfl⟩ : ∃ d : ℕ, w = v + 1 + d := ⟨(w - v - 1).toNat, by omega⟩
    induction d with
    | zero => exact .single (h.edge_iff.mpr (by omega))
    | succ d ih => exact (ih (by omega) (by omega)).tail (h.edge_iff.mpr (by omega))

/-- Each operation leads to the pool of its node. -/
lemma recordedNode_succ (initialPool : PMap ℤ) (hi : i < seen.length) :
    (recordedNode initialPool seen (i + 1)).op = seen[i].op
      ∧ (recordedNode initialPool seen (i + 1)).pool
        = seen[i].op.apply (recordedNode initialPool seen i).pool := by
  have hresp : (initialResponse :: seen).getD (i + 1) initialResponse = seen[i] := by simp [hi]
  refine ⟨congrArg SeenResponse.op hresp, ?_⟩
  rw [recordedNode, recordedNode, List.take_succ_eq_append_getElem hi]
  exact poolAfter_concat

lemma Records.transition (h : Records initialPool seen m) (hedge : m.history.Edge v w) :
    ∃ parent node, m.history.nodes.lookup v = some parent ∧ m.history.nodes.lookup w = some node
      ∧ node.op.key ∈ parent.pool ∧ applyOpToPool node.op parent.pool = .ok node.pool := by
  obtain ⟨hv, hlt, rfl⟩ := h.edge_iff.mp hedge
  have hi : v.toNat < seen.length := by omega
  have hnat : (v + 1).toNat = v.toNat + 1 := by omega
  obtain ⟨hop, hpool⟩ := recordedNode_succ initialPool hi
  have hkey : (recordedNode initialPool seen (v.toNat + 1)).op.key
      ∈ (recordedNode initialPool seen v.toNat).pool := by
    rw [hop]
    refine (mem_poolAfter_iff fun r hr => h.keys r (List.mem_of_mem_take hr)).mpr ?_
    exact h.keys _ (List.getElem_mem hi)
  refine ⟨_, _, h.lookup_eq_some_iff.mpr ⟨by omega, rfl⟩,
    h.lookup_eq_some_iff.mpr ⟨by omega, rfl⟩, ?_⟩
  rw [hnat]
  refine ⟨hkey, ?_⟩
  rw [applyOpToPool_of_mem hkey, hpool, hop]

/-- The time stamps of the responses seen: they are announced in their order, and
each was requested before. -/
structure Timed (seen : List SeenResponse) (now : ℤ) : Prop where
  order : (initialResponse :: seen).Pairwise fun r r' => r.tsResp < r'.tsResp
  request : ∀ r ∈ initialResponse :: seen, r.tsReq ≤ r.tsResp
  past : ∀ r ∈ initialResponse :: seen, r.tsResp ≤ now

lemma Timed.start {now : ℤ} (h : 0 ≤ now) : Timed [] now :=
  ⟨List.pairwise_singleton .., by simp [initialResponse], by simpa [initialResponse] using h⟩

lemma Timed.later {now now' : ℤ} (h : Timed seen now) (hnow : now ≤ now') : Timed seen now' :=
  ⟨h.order, h.request, fun r hr => (h.past r hr).trans hnow⟩

lemma Timed.append {now : ℤ} (h : Timed seen now) (hreq : resp.tsReq ≤ now)
    (hresp : now < resp.tsResp) : Timed (seen ++ [resp]) resp.tsResp := by
  have hall : ∀ r, r ∈ initialResponse :: (seen ++ [resp]) →
      r ∈ initialResponse :: seen ∨ r = resp := by
    intro r hr
    rwa [← List.cons_append, List.mem_append, List.mem_singleton] at hr
  refine ⟨?_, fun r hr => ?_, fun r hr => ?_⟩
  · rw [← List.cons_append, List.pairwise_append]
    refine ⟨h.order, List.pairwise_singleton .., fun r hr r' hr' => ?_⟩
    rw [List.mem_singleton.mp hr']
    exact (h.past r hr).trans_lt hresp
  · rcases hall r hr with hr | rfl
    · exact h.request r hr
    · omega
  · rcases hall r hr with hr | rfl
    · exact (h.past r hr).trans hresp.le
    · exact le_rfl

/-- A node that responds before another one is requested comes before it. -/
lemma Timed.lt_of_lt {now : ℤ} (h : Timed seen now) {i j : ℕ} (hi : i ≤ seen.length)
    (hj : j ≤ seen.length)
    (hlt : (recordedNode initialPool seen i).tsResp < (recordedNode initialPool seen j).tsReq) :
    i < j := by
  have hi' : i < (initialResponse :: seen).length := by simp; omega
  have hj' : j < (initialResponse :: seen).length := by simp; omega
  simp only [recordedNode, List.getD_eq_getElem _ _ hi', List.getD_eq_getElem _ _ hj'] at hlt
  by_contra hle
  have hreq := h.request _ (List.getElem_mem hj')
  rcases (Nat.not_lt.mp hle).eq_or_lt with rfl | hji
  · omega
  · have := List.pairwise_iff_getElem.mp h.order j i hj' hi' hji
    omega

lemma Records.not_malformed (h : Records initialPool seen m) : ¬ m.history.Malformed := by
  have hreached : ∀ n, m.history.Reached n ↔ 0 ≤ n ∧ n ≤ seen.length := by
    intro n
    rw [OrderingGraph.Reached, h.head, reflTransGen_iff_eq_or_transGen, h.transGen_iff]
    omega
  rintro (⟨v, w, -, hedge, hmem⟩ | ⟨v, -, hcycle⟩ | ⟨n, hn, hbad⟩)
  · have := h.edge_iff.mp hedge
    exact hmem (h.mem_iff.mpr (by omega))
  · have := h.transGen_iff.mp hcycle
    omega
  · exact hbad ((hreached n).mpr (h.mem_iff.mp hn))

lemma Records.edge_unique (h : Records initialPool seen m) :
    ∀ u v w, m.history.Edge u v → m.history.Edge u w → v = w := by
  intro u v w hv hw
  rw [(h.edge_iff.mp hv).2.2, (h.edge_iff.mp hw).2.2]

lemma Records.not_unexplained (h : Records initialPool seen m) : ¬ m.history.Unexplained := by
  rintro ⟨n, hn, hne, hbad⟩
  rw [h.head] at hne
  have hrange := h.mem_iff.mp hn
  have hedge : m.history.Edge (n - 1) n := h.edge_iff.mpr (by omega)
  obtain ⟨parent, node, hparent, hnode, -, happly⟩ := h.transition hedge
  exact hbad (n - 1) hedge ⟨parent, node, hparent, hnode, happly⟩

lemma Records.keysAlongEdges (h : Records initialPool seen m) : m.history.KeysAlongEdges := by
  intro p n parent node hp hn hedge
  obtain ⟨parent', node', hp', hn', hkey, -⟩ := h.transition hedge
  rw [hp] at hp'
  rw [hn] at hn'
  cases hp'
  cases hn'
  exact hkey

lemma Records.meets (h : Records initialPool seen m) {now : ℤ} (htimed : Timed seen now)
    {reachable : PMap (Finset ℤ)} (hreachable : ∀ a ∈ m.history.nodes, ∃ set,
      reachable.lookup a = some set ∧ ∀ b, b ∈ set ↔ TransGen m.history.Edge a b) :
    m.history.Meets reachable .rRt := by
  intro na nb a b hne ha hb hlt
  obtain ⟨hna, rfl⟩ := h.lookup_eq_some_iff.mp ha
  obtain ⟨hnb, rfl⟩ := h.lookup_eq_some_iff.mp hb
  have hpos := htimed.lt_of_lt (by omega) (by omega) hlt
  obtain ⟨set, hset, hmem⟩ := hreachable na (h.mem_iff.mpr hna)
  exact ⟨set, hset, (hmem nb).mpr (h.transGen_iff.mpr (by omega))⟩

/-- **The history of the monitor is linearizable**, for all orders of the loops. -/
theorem Records.linearizable (h : Records initialPool seen m) {now : ℤ} (htimed : Timed seen now)
    (orders : CheckOrders m.history) :
    ∃ fuel, satisfiedConstraints m.history orders fuel = some (.ok (.cSo, .rRt)) := by
  have hhead : m.history.head ∈ m.history.nodes := by
    rw [h.head, h.mem_iff]
    omega
  obtain ⟨fuel, e, hends⟩ :=
    exists_end (not_hasShortcut_of_unique h.edge_unique) orders.toEdgeOrders
  obtain ⟨level, reachable, hconform, hclass⟩ :=
    exists_classified orders.toSetOrders hhead h.keysAlongEdges hends
  have hbranching : ¬ m.history.Branching := by
    rintro ⟨v, w, w', hw, hw', hne⟩
    exact hne (h.edge_unique v w w' hw hw')
  have hinvalid : level ≠ .cInvalid := fun hl => h.not_malformed (hclass.invalid.mp hl)
  have hnpo : level ≠ .cNpo := fun hl => h.not_unexplained ((hclass.npo hinvalid).mp hl)
  have hcpo : level ≠ .cCpo := fun hl => hbranching ((hclass.cpo hinvalid hnpo).mp hl)
  have hso : level = .cSo := by
    cases level with
    | cSo => rfl
    | cCpo => exact absurd rfl hcpo
    | cNpo => exact absurd rfl hnpo
    | cInvalid => exact absurd rfl hinvalid
  have hreachable := hclass.reachable hinvalid
  obtain ⟨relationship, hrelationship⟩ := exists_relationship orders.toPairOrders fun n hn => by
    obtain ⟨set, hset, -⟩ := hreachable n hn
    exact Finmap.mem_of_lookup_eq_some hset
  have hrt : relationship = .rRt :=
    (strongest_of_ok hrelationship).rt.mpr (h.meets htimed hreachable)
  subst hso hrt
  refine ⟨fuel, ?_⟩
  rw [satisfiedConstraints, hconform, Option.map_some]
  exact congrArg some (bind_of_eq_ok rfl (bind_of_eq_ok hrelationship rfl))

/-- **The handler never fails**: it appends the response, and the history with
it is linearizable. -/
theorem Records.clientSeesResponse (h : Records initialPool seen m) {now : ℤ}
    (htimed : Timed seen now) (hkey : resp.op.key ∈ initialPool) (hreq : resp.tsReq ≤ now)
    (hresp : now < resp.tsResp) (orders : ∀ ordering, CheckOrders ordering) :
    ∃ fuel m', m.clientSeesResponse orders fuel resp = some (.ok m')
      ∧ Records initialPool (seen ++ [resp]) m'
      ∧ satisfiedConstraints m'.history (orders m'.history) fuel = some (.ok (.cSo, .rRt)) := by
  obtain ⟨history, happend, hrecords⟩ := h.append hkey
  obtain ⟨fuel, hlevels⟩ := hrecords.linearizable (htimed.append hreq hresp) (orders history)
  refine ⟨fuel, _, ?_, hrecords, hlevels⟩
  have hassert := (Consistency.assert_ok_iff .linearizability).mpr hlevels
  rw [Monitor.clientSeesResponse, happend]
  show (assertLinearizability history (orders history) fuel).map _ = _
  rw [show assertLinearizability history (orders history) fuel = some (.ok ()) from hassert]
  rfl

/-- What the handler leaves when it does not fail. -/
lemma Records.of_clientSeesResponse (h : Records initialPool seen m)
    {orders : ∀ ordering, CheckOrders ordering} {fuel : ℕ} {m' : Monitor}
    (hkey : resp.op.key ∈ initialPool)
    (hm : m.clientSeesResponse orders fuel resp = some (.ok m')) :
    Records initialPool (seen ++ [resp]) m' := by
  obtain ⟨history, happend, hrecords⟩ := h.append hkey
  rw [Monitor.clientSeesResponse, happend] at hm
  obtain ⟨result, -, hm⟩ := Option.map_eq_some_iff.mp hm
  obtain ⟨-, -, hm⟩ := bind_eq_ok.mp hm
  cases hm
  exact hrecords

end History

end Madkv
