import Mathlib.Data.Finset.Option
import Madkv.Library.Linearization
import Madkv.Pmodel.Constraints

/-!
Which histories the assertions on ordering graphs accept.

* `OrderingGraph.Execution`: the nodes of a graph are one chain, in which each operation leads
  from the pool before it and the pairs that a level demands are in their order.
* `levels_iff_execution`: the checks find this out, for every graph.
* `graphOf`: the graphs over the same operations, which differ in their edges.
* `linearizable_iff_accepted`: some graph over the operations is asserted to be linearizable
  if and only if there are points for them; `sequential_iff_accepted`: likewise for orders
  that keep those of the sessions.
-/

namespace Madkv

open DepthFirst Fallible Linearization Relation

/-! ### Graphs that are executions -/

section Executions

variable {ordering : OrderingGraph} {reachable : PMap (Finset ℤ)} {fuel : ℕ} {chain : List ℤ}
  {level level' : RelationshipLevel} {convergence : ConvergenceLevel} {v w : ℤ}

/-- The level demands that `na` comes before `nb`. -/
def OrderingGraph.Before (ordering : OrderingGraph) (level : RelationshipLevel) (na nb : ℤ) :
    Prop :=
  ∃ a b, ordering.nodes.lookup na = some a ∧ ordering.nodes.lookup nb = some b ∧ Demands level a b

/-- The chain executes the operations one after another, in an order that keeps what the
level demands. -/
structure OrderingGraph.Execution (ordering : OrderingGraph) (level : RelationshipLevel)
    (chain : List ℤ) : Prop where
  isChain : ordering.IsChain chain
  transitions : List.IsChain ordering.Transition chain
  keeps : chain.Pairwise fun na nb => ¬ ordering.Before level nb na

/-- In a chain the pairs of a level are ordered if none is the other way round. -/
lemma meets_iff_keeps (hchain : ordering.IsChain chain)
    (hreachable : ∀ a ∈ ordering.nodes, ∃ set,
      reachable.lookup a = some set ∧ ∀ b, b ∈ set ↔ TransGen ordering.Edge a b) :
    ordering.Meets reachable level
      ↔ chain.Pairwise fun na nb => ¬ ordering.Before level nb na := by
  obtain ⟨-, hnodup, hmem, hlined⟩ := hchain
  constructor
  · intro hmeets
    refine hlined.pairwise.imp_of_mem fun {na nb} hna hnb hab => ?_
    rintro ⟨b, a, hb, ha, hdemands⟩
    have hcycle := hlined.acyclic hnodup hna
    have hne : nb ≠ na := fun heq => hcycle (heq ▸ hab)
    obtain ⟨after, hafter, hin⟩ := hmeets nb na b a hne hb ha hdemands
    obtain ⟨set, hset, hiff⟩ := hreachable nb ((hmem nb).mp hnb)
    rw [hafter] at hset
    cases hset
    exact hcycle (hab.trans ((hiff na).mp hin))
  · intro hkeeps na nb a b hne ha hb hdemands
    have hna : na ∈ ordering.nodes := Finmap.mem_of_lookup_eq_some ha
    have hnb : nb ∈ ordering.nodes := Finmap.mem_of_lookup_eq_some hb
    -- of two nodes one comes first
    have hpair := rel_or_rel_of_pairwise (hlined.pairwise.and hkeeps) ((hmem na).mpr hna)
      ((hmem nb).mpr hnb) hne
    obtain ⟨hreach, -⟩ := hpair.resolve_right fun h => h.2 ⟨a, b, ha, hb, hdemands⟩
    obtain ⟨set, hset, hiff⟩ := hreachable na hna
    exact ⟨set, hset, (hiff nb).mpr hreach⟩

/-- What the checks accept as a total order is an execution. -/
lemma exists_execution {orders : CheckOrders ordering}
    (h : satisfiedConstraints ordering orders fuel = some (.ok (.cSo, level')))
    (hle : level.number ≤ level'.number) : ∃ chain, ordering.Execution level chain := by
  obtain ⟨reachable, hconverges, hrelationship⟩ :=
    (satisfiedConstraints_ok_iff (by decide)).mp h
  obtain ⟨hhead, hclass⟩ := classified_of_ok hconverges
  obtain ⟨chain, hchain⟩ := hclass.so rfl
  have hgood : ¬ ordering.Unexplained := fun hbad =>
    absurd ((hclass.npo (by decide)).mpr hbad) (by decide)
  have hmeets := (strongest_of_ok hrelationship).meets_iff.mpr hle
  refine ⟨chain, hchain, ?_, (meets_iff_keeps hchain (hclass.reachable (by decide))).mp hmeets⟩
  obtain ⟨hfirst, hnodup, hmem, hlined⟩ := hchain
  obtain ⟨l, rfl⟩ := List.head?_eq_some_iff.mp hfirst
  have hcycle : ∀ u, ReflTransGen ordering.Edge ordering.head u → ¬ TransGen ordering.Edge u u :=
    fun u hu => hlined.acyclic hnodup (hlined.mem_iff.mpr hu)
  refine hlined.isChain hcycle fun n hn => ?_
  by_contra hnone
  refine hgood ⟨n, (hmem n).mp (List.mem_cons_of_mem _ hn), ?_, fun p hedge htrans => ?_⟩
  · rintro rfl
    exact (List.nodup_cons.mp hnodup).1 hn
  · exact hnone ⟨p, (hmem p).mpr hedge.mem, hedge, htrans⟩

/-! ### Executions are accepted -/

lemma OrderingGraph.Execution.head_mem (h : ordering.Execution level chain) :
    ordering.head ∈ ordering.nodes :=
  (h.isChain.2.2.1 _).mp (List.mem_of_mem_head? h.isChain.1)

/-- An edge of an execution is a transition to one of its nodes. -/
lemma OrderingGraph.Execution.of_edge (h : ordering.Execution level chain)
    (hedge : ordering.Edge v w) : ordering.Transition v w ∧ w ∈ ordering.nodes := by
  obtain ⟨-, -, hmem, hlined⟩ := h.isChain
  obtain ⟨htrans, hw⟩ := hlined.of_edge h.transitions ((hmem v).mpr hedge.mem) hedge
  exact ⟨htrans, (hmem w).mp hw⟩

lemma OrderingGraph.Execution.edge_unique (h : ordering.Execution level chain) :
    ∀ u v w, ordering.Edge u v → ordering.Edge u w → v = w := by
  intro u v w hv hw
  obtain ⟨-, -, hmem, hlined⟩ := h.isChain
  exact hlined.unique ((hmem u).mpr hv.mem) hv hw

lemma OrderingGraph.Execution.reached_iff (h : ordering.Execution level chain) :
    ordering.Reached v ↔ v ∈ ordering.nodes := by
  obtain ⟨hfirst, -, hmem, hlined⟩ := h.isChain
  obtain ⟨l, rfl⟩ := List.head?_eq_some_iff.mp hfirst
  rw [← hmem, hlined.mem_iff]
  exact Iff.rfl

lemma OrderingGraph.Execution.not_malformed (h : ordering.Execution level chain) :
    ¬ ordering.Malformed := by
  rintro (⟨v, w, -, hedge, hw⟩ | ⟨v, hv, hcycle⟩ | ⟨n, hn, hbad⟩)
  · exact hw (h.of_edge hedge).2
  · obtain ⟨-, hnodup, hmem, hlined⟩ := h.isChain
    exact hlined.acyclic hnodup ((hmem v).mpr (h.reached_iff.mp hv)) hcycle
  · exact hbad (h.reached_iff.mpr hn)

lemma OrderingGraph.Execution.not_unexplained (h : ordering.Execution level chain) :
    ¬ ordering.Unexplained := by
  rintro ⟨n, hn, hne, hbad⟩
  have hreach : TransGen ordering.Edge ordering.head n :=
    (reflTransGen_iff_eq_or_transGen.mp (h.reached_iff.mpr hn)).resolve_left hne
  obtain ⟨p, -, hedge⟩ := TransGen.tail'_iff.mp hreach
  exact hbad p hedge (h.of_edge hedge).1

lemma OrderingGraph.Execution.keysAlongEdges (h : ordering.Execution level chain) :
    ordering.KeysAlongEdges := by
  intro p n parent node hp hn hedge
  obtain ⟨parent', node', hp', hn', happly⟩ := (h.of_edge hedge).1
  rw [hp] at hp'
  rw [hn] at hn'
  cases hp'
  cases hn'
  by_contra hkey
  rw [applyOpToPool_eq, if_neg hkey] at happly
  cases happly

/-- The checks accept an execution, whatever the orders of their loops. -/
lemma OrderingGraph.Execution.levels (h : ordering.Execution level chain)
    (orders : CheckOrders ordering) : ∃ fuel level',
      satisfiedConstraints ordering orders fuel = some (.ok (.cSo, level'))
        ∧ level.number ≤ level'.number := by
  obtain ⟨fuel, e, hends⟩ :=
    exists_end (not_hasShortcut_of_unique h.edge_unique) orders.toEdgeOrders
  obtain ⟨convergence, reachable, hconverges, hclass⟩ :=
    exists_classified orders.toSetOrders h.head_mem h.keysAlongEdges hends
  have hbranching : ¬ ordering.Branching := by
    rintro ⟨v, w, w', hw, hw', hne⟩
    exact hne (h.edge_unique v w w' hw hw')
  have hinvalid : convergence ≠ .cInvalid := fun hl => h.not_malformed (hclass.invalid.mp hl)
  have hnpo : convergence ≠ .cNpo := fun hl => h.not_unexplained ((hclass.npo hinvalid).mp hl)
  have hcpo : convergence ≠ .cCpo := fun hl => hbranching ((hclass.cpo hinvalid hnpo).mp hl)
  have hreachable := hclass.reachable hinvalid
  obtain ⟨level', hlevel'⟩ := exists_relationship orders.toPairOrders fun n hn => by
    obtain ⟨set, hset, -⟩ := hreachable n hn
    exact Finmap.mem_of_lookup_eq_some hset
  obtain rfl : convergence = .cSo := by
    cases convergence with
    | cSo => rfl
    | cCpo => exact absurd rfl hcpo
    | cNpo => exact absurd rfl hnpo
    | cInvalid => exact absurd rfl hinvalid
  refine ⟨fuel, level',
    (satisfiedConstraints_ok_iff (by decide)).mpr ⟨reachable, hconverges, hlevel'⟩, ?_⟩
  exact (strongest_of_ok hlevel').meets_iff.mp ((meets_iff_keeps h.isChain hreachable).mpr h.keeps)

/-- **The checks find the executions**: they return a total order and a level that is strong
enough if and only if the graph is an execution. -/
theorem levels_iff_execution (orders : CheckOrders ordering) :
    (∃ fuel level', satisfiedConstraints ordering orders fuel = some (.ok (.cSo, level'))
        ∧ level.number ≤ level'.number)
      ↔ ∃ chain, ordering.Execution level chain :=
  ⟨fun ⟨_, _, h, hle⟩ => exists_execution h hle, fun ⟨_, h⟩ => h.levels orders⟩

end Executions

/-! ### Graphs over the same operations -/

section Histories

variable {ids L : List ℤ} {node : ℤ → OrderingNode} {next : ℤ → Finset ℤ} {head n : ℤ}
  {level : RelationshipLevel}

/-- The ordering graph of the operations `ids` with the data `node` and the edges `next`. -/
def graphOf (ids : List ℤ) (node : ℤ → OrderingNode) (next : ℤ → Finset ℤ) (head : ℤ) :
    OrderingGraph where
  nodes := (ids.map fun n => ⟨n, { node n with next := next n }⟩).toFinmap
  head := head

lemma lookup_graphOf : (graphOf ids node next head).nodes.lookup n
    = if n ∈ ids then some { node n with next := next n } else none := by
  rw [graphOf, Finmap.dlookup_list_toFinmap]
  induction ids with
  | nil => rfl
  | cons m ids ih =>
      rw [List.map_cons]
      by_cases hn : n = m
      · rw [hn, List.dlookup_cons_eq, if_pos List.mem_cons_self]
      · rw [List.dlookup_cons_ne _ _ hn, ih]
        simp only [List.mem_cons, hn, false_or]

lemma mem_graphOf : n ∈ (graphOf ids node next head).nodes ↔ n ∈ ids := by
  rw [← Finmap.lookup_isSome, lookup_graphOf]
  split_ifs with hn
  · simp [hn]
  · simp [hn]

lemma edge_graphOf {v w : ℤ} :
    (graphOf ids node next head).Edge v w ↔ v ∈ ids ∧ w ∈ next v := by
  rw [OrderingGraph.Edge, lookup_graphOf]
  split_ifs with hv
  · simp [hv]
  · simp [hv]

lemma before_graphOf {na nb : ℤ} (hna : na ∈ ids) (hnb : nb ∈ ids) :
    (graphOf ids node next head).Before level na nb ↔ Demands level (node na) (node nb) := by
  have hunlinked : Demands level { node na with next := next na } { node nb with next := next nb }
      ↔ Demands level (node na) (node nb) := by
    cases level <;> exact Iff.rfl
  simp only [OrderingGraph.Before, lookup_graphOf, if_pos hna, if_pos hnb, Option.some_inj,
    exists_and_left, exists_eq_left', hunlinked]

lemma transition_graphOf {p : ℤ} (hp : p ∈ ids) (hn : n ∈ ids) :
    (graphOf ids node next head).Transition p n
      ↔ applyOpToPool (node n).op (node p).pool = .ok (node n).pool := by
  simp only [OrderingGraph.Transition, lookup_graphOf, if_pos hp, if_pos hn, Option.some_inj,
    exists_and_left, exists_eq_left']

/-- The pool recorded for an operation follows from the pool before it, if that is known. -/
def PoolFollows (node : ℤ → OrderingNode) : Option (PMap ℤ) → ℤ → Prop
  | none, _ => True
  | some pool, n => applyOpToPool (node n).op pool = .ok (node n).pool

/-- The order executes the operations one after another, and keeps what the level demands. -/
def Serial (level : RelationshipLevel) (ids : List ℤ) (node : ℤ → OrderingNode) (L : List ℤ) :
    Prop :=
  Serializes (fun n => some (node n).tsResp) (fun na nb => Demands level (node na) (node nb))
    (fun _ n => some (node n).pool) (PoolFollows node) none ids L

lemma legal_iff_isChain {p : ℤ} :
    Legal (fun _ n => some (node n).pool) (PoolFollows node) (some (node p).pool) L
      ↔ List.IsChain (fun p n => applyOpToPool (node n).op (node p).pool = .ok (node n).pool)
        (p :: L) := by
  induction L generalizing p with
  | nil => simp [Legal]
  | cons n L ih =>
      rw [List.isChain_cons_cons, ← ih]
      exact Iff.rfl

/-- The chain of an execution is an order of its operations. -/
lemma OrderingGraph.Execution.serial (h : (graphOf ids node next head).Execution level L) :
    Serial level ids node L := by
  obtain ⟨⟨hfirst, hnodup, hmem, -⟩, htransitions, hkeeps⟩ := h
  have hids : ∀ n, n ∈ L ↔ n ∈ ids := fun n => (hmem n).trans mem_graphOf
  obtain ⟨l, rfl⟩ := List.head?_eq_some_iff.mp hfirst
  refine ⟨hnodup, fun n hn => (hids n).mp hn, fun n hn _ => (hids n).mpr hn, ?_, trivial, ?_⟩
  · refine hkeeps.imp_of_mem fun {na nb} hna hnb hnot => ?_
    rwa [before_graphOf ((hids nb).mp hnb) ((hids na).mp hna)] at hnot
  · rw [legal_iff_isChain]
    refine htransitions.imp_of_mem_imp fun p n hp hn htrans => ?_
    rwa [transition_graphOf ((hids p).mp hp) ((hids n).mp hn)] at htrans

/-- An order of operations is the chain of a graph over them. -/
lemma Serial.exists_execution (h : Serial level ids node L) (hne : ids ≠ []) :
    ∃ next head, (graphOf ids node next head).Execution level L := by
  have hids : ∀ n, n ∈ L ↔ n ∈ ids := fun n => ⟨h.mem n, fun hn => h.complete n hn rfl⟩
  obtain ⟨n, hn⟩ := List.exists_mem_of_ne_nil ids hne
  cases L with
  | nil => exact absurd ((hids n).mpr hn) List.not_mem_nil
  | cons head l =>
      have hlined := lined_nextIn h.nodup (List.cons_ne_nil head l)
      refine ⟨fun n => (nextIn (head :: l) n).toFinset, head,
        ⟨rfl, h.nodup, fun n => (hids n).trans mem_graphOf.symm,
          hlined.congr fun v hv w => ?_⟩, ?_, ?_⟩
      · rw [edge_graphOf, and_iff_right ((hids v).mp hv), Option.mem_toFinset, Option.mem_def]
      · refine (legal_iff_isChain.mp h.legal.2).imp_of_mem_imp fun p n hp hn htrans => ?_
        rwa [transition_graphOf ((hids p).mp hp) ((hids n).mp hn)]
      · refine h.keeps.imp_of_mem fun {na nb} hna hnb hnot => ?_
        rwa [before_graphOf ((hids nb).mp hnb) ((hids na).mp hna)]

/-- The checks on the graphs over some operations look for an order of them. -/
lemma exists_serial_of_levels {orders : CheckOrders (graphOf ids node next head)} {fuel : ℕ}
    {level' : RelationshipLevel} (hle : level.number ≤ level'.number)
    (h : satisfiedConstraints (graphOf ids node next head) orders fuel
      = some (.ok (.cSo, level'))) : ∃ L, Serial level ids node L := by
  obtain ⟨chain, hchain⟩ := exists_execution h hle
  exact ⟨chain, hchain.serial⟩

lemma Serial.exists_levels (h : Serial level ids node L) (hne : ids ≠ []) :
    ∃ next head, ∀ orders, ∃ fuel level',
      satisfiedConstraints (graphOf ids node next head) orders fuel = some (.ok (.cSo, level'))
        ∧ level.number ≤ level'.number := by
  obtain ⟨next, head, hexec⟩ := h.exists_execution hne
  exact ⟨next, head, hexec.levels⟩

/-- An order that keeps the real-time order is one for the strongest level. -/
lemma serial_rt_iff : Serial .rRt ids node L
    ↔ Serializes (fun n => some (node n).tsResp)
      (RealTime (fun n => (node n).tsReq) fun n => some (node n).tsResp)
      (fun _ n => some (node n).pool) (PoolFollows node) none ids L := by
  have hbefore : (fun na nb => Demands .rRt (node na) (node nb))
      = RealTime (fun n => (node n).tsReq) fun n => some (node n).tsResp := by
    funext na nb
    simp [RealTime, Demands]
  rw [Serial, hbefore]

end Histories

/-- The points linearize the operations: each lies between the request and the response, and
the pool recorded for an operation follows from that of the one before. -/
def LinearizedBy (ids : List ℤ) (node : ℤ → OrderingNode) (points : List (ℤ × ℤ)) : Prop :=
  Linearizes (fun n => (node n).tsReq) (fun n => some (node n).tsResp)
    (fun _ n => some (node n).pool) (PoolFollows node) none ids points

/-- **The linearizability assertion is sound and complete**: if it passes on a graph over some
operations, there are points that linearize them; and if there are, it passes on some graph
over them, whatever the orders of its loops. -/
theorem linearizable_iff_accepted (ids : List ℤ) (node : ℤ → OrderingNode) (hne : ids ≠ [])
    (hspans : ∀ n ∈ ids, (node n).tsReq ≤ (node n).tsResp) :
    ((∃ next head orders fuel,
        assertLinearizability (graphOf ids node next head) orders fuel = some (.ok ())) →
      ∃ points, LinearizedBy ids node points)
    ∧ ((∃ points, LinearizedBy ids node points) → ∃ next head, ∀ orders, ∃ fuel,
        assertLinearizability (graphOf ids node next head) orders fuel = some (.ok ())) := by
  have hspans' : ∀ n ∈ ids, ∀ ts, some (node n).tsResp = some ts → (node n).tsReq ≤ ts := by
    rintro n hn _ ⟨⟩
    exact hspans n hn
  have hpoints : (∃ points, LinearizedBy ids node points) ↔ ∃ L, Serial .rRt ids node L := by
    simp only [LinearizedBy, exists_linearizes_iff hspans', serial_rt_iff]
  rw [hpoints]
  constructor
  · rintro ⟨next, head, orders, fuel, hpass⟩
    exact exists_serial_of_levels le_rfl (assertConstraints_ok_iff.mp hpass)
  · rintro ⟨L, hL⟩
    obtain ⟨next, head, hlevels⟩ := hL.exists_levels hne
    refine ⟨next, head, fun orders => ?_⟩
    obtain ⟨fuel, level', hlevel, hle⟩ := hlevels orders
    obtain rfl : level' = .rRt := by
      cases level' with
      | rRt => rfl
      | rCasl | rFifo | rNone => exact absurd hle (by decide)
    exact ⟨fuel, assertConstraints_ok_iff.mpr hlevel⟩

/-- The nodes of `writeRead`, by their ids. -/
def writeReadNode (n : ℤ) : OrderingNode := if n = 0 then writeNode 0 {1} else readNode 7

theorem linearizable_iff_accepted_writeRead :
    ∃ points, LinearizedBy [0, 1] writeReadNode points := by
  have hspans : ∀ n ∈ ([0, 1] : List ℤ), (writeReadNode n).tsReq ≤ (writeReadNode n).tsResp := by
    decide
  refine (linearizable_iff_accepted [0, 1] writeReadNode (by decide) hspans).1 ?_
  exact ⟨fun n => (writeReadNode n).next, 0, .increasing _, 5, by decide⟩

/-- **Sequential consistency**: the two assertions that ask for a total order are together
sound and complete for the orders of the operations in which the pools follow from one another
and each session keeps its own order. -/
theorem sequential_iff_accepted (ids : List ℤ) (node : ℤ → OrderingNode) (hne : ids ≠ []) :
    ((∃ next head orders fuel,
        assertLinearizability (graphOf ids node next head) orders fuel = some (.ok ())
          ∨ assertSequentialConsistency (graphOf ids node next head) orders fuel
            = some (.ok ())) →
      ∃ L, Serial .rCasl ids node L)
    ∧ ((∃ L, Serial .rCasl ids node L) → ∃ next head, ∀ orders, ∃ fuel,
        assertLinearizability (graphOf ids node next head) orders fuel = some (.ok ())
          ∨ assertSequentialConsistency (graphOf ids node next head) orders fuel
            = some (.ok ())) := by
  constructor
  · rintro ⟨next, head, orders, fuel, hpass | hpass⟩
    · exact exists_serial_of_levels (by decide) (assertConstraints_ok_iff.mp hpass)
    · exact exists_serial_of_levels le_rfl (assertConstraints_ok_iff.mp hpass)
  · rintro ⟨L, hL⟩
    obtain ⟨next, head, hlevels⟩ := hL.exists_levels hne
    refine ⟨next, head, fun orders => ?_⟩
    obtain ⟨fuel, level', hlevel, hle⟩ := hlevels orders
    refine ⟨fuel, ?_⟩
    cases level' with
    | rRt => exact Or.inl (assertConstraints_ok_iff.mpr hlevel)
    | rCasl => exact Or.inr (assertConstraints_ok_iff.mpr hlevel)
    | rFifo | rNone => exact absurd hle (by decide)

theorem sequential_iff_accepted_writeRead : ∃ L, Serial .rCasl [0, 1] writeReadNode L := by
  refine (sequential_iff_accepted [0, 1] writeReadNode (by decide)).1 ?_
  exact ⟨fun n => (writeReadNode n).next, 0, .increasing _, 5, Or.inl (by decide)⟩

end Madkv
