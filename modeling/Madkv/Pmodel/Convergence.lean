import Madkv.Library.Fallible
import Madkv.Pmodel.ObjPool
import Madkv.Pmodel.TraversalTermination

/-!
The convergence constraint of an ordering graph.

* `SetOrders`: the orders of the loops over sets. `checkTransitions`: the loop
  over the nodes after the traversal; `convergenceConformity`: the whole check,
  with a bound on the passes of the traversal.
* `Surveyed`: what the traversal knows when its loop is done; `traverse_spec`: it
  returns early only on a graph with a defect.
* `Malformed`, `Unexplained`, `Branching`: what the levels tell apart.
* `convergence_classifies`: the check returns the right level and, unless the
  graph is malformed, the nodes reachable from each node.
-/

namespace Madkv

open Loop DepthFirst Fallible Relation

/-- The order goes through the set, each element once. -/
def Lists (order : List ℤ) (set : Finset ℤ) : Prop :=
  order.Nodup ∧ ∀ n, n ∈ order ↔ n ∈ set

/-- The orders of all loops over sets. -/
structure SetOrders (ordering : OrderingGraph) extends EdgeOrders ordering where
  /-- over the keys of `parents` -/
  keys : Finset ℤ → List ℤ
  /-- over the parents of a node -/
  parents : ℤ → Finset ℤ → List ℤ
  keys_enum : ∀ set, Lists (keys set) set
  parents_enum : ∀ n set, Lists (parents n set) set

/-- The loop over the parents of a node: does its operation lead from the pool
of one of them to its own? -/
def validFrom (ordering : OrderingGraph) (node : OrderingNode) : List ℤ → Except Failure Bool
  | [] => .ok false
  | nId :: rest => do
      let parent ← demand (ordering.nodes.lookup nId)
      let pool ← applyOpToPool node.op parent.pool
      if node.pool = pool then .ok true else validFrom ordering node rest

/-- The loop over the nodes after the traversal. -/
def checkTransitions (ordering : OrderingGraph) (orders : SetOrders ordering) (s : Traversal) :
    List ℤ → Except Failure ConvergenceLevel
  | [] => .ok s.level
  | next :: rest => do
      let parents ← demand (s.parents.lookup next)
      if parents = ∅ then
        if next = ordering.head then checkTransitions ordering orders s rest
        else .error .assertion
      else
        let node ← demand (ordering.nodes.lookup next)
        if ← validFrom ordering node (orders.parents next parents) then
          checkTransitions ordering orders s rest
        else .ok .cNpo

/-- What the check comes to after the traversal. -/
def afterTraversal (ordering : OrderingGraph) (orders : SetOrders ordering) :
    TraversalEnd → Except Failure (ConvergenceLevel × PMap (Finset ℤ))
  | .returned level reachable => .ok (level, reachable)
  | .failed => .error .assertion
  | .finished s =>
      -- all nodes must have been visited
      if s.done < ordering.nodes.keys.card then .ok (.cInvalid, s.reachable)
      else do
        let level ← checkTransitions ordering orders s (orders.keys s.parents.keys)
        .ok (level, s.reachable)

/-- The level of the graph and the nodes reachable from each node. -/
def convergenceConformity (ordering : OrderingGraph) (orders : SetOrders ordering) (fuel : ℕ) :
    Option (Except Failure (ConvergenceLevel × PMap (Finset ℤ))) :=
  (traverse ordering orders.toEdgeOrders fuel).map (afterTraversal ordering orders)

/-! ### What the levels tell apart -/

section Levels

variable (ordering : OrderingGraph)

/-- The nodes that the head leads to, which may be missing. -/
def OrderingGraph.Reached (v : ℤ) : Prop := ReflTransGen ordering.Edge ordering.head v

/-- An edge to a missing node or a cycle is reached, or a node is not. -/
def OrderingGraph.Malformed : Prop :=
  (∃ v w, ordering.Reached v ∧ ordering.Edge v w ∧ w ∉ ordering.nodes)
    ∨ (∃ v, ordering.Reached v ∧ TransGen ordering.Edge v v)
    ∨ ∃ n ∈ ordering.nodes, ¬ ordering.Reached n

/-- The operation of the node `n` leads from the pool of the node `p` to its own. -/
def OrderingGraph.Transition (p n : ℤ) : Prop :=
  ∃ parent node, ordering.nodes.lookup p = some parent ∧ ordering.nodes.lookup n = some node
    ∧ applyOpToPool node.op parent.pool = .ok node.pool

/-- The pool of some node but the head comes from none of its predecessors. -/
def OrderingGraph.Unexplained : Prop :=
  ∃ n ∈ ordering.nodes, n ≠ ordering.head
    ∧ ∀ p, ordering.Edge p n → ¬ ordering.Transition p n

/-- Some node has more than one successor. -/
def OrderingGraph.Branching : Prop :=
  ∃ v w w', ordering.Edge v w ∧ ordering.Edge v w' ∧ w ≠ w'

/-- Every key that an operation names is in every pool. -/
def OrderingGraph.KeysPresent : Prop :=
  ∀ n node, ordering.nodes.lookup n = some node →
    ∀ m other, ordering.nodes.lookup m = some other → node.op.key ∈ other.pool

/-- Each pool has the key of the operation that is applied to it. -/
def OrderingGraph.KeysAlongEdges : Prop :=
  ∀ p n parent node, ordering.nodes.lookup p = some parent → ordering.nodes.lookup n = some node →
    ordering.Edge p n → node.op.key ∈ parent.pool

lemma OrderingGraph.KeysPresent.alongEdges {ordering : OrderingGraph} (h : ordering.KeysPresent) :
    ordering.KeysAlongEdges :=
  fun p n parent node hp hn _ => h n node hn p parent hp

/-- The nodes are one chain from the head. -/
def OrderingGraph.IsChain (chain : List ℤ) : Prop :=
  chain.head? = some ordering.head ∧ chain.Nodup ∧ (∀ n, n ∈ chain ↔ n ∈ ordering.nodes)
    ∧ Lined ordering.Edge chain

/-- What a result of the check says about the graph. -/
structure OrderingGraph.Classified (level : ConvergenceLevel) (reachable : PMap (Finset ℤ)) :
    Prop where
  invalid : level = .cInvalid ↔ ordering.Malformed
  npo : level ≠ .cInvalid → (level = .cNpo ↔ ordering.Unexplained)
  cpo : level ≠ .cInvalid → level ≠ .cNpo → (level = .cCpo ↔ ordering.Branching)
  so : level = .cSo → ∃ chain, ordering.IsChain chain
  reachable : level ≠ .cInvalid → ∀ a ∈ ordering.nodes, ∃ set,
    reachable.lookup a = some set ∧ ∀ b, b ∈ set ↔ TransGen ordering.Edge a b

end Levels

/-! ### A write and a read -/

/-- The elements of a set in increasing order. -/
def increasing (set : Finset ℤ) : List ℤ :=
  Quot.liftOn set.val (List.insertionSort (· ≤ ·)) fun l l' h =>
    (((List.perm_insertionSort (· ≤ ·) l).trans h).trans
      (List.perm_insertionSort (· ≤ ·) l').symm).eq_of_pairwise'
      (List.pairwise_insertionSort (· ≤ ·) l) (List.pairwise_insertionSort (· ≤ ·) l')

lemma lists_increasing (set : Finset ℤ) : Lists (increasing set) set := by
  obtain ⟨s, hs⟩ := set
  induction s using Quot.ind with
  | mk l =>
      refine ⟨(List.perm_insertionSort (· ≤ ·) l).nodup_iff.mpr hs, fun n => ?_⟩
      exact (List.perm_insertionSort (· ≤ ·) l).mem_iff

/-- The edges of each node in the order of its `next` set. -/
def OrderingGraph.edgesIn (ordering : OrderingGraph) (order : Finset ℤ → List ℤ) (v : ℤ) : List ℤ :=
  match ordering.nodes.lookup v with
  | some node => order node.next
  | none => []

lemma OrderingGraph.edgesIn_enum (ordering : OrderingGraph) {order : Finset ℤ → List ℤ}
    (horder : ∀ set, Lists (order set) set) :
    Enumerates ordering.Edge (ordering.edgesIn order) := by
  intro v
  rw [edgesIn]
  cases hnode : ordering.nodes.lookup v with
  | none =>
      refine ⟨List.nodup_nil, fun w => iff_of_false List.not_mem_nil fun h => ?_⟩
      exact absurd h.mem (Finmap.lookup_eq_none.mp hnode)
  | some node => exact ⟨(horder node.next).1, fun w => by rw [edge_iff hnode, (horder node.next).2]⟩

/-- All loops go through their sets in increasing order. -/
def SetOrders.increasing (ordering : OrderingGraph) : SetOrders ordering where
  opening := ordering.edgesIn Madkv.increasing
  closing := ordering.edgesIn Madkv.increasing
  keys := Madkv.increasing
  parents _ := Madkv.increasing
  opening_enum := ordering.edgesIn_enum lists_increasing
  closing_enum := ordering.edgesIn_enum lists_increasing
  keys_enum := lists_increasing
  parents_enum _ := lists_increasing

/-- The node after `writeNode 0` in a chain, a read that says to have returned `ret`. -/
def readNode (ret : ℤ) : OrderingNode where
  nId := 1
  cId := 0
  op := ⟨.opRead, 0, 0, ret⟩
  tsReq := 3
  tsResp := 4
  pool := Finmap.singleton 0 7
  next := ∅

def writeRead (ret : ℤ) : OrderingGraph where
  nodes := [⟨0, writeNode 0 {1}⟩, ⟨1, readNode ret⟩].toFinmap
  head := 0

lemma writeRead_lookup {ret n : ℤ} {node : OrderingNode}
    (h : (writeRead ret).nodes.lookup n = some node) :
    node = writeNode 0 {1} ∨ node = readNode ret := by
  rw [writeRead, Finmap.dlookup_list_toFinmap] at h
  have hmem := List.of_mem_dlookup h
  rw [List.mem_cons, List.mem_singleton] at hmem
  rcases hmem with heq | heq
  · cases heq
    exact Or.inl rfl
  · cases heq
    exact Or.inr rfl

lemma writeRead_keysPresent (ret : ℤ) : (writeRead ret).KeysPresent := by
  have hkey : ∀ n node, (writeRead ret).nodes.lookup n = some node →
      node.op.key = 0 ∧ node.pool = Finmap.singleton 0 7 := by
    intro n node h
    rcases writeRead_lookup h with rfl | rfl
    · exact ⟨rfl, rfl⟩
    · exact ⟨rfl, rfl⟩
  intro n node hnode m other hother
  rw [(hkey n node hnode).1, (hkey m other hother).2]
  exact (Finmap.mem_singleton 0 0 7).mpr rfl

lemma exists_reachable_of_level {β : Type} {level : ConvergenceLevel}
    {result : Option (Except Failure (ConvergenceLevel × β))}
    (h : result.map (fun r => r.toOption.map Prod.fst) = some (some level)) :
    ∃ reachable, result = some (.ok (level, reachable)) := by
  obtain ⟨r, rfl, hr⟩ := Option.map_eq_some_iff.mp h
  cases r with
  | error => cases hr
  | ok r =>
      cases hr
      exact ⟨r.2, rfl⟩

section Graphs

variable {ordering : OrderingGraph} {orders : SetOrders ordering} {s : Traversal} {n p v w : ℤ}
  {node : OrderingNode} {l : List ℤ} {fuel : ℕ}

lemma malformed_of_not_sound
    (h : ¬ Sound ordering.nodes.keys ordering.Edge ordering.head) : ordering.Malformed := by
  by_contra hwell
  rw [OrderingGraph.Malformed, not_or, not_or] at hwell
  obtain ⟨hedges, hcycles, -⟩ := hwell
  refine h ⟨fun u hu w hw => ?_, fun u hu hcycle => hcycles ⟨u, hu, hcycle⟩⟩
  by_contra hmem
  exact hedges ⟨u, w, hu, hw, fun hw => hmem (Finmap.mem_keys.mpr hw)⟩

lemma malformed_iff_of_sound (h : Sound ordering.nodes.keys ordering.Edge ordering.head) :
    ordering.Malformed ↔ ∃ n ∈ ordering.nodes, ¬ ordering.Reached n := by
  refine ⟨?_, fun hn => Or.inr (Or.inr hn)⟩
  rintro (⟨v, w, hv, hedge, hmem⟩ | ⟨v, hv, hcycle⟩ | hn)
  · exact absurd (Finmap.mem_keys.mp (h.edge v hv w hedge)) hmem
  · exact absurd hcycle (h.acyclic v hv)
  · exact hn

/-- A node has more than one successor exactly if its `next` set has. -/
lemma one_lt_card_iff (hnode : ordering.nodes.lookup v = some node) :
    1 < node.next.card ↔ ∃ w w', ordering.Edge v w ∧ ordering.Edge v w' ∧ w ≠ w' := by
  rw [Finset.one_lt_card]
  simp only [OrderingGraph.edge_iff hnode]
  constructor
  · rintro ⟨w, hw, w', hw', hne⟩
    exact ⟨w, w', hw, hw', hne⟩
  · rintro ⟨w, w', hw, hw', hne⟩
    exact ⟨w, hw, w', hw', hne⟩

/-! ### What the traversal knows -/

/-- The data at the end of a traversal. -/
structure Surveyed (ordering : OrderingGraph) (s : Traversal) : Prop where
  keyed : Keyed ordering s
  sound : Sound ordering.nodes.keys ordering.Edge ordering.head
  parents : ∀ v w, v ∈ s.parents.setAt w ↔ ordering.Reached v ∧ ordering.Edge v w
  reachable : ∀ v w, w ∈ s.reachable.setAt v ↔ ordering.Reached v ∧ TransGen ordering.Edge v w
  done : s.done < ordering.nodes.keys.card ↔ ∃ n ∈ ordering.nodes, ¬ ordering.Reached n
  level : s.level = .cSo ∧ (∀ v node, ordering.nodes.lookup v = some node →
        ordering.Reached v → node.next.card ≤ 1)
      ∨ s.level = .cCpo ∧ ordering.Branching

/-- The variables between two passes, with their data. -/
structure Underway (ordering : OrderingGraph) (s : Traversal) : Prop where
  keyed : Keyed ordering s
  searching : Searching ordering.nodes.keys ordering.Edge ordering.head s.config
  explored : Explored ordering.Edge ordering.head s.config
  tallied : Tallied ordering s

lemma Underway.init (hhead : ordering.head ∈ ordering.nodes) :
    Underway ordering (Traversal.init ordering) :=
  ⟨.init hhead, Or.inl config_init, config_init ▸ .start _ _, .init⟩

/-- An empty stack leaves nothing that the head leads to unvisited. -/
lemma Underway.surveyed (h : Underway ordering s) (hstack : s.stack = []) :
    Surveyed ordering s := by
  obtain ⟨fs, hframed⟩ :
      ∃ fs, Framed ordering.nodes.keys ordering.Edge ordering.head s.config fs := by
    refine h.searching.resolve_left fun hstart => ?_
    have hcons := (congrArg Config.stack hstart).symm.trans hstack
    cases hcons
  have hhead := hframed.head_visited h.explored hstack
  have hvisited : ∀ v, s.config.color v = .visited ↔ ordering.Reached v :=
    fun v => hframed.visited_iff h.explored hhead
  have hwhite : ∀ v, s.config.color v ≠ .unvisited ↔ ordering.Reached v :=
    fun v => ⟨h.explored.reached v, fun hv => by simp [(hvisited v).mpr hv]⟩
  refine ⟨h.keyed, hframed.sound hhead, fun v w => ?_, fun v w => ?_, ?_, ?_⟩
  · rw [h.tallied.tally.parents, hwhite]
  · rw [h.tallied.tally.reachable, hvisited]
  · rw [h.tallied.tally.done, lt_iff_le_and_ne, and_iff_right (Finset.card_filter_le ..), ne_eq,
      Finset.card_filter_eq_iff]
    simp only [hvisited, Finmap.mem_keys, not_forall, exists_prop]
  · refine h.tallied.level.imp (fun ⟨hlevel, hone⟩ => ⟨hlevel, fun v node hnode hv => ?_⟩)
      fun ⟨hlevel, v, node, hnode, hcard⟩ => ⟨hlevel, v, (one_lt_card_iff hnode).mp hcard⟩
    exact hone v node hnode ((hwhite v).mpr hv)

/-- How a traversal of a graph with the head in it may end. -/
inductive Ended (ordering : OrderingGraph) : TraversalEnd → Prop
  | finished {s : Traversal} (h : Surveyed ordering s) : Ended ordering (.finished s)
  | returned {reachable : PMap (Finset ℤ)}
      (h : ¬ Sound ordering.nodes.keys ordering.Edge ordering.head) :
      Ended ordering (.returned .cInvalid reachable)

lemma Underway.pass (h : Underway ordering s) (orders : EdgeOrders ordering) :
    (∃ s', pass ordering orders s = some (.again s') ∧ Underway ordering s')
      ∨ ∃ e, pass ordering orders s = some (.stop e) ∧ Ended ordering e := by
  by_cases hstuck : Stuck s.config
  · exact Or.inl ⟨s, pass_of_stuck hstuck, h⟩
  · by_cases hstep : ∃ cfg, Step ordering.nodes.keys ordering.Edge orders.push s.config cfg
    · obtain ⟨cfg, hstep⟩ := hstep
      obtain ⟨s', hpass, rfl, hkeyed, htallied⟩ := pass_of_step h.keyed hstep
      exact Or.inl ⟨s', hpass, hkeyed, Or.inr (framed_step orders.push_enum h.searching hstep),
        explored_step h.explored h.searching hstep, htallied h.tallied⟩
    · rw [not_exists] at hstep
      rcases pass_stop h.keyed h.searching hstuck hstep with
        ⟨hstack, hpass⟩ | ⟨⟨v, below, w, hstack, hc, hedge, hbad⟩, reachable, hpass⟩
      · exact Or.inr ⟨_, hpass, .finished (h.surveyed hstack)⟩
      · exact Or.inr ⟨_, hpass,
          .returned (h.explored.not_sound h.searching hstack hc hedge hbad)⟩

/-- **The end of the traversal**: it returns early only on a graph with a
defect, and no assertion or look-up fails. -/
theorem traverse_spec {orders : EdgeOrders ordering} {e : TraversalEnd}
    (hhead : ordering.head ∈ ordering.nodes) (h : traverse ordering orders fuel = some e) :
    Ended ordering e := by
  rw [traverse, if_pos hhead] at h
  refine run_post (Underway ordering) (Ended ordering) (fun s s' hs hpass => ?_)
    (fun s e hs hpass => ?_) (.init hhead) h
  · rcases hs.pass orders with ⟨s'', hagain, hs'⟩ | ⟨e, hstop, -⟩
    · rw [hagain] at hpass
      cases hpass
      exact hs'
    · rw [hstop] at hpass
      cases hpass
  · rcases hs.pass orders with ⟨s', hagain, -⟩ | ⟨e', hstop, he⟩
    · rw [hagain] at hpass
      cases hpass
    · rw [hstop] at hpass
      cases hpass
      exact he

/-! ### The pool transitions -/

lemma demand_eq_ok {β : Type} {o : Option β} {value : β} :
    demand o = .ok value ↔ o = some value := by
  cases o with
  | none => exact ⟨fun h => (nomatch h), fun h => (nomatch h)⟩
  | some value' => exact ⟨fun h => congrArg some (Except.ok.inj h), fun h => by cases h; rfl⟩

lemma validFrom_iff {valid : Bool} (hnode : ordering.nodes.lookup n = some node)
    (h : validFrom ordering node l = .ok valid) :
    valid = true ↔ ∃ p ∈ l, ordering.Transition p n := by
  have htransition : ∀ p, ordering.Transition p n ↔ ∃ parent,
      ordering.nodes.lookup p = some parent
        ∧ applyOpToPool node.op parent.pool = .ok node.pool := by
    intro p
    refine exists_congr fun parent => ⟨?_, fun ⟨hp, happly⟩ => ⟨node, hp, hnode, happly⟩⟩
    rintro ⟨node', hp, hnode', happly⟩
    rw [hnode] at hnode'
    cases hnode'
    exact ⟨hp, happly⟩
  induction l with
  | nil =>
      cases h
      simp
  | cons p l ih =>
      obtain ⟨parent, hparent, h⟩ := bind_eq_ok.mp h
      obtain ⟨pool, hpool, h⟩ := bind_eq_ok.mp h
      rw [demand_eq_ok] at hparent
      have hp : ordering.Transition p n ↔ node.pool = pool := by
        rw [htransition]
        simp [hparent, hpool, eq_comm]
      by_cases heq : node.pool = pool
      · rw [if_pos heq] at h
        cases h
        exact iff_of_true rfl ⟨p, List.mem_cons_self, hp.mpr heq⟩
      · rw [if_neg heq] at h
        rw [List.exists_mem_cons_iff, or_iff_right fun htrans => heq (hp.mp htrans)]
        exact ih h

/-- No assertion fails for parents whose pools have the key of the operation. -/
lemma exists_validFrom (hl : ∀ p ∈ l, ∃ parent,
      ordering.nodes.lookup p = some parent ∧ node.op.key ∈ parent.pool) :
    ∃ valid, validFrom ordering node l = .ok valid := by
  induction l with
  | nil => exact ⟨false, rfl⟩
  | cons p l ih =>
      obtain ⟨parent, hparent, hkey⟩ := hl p List.mem_cons_self
      refine exists_bind_ok (demand_eq_ok.mpr hparent) ?_
      refine exists_bind_ok (applyOpToPool_of_mem hkey) ?_
      split
      · exact ⟨true, rfl⟩
      · exact ih fun q hq => hl q (List.mem_cons_of_mem p hq)

/-- The pool of `n` comes from that of a parent that the traversal has found. -/
def Explained (ordering : OrderingGraph) (s : Traversal) (n : ℤ) : Prop :=
  ∃ p ∈ s.parents.setAt n, ordering.Transition p n

lemma checkTransitions_ok {level : ConvergenceLevel}
    (h : checkTransitions ordering orders s l = .ok level) :
    (level = .cNpo ∧ ∃ n ∈ l, s.parents.setAt n ≠ ∅ ∧ ¬ Explained ordering s n)
      ∨ (level = s.level ∧ ∀ n ∈ l, s.parents.setAt n ≠ ∅ → Explained ordering s n) := by
  induction l with
  | nil =>
      cases h
      exact Or.inr ⟨rfl, fun n hn => absurd hn List.not_mem_nil⟩
  | cons n l ih =>
      obtain ⟨parents, hparents, h⟩ := bind_eq_ok.mp h
      have hset : s.parents.setAt n = parents := by
        rw [PMap.setAt, demand_eq_ok.mp hparents]
        rfl
      have hrest : checkTransitions ordering orders s l = .ok level →
          (s.parents.setAt n ≠ ∅ → Explained ordering s n) →
          (level = .cNpo ∧ ∃ n' ∈ n :: l, s.parents.setAt n' ≠ ∅ ∧ ¬ Explained ordering s n')
            ∨ (level = s.level
              ∧ ∀ n' ∈ n :: l, s.parents.setAt n' ≠ ∅ → Explained ordering s n') := by
        intro h hn
        rcases ih h with ⟨hlevel, n', hn', hbad⟩ | ⟨hlevel, hall⟩
        · exact Or.inl ⟨hlevel, n', List.mem_cons_of_mem n hn', hbad⟩
        · refine Or.inr ⟨hlevel, fun n' hn' => ?_⟩
          rcases List.mem_cons.mp hn' with rfl | hn'
          · exact hn
          · exact hall n' hn'
      by_cases hempty : parents = ∅
      · rw [if_pos hempty] at h
        split at h
        · exact hrest h fun hne => absurd (hset.trans hempty) hne
        · cases h
      · rw [if_neg hempty] at h
        obtain ⟨node, hnode, h⟩ := bind_eq_ok.mp h
        obtain ⟨valid, hvalid, h⟩ := bind_eq_ok.mp h
        have hiff : valid = true ↔ Explained ordering s n := by
          rw [validFrom_iff (demand_eq_ok.mp hnode) hvalid, Explained, hset]
          simp only [(orders.parents_enum n parents).2]
        split at h
        · exact hrest h fun _ => hiff.mp ‹_›
        · cases h
          exact Or.inl ⟨rfl, n, List.mem_cons_self, by rwa [hset], fun hj => ‹¬ _› (hiff.mpr hj)⟩

/-- No assertion of the loop fails, if each pool has the key it needs. -/
lemma exists_checkTransitions (hkeyed : Keyed ordering s) (hkeys : ordering.KeysAlongEdges)
    (hparents : ∀ n, ∀ p ∈ s.parents.setAt n, ordering.Edge p n)
    (hl : ∀ n ∈ l, n ∈ ordering.nodes ∧ (s.parents.setAt n = ∅ → n = ordering.head)) :
    ∃ level, checkTransitions ordering orders s l = .ok level := by
  induction l with
  | nil => exact ⟨s.level, rfl⟩
  | cons n l ih =>
      obtain ⟨hn, hhead⟩ := hl n List.mem_cons_self
      have hrest := ih fun n' hn' => hl n' (List.mem_cons_of_mem n hn')
      obtain ⟨parents, hlookup⟩ := Finmap.mem_iff.mp ((hkeyed.parents n).mpr hn)
      have hset : s.parents.setAt n = parents := by
        rw [PMap.setAt, hlookup]
        rfl
      refine exists_bind_ok (demand_eq_ok.mpr hlookup) ?_
      split
      · rw [if_pos (hhead (hset.trans ‹_›))]
        exact hrest
      · obtain ⟨node, hnode⟩ := Finmap.mem_iff.mp hn
        refine exists_bind_ok (demand_eq_ok.mpr hnode) ?_
        obtain ⟨valid, hvalid⟩ : ∃ valid,
            validFrom ordering node (orders.parents n parents) = .ok valid := by
          refine exists_validFrom fun p hp => ?_
          have hedge := hparents n p (by rwa [hset, ← (orders.parents_enum n parents).2])
          obtain ⟨parent, hparent⟩ := Finmap.mem_iff.mp hedge.mem
          exact ⟨parent, hparent, hkeys p n parent node hparent hnode hedge⟩
        refine exists_bind_ok hvalid ?_
        split
        · exact hrest
        · exact ⟨.cNpo, rfl⟩

/-! ### The classification -/

/-- In a graph without a defect the head has no predecessor. -/
lemma Surveyed.parents_head (h : Surveyed ordering s) : s.parents.setAt ordering.head = ∅ := by
  refine Finset.eq_empty_of_forall_notMem fun p hp => ?_
  obtain ⟨hreach, hedge⟩ := (h.parents p ordering.head).mp hp
  exact h.sound.acyclic p hreach (.head' hedge hreach)

/-- The predecessors of a node, when the head leads to all nodes. -/
lemma Surveyed.mem_parents_iff (h : Surveyed ordering s)
    (hall : ∀ n ∈ ordering.nodes, ordering.Reached n) :
    p ∈ s.parents.setAt n ↔ ordering.Edge p n := by
  rw [h.parents]
  exact ⟨fun hp => hp.2, fun hedge => ⟨hall p hedge.mem, hedge⟩⟩

lemma Surveyed.parents_eq_empty_iff (h : Surveyed ordering s)
    (hall : ∀ n ∈ ordering.nodes, ordering.Reached n) (hn : n ∈ ordering.nodes) :
    s.parents.setAt n = ∅ ↔ n = ordering.head := by
  constructor
  · intro hempty
    rcases reflTransGen_iff_eq_or_transGen.mp (hall n hn) with heq | hreach
    · exact heq
    · obtain ⟨p, -, hedge⟩ := TransGen.tail'_iff.mp hreach
      have hp := (h.mem_parents_iff hall).mpr hedge
      rw [hempty] at hp
      exact absurd hp (Finset.notMem_empty p)
  · rintro rfl
    exact h.parents_head

lemma Surveyed.not_done_lt (h : Surveyed ordering s)
    (hall : ∀ n ∈ ordering.nodes, ordering.Reached n) : ¬ s.done < ordering.nodes.keys.card := by
  rw [h.done]
  rintro ⟨n, hn, hbad⟩
  exact hbad (hall n hn)

lemma Surveyed.explained_iff (h : Surveyed ordering s)
    (hall : ∀ n ∈ ordering.nodes, ordering.Reached n) :
    Explained ordering s n ↔ ∃ p, ordering.Edge p n ∧ ordering.Transition p n := by
  simp only [Explained, h.mem_parents_iff hall]

lemma Surveyed.keys_eq (h : Surveyed ordering s) : s.parents.keys = ordering.nodes.keys := by
  ext n
  rw [Finmap.mem_keys, Finmap.mem_keys]
  exact h.keyed.parents n

/-- What the loop over the nodes finds out. -/
lemma Surveyed.checkTransitions_ok (h : Surveyed ordering s)
    (hall : ∀ n ∈ ordering.nodes, ordering.Reached n) {level : ConvergenceLevel}
    (hcheck : checkTransitions ordering orders s (orders.keys s.parents.keys) = .ok level) :
    (level = .cNpo ∧ ordering.Unexplained) ∨ (level = s.level ∧ ¬ ordering.Unexplained) := by
  have hmem : ∀ n, n ∈ orders.keys s.parents.keys ↔ n ∈ ordering.nodes := by
    intro n
    rw [(orders.keys_enum s.parents.keys).2, h.keys_eq, Finmap.mem_keys]
  rcases Madkv.checkTransitions_ok hcheck with ⟨hlevel, n, hn, hne, hbad⟩ | ⟨hlevel, hgood⟩
  · rw [hmem] at hn
    refine Or.inl ⟨hlevel, n, hn, ?_, fun p hedge htrans => ?_⟩
    · exact fun heq => hne ((h.parents_eq_empty_iff hall hn).mpr heq)
    · exact hbad ((h.explained_iff hall).mpr ⟨p, hedge, htrans⟩)
  · refine Or.inr ⟨hlevel, ?_⟩
    rintro ⟨n, hn, hne, hbad⟩
    have hempty : s.parents.setAt n ≠ ∅ := fun he => hne ((h.parents_eq_empty_iff hall hn).mp he)
    obtain ⟨p, hedge, htrans⟩ := (h.explained_iff hall).mp (hgood n ((hmem n).mpr hn) hempty)
    exact hbad p hedge htrans

lemma Surveyed.exists_checkTransitions (h : Surveyed ordering s) (hkeys : ordering.KeysAlongEdges)
    (hall : ∀ n ∈ ordering.nodes, ordering.Reached n) (orders : SetOrders ordering) :
    ∃ level, checkTransitions ordering orders s (orders.keys s.parents.keys) = .ok level := by
  refine Madkv.exists_checkTransitions h.keyed hkeys (fun n p hp => ?_) fun n hn => ?_
  · exact (h.mem_parents_iff hall).mp hp
  · rw [(orders.keys_enum s.parents.keys).2, h.keys_eq, Finmap.mem_keys] at hn
    exact ⟨hn, (h.parents_eq_empty_iff hall hn).mp⟩

/-- The level after the traversal tells whether the graph branches. -/
lemma Surveyed.level_iff (h : Surveyed ordering s)
    (hall : ∀ n ∈ ordering.nodes, ordering.Reached n) :
    (s.level = .cSo ∧ ¬ ordering.Branching) ∨ (s.level = .cCpo ∧ ordering.Branching) := by
  refine h.level.imp_left fun ⟨hlevel, hone⟩ => ⟨hlevel, ?_⟩
  rintro ⟨v, w, w', hw, hw', hne⟩
  obtain ⟨node, hnode⟩ := Finmap.mem_iff.mp hw.mem
  have hcard := (one_lt_card_iff hnode).mpr ⟨w, w', hw, hw', hne⟩
  exact absurd (hone v node hnode (hall v hw.mem)) (by omega)

/-- A graph without branches whose nodes are all reached is one chain. -/
lemma exists_chain (hsound : Sound ordering.nodes.keys ordering.Edge ordering.head)
    (hhead : ordering.head ∈ ordering.nodes) (hall : ∀ n ∈ ordering.nodes, ordering.Reached n)
    (hone : ¬ ordering.Branching) : ∃ chain, ordering.IsChain chain := by
  obtain ⟨l, hlined⟩ := exists_lined hsound fun u _ w w' hw hw' => by
    by_contra hne
    exact hone ⟨u, w, w', hw, hw', hne⟩
  refine ⟨ordering.head :: l, rfl, hlined.nodup hsound.acyclic, fun n => ?_, hlined⟩
  rw [hlined.mem_iff]
  refine ⟨fun hn => ?_, hall n⟩
  rcases hn.cases_tail with rfl | ⟨v, hv, hedge⟩
  · exact hhead
  · exact Finmap.mem_keys.mp (hsound.edge v hv n hedge)

lemma Surveyed.classified (h : Surveyed ordering s) (hhead : ordering.head ∈ ordering.nodes)
    (hall : ∀ n ∈ ordering.nodes, ordering.Reached n) {level : ConvergenceLevel}
    (hcheck : checkTransitions ordering orders s (orders.keys s.parents.keys) = .ok level) :
    ordering.Classified level s.reachable := by
  have hwell : ¬ ordering.Malformed := by
    rw [malformed_iff_of_sound h.sound]
    rintro ⟨n, hn, hbad⟩
    exact hbad (hall n hn)
  have hreachable : ∀ a ∈ ordering.nodes, ∃ set,
      s.reachable.lookup a = some set ∧ ∀ b, b ∈ set ↔ TransGen ordering.Edge a b := by
    intro a ha
    obtain ⟨set, hset⟩ := Finmap.mem_iff.mp ((h.keyed.reachable a).mpr ha)
    refine ⟨set, hset, fun b => ?_⟩
    have hiff := h.reachable a b
    rwa [PMap.setAt, hset, Option.getD_some, and_iff_right (hall a ha)] at hiff
  have hso : ¬ ordering.Branching → ∃ chain, ordering.IsChain chain :=
    exists_chain h.sound hhead hall
  rcases h.checkTransitions_ok hall hcheck with ⟨rfl, hbad⟩ | ⟨rfl, hgood⟩
  · exact ⟨by simp [hwell], by simp [hbad], by simp, by simp, fun _ => hreachable⟩
  · rcases h.level_iff hall with ⟨hlevel, hone⟩ | ⟨hlevel, hmany⟩
    · exact ⟨by simp [hlevel, hwell], by simp [hlevel, hgood], by simp [hlevel, hone],
        fun _ => hso hone, fun _ => hreachable⟩
    · exact ⟨by simp [hlevel, hwell], by simp [hlevel, hgood], by simp [hlevel, hmany],
        by simp [hlevel], fun _ => hreachable⟩

lemma classified_invalid (h : ordering.Malformed) {reachable : PMap (Finset ℤ)} :
    ordering.Classified .cInvalid reachable :=
  ⟨by simp [h], by simp, by simp, by simp, by simp⟩

/-- The check returns if the traversal ends, with a level that is right. -/
lemma exists_classified (orders : SetOrders ordering) {e : TraversalEnd}
    (hhead : ordering.head ∈ ordering.nodes)
    (hkeys : ordering.KeysAlongEdges)
    (hends : traverse ordering orders.toEdgeOrders fuel = some e) :
    ∃ level reachable, convergenceConformity ordering orders fuel = some (.ok (level, reachable))
      ∧ ordering.Classified level reachable := by
  rw [convergenceConformity, hends]
  cases traverse_spec hhead hends with
  | @returned reachable hbad =>
      exact ⟨_, reachable, rfl, classified_invalid (malformed_of_not_sound hbad)⟩
  | @finished s h =>
      by_cases hall : ∀ n ∈ ordering.nodes, ordering.Reached n
      · obtain ⟨level, hlevel⟩ := h.exists_checkTransitions hkeys hall orders
        refine ⟨level, s.reachable, congrArg some ?_, h.classified hhead hall hlevel⟩
        exact (if_neg (h.not_done_lt hall)).trans (bind_of_eq_ok hlevel rfl)
      · simp only [not_forall, exists_prop] at hall
        refine ⟨.cInvalid, s.reachable, congrArg some ?_,
          classified_invalid ((malformed_iff_of_sound h.sound).mpr hall)⟩
        exact if_pos (h.done.mpr hall)

/-- **The classification is right whenever the traversal ends**, for every graph
whose pools have the keys of its operations and every order of the loops. -/
theorem convergence_classifies (ordering : OrderingGraph) (orders : SetOrders ordering)
    (hhead : ordering.head ∈ ordering.nodes) (hkeys : ordering.KeysPresent) (fuel : ℕ)
    (e : TraversalEnd) (hends : traverse ordering orders.toEdgeOrders fuel = some e) :
    ∃ level reachable, convergenceConformity ordering orders fuel = some (.ok (level, reachable))
      ∧ ordering.Classified level reachable :=
  exists_classified orders hhead hkeys.alongEdges hends

theorem writeRead_classified :
    ∃ level reachable, convergenceConformity (writeRead 7) (.increasing _) 5
        = some (.ok (level, reachable))
      ∧ (writeRead 7).Classified level reachable := by
  obtain ⟨e, hends⟩ := Option.isSome_iff_exists.mp
    (show (traverse (writeRead 7) (SetOrders.increasing _).toEdgeOrders 5).isSome by decide)
  exact convergence_classifies (writeRead 7) (.increasing _) (by decide)
    (writeRead_keysPresent 7) 5 e hends

/-- **A total order is an execution**: on a graph with the level C_SO the nodes
are one chain, and each operation leads from the pool of the node before it. -/
theorem so_transitions (ordering : OrderingGraph) (orders : SetOrders ordering) (fuel : ℕ)
    (reachable : PMap (Finset ℤ))
    (h : convergenceConformity ordering orders fuel = some (.ok (.cSo, reachable))) :
    ∃ chain, ordering.IsChain chain ∧ List.IsChain ordering.Transition chain := by
  obtain ⟨e, hends, h⟩ := Option.map_eq_some_iff.mp h
  have hhead : ordering.head ∈ ordering.nodes := by
    by_contra hmem
    rw [traverse, if_neg hmem] at hends
    cases hends
    cases h
  cases traverse_spec hhead hends with
  | returned => cases h
  | @finished s hs =>
      by_cases hdone : s.done < ordering.nodes.keys.card
      · rw [afterTraversal, if_pos hdone] at h
        cases h
      · have hall : ∀ n ∈ ordering.nodes, ordering.Reached n := by
          rw [hs.done] at hdone
          simpa using hdone
        rw [afterTraversal, if_neg hdone] at h
        obtain ⟨level, hcheck, h⟩ := bind_eq_ok.mp h
        cases h
        obtain ⟨chain, hchain⟩ := (hs.classified hhead hall hcheck).so rfl
        obtain ⟨-, hgood⟩ := (hs.checkTransitions_ok hall hcheck).resolve_left (by simp)
        refine ⟨chain, hchain, ?_⟩
        obtain ⟨hfirst, hnodup, hmem, hlined⟩ := hchain
        obtain ⟨l, rfl⟩ := List.head?_eq_some_iff.mp hfirst
        refine hlined.isChain hs.sound.acyclic fun n hn => ?_
        by_contra hnone
        refine hgood ⟨n, (hmem n).mp (List.mem_cons_of_mem _ hn), ?_, fun p hedge htrans => ?_⟩
        · rintro rfl
          exact (List.nodup_cons.mp hnodup).1 hn
        · exact hnone ⟨p, (hmem p).mpr hedge.mem, hedge, htrans⟩

/-- The level does not depend on what a read says to have returned. -/
theorem not_forall_so_answers :
    ¬ ∀ (ordering : OrderingGraph) (orders : SetOrders ordering) (fuel : ℕ)
      (reachable : PMap (Finset ℤ)),
      convergenceConformity ordering orders fuel = some (.ok (.cSo, reachable)) →
      ∀ p n parent node, ordering.nodes.lookup p = some parent →
        ordering.nodes.lookup n = some node → ordering.Edge p n → node.op.typ ≠ .opWrite →
        parent.pool.lookup node.op.key = some node.op.ret := by
  intro hall
  obtain ⟨reachable, hreachable⟩ := exists_reachable_of_level
    (show (convergenceConformity (writeRead 9) (.increasing _) 5).map
      (fun r => r.toOption.map Prod.fst) = some (some .cSo) by decide)
  have hret := hall (writeRead 9) (.increasing _) 5 reachable hreachable 0 1 (writeNode 0 {1})
    (readNode 9) rfl rfl ⟨writeNode 0 {1}, rfl, by decide⟩ (by decide)
  -- the pool held 7
  exact absurd hret (by decide)

theorem so_transitions_writeRead :
    ∃ chain, (writeRead 7).IsChain chain ∧ List.IsChain (writeRead 7).Transition chain := by
  obtain ⟨reachable, hreachable⟩ := exists_reachable_of_level
    (show (convergenceConformity (writeRead 7) (.increasing _) 5).map
      (fun r => r.toOption.map Prod.fst) = some (some .cSo) by decide)
  exact so_transitions (writeRead 7) (.increasing _) 5 reachable hreachable

end Graphs

end Madkv
