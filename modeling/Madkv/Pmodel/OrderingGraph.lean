import Mathlib.Data.Finmap
import Mathlib.Tactic.Lemma

/-!
The ordering graph that the consistency specifications of the object pool work
on.

* `PMap`: the maps with integer keys. `PMap.const`: the map that the first loop
  over the keys of another map builds.
* `OrderingNode`, `OrderingGraph`: operations with their client, their time span
  and the pool after them, and which of them comes next.
* `OrderingGraph.Edge`: the out-going edges of the nodes.
-/

namespace Madkv

/-- A map with integer keys. -/
abbrev PMap (β : Type) := Finmap fun _ : ℤ => β

/-- The map that holds the same value at each of the keys. -/
def PMap.const {β : Type} (keys : Finset ℤ) (b : β) : PMap β where
  entries := keys.val.map fun k => ⟨k, b⟩
  nodupKeys := by
    rw [← Multiset.nodup_keys, Multiset.keys, Multiset.map_map]
    simpa using keys.nodup

lemma PMap.lookup_const {β : Type} {keys : Finset ℤ} {b : β} {k : ℤ} :
    Finmap.lookup k (PMap.const keys b) = if k ∈ keys then some b else none := by
  refine Option.ext fun b' => ?_
  rw [Finmap.lookup_eq_some_iff, const, Multiset.mem_map]
  by_cases hk : k ∈ keys
  · simp [hk]
  · simp [hk]

/-- The operations of clients on the object pool. -/
inductive OpType where
  | opRead
  | opWrite
  | opRaddw
deriving DecidableEq

structure Operation where
  typ : OpType
  key : ℤ
  /-- used only for writes and read-add-writes -/
  val : ℤ
  /-- used only for reads and read-add-writes -/
  ret : ℤ
deriving DecidableEq

/-- A client response, the pool after its operation, and the nodes that follow. -/
structure OrderingNode where
  nId : ℤ
  cId : ℤ
  op : Operation
  tsReq : ℤ
  tsResp : ℤ
  pool : PMap ℤ
  next : Finset ℤ

structure OrderingGraph where
  nodes : PMap OrderingNode
  head : ℤ

/-- The node `v` has an out-going edge to `w`, which may be missing. -/
def OrderingGraph.Edge (ordering : OrderingGraph) (v w : ℤ) : Prop :=
  ∃ node, ordering.nodes.lookup v = some node ∧ w ∈ node.next

lemma OrderingGraph.Edge.mem {ordering : OrderingGraph} {v w : ℤ} (h : ordering.Edge v w) :
    v ∈ ordering.nodes := by
  obtain ⟨node, hnode, -⟩ := h
  exact Finmap.mem_of_lookup_eq_some hnode

lemma OrderingGraph.edge_iff {ordering : OrderingGraph} {v w : ℤ} {node : OrderingNode}
    (hnode : ordering.nodes.lookup v = some node) : ordering.Edge v w ↔ w ∈ node.next := by
  constructor
  · rintro ⟨node', hnode', hw⟩
    rw [hnode] at hnode'
    cases hnode'
    exact hw
  · exact fun hw => ⟨node, hnode, hw⟩

/-- The strongest convergence constraint that a graph meets. -/
inductive ConvergenceLevel where
  | cSo
  | cCpo
  | cNpo
  | cInvalid
deriving DecidableEq

/-- The strongest relationship constraint that a graph meets. -/
inductive RelationshipLevel where
  | rRt
  | rCasl
  | rFifo
  | rNone
deriving DecidableEq

end Madkv
