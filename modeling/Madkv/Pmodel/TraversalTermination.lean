import Mathlib.Data.Finset.Sort
import Madkv.Library.Shortcuts
import Madkv.Pmodel.Traversal

/-!
When the traversal of the ordering graph comes to an end.

* `exists_end`: on a graph without a shortcut it ends, since each pass leaves
  fewer visits to be made.
* `exists_hang`: with a shortcut it does not, for some order of the out-going
  edges.
* `traversal_ends_iff`: both together.
* `exists_traversal_hangs`: the smallest graph with a shortcut, three nodes with
  the edges `0 → 1`, `1 → 2` and `0 → 2`.
-/

namespace Madkv

open Loop DepthFirst Relation

section Ends

variable {ordering : OrderingGraph}

/-- The variables between two passes. -/
structure Between (ordering : OrderingGraph) (s : Traversal) : Prop where
  keyed : Keyed ordering s
  searching : Searching ordering.nodes.keys ordering.Edge ordering.head s.config

lemma Between.init (hhead : ordering.head ∈ ordering.nodes) :
    Between ordering (Traversal.init ordering) :=
  ⟨.init hhead, Or.inl config_init⟩

/-- What a pass does to the variables that are not stuck. -/
lemma Between.pass {s : Traversal} (h : Between ordering s) (orders : EdgeOrders ordering)
    (hstuck : ¬ Stuck s.config) :
    (∃ e, pass ordering orders s = some (.stop e) ∧ True)
      ∨ ∃ s', pass ordering orders s = some (.again s') ∧ Between ordering s'
        ∧ pendingVisits ordering.nodes.keys s'.config.color
          < pendingVisits ordering.nodes.keys s.config.color := by
  by_cases hstep : ∃ cfg, Step ordering.nodes.keys ordering.Edge orders.push s.config cfg
  · obtain ⟨cfg, hstep⟩ := hstep
    obtain ⟨s', hpass, rfl, hkeyed, -⟩ := pass_of_step h.keyed hstep
    have hframed := framed_step orders.push_enum h.searching hstep
    exact Or.inr ⟨s', hpass, ⟨hkeyed, Or.inr hframed⟩, pendingVisits_lt hstep⟩
  · rw [not_exists] at hstep
    rcases pass_stop h.keyed h.searching hstuck hstep with ⟨-, hpass⟩ | ⟨-, reachable, hpass⟩
    · exact Or.inl ⟨.finished s, hpass, trivial⟩
    · exact Or.inl ⟨.returned .cInvalid reachable, hpass, trivial⟩

/-- **Without a shortcut the traversal ends**: the node on top of the stack is
never visited, so that each pass enters or leaves a node. -/
theorem exists_end (hshortcut : ¬ HasShortcut ordering.nodes.keys ordering.Edge ordering.head)
    (orders : EdgeOrders ordering) : ∃ fuel e, traverse ordering orders fuel = some e := by
  by_cases hhead : ordering.head ∈ ordering.nodes
  · obtain ⟨e, hrun, -⟩ := exists_run_of_measure (Between ordering) (fun _ => True)
      (fun s => pendingVisits ordering.nodes.keys s.config.color)
      (fun s h => h.pass orders fun hstuck => hshortcut (h.searching.hasShortcut hstuck))
      (Between.init hhead) (Nat.lt_succ_self _)
    exact ⟨_, e, (if_pos hhead).trans hrun⟩
  · exact ⟨0, .failed, if_neg hhead⟩

end Ends

section Hangs

variable {ordering : OrderingGraph}

/-- The out-going edges in increasing order. -/
def OrderingGraph.sortedEdges (ordering : OrderingGraph) (v : ℤ) : List ℤ :=
  match ordering.nodes.lookup v with
  | some node => node.next.sort (· ≤ ·)
  | none => []

lemma OrderingGraph.sortedEdges_enum : Enumerates ordering.Edge ordering.sortedEdges := by
  intro v
  rw [sortedEdges]
  cases hnode : ordering.nodes.lookup v with
  | none =>
      refine ⟨List.nodup_nil, fun w => iff_of_false List.not_mem_nil ?_⟩
      rintro ⟨node, hnode', -⟩
      rw [hnode] at hnode'
      cases hnode'
  | some node =>
      refine ⟨Finset.sort_nodup .., fun w => ?_⟩
      rw [Finset.mem_sort, edge_iff hnode]

/-- The orders of the loops that put the successors on the stack as `push` says. -/
def EdgeOrders.ofPush (push : ℤ → List ℤ) (henum : Enumerates ordering.Edge push) :
    EdgeOrders ordering where
  opening v := (push v).reverse
  closing v := (push v).reverse
  opening_enum v := ⟨List.nodup_reverse.mpr (henum v).1, fun w =>
    List.mem_reverse.trans ((henum v).2 w)⟩
  closing_enum v := ⟨List.nodup_reverse.mpr (henum v).1, fun w =>
    List.mem_reverse.trans ((henum v).2 w)⟩

lemma EdgeOrders.push_ofPush {push : ℤ → List ℤ} {henum : Enumerates ordering.Edge push} :
    (EdgeOrders.ofPush push henum).push = push := by
  funext v
  exact List.reverse_reverse (push v)

/-- A traversal on its way to a visited node on top of the stack does not end. -/
lemma run_eq_none_of_stuck {orders : EdgeOrders ordering} {s : Traversal} {cfg : Config ℤ}
    (h : Keyed ordering s)
    (hsteps : ReflTransGen (Step ordering.nodes.keys ordering.Edge orders.push) s.config cfg)
    (hstuck : Stuck cfg) (fuel : ℕ) : run (pass ordering orders) fuel s = none := by
  refine run_eq_none (fun s => Keyed ordering s ∧
    ReflTransGen (Step ordering.nodes.keys ordering.Edge orders.push) s.config cfg)
    (fun s hs => Or.inr ?_) ⟨h, hsteps⟩ fuel
  obtain ⟨hkeyed, hsteps⟩ := hs
  rcases hsteps.cases_head with rfl | ⟨cfg', hstep, hrest⟩
  · exact ⟨s, pass_of_stuck hstuck, hkeyed, .refl⟩
  · obtain ⟨s', hpass, rfl, hkeyed', -⟩ := pass_of_step hkeyed hstep
    exact ⟨s', hpass, hkeyed', hrest⟩

/-- **With a shortcut the traversal does not end** for some order of the edges. -/
theorem exists_hang (hshortcut : HasShortcut ordering.nodes.keys ordering.Edge ordering.head) :
    ∃ orders : EdgeOrders ordering, ∀ fuel, traverse ordering orders fuel = none := by
  obtain ⟨w, hedge⟩ := hshortcut.exists_edge
  have hhead : ordering.head ∈ ordering.nodes := hedge.mem
  obtain ⟨push, henum, cfg, hsteps, hstuck⟩ :=
    exists_stuck (Finmap.mem_keys.mpr hhead) ordering.sortedEdges_enum hshortcut
  refine ⟨.ofPush push henum, fun fuel => (if_pos hhead).trans ?_⟩
  refine run_eq_none_of_stuck (.init hhead) ?_ hstuck fuel
  rwa [EdgeOrders.push_ofPush, config_init]

end Hangs

/-- **The traversal ends for every order of the edges exactly on the graphs
without a shortcut.** -/
theorem traversal_ends_iff (ordering : OrderingGraph) :
    (∀ orders : EdgeOrders ordering, ∃ fuel e, traverse ordering orders fuel = some e)
      ↔ ¬ HasShortcut ordering.nodes.keys ordering.Edge ordering.head := by
  constructor
  · intro hends hshortcut
    obtain ⟨orders, hhang⟩ := exists_hang hshortcut
    obtain ⟨fuel, e, he⟩ := hends orders
    rw [hhang fuel] at he
    cases he
  · exact exists_end

/-! ### A graph with a shortcut -/

/-- A node of the example, a write of the value that the pool holds. -/
def writeNode (nId : ℤ) (next : Finset ℤ) : OrderingNode where
  nId := nId
  cId := 0
  op := ⟨.opWrite, 0, 7, 0⟩
  tsReq := 2 * nId + 1
  tsResp := 2 * nId + 2
  pool := Finmap.singleton 0 7
  next := next

/-- The edges `0 → 1`, `1 → 2` and `0 → 2`. -/
def shortcutGraph : OrderingGraph where
  nodes := [⟨0, writeNode 0 {2, 1}⟩, ⟨1, writeNode 1 {2}⟩, ⟨2, writeNode 2 ∅⟩].toFinmap
  head := 0

/-- The loop over the edges of the head comes to `2` before `1`. -/
def shortcutEdges (v : ℤ) : List ℤ := if v = 0 then [2, 1] else if v = 1 then [2] else []

lemma shortcutEdges_enum : Enumerates shortcutGraph.Edge shortcutEdges := by
  have h0 : shortcutGraph.nodes.lookup 0 = some (writeNode 0 {2, 1}) := rfl
  have h1 : shortcutGraph.nodes.lookup 1 = some (writeNode 1 {2}) := rfl
  have h2 : shortcutGraph.nodes.lookup 2 = some (writeNode 2 ∅) := rfl
  intro v
  by_cases hv : v = 0 ∨ v = 1 ∨ v = 2
  · rcases hv with rfl | rfl | rfl
    · exact ⟨by decide, fun w => by rw [OrderingGraph.edge_iff h0]; simp [shortcutEdges, writeNode]⟩
    · exact ⟨by decide, fun w => by rw [OrderingGraph.edge_iff h1]; simp [shortcutEdges, writeNode]⟩
    · exact ⟨by decide, fun w => by rw [OrderingGraph.edge_iff h2]; simp [shortcutEdges, writeNode]⟩
  · rw [not_or, not_or] at hv
    obtain ⟨hv0, hv1, hv2⟩ := hv
    have hmem : v ∉ shortcutGraph.nodes := by
      simp [shortcutGraph, Finmap.mem_list_toFinmap, hv0, hv1, hv2]
    have hedges : shortcutEdges v = [] := by simp [shortcutEdges, hv0, hv1]
    rw [hedges]
    exact ⟨List.nodup_nil, fun w => iff_of_false List.not_mem_nil fun h => hmem h.mem⟩

def shortcutOrders : EdgeOrders shortcutGraph :=
  ⟨shortcutEdges, shortcutEdges, shortcutEdges_enum, shortcutEdges_enum⟩

/-- The node `2` is visited below `1`, and then it is on top of the stack again. -/
theorem exists_traversal_hangs :
    ∃ ordering : OrderingGraph, ordering.head ∈ ordering.nodes
      ∧ ∃ orders : EdgeOrders ordering, ∀ fuel, traverse ordering orders fuel = none := by
  refine ⟨shortcutGraph, by decide, shortcutOrders, fun fuel => (if_pos (by decide)).trans ?_⟩
  have hafter : (after (pass shortcutGraph shortcutOrders) 5 (.init shortcutGraph)).map
      (fun s => (s.stack, s.color.lookup 2)) = some ([2, 0], some .visited) := by decide
  obtain ⟨s, hs, hstate⟩ := Option.map_eq_some_iff.mp hafter
  obtain ⟨hstack, hcolor⟩ := Prod.mk.inj hstate
  have hstuck : Stuck s.config := ⟨2, [0], hstack, by simp [Traversal.config, hcolor]⟩
  refine run_eq_none_of_after hs (fun fuel => ?_) fuel
  exact run_eq_none (· = s) (by rintro s rfl; exact Or.inr ⟨s, pass_of_stuck hstuck, rfl⟩) rfl fuel

end Madkv
