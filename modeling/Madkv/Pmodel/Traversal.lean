import Madkv.Library.Exploration
import Madkv.Library.Loop
import Madkv.Pmodel.OrderingGraph

/-!
The traversal of the ordering graph: the while loop of `ConvergenceConformity`.

* `EdgeOrders`: the orders in which the two loops over the `next` set of a node
  go through it.
* `Traversal`: the variables of the loop. `pass`: its body; `traverse`: the
  whole loop from the head node, with a bound on the passes.
* `Keyed`: every map has the keys of the graph, so that no look-up fails.
* `Opened`, `Gathered`: what the loops over the edges of a node change.
  `Tallied`: the data account for the nodes that the traversal has come to.
* `pass_of_step`: a pass takes the steps of a coloured depth-first search with
  duplicates; `pass_of_stuck`: it does nothing when the node on top is visited.
* `pass_stop`: in all other cases it ends the loop, with an empty stack or at a
  `Blocked` edge.
-/

namespace Madkv

open Loop DepthFirst

/-- The orders of the loops over the out-going edges of the nodes. -/
structure EdgeOrders (ordering : OrderingGraph) where
  /-- when a node is visited first -/
  opening : ℤ → List ℤ
  /-- when its subtree is fully visited -/
  closing : ℤ → List ℤ
  opening_enum : Enumerates ordering.Edge opening
  closing_enum : Enumerates ordering.Edge closing

/-- The variables of the traversal. The end of the source's stack comes first. -/
structure Traversal where
  level : ConvergenceLevel
  stack : List ℤ
  color : PMap Color
  done : ℕ
  reachable : PMap (Finset ℤ)
  parents : PMap (Finset ℤ)

/-- How the traversal ends: `ConvergenceConformity` returns, its loop does, or
an assertion or a look-up in a map fails. -/
inductive TraversalEnd where
  | returned (level : ConvergenceLevel) (reachable : PMap (Finset ℤ))
  | finished (s : Traversal)
  | failed

def Traversal.init (ordering : OrderingGraph) : Traversal where
  level := .cSo
  stack := [ordering.head]
  color := .const ordering.nodes.keys .unvisited
  done := 0
  reachable := .const ordering.nodes.keys ∅
  parents := .const ordering.nodes.keys ∅

/-- Look up a key that must be there. -/
def fetch {β : Type} (map : PMap β) (key : ℤ) : Except TraversalEnd β :=
  match map.lookup key with
  | some value => .ok value
  | none => .error .failed

/-- The edge `curr → next`, at the first visit of `curr`. -/
def openEdge (ordering : OrderingGraph) (curr : ℤ) (s : Traversal) (next : ℤ) :
    Except TraversalEnd Traversal :=
  if next ∈ ordering.nodes then do
    let known ← fetch s.parents next
    let s := { s with parents := s.parents.insert next (insert curr known) }
    match ← fetch s.color next with
    | .unvisited => .ok { s with stack := next :: s.stack }
    | .inProgress => .error (.returned .cInvalid s.reachable)
    | .visited => .ok s
  else .error (.returned .cInvalid s.reachable)

/-- The edge `curr → next`, when the subtree of `curr` is fully visited. -/
def closeEdge (curr : ℤ) (s : Traversal) (next : ℤ) : Except TraversalEnd Traversal := do
  match ← fetch s.color next with
  | .visited =>
      let known ← fetch s.reachable curr
      let s := { s with reachable := s.reachable.insert curr (insert next known) }
      let beyond ← fetch s.reachable next
      let known ← fetch s.reachable curr
      .ok { s with reachable := s.reachable.insert curr (known ∪ beyond) }
  | _ => .error .failed

/-- The body of the loop, for the node `curr` on top of the stack. -/
def visit (ordering : OrderingGraph) (orders : EdgeOrders ordering) (s : Traversal) (curr : ℤ) :
    Except TraversalEnd Traversal := do
  match ← fetch s.color curr with
  | .unvisited =>
      let s := { s with color := s.color.insert curr .inProgress }
      let node ← fetch ordering.nodes curr
      let level := if s.level = .cSo ∧ 1 < node.next.card then .cCpo else s.level
      (orders.opening curr).foldlM (openEdge ordering curr) { s with level := level }
  | .inProgress =>
      let _ ← fetch ordering.nodes curr
      let s ← (orders.closing curr).foldlM (closeEdge curr) s
      .ok { s with color := s.color.insert curr .visited, done := s.done + 1,
                   stack := s.stack.tail }
  -- a fully visited node stays on the stack
  | .visited => .ok s

/-- One pass of the loop. -/
def pass (ordering : OrderingGraph) (orders : EdgeOrders ordering) (s : Traversal) :
    Option (Pass Traversal TraversalEnd) :=
  match s.stack with
  | [] => some (.stop (.finished s))
  | curr :: _ =>
      match visit ordering orders s curr with
      | .ok s' => some (.again s')
      | .error e => some (.stop e)

/-- The traversal, with a bound on the passes of its loop. -/
def traverse (ordering : OrderingGraph) (orders : EdgeOrders ordering) (fuel : ℕ) :
    Option TraversalEnd :=
  if ordering.head ∈ ordering.nodes then
    run (pass ordering orders) fuel (Traversal.init ordering)
  else some .failed

/-! ### The keys of the maps -/

/-- The maps have the keys of the graph, and the stack holds nodes of it. -/
structure Keyed (ordering : OrderingGraph) (s : Traversal) : Prop where
  stack : ∀ n ∈ s.stack, n ∈ ordering.nodes
  color : ∀ n, n ∈ s.color ↔ n ∈ ordering.nodes
  reachable : ∀ n, n ∈ s.reachable ↔ n ∈ ordering.nodes
  parents : ∀ n, n ∈ s.parents ↔ n ∈ ordering.nodes

/-- The set at a key, empty where the map has none. -/
def PMap.setAt (map : PMap (Finset ℤ)) (key : ℤ) : Finset ℤ := (map.lookup key).getD ∅

/-- The stack and the colours as a search sees them. -/
def Traversal.config (s : Traversal) : Config ℤ :=
  ⟨s.stack, fun n => (s.color.lookup n).getD .unvisited⟩

section Keys

variable {ordering : OrderingGraph} {orders : EdgeOrders ordering} {s s' : Traversal}
  {curr next n : ℤ} {l : List ℤ}

lemma mem_const {β : Type} {keys : Finset ℤ} {b : β} {k : ℤ} :
    k ∈ PMap.const keys b ↔ k ∈ keys := by
  rw [Finmap.mem_iff]
  simp [PMap.lookup_const]

lemma Keyed.init (hhead : ordering.head ∈ ordering.nodes) :
    Keyed ordering (Traversal.init ordering) where
  stack n hn := by rwa [List.mem_singleton.mp hn]
  color n := mem_const.trans Finmap.mem_keys
  reachable n := mem_const.trans Finmap.mem_keys
  parents n := mem_const.trans Finmap.mem_keys

lemma config_init : (Traversal.init ordering).config = start ordering.head := by
  have hcolor : ∀ n, ((Traversal.init ordering).color.lookup n).getD .unvisited = .unvisited := by
    intro n
    rw [Traversal.init, PMap.lookup_const]
    split <;> rfl
  exact congrArg (Config.mk _) (funext hcolor)

lemma exists_fetch {β : Type} {map : PMap β} (h : n ∈ map) : ∃ value, fetch map n = .ok value := by
  obtain ⟨value, hvalue⟩ := Finmap.mem_iff.mp h
  exact ⟨value, by rw [fetch, hvalue]⟩

lemma fetch_setAt {map : PMap (Finset ℤ)} (h : n ∈ map) : fetch map n = .ok (map.setAt n) := by
  obtain ⟨value, hvalue⟩ := Finmap.mem_iff.mp h
  simp [fetch, PMap.setAt, hvalue]

lemma setAt_const {keys : Finset ℤ} : (PMap.const keys (∅ : Finset ℤ)).setAt n = ∅ := by
  rw [PMap.setAt, PMap.lookup_const]
  split <;> rfl

lemma setAt_insert {map : PMap (Finset ℤ)} {key : ℤ} {set : Finset ℤ} :
    PMap.setAt (map.insert key set) n = if n = key then set else map.setAt n := by
  by_cases hn : n = key
  · subst hn
    simp [PMap.setAt]
  · simp [hn, PMap.setAt, Finmap.lookup_insert_of_ne]

lemma Keyed.fetch_color (h : Keyed ordering s) (hn : n ∈ ordering.nodes) :
    fetch s.color n = .ok (s.config.color n) := by
  obtain ⟨color, hcolor⟩ := Finmap.mem_iff.mp ((h.color n).mpr hn)
  simp [fetch, Traversal.config, hcolor]

lemma Keyed.mem_of_visited (h : Keyed ordering s) (hn : s.config.color n = .visited) :
    n ∈ ordering.nodes := by
  rw [← h.color n]
  by_contra hmem
  have hcolor : s.config.color n = .unvisited := by
    simp [Traversal.config, Finmap.lookup_eq_none.mpr hmem]
  exact absurd (hcolor.symm.trans hn) (by simp)

lemma config_congr (hcolor : s'.color = s.color) : s'.config.color = s.config.color := by
  rw [Traversal.config, hcolor]
  rfl

lemma config_eq {stack : List ℤ} {c : ℤ → Color} (hstack : s.stack = stack)
    (hcolor : s.config.color = c) : s.config = ⟨stack, c⟩ :=
  congrArg₂ Config.mk hstack hcolor

lemma config_paint {color : Color} (hcolor : s'.color = s.color.insert n color) :
    s'.config.color = paint s.config.color n color := by
  funext w
  by_cases hw : w = n
  · simp [hw, hcolor, Traversal.config]
  · simp [hw, hcolor, Traversal.config, Finmap.lookup_insert_of_ne]

/-- A new value at a key that the map has. -/
lemma mem_insert_iff {β : Type} {map : PMap β} {value : β} (h : ∀ n, n ∈ map ↔ n ∈ ordering.nodes)
    (hcurr : curr ∈ ordering.nodes) : n ∈ map.insert curr value ↔ n ∈ ordering.nodes := by
  rw [Finmap.mem_insert, h]
  exact or_iff_right_of_imp fun hn => hn ▸ hcurr

end Keys

/-! ### The passes as steps of a search -/

section Passes

variable {ordering : OrderingGraph} {orders : EdgeOrders ordering} {s s' : Traversal}
  {cfg : Config ℤ} {curr next n : ℤ} {l : List ℤ}

/-- The edge leads to a node of the graph that is not in progress. -/
def Forward (ordering : OrderingGraph) (s : Traversal) (next : ℤ) : Prop :=
  next ∈ ordering.nodes ∧ s.config.color next ≠ .inProgress

/-- What the edges out of `curr` do at its first visit. -/
structure Opened (curr : ℤ) (l : List ℤ) (s s' : Traversal) : Prop where
  level : s'.level = s.level
  stack : s'.stack = l.reverse.filter (fun w => s.config.color w = .unvisited) ++ s.stack
  color : s'.color = s.color
  done : s'.done = s.done
  reachable : s'.reachable = s.reachable
  parents : ∀ u w, u ∈ s'.parents.setAt w ↔ u ∈ s.parents.setAt w ∨ u = curr ∧ w ∈ l

/-- What the edges out of `curr` do when its subtree is done. -/
structure Gathered (curr : ℤ) (l : List ℤ) (s s' : Traversal) : Prop where
  level : s'.level = s.level
  stack : s'.stack = s.stack
  color : s'.color = s.color
  done : s'.done = s.done
  parents : s'.parents = s.parents
  reachable : ∀ u w, w ∈ s'.reachable.setAt u ↔ w ∈ s.reachable.setAt u
    ∨ u = curr ∧ ∃ next ∈ l, w = next ∨ w ∈ s.reachable.setAt next

lemma Opened.trans {l' : List ℤ} {s'' : Traversal} (h : Opened curr l s s')
    (h' : Opened curr l' s' s'') : Opened curr (l ++ l') s s'' where
  level := h'.level.trans h.level
  stack := by
    rw [h'.stack, h.stack, config_congr h.color, List.reverse_append, List.filter_append,
      List.append_assoc]
  color := h'.color.trans h.color
  done := h'.done.trans h.done
  reachable := h'.reachable.trans h.reachable
  parents u w := by
    rw [h'.parents, h.parents, List.mem_append, or_assoc, ← and_or_left]

lemma Gathered.trans {l' : List ℤ} {s'' : Traversal} (h : Gathered curr l s s')
    (h' : Gathered curr l' s' s'') (hcurr : curr ∉ l') : Gathered curr (l ++ l') s s'' where
  level := h'.level.trans h.level
  stack := h'.stack.trans h.stack
  color := h'.color.trans h.color
  done := h'.done.trans h.done
  parents := h'.parents.trans h.parents
  reachable u w := by
    -- the sets of the nodes other than `curr` are still what they were
    have hrest : (∃ next ∈ l', w = next ∨ w ∈ s'.reachable.setAt next)
        ↔ ∃ next ∈ l', w = next ∨ w ∈ s.reachable.setAt next := by
      refine exists_congr fun next => and_congr_right fun hnext => or_congr_right ?_
      rw [h.reachable, or_iff_left]
      rintro ⟨rfl, -⟩
      exact hcurr hnext
    rw [h'.reachable, h.reachable, hrest, or_assoc, ← and_or_left]
    simp only [List.mem_append, or_and_right, exists_or]

lemma openEdge_ok (curr : ℤ) (h : Keyed ordering s) (hnext : Forward ordering s next) :
    ∃ s', openEdge ordering curr s next = .ok s' ∧ Opened curr [next] s s' ∧ Keyed ordering s' := by
  obtain ⟨hmem, hcolor⟩ := hnext
  have hparents : ∀ n, n ∈ s.parents.insert next (insert curr (s.parents.setAt next))
      ↔ n ∈ ordering.nodes := fun n => mem_insert_iff h.parents hmem
  have hsets : ∀ u w, u ∈ PMap.setAt (s.parents.insert next (insert curr (s.parents.setAt next))) w
      ↔ u ∈ s.parents.setAt w ∨ u = curr ∧ w ∈ [next] := by
    intro u w
    rw [setAt_insert, List.mem_singleton]
    by_cases hw : w = next
    · simp [hw, or_comm]
    · simp [hw]
  have hopen : openEdge ordering curr s next = (fetch s.color next).bind fun color =>
      match color with
      | .unvisited => .ok { s with
          parents := s.parents.insert next (insert curr (s.parents.setAt next)),
          stack := next :: s.stack }
      | .inProgress => .error (.returned .cInvalid s.reachable)
      | .visited => .ok { s with
          parents := s.parents.insert next (insert curr (s.parents.setAt next)) } := by
    rw [openEdge, if_pos hmem, fetch_setAt ((h.parents next).mpr hmem)]
    rfl
  rw [hopen, h.fetch_color hmem]
  cases hc : s.config.color next with
  | unvisited =>
      refine ⟨_, rfl, ⟨rfl, by simp [hc], rfl, rfl, rfl, hsets⟩,
        ⟨fun n hn => ?_, h.color, h.reachable, hparents⟩⟩
      rcases List.mem_cons.mp hn with rfl | hn
      · exact hmem
      · exact h.stack n hn
  | inProgress => exact absurd hc hcolor
  | visited =>
      exact ⟨_, rfl, ⟨rfl, by simp [hc], rfl, rfl, rfl, hsets⟩,
        ⟨h.stack, h.color, h.reachable, hparents⟩⟩

lemma openEdge_error (h : Keyed ordering s) (hnext : ¬ Forward ordering s next) :
    ∃ reachable, openEdge ordering curr s next = .error (.returned .cInvalid reachable) := by
  by_cases hmem : next ∈ ordering.nodes
  · have hcolor : s.config.color next = .inProgress := by
      by_contra hcolor
      exact hnext ⟨hmem, hcolor⟩
    obtain ⟨known, hknown⟩ := exists_fetch ((h.parents next).mpr hmem)
    refine ⟨s.reachable, ?_⟩
    rw [openEdge, if_pos hmem, hknown]
    show (fetch s.color next).bind _ = _
    rw [h.fetch_color hmem, hcolor]
    rfl
  · exact ⟨s.reachable, by rw [openEdge, if_neg hmem]⟩

/-- The edges of a node at its first visit. -/
lemma openEdges_ok (curr : ℤ) (l : List ℤ) (h : Keyed ordering s)
    (hl : ∀ next ∈ l, Forward ordering s next) :
    ∃ s', l.foldlM (openEdge ordering curr) s = .ok s' ∧ Opened curr l s s'
      ∧ Keyed ordering s' := by
  induction l generalizing s with
  | nil => exact ⟨s, rfl, ⟨rfl, rfl, rfl, rfl, rfl, by simp⟩, h⟩
  | cons next l ih =>
      obtain ⟨s₁, hs₁, hopened₁, hkeyed₁⟩ := openEdge_ok curr h (hl next List.mem_cons_self)
      obtain ⟨s₂, hs₂, hopened₂, hkeyed₂⟩ := ih hkeyed₁ fun w hw => by
        rw [Forward, config_congr hopened₁.color]
        exact hl w (List.mem_cons_of_mem next hw)
      refine ⟨s₂, ?_, hopened₁.trans hopened₂, hkeyed₂⟩
      rw [List.foldlM_cons, hs₁]
      exact hs₂

lemma openEdges_error (curr : ℤ) (l : List ℤ) (h : Keyed ordering s)
    (hl : ¬ ∀ next ∈ l, Forward ordering s next) :
    ∃ reachable,
      l.foldlM (openEdge ordering curr) s = .error (.returned .cInvalid reachable) := by
  induction l generalizing s with
  | nil => exact absurd (fun _ hw => nomatch hw) hl
  | cons next l ih =>
      by_cases hnext : Forward ordering s next
      · obtain ⟨s₁, hs₁, hopened₁, hkeyed₁⟩ := openEdge_ok curr h hnext
        have hconfig := config_congr hopened₁.color
        obtain ⟨reachable, hrest⟩ := ih hkeyed₁ fun hall => hl fun w hw => by
          rcases List.mem_cons.mp hw with rfl | hw
          · exact hnext
          · have := hall w hw
            rwa [Forward, hconfig] at this
        refine ⟨reachable, ?_⟩
        rw [List.foldlM_cons, hs₁]
        exact hrest
      · obtain ⟨reachable, hs₁⟩ := openEdge_error h hnext
        refine ⟨reachable, ?_⟩
        rw [List.foldlM_cons, hs₁]
        rfl

lemma closeEdge_ok (h : Keyed ordering s) (hcurr : curr ∈ ordering.nodes)
    (hnext : next ∈ ordering.nodes) (hne : next ≠ curr)
    (hvisited : s.config.color next = .visited) :
    ∃ s', closeEdge curr s next = .ok s' ∧ Gathered curr [next] s s' ∧ Keyed ordering s' := by
  let first : PMap (Finset ℤ) := s.reachable.insert curr (insert next (s.reachable.setAt curr))
  have hfirst : ∀ n, n ∈ first ↔ n ∈ ordering.nodes := fun n => mem_insert_iff h.reachable hcurr
  refine ⟨{ s with reachable := first.insert curr (first.setAt curr ∪ first.setAt next) }, ?_,
    ⟨rfl, rfl, rfl, rfl, rfl, fun u w => ?_⟩,
    h.stack, h.color, fun n => mem_insert_iff hfirst hcurr, h.parents⟩
  · have hclose : closeEdge curr s next = (fetch s.reachable curr).bind fun known =>
        (fetch (s.reachable.insert curr (insert next known)) next).bind fun beyond =>
        (fetch (s.reachable.insert curr (insert next known)) curr).bind fun known' =>
        .ok { s with reachable :=
          (s.reachable.insert curr (insert next known)).insert curr (known' ∪ beyond) } := by
      rw [closeEdge, h.fetch_color hnext, hvisited]
      rfl
    rw [hclose, fetch_setAt ((h.reachable curr).mpr hcurr)]
    show (fetch first next).bind _ = _
    rw [fetch_setAt ((hfirst next).mpr hnext)]
    show (fetch first curr).bind _ = _
    rw [fetch_setAt ((hfirst curr).mpr hcurr)]
    rfl
  · show w ∈ PMap.setAt (first.insert curr (first.setAt curr ∪ first.setAt next)) u ↔ _
    by_cases hu : u = curr
    · simp only [setAt_insert, hu, if_true, first, hne, if_false, Finset.mem_union,
        Finset.mem_insert, List.mem_singleton, exists_eq_left, true_and]
      tauto
    · simp [setAt_insert, hu, first]

lemma closeEdges_ok (h : Keyed ordering s) (hcurr : curr ∈ ordering.nodes)
    (hl : ∀ next ∈ l, next ∈ ordering.nodes ∧ next ≠ curr ∧ s.config.color next = .visited) :
    ∃ s', l.foldlM (closeEdge curr) s = .ok s' ∧ Gathered curr l s s' ∧ Keyed ordering s' := by
  induction l generalizing s with
  | nil => exact ⟨s, rfl, ⟨rfl, rfl, rfl, rfl, rfl, by simp⟩, h⟩
  | cons next l ih =>
      obtain ⟨hmem, hne, hvisited⟩ := hl next List.mem_cons_self
      obtain ⟨s₁, hs₁, hgathered₁, hkeyed₁⟩ := closeEdge_ok h hcurr hmem hne hvisited
      obtain ⟨s₂, hs₂, hgathered₂, hkeyed₂⟩ := ih hkeyed₁ fun w hw => by
        rw [config_congr hgathered₁.color]
        exact hl w (List.mem_cons_of_mem next hw)
      refine ⟨s₂, ?_, hgathered₁.trans hgathered₂ fun hmem' => ?_, hkeyed₂⟩
      · rw [List.foldlM_cons, hs₁]
        exact hs₂
      · exact (hl curr (List.mem_cons_of_mem next hmem')).2.1 rfl

lemma pass_of_visit {below : List ℤ} (hstack : s.stack = curr :: below)
    (hvisit : visit ordering orders s curr = .ok s') :
    pass ordering orders s = some (.again s') := by
  simp [pass, hstack, hvisit]

/-- The order in which a traversal puts the successors of a node on the stack,
seen from the top. -/
def EdgeOrders.push (orders : EdgeOrders ordering) (v : ℤ) : List ℤ := (orders.opening v).reverse

lemma EdgeOrders.push_enum (orders : EdgeOrders ordering) :
    Enumerates ordering.Edge orders.push := by
  intro v
  obtain ⟨hnodup, hmem⟩ := orders.opening_enum v
  exact ⟨List.nodup_reverse.mpr hnodup, fun w => List.mem_reverse.trans (hmem w)⟩

lemma Keyed.paint (h : Keyed ordering s) (hcurr : curr ∈ ordering.nodes) {color : Color}
    {level : ConvergenceLevel} {stack : List ℤ} (hstack : ∀ n ∈ stack, n ∈ s.stack) {done : ℕ} :
    Keyed ordering { s with
      level := level, stack := stack, color := s.color.insert curr color, done := done } :=
  ⟨fun n hn => h.stack n (hstack n hn), fun _ => mem_insert_iff h.color hcurr, h.reachable,
    h.parents⟩

/-- The body of the loop at a first visit. -/
lemma visit_unvisited (orders : EdgeOrders ordering) (h : Keyed ordering s)
    (hcurr : curr ∈ ordering.nodes) (hc : s.config.color curr = .unvisited) :
    ∃ node, ordering.nodes.lookup curr = some node
      ∧ ∃ s₁, visit ordering orders s curr
          = (orders.opening curr).foldlM (openEdge ordering curr) s₁
        ∧ s₁ = { s with
            color := s.color.insert curr .inProgress,
            level := if s.level = .cSo ∧ 1 < node.next.card then .cCpo else s.level }
        ∧ Keyed ordering s₁ := by
  obtain ⟨node, hnode⟩ := Finmap.mem_iff.mp hcurr
  have hfetch : fetch ordering.nodes curr = .ok node := by rw [fetch, hnode]
  refine ⟨node, hnode, _, ?_, rfl, h.paint hcurr fun _ => id⟩
  rw [visit, h.fetch_color hcurr, hc]
  show (fetch ordering.nodes curr).bind _ = _
  rw [hfetch]
  rfl

/-- The body of the loop when the subtree of the node is done. -/
lemma visit_inProgress (orders : EdgeOrders ordering) (h : Keyed ordering s)
    (hcurr : curr ∈ ordering.nodes) (hc : s.config.color curr = .inProgress)
    (hsucc : ∀ next, ordering.Edge curr next →
      next ∈ ordering.nodes ∧ s.config.color next = .visited) :
    ∃ s', visit ordering orders s curr = .ok { s' with
        color := s'.color.insert curr .visited, done := s'.done + 1, stack := s'.stack.tail }
      ∧ Gathered curr (orders.closing curr) s s' ∧ Keyed ordering s' := by
  obtain ⟨node, hnode⟩ := exists_fetch hcurr
  have hl : ∀ next ∈ orders.closing curr,
      next ∈ ordering.nodes ∧ next ≠ curr ∧ s.config.color next = .visited := by
    intro next hnext
    obtain ⟨hmem, hvisited⟩ := hsucc next (((orders.closing_enum curr).2 next).mp hnext)
    refine ⟨hmem, ?_, hvisited⟩
    rintro rfl
    exact absurd (hc.symm.trans hvisited) (by simp)
  obtain ⟨s', hs', hgathered⟩ := closeEdges_ok h hcurr hl
  refine ⟨s', ?_, hgathered⟩
  rw [visit, h.fetch_color hcurr, hc]
  show (fetch ordering.nodes curr).bind _ = _
  rw [hnode]
  show ((orders.closing curr).foldlM (closeEdge curr) s).bind _ = _
  rw [hs']
  rfl

/-- The data of the traversal account for the nodes that it has come to. -/
structure Tallied (ordering : OrderingGraph) (s : Traversal) : Prop where
  tally : Tally ordering.nodes.keys ordering.Edge s.config.color
    s.parents.setAt s.reachable.setAt s.done
  level : s.level = .cSo ∧ (∀ v node, ordering.nodes.lookup v = some node →
        s.config.color v ≠ .unvisited → node.next.card ≤ 1)
      ∨ s.level = .cCpo ∧ ∃ v node, ordering.nodes.lookup v = some node ∧ 1 < node.next.card

lemma Tallied.init : Tallied ordering (Traversal.init ordering) where
  tally := by
    have hempty : (Traversal.init ordering).parents.setAt = fun _ => ∅ :=
      funext fun _ => setAt_const
    have hempty' : (Traversal.init ordering).reachable.setAt = fun _ => ∅ :=
      funext fun _ => setAt_const
    rw [config_init, hempty, hempty']
    exact .start
  level := Or.inl ⟨rfl, fun v node _ hv => absurd (by rw [config_init]; rfl) hv⟩

lemma Tallied.enter (h : Tallied ordering s) (hc : s.config.color curr = .unvisited)
    {node : OrderingNode} (hnode : ordering.nodes.lookup curr = some node) {s₁ : Traversal}
    (hs₁ : s₁ = { s with
      color := s.color.insert curr .inProgress,
      level := if s.level = .cSo ∧ 1 < node.next.card then .cCpo else s.level })
    (hopened : Opened curr l s₁ s') (hl : ∀ w, w ∈ l ↔ ordering.Edge curr w) :
    Tallied ordering s' := by
  subst hs₁
  have hcolor : s'.config.color = paint s.config.color curr .inProgress :=
    config_paint hopened.color
  refine ⟨?_, ?_⟩
  · rw [hcolor, hopened.reachable, hopened.done]
    exact h.tally.enter hc fun u w => by rw [hopened.parents, hl]
  · rw [hopened.level, hcolor]
    rcases h.level with ⟨hlevel, hone⟩ | ⟨hlevel, hmany⟩
    · by_cases hcard : 1 < node.next.card
      · exact Or.inr ⟨by simp [hlevel, hcard], curr, node, hnode, hcard⟩
      · refine Or.inl ⟨by simp [hlevel, hcard], fun v node' hnode' hv => ?_⟩
        rcases (paint_ne_unvisited_iff (by simp)).mp hv with rfl | hv
        · rw [hnode] at hnode'
          cases hnode'
          omega
        · exact hone v node' hnode' hv
    · exact Or.inr ⟨by simp [hlevel], hmany⟩

lemma Tallied.leave (h : Tallied ordering s) (hcurr : curr ∈ ordering.nodes)
    (hc : s.config.color curr = .inProgress)
    (hsucc : ∀ w, ordering.Edge curr w → s.config.color w = .visited)
    (hgathered : Gathered curr l s s') (hl : ∀ w, w ∈ l ↔ ordering.Edge curr w) :
    Tallied ordering { s' with
      color := s'.color.insert curr .visited, done := s'.done + 1, stack := s'.stack.tail } := by
  have hcolor : (Traversal.config { s' with
      color := s'.color.insert curr .visited, done := s'.done + 1,
      stack := s'.stack.tail }).color = paint s.config.color curr .visited :=
    config_paint (by rw [hgathered.color])
  refine ⟨?_, ?_⟩
  · rw [hcolor, hgathered.parents, hgathered.done]
    exact h.tally.leave (Finmap.mem_keys.mpr hcurr) hc hsucc fun u w => by
      simp only [hgathered.reachable, hl]
  · rw [hcolor, hgathered.level]
    refine h.level.imp_left fun ⟨hlevel, hone⟩ => ⟨hlevel, fun v node hnode hv => ?_⟩
    rcases (paint_ne_unvisited_iff (by simp)).mp hv with rfl | hv
    · exact hone v node hnode (by simp [hc])
    · exact hone v node hnode hv

/-- **The passes take the steps of the search**, and keep the data. -/
theorem pass_of_step (h : Keyed ordering s)
    (hstep : Step ordering.nodes.keys ordering.Edge orders.push s.config cfg) :
    ∃ s', pass ordering orders s = some (.again s') ∧ s'.config = cfg ∧ Keyed ordering s'
      ∧ (Tallied ordering s → Tallied ordering s') := by
  generalize hcfg : s.config = cfg₀ at hstep
  cases hstep with
  | @enter v below c hv hc hsucc =>
      obtain ⟨hstack, hcolor⟩ : s.stack = v :: below ∧ s.config.color = c :=
        ⟨congrArg Config.stack hcfg, congrArg Config.color hcfg⟩
      rw [← hcolor] at hc hsucc ⊢
      rw [Finmap.mem_keys] at hv
      obtain ⟨node, hnode, s₁, hvisit, hs₁, hkeyed₁⟩ := visit_unvisited orders h hv hc
      have hpaint : s₁.config.color = paint s.config.color v .inProgress :=
        config_paint (by rw [hs₁])
      obtain ⟨s', hs', hopened, hkeyed'⟩ :=
        openEdges_ok v (orders.opening v) hkeyed₁ fun next hnext => by
          obtain ⟨hN, hne, hgray⟩ := hsucc next (((orders.opening_enum v).2 next).mp hnext)
          exact ⟨Finmap.mem_keys.mp hN, by rwa [hpaint, paint_of_ne hne]⟩
      have hfilter : (orders.push v).filter (fun w => s₁.config.color w = .unvisited)
          = (orders.push v).filter (fun w => s.config.color w = .unvisited) :=
        List.filter_congr fun w hw => by
          rw [hpaint, paint_of_ne (hsucc w (((orders.push_enum v).2 w).mp hw)).2.1]
      refine ⟨s', pass_of_visit hstack (hvisit.trans hs'), ?_, hkeyed', fun htallied =>
        htallied.enter hc hnode hs₁ hopened (orders.opening_enum v).2⟩
      refine config_eq ?_ ((config_congr hopened.color).trans hpaint)
      have hstack₁ : s₁.stack = v :: below := by rw [hs₁, ← hstack]
      rw [hopened.stack, hstack₁]
      exact congrArg (· ++ v :: below) hfilter
  | @leave v below c hv hc hsucc =>
      obtain ⟨hstack, hcolor⟩ : s.stack = v :: below ∧ s.config.color = c :=
        ⟨congrArg Config.stack hcfg, congrArg Config.color hcfg⟩
      rw [← hcolor] at hc hsucc ⊢
      rw [Finmap.mem_keys] at hv
      obtain ⟨s', hs', hgathered, hkeyed'⟩ := visit_inProgress orders h hv hc
        fun next hnext => ⟨h.mem_of_visited (hsucc next hnext), hsucc next hnext⟩
      refine ⟨_, pass_of_visit hstack hs', ?_, hkeyed'.paint hv fun n => List.mem_of_mem_tail,
        fun htallied => htallied.leave hv hc hsucc hgathered (orders.closing_enum v).2⟩
      refine config_eq ?_ (config_paint (by rw [hgathered.color]))
      rw [hgathered.stack, hstack]
      rfl

/-- Nothing happens to a node that is visited already. -/
theorem pass_of_stuck (hstuck : Stuck s.config) : pass ordering orders s = some (.again s) := by
  obtain ⟨v, below, hstack, hc⟩ := hstuck
  have hcolor : fetch s.color v = .ok .visited := by
    cases hlookup : s.color.lookup v with
    | none => simp [Traversal.config, hlookup] at hc
    | some color => simpa [Traversal.config, fetch, hlookup] using hc
  refine pass_of_visit hstack ?_
  rw [visit, hcolor]
  rfl

/-- An edge that ends the traversal at the first visit of the node on top. -/
def Blocked (ordering : OrderingGraph) (s : Traversal) : Prop :=
  ∃ v below w, s.stack = v :: below ∧ s.config.color v = .unvisited ∧ ordering.Edge v w
    ∧ (w ∉ ordering.nodes.keys ∨ w = v ∨ s.config.color w = .inProgress)

/-- The visit stops at a successor that the search does not allow. -/
lemma not_forward_of_blocking {s₁ : Traversal} {v w : ℤ}
    (hpaint : s₁.config.color = paint s.config.color v .inProgress)
    (hbad : w ∉ ordering.nodes.keys ∨ w = v ∨ s.config.color w = .inProgress) :
    ¬ Forward ordering s₁ w := by
  rintro ⟨hmem, hcolor⟩
  rw [hpaint] at hcolor
  rcases hbad with hbad | rfl | hgray
  · exact hbad (Finmap.mem_keys.mpr hmem)
  · exact hcolor (paint_self ..)
  · by_cases hwv : w = v
    · exact hcolor (by rw [hwv, paint_self])
    · exact hcolor (by rwa [paint_of_ne hwv])

/-- **All other passes end the loop**, with an empty stack or at a blocked edge. -/
theorem pass_stop (h : Keyed ordering s)
    (hsearch : Searching ordering.nodes.keys ordering.Edge ordering.head s.config)
    (hstuck : ¬ Stuck s.config)
    (hstep : ∀ cfg, ¬ Step ordering.nodes.keys ordering.Edge orders.push s.config cfg) :
    s.stack = [] ∧ pass ordering orders s = some (.stop (.finished s))
      ∨ Blocked ordering s ∧ ∃ reachable,
        pass ordering orders s = some (.stop (.returned .cInvalid reachable)) := by
  cases hstack : s.stack with
  | nil => exact Or.inl ⟨rfl, by simp [pass, hstack]⟩
  | cons v below =>
      have hv : v ∈ ordering.nodes := h.stack v (by simp [hstack])
      have hconfig : s.config = ⟨v :: below, s.config.color⟩ := config_eq hstack rfl
      cases hc : s.config.color v with
      | visited => exact absurd ⟨v, below, hstack, hc⟩ hstuck
      | inProgress =>
          refine absurd ?_ (hstep ⟨below, paint s.config.color v .visited⟩)
          rw [hconfig]
          exact .leave (Finmap.mem_keys.mpr hv) hc fun w hw =>
            hsearch.successors_visited hstack hc hw
      | unvisited =>
          obtain ⟨node, -, s₁, hvisit, hs₁, hkeyed₁⟩ := visit_unvisited orders h hv hc
          have hpaint : s₁.config.color = paint s.config.color v .inProgress :=
            config_paint (by rw [hs₁])
          rw [hconfig] at hstep
          obtain ⟨w, hw, hbad⟩ := exists_blocking (Finmap.mem_keys.mpr hv) hc hstep
          have herror : ¬ ∀ next ∈ orders.opening v, Forward ordering s₁ next := fun hall =>
            not_forward_of_blocking hpaint hbad (hall w (((orders.opening_enum v).2 w).mpr hw))
          obtain ⟨reachable, herror⟩ := openEdges_error v (orders.opening v) hkeyed₁ herror
          exact Or.inr ⟨⟨v, below, w, hstack, hc, hw, hbad⟩, reachable,
            by simp [pass, hstack, hvisit, herror]⟩

end Passes

end Madkv
