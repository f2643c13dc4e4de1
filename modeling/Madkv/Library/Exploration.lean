import Mathlib.Data.List.Chain
import Madkv.Library.Shortcuts

/-!
What a depth-first search has found out about the graph.

* `Explored`: every node that the search has come to is reached from the head,
  and the head is the first of them. `explored_step`: the step lemma.
* `Explored.not_sound`: an edge that no pass can follow shows a defect of the
  graph.
* `Framed.visited_iff`: with an empty stack, the visited nodes are those that
  the head leads to.
* `Tally`: the in-edges and the descendants of the nodes that the colours account
  for, with what becomes of them when a node is entered or left.
* `Lined`: a list of nodes that each have the next one as their only successor.
  `exists_lined`: a sound graph without branches is such a list. `lined_nextIn`: a list
  without repetitions is one, with the edges from each element to the next.
-/

namespace DepthFirst

open Relation

section Explored

variable {V : Type*} {N : Finset V} {E : V → V → Prop} {push : V → List V} {head v w : V}
  {below : List V} {cfg cfg' : Config V} {fs : List (Frame V)}

/-- The nodes that the search has come to. -/
structure Explored (E : V → V → Prop) (head : V) (cfg : Config V) : Prop where
  reached : ∀ v, cfg.color v ≠ .unvisited → ReflTransGen E head v
  rooted : cfg = start head ∨ cfg.color head ≠ .unvisited

lemma Explored.start (E : V → V → Prop) (head : V) : Explored E head (start head) :=
  ⟨fun _ hv => absurd rfl hv, Or.inl rfl⟩

/-- The node on top of the stack is reached from the head. -/
lemma Explored.top (h : Explored E head cfg) (hsearch : Searching N E head cfg)
    (hstack : cfg.stack = v :: below) : ReflTransGen E head v := by
  rcases hsearch with rfl | ⟨fs, hframed⟩
  · rw [← List.head_eq_of_cons_eq hstack]
  · cases hframed.top hstack with
    | ofFrame fs' hfs _ _ _ =>
        have hgray := (hframed.inProgress v).mpr (by rw [hfs]; exact List.mem_cons_self)
        exact h.reached v (by simp [hgray])
    | ofPending u pending fs' hfs _ hok _ =>
        have hgray := (hframed.inProgress u).mpr (by rw [hfs]; exact List.mem_cons_self)
        exact (h.reached u (by simp [hgray])).tail (hok.edge v List.mem_cons_self)

lemma Framed.path_reached (h : Framed N E head cfg fs) (hv : cfg.color v = .inProgress)
    {u : V} {path : List V} (hpath : fs.map Frame.node = u :: path) : ReflTransGen E v u := by
  have hopen := h.path
  rw [hpath] at hopen
  exact hopen.reaches (hpath ▸ (h.inProgress v).mp hv)

/-- An edge that no pass can follow shows a defect of the graph. -/
lemma Explored.not_sound (h : Explored E head cfg) (hsearch : Searching N E head cfg)
    (hstack : cfg.stack = v :: below) (hv : cfg.color v = .unvisited) (hedge : E v w)
    (hw : w ∉ N ∨ w = v ∨ cfg.color w = .inProgress) : ¬ Sound N E head := by
  intro hsound
  have hreach := h.top hsearch hstack
  rcases hw with hN | rfl | hgray
  · exact hN (hsound.edge v hreach w hedge)
  · exact hsound.acyclic w hreach (.single hedge)
  · rcases hsearch with rfl | ⟨fs, hframed⟩
    · cases hgray
    · cases hframed.top hstack with
      | ofFrame fs' hfs _ _ _ =>
          have := (hframed.inProgress v).mpr (by rw [hfs]; exact List.mem_cons_self)
          exact absurd (hv.symm.trans this) (by simp)
      | ofPending u pending fs' hfs _ hok _ =>
          -- `w` leads down the path to `u`, from there to `v`, and back
          have hwu : ReflTransGen E w u := hframed.path_reached hgray (by rw [hfs]; rfl)
          have hwv : TransGen E w v := .tail' hwu (hok.edge v List.mem_cons_self)
          exact hsound.acyclic v hreach (.trans (.single hedge) hwv)

/-- A search with an empty stack has come back to the head. -/
lemma Framed.head_visited (h : Framed N E head cfg fs) (hexp : Explored E head cfg)
    (hstack : cfg.stack = []) : cfg.color head = .visited := by
  have hnil : fs = [] := by
    cases fs with
    | nil => rfl
    | cons f fs =>
        have hcons := hstack.symm.trans h.stack
        simp [Frame.entries] at hcons
  rcases hexp.rooted with rfl | hwhite
  · cases hstack
  · cases hc : cfg.color head with
    | unvisited => exact absurd hc hwhite
    | inProgress =>
        have hmem := (h.inProgress head).mp hc
        rw [hnil] at hmem
        cases hmem
    | visited => rfl

/-- The visited nodes are those that the head leads to, once it is visited. -/
lemma Framed.visited_iff (h : Framed N E head cfg fs) (hexp : Explored E head cfg)
    (hhead : cfg.color head = .visited) : cfg.color v = .visited ↔ ReflTransGen E head v :=
  ⟨fun hv => hexp.reached v (by simp [hv]), h.reaches_visited hhead⟩

end Explored

/-! ### What the passes find out -/

section Findings

variable {V : Type*} [DecidableEq V] {N : Finset V} {E : V → V → Prop} {push : V → List V}
  {head v w : V} {cfg cfg' : Config V} {c : V → Color} {color : Color}

lemma paint_ne_unvisited_iff (hcolor : color ≠ .unvisited) :
    paint c v color w ≠ .unvisited ↔ w = v ∨ c w ≠ .unvisited := by
  by_cases hwv : w = v
  · simp [hwv, hcolor]
  · simp [hwv]

lemma paint_visited_iff : paint c v .visited w = .visited ↔ w = v ∨ c w = .visited := by
  by_cases hwv : w = v
  · simp [hwv]
  · simp [hwv]

lemma paint_inProgress_eq_visited_iff (hc : c v ≠ .visited) :
    paint c v .inProgress w = .visited ↔ c w = .visited := by
  by_cases hwv : w = v
  · simp [hwv, hc]
  · simp [hwv]

theorem explored_step (h : Explored E head cfg) (hsearch : Searching N E head cfg)
    (hstep : Step N E push cfg cfg') : Explored E head cfg' := by
  have hpaint : ∀ (v : V) (below : List V) (c : V → Color) (color : Color) (stack : List V),
      cfg = ⟨v :: below, c⟩ → color ≠ .unvisited →
      Explored E head ⟨stack, paint c v color⟩ := by
    rintro v below c color stack rfl hcolor
    have hv : ReflTransGen E head v := h.top hsearch rfl
    refine ⟨fun w hw => ?_, Or.inr ((paint_ne_unvisited_iff hcolor).mpr ?_)⟩
    · rcases (paint_ne_unvisited_iff hcolor).mp hw with rfl | hw
      · exact hv
      · exact h.reached w hw
    · rcases h.rooted with hstart | hhead
      · exact Or.inl (List.cons.inj (Config.mk.inj hstart).1).1.symm
      · exact Or.inr hhead
  cases hstep with
  | enter => exact hpaint _ _ _ _ _ rfl (by simp)
  | leave => exact hpaint _ _ _ _ _ rfl (by simp)

/-- The in-edges of each node, its descendants and the number of the nodes that
are done, as far as the colours account for them. -/
structure Tally (N : Finset V) (E : V → V → Prop) (c : V → Color)
    (parents reachable : V → Finset V) (done : ℕ) : Prop where
  parents : ∀ v w, v ∈ parents w ↔ c v ≠ .unvisited ∧ E v w
  reachable : ∀ v w, w ∈ reachable v ↔ c v = .visited ∧ TransGen E v w
  done : done = (N.filter fun v => c v = .visited).card

variable {parents parents' reachable reachable' : V → Finset V} {done : ℕ}

omit [DecidableEq V] in
lemma Tally.start : Tally N E (start head).color (fun _ => ∅) (fun _ => ∅) 0 :=
  ⟨by simp [DepthFirst.start], by simp [DepthFirst.start], by simp [DepthFirst.start]⟩

lemma Tally.enter (h : Tally N E c parents reachable done) (hc : c v = .unvisited)
    (hparents : ∀ u w, u ∈ parents' w ↔ u ∈ parents w ∨ u = v ∧ E v w) :
    Tally N E (paint c v .inProgress) parents' reachable done where
  parents u w := by
    rw [hparents, h.parents, paint_ne_unvisited_iff (by simp)]
    constructor
    · rintro (⟨hu, hedge⟩ | ⟨rfl, hedge⟩)
      · exact ⟨Or.inr hu, hedge⟩
      · exact ⟨Or.inl rfl, hedge⟩
    · rintro ⟨rfl | hu, hedge⟩
      · exact Or.inr ⟨rfl, hedge⟩
      · exact Or.inl ⟨hu, hedge⟩
  reachable u w := by rw [h.reachable, paint_inProgress_eq_visited_iff (by simp [hc])]
  done := by
    rw [h.done]
    simp only [paint_inProgress_eq_visited_iff (c := c) (v := v) (by simp [hc])]

lemma Tally.leave (h : Tally N E c parents reachable done) (hv : v ∈ N)
    (hc : c v = .inProgress) (hsucc : ∀ w, E v w → c w = .visited)
    (hreach : ∀ u w, w ∈ reachable' u ↔
      w ∈ reachable u ∨ u = v ∧ ∃ next, E v next ∧ (w = next ∨ w ∈ reachable next)) :
    Tally N E (paint c v .visited) parents reachable' (done + 1) where
  parents u w := by
    have hwhite : c v ≠ .unvisited := by simp [hc]
    rw [h.parents, paint_ne_unvisited_iff (by simp)]
    refine and_congr_left fun _ => ⟨Or.inr, ?_⟩
    rintro (rfl | hu)
    · exact hwhite
    · exact hu
  reachable u w := by
    have hbeyond : (∃ next, E v next ∧ (w = next ∨ w ∈ reachable next)) ↔ TransGen E v w := by
      rw [TransGen.head'_iff]
      refine exists_congr fun next => and_congr_right fun hedge => ?_
      rw [h.reachable, reflTransGen_iff_eq_or_transGen, and_iff_right (hsucc next hedge)]
    rw [hreach, h.reachable, hbeyond, paint_visited_iff]
    constructor
    · rintro (⟨hu, hw⟩ | ⟨rfl, hw⟩)
      · exact ⟨Or.inr hu, hw⟩
      · exact ⟨Or.inl rfl, hw⟩
    · rintro ⟨rfl | hu, hw⟩
      · exact Or.inr ⟨rfl, hw⟩
      · exact Or.inl ⟨hu, hw⟩
  done := by
    have hfilter : (N.filter fun w => paint c v .visited w = .visited)
        = insert v (N.filter fun w => c w = .visited) := by
      ext w
      simp only [Finset.mem_filter, Finset.mem_insert, paint_visited_iff]
      by_cases hwv : w = v
      · simp [hwv, hv]
      · simp [hwv]
    rw [hfilter, Finset.card_insert_of_notMem (by simp [hc]), h.done]

end Findings

/-! ### Graphs that are one line -/

section Lines

variable {V : Type*} {N : Finset V} {E : V → V → Prop} {head v w : V} {l : List V}

/-- Each node of the list has the next one as its only successor, and the last
one has none. -/
inductive Lined (E : V → V → Prop) : List V → Prop
  | last {v : V} (hend : ∀ w, ¬ E v w) : Lined E [v]
  | next {v w : V} {l : List V} (hnext : ∀ u, E v u ↔ u = w) (hl : Lined E (w :: l)) :
      Lined E (v :: w :: l)

lemma Lined.mem_iff (h : Lined E (v :: l)) : w ∈ v :: l ↔ ReflTransGen E v w := by
  induction l generalizing v with
  | nil =>
      cases h with
      | last hend =>
          rw [List.mem_singleton, reflTransGen_iff_eq_or_transGen, TransGen.head'_iff]
          refine ⟨Or.inl, ?_⟩
          rintro (rfl | ⟨u, hu, -⟩)
          · rfl
          · exact absurd hu (hend u)
  | cons u l ih =>
      cases h with
      | next hnext hl =>
          rw [List.mem_cons, ih hl, reflTransGen_iff_eq_or_transGen (a := v), TransGen.head'_iff]
          refine or_congr_right ⟨fun hw => ⟨u, (hnext u).mpr rfl, hw⟩, ?_⟩
          rintro ⟨u', hu', hw⟩
          rwa [(hnext u').mp hu'] at hw

lemma Lined.nodup (h : Lined E (v :: l)) (hcycle : ∀ u, ReflTransGen E v u → ¬ TransGen E u u) :
    (v :: l).Nodup := by
  induction l generalizing v with
  | nil => exact List.nodup_singleton v
  | cons u l ih =>
      cases h with
      | next hnext hl =>
          have hedge : E v u := (hnext u).mpr rfl
          refine List.nodup_cons.mpr ⟨fun hmem => ?_, ih hl fun w hw => hcycle w (.head hedge hw)⟩
          exact hcycle v .refl (.head' hedge (hl.mem_iff.mp hmem))

/-- A relation that holds along an edge into each node but the first one holds
from each node to the next. -/
lemma Lined.isChain {T : V → V → Prop} (h : Lined E (v :: l))
    (hcycle : ∀ u, ReflTransGen E v u → ¬ TransGen E u u)
    (hT : ∀ w ∈ l, ∃ u ∈ v :: l, E u w ∧ T u w) : List.IsChain T (v :: l) := by
  induction l generalizing v with
  | nil => exact .singleton v
  | cons w l ih =>
      cases h with
      | next hnext hl =>
          have hedge : E v w := (hnext w).mpr rfl
          have hcycle' : ∀ u, ReflTransGen E w u → ¬ TransGen E u u :=
            fun u hu => hcycle u (.head hedge hu)
          refine .cons_cons ?_ (ih hl hcycle' fun w' hw' => ?_)
          · obtain ⟨u, hu, huw, htrans⟩ := hT w List.mem_cons_self
            rcases List.mem_cons.mp hu with rfl | hu
            · exact htrans
            · exact absurd (.tail' (hl.mem_iff.mp hu) huw) (hcycle' w .refl)
          · obtain ⟨u, hu, huw', htrans⟩ := hT w' (List.mem_cons_of_mem w hw')
            rcases List.mem_cons.mp hu with rfl | hu
            · rw [(hnext w').mp huw'] at hw'
              exact absurd hw' (List.nodup_cons.mp (hl.nodup hcycle')).1
            · exact ⟨u, hu, huw', htrans⟩

/-- **A sound graph without branches is one line.** -/
theorem exists_lined (hsound : Sound N E v)
    (hone : ∀ u, ReflTransGen E v u → ∀ w w', E u w → E u w' → w = w') :
    ∃ l, Lined E (v :: l) := by
  induction hn : (descendants N E v).card using Nat.strong_induction_on generalizing v with
  | _ n ih =>
      subst hn
      by_cases hend : ∃ w, E v w
      · obtain ⟨w, hw⟩ := hend
        obtain ⟨l, hl⟩ := ih _ (hsound.card_descendants_lt hw) (hsound.of_edge hw)
          (fun u hu => hone u (.head hw hu)) rfl
        refine ⟨w :: l, .next (fun u => ⟨fun hu => hone v .refl u w hu hw, ?_⟩) hl⟩
        rintro rfl
        exact hw
      · rw [not_exists] at hend
        exact ⟨[], .last hend⟩

lemma Lined.transGen_iff (h : Lined E (v :: l)) : TransGen E v w ↔ w ∈ l := by
  rw [TransGen.head'_iff]
  cases h with
  | last hend => exact ⟨fun ⟨u, hu, _⟩ => absurd hu (hend u), fun hw => absurd hw List.not_mem_nil⟩
  | @next _ u l hnext hl =>
      rw [hl.mem_iff]
      refine ⟨fun ⟨u', hu', hw⟩ => ?_, fun hw => ⟨u, (hnext u).mpr rfl, hw⟩⟩
      rwa [(hnext u').mp hu'] at hw

/-- Each node of a line leads to all those after it. -/
lemma Lined.pairwise (h : Lined E l) : l.Pairwise (TransGen E) := by
  induction h with
  | last => exact List.pairwise_singleton ..
  | @next v w l hnext hl ih =>
      exact .cons (fun u hu => (Lined.next hnext hl).transGen_iff.mpr hu) ih

/-- Of two elements one stands before the other. -/
lemma rel_or_rel_of_pairwise {R : V → V → Prop} (h : l.Pairwise R) (hv : v ∈ l) (hw : w ∈ l)
    (hne : v ≠ w) : R v w ∨ R w v := by
  have hsymm : Std.Symm fun v w => R v w ∨ R w v := ⟨fun _ _ h => h.symm⟩
  have hor : l.Pairwise fun v w => R v w ∨ R w v := h.imp Or.inl
  exact hor.forall hv hw hne

lemma Lined.acyclic (h : Lined E l) (hnodup : l.Nodup) (hv : v ∈ l) : ¬ TransGen E v v := by
  induction h with
  | @last u hend =>
      obtain rfl := List.mem_singleton.mp hv
      rw [(Lined.last hend).transGen_iff]
      exact List.not_mem_nil
  | @next u w l hnext hl ih =>
      obtain ⟨hu, hnodup⟩ := List.nodup_cons.mp hnodup
      rcases List.mem_cons.mp hv with rfl | hv
      · rwa [(Lined.next hnext hl).transGen_iff]
      · exact ih hnodup hv

/-- An edge of a line leads from one of its nodes to the next. -/
lemma Lined.of_edge {T : V → V → Prop} (h : Lined E l) (hT : List.IsChain T l) (hv : v ∈ l)
    (hedge : E v w) : T v w ∧ w ∈ l := by
  induction h with
  | @last u hend =>
      rw [List.mem_singleton.mp hv] at hedge
      exact absurd hedge (hend w)
  | @next u u' l hnext hl ih =>
      obtain ⟨htrans, hT⟩ := List.isChain_cons_cons.mp hT
      rcases List.mem_cons.mp hv with rfl | hv
      · rw [(hnext w).mp hedge]
        exact ⟨htrans, List.mem_cons_of_mem v List.mem_cons_self⟩
      · obtain ⟨htrans, hw⟩ := ih hT hv
        exact ⟨htrans, List.mem_cons_of_mem u hw⟩

lemma Lined.unique (h : Lined E l) (hv : v ∈ l) (hw : E v w) {w' : V} (hw' : E v w') :
    w = w' := by
  induction h with
  | @last u hend =>
      rw [List.mem_singleton.mp hv] at hw
      exact absurd hw (hend w)
  | @next u u' l hnext hl ih =>
      rcases List.mem_cons.mp hv with rfl | hv
      · rw [(hnext w).mp hw, (hnext w').mp hw']
      · exact ih hv

lemma Lined.congr {E' : V → V → Prop} (h : Lined E l)
    (hE : ∀ v ∈ l, ∀ w, E' v w ↔ E v w) : Lined E' l := by
  induction h with
  | @last v hend =>
      exact .last fun w hw => hend w ((hE v List.mem_cons_self w).mp hw)
  | @next v w l hnext hl ih =>
      refine .next (fun u => ?_) (ih fun u hu => hE u (List.mem_cons_of_mem v hu))
      rw [hE v List.mem_cons_self, hnext]

/-- The element after `v` in a list. -/
def nextIn [DecidableEq V] : List V → V → Option V
  | [], _ => none
  | u :: l, v => if v = u then l.head? else nextIn l v

lemma lined_nextIn [DecidableEq V] (hnodup : l.Nodup) (hne : l ≠ []) :
    Lined (fun v w => nextIn l v = some w) l := by
  induction l with
  | nil => exact absurd rfl hne
  | cons v l ih =>
      obtain ⟨hv, hnodup⟩ := List.nodup_cons.mp hnodup
      cases l with
      | nil =>
          refine .last fun w hw => ?_
          rw [nextIn, if_pos rfl] at hw
          cases hw
      | cons w l =>
          refine .next (fun u => ?_) ((ih hnodup (List.cons_ne_nil w l)).congr fun u hu u' => ?_)
          · rw [nextIn, if_pos rfl, List.head?_cons, Option.some_inj, eq_comm]
          · have hne : u ≠ v := fun heq => hv (heq ▸ hu)
            rw [nextIn, if_neg hne]

/-- A shortcut takes a node with two successors. -/
lemma not_hasShortcut_of_unique (hone : ∀ u v w, E u v → E u w → v = w) :
    ¬ HasShortcut N E head := by
  rintro ⟨u, path, v, w, -, hv, hw, hne, -⟩
  exact hne (hone u v w hv hw)

end Lines

end DepthFirst
