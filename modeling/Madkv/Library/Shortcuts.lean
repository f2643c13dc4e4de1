import Mathlib.Data.List.Chain
import Madkv.Library.DepthFirst

/-!
When a depth-first search meets a visited node on top of its stack.

* `HasShortcut`: at the end of an open path, a node has two successors, one of
  which leads to the other through a part of the graph without a defect.
* `Framed.hasShortcut`: a search gets stuck only on such a graph.
* `exists_visit`: a visit goes through all that a node leads to, unless the
  search gets stuck on the way.
* `exists_stuck`: with a shortcut there is an order of the successors with which
  the search gets stuck.
-/

namespace DepthFirst

open Relation

/-- All that `v` leads to has its edges in the graph, and is on no cycle. -/
structure Sound {V : Type*} (N : Finset V) (E : V → V → Prop) (v : V) : Prop where
  edge : ∀ u, ReflTransGen E v u → ∀ w, E u w → w ∈ N
  acyclic : ∀ u, ReflTransGen E v u → ¬ TransGen E u u

/-- A successor that another one leads to as well. -/
def HasShortcut {V : Type*} (N : Finset V) (E : V → V → Prop) (head : V) : Prop :=
  ∃ u path v w, OpenPath N E head (u :: path) ∧ E u v ∧ E u w ∧ v ≠ w ∧ TransGen E v w
    ∧ Sound N E v

section Stuck

variable {V : Type*} {N : Finset V} {E : V → V → Prop} {head u v w : V} {cfg : Config V}
  {fs : List (Frame V)}

lemma Sound.of_edge (h : Sound N E v) (hedge : E v w) : Sound N E w where
  edge u hu := h.edge u (.head hedge hu)
  acyclic u hu := h.acyclic u (.head hedge hu)

lemma Framed.sound (h : Framed N E head cfg fs) (hv : cfg.color v = .visited) : Sound N E v where
  edge u hu w hw := (h.closed u (h.reaches_visited hv hu) w hw).1
  acyclic u hu := h.acyclic u (h.reaches_visited hv hu)

/-- A visited node on top of the stack waits for the node of the top frame, and
what shadows it there is visited too. -/
theorem Framed.hasShortcut (h : Framed N E head cfg fs) (hstuck : Stuck cfg) :
    HasShortcut N E head := by
  obtain ⟨w, below, hstack, hw⟩ := hstuck
  cases h.top hstack with
  | ofFrame fs' hfs _ _ _ =>
      have hgray := (h.inProgress w).mpr (by rw [hfs]; exact List.mem_cons_self)
      exact absurd (hw.symm.trans hgray) (by simp)
  | ofPending u pending fs' hfs _ hok _ =>
      subst hfs
      rcases hok.shadowed w List.mem_cons_self with hu | ⟨v, hv, hne, hreach, hvisited | ha⟩
      · exact absurd (hw.symm.trans hu) (by simp)
      · exact ⟨u, fs'.map Frame.node, v, w, h.path, hv, hok.edge w List.mem_cons_self, hne, hreach,
          h.sound hvisited⟩
      · cases ha

lemma Searching.hasShortcut (h : Searching N E head cfg) (hstuck : Stuck cfg) :
    HasShortcut N E head := by
  rcases h with rfl | ⟨fs, h⟩
  · obtain ⟨v, below, -, hv⟩ := hstuck
    cases hv
  · exact h.hasShortcut hstuck

/-- A shortcut lies below an edge out of the head. -/
lemma HasShortcut.exists_edge (h : HasShortcut N E head) : ∃ w, E head w := by
  obtain ⟨u, path, v, -, hpath, huv, -⟩ := h
  induction path generalizing u v with
  | nil =>
      cases hpath with
      | first => exact ⟨v, huv⟩
  | cons p path ih =>
      cases hpath with
      | next hpath hedge => exact ih p u hpath hedge

end Stuck

/-! ### Visiting a sound part of the graph -/

section Visits

variable {V : Type*} {N : Finset V} {E : V → V → Prop} {push : V → List V} {c c' c'' : V → Color}
  {v w : V} {ws below : List V}

/-- The same nodes are in progress, and what was visited is. -/
structure Extends (c c' : V → Color) : Prop where
  visited : ∀ v, c v = .visited → c' v = .visited
  inProgress : ∀ v, c' v = .inProgress ↔ c v = .inProgress

lemma Extends.refl (c : V → Color) : Extends c c := ⟨fun _ => id, fun _ => Iff.rfl⟩

lemma Extends.trans (h : Extends c c') (h' : Extends c' c'') : Extends c c'' :=
  ⟨fun v hv => h'.visited v (h.visited v hv), fun v => (h'.inProgress v).trans (h.inProgress v)⟩

/-- All that a visited node leads to is visited. -/
def Closed (E : V → V → Prop) (c : V → Color) : Prop :=
  ∀ v w, c v = .visited → E v w → c w = .visited

lemma Closed.reaches (h : Closed E c) (hv : c v = .visited) (hreach : ReflTransGen E v w) :
    c w = .visited := by
  induction hreach with
  | refl => exact hv
  | tail _ hedge ih => exact h _ _ ih hedge

open Classical in
/-- The nodes that `v` leads to. -/
noncomputable def descendants (N : Finset V) (E : V → V → Prop) (v : V) : Finset V :=
  N.filter fun w => TransGen E v w

lemma mem_descendants : w ∈ descendants N E v ↔ w ∈ N ∧ TransGen E v w := by
  classical
  exact Finset.mem_filter

lemma Sound.card_descendants_lt (h : Sound N E v) (hedge : E v w) :
    (descendants N E w).card < (descendants N E v).card := by
  have hsub : descendants N E w ⊆ descendants N E v := by
    intro u hu
    obtain ⟨hN, hreach⟩ := mem_descendants.mp hu
    exact mem_descendants.mpr ⟨hN, .head hedge hreach⟩
  refine Finset.card_lt_card ((Finset.ssubset_iff_of_subset hsub).mpr ⟨w, ?_, fun hw => ?_⟩)
  · exact mem_descendants.mpr ⟨h.edge v .refl w hedge, .single hedge⟩
  · exact h.acyclic w (.single hedge) (mem_descendants.mp hw).2

variable [DecidableEq V]

/-- From the nodes `ws` on top of `below`, the search gets stuck or comes down
to `below` with all of them visited. -/
def Visits (N : Finset V) (E : V → V → Prop) (push : V → List V) (ws below : List V)
    (c : V → Color) : Prop :=
  ∃ cfg, ReflTransGen (Step N E push) ⟨ws ++ below, c⟩ cfg
    ∧ (Stuck cfg ∨ cfg.stack = below ∧ (∀ w ∈ ws, cfg.color w = .visited)
      ∧ Extends c cfg.color ∧ Closed E cfg.color)

lemma Visits.nil (hclosed : Closed E c) : Visits N E push [] below c :=
  ⟨⟨below, c⟩, .refl, Or.inr ⟨rfl, by simp, .refl c, hclosed⟩⟩

lemma Visits.cons (h : Visits N E push [w] (ws ++ below) c)
    (h' : ∀ c', Extends c c' → Closed E c' → Visits N E push ws below c') :
    Visits N E push (w :: ws) below c := by
  obtain ⟨⟨stack, c'⟩, hsteps, hstuck | ⟨rfl, hw, hext, hclosed⟩⟩ := h
  · exact ⟨_, hsteps, Or.inl hstuck⟩
  · obtain ⟨cfg, hsteps', hstuck | ⟨hstack, hws, hext', hclosed'⟩⟩ := h' c' hext hclosed
    · exact ⟨cfg, hsteps.trans hsteps', Or.inl hstuck⟩
    · refine ⟨cfg, hsteps.trans hsteps',
        Or.inr ⟨hstack, fun u hu => ?_, hext.trans hext', hclosed'⟩⟩
      rcases List.mem_cons.mp hu with rfl | hu
      · exact hext'.visited u (hw u List.mem_cons_self)
      · exact hws u hu

lemma Visits.list (hws : ∀ w ∈ ws, ∀ c', Extends c c' → Closed E c' →
      ∀ below, Visits N E push [w] below c')
    (hclosed : Closed E c) : Visits N E push ws below c := by
  induction ws generalizing c with
  | nil => exact .nil hclosed
  | cons w ws ih =>
      refine .cons (hws w List.mem_cons_self c (.refl c) hclosed _) fun c' hext hclosed' => ?_
      exact ih (fun u hu c'' hext' =>
        hws u (List.mem_cons_of_mem w hu) c'' (hext.trans hext')) hclosed'

lemma Closed.enter (h : Closed E c) (hc : c v ≠ .visited) : Closed E (paint c v .inProgress) := by
  intro u w hu hedge
  obtain ⟨-, hu⟩ := visited_of_paint_inProgress hu
  have hw := h u w hu hedge
  rwa [paint_of_ne]
  rintro rfl
  exact hc hw

lemma Closed.leave (h : Closed E c) (hsucc : ∀ w, E v w → c w = .visited) :
    Closed E (paint c v .visited) := by
  intro u w hu hedge
  have hw : c w = .visited := by
    by_cases huv : u = v
    · exact hsucc w (huv ▸ hedge)
    · rw [paint_of_ne huv] at hu
      exact h u w hu hedge
  by_cases hwv : w = v
  · rw [hwv, paint_self]
  · rwa [paint_of_ne hwv]

lemma Extends.leave (h : Extends (paint c v .inProgress) c') (hc : c v = .unvisited) :
    Extends c (paint c' v .visited) where
  visited u hu := by
    have huv : u ≠ v := by
      rintro rfl
      exact absurd (hc.symm.trans hu) (by simp)
    rw [paint_of_ne huv]
    exact h.visited u (by rwa [paint_of_ne huv])
  inProgress u := by
    by_cases huv : u = v
    · simp [huv, hc]
    · have := h.inProgress u
      rwa [paint_of_ne huv] at this ⊢

/-- A visit of a sound node that leads to no node in progress. -/
theorem exists_visit (henum : Enumerates E push) (hv : v ∈ N) (hsound : Sound N E v)
    (hgray : ∀ w, ReflTransGen E v w → c w ≠ .inProgress) (hclosed : Closed E c) :
    Visits N E push [v] below c := by
  induction hn : (descendants N E v).card using Nat.strong_induction_on
    generalizing v c below with
  | _ n ih =>
      subst hn
      cases hc : c v with
      | visited => exact ⟨_, .refl, Or.inl ⟨v, below, rfl, hc⟩⟩
      | inProgress => exact absurd hc (hgray v .refl)
      | unvisited =>
          have hsucc : ∀ w, E v w → w ∈ N ∧ w ≠ v ∧ c w ≠ .inProgress := by
            intro w hw
            refine ⟨hsound.edge v .refl w hw, ?_, hgray w (.single hw)⟩
            rintro rfl
            exact hsound.acyclic w .refl (.single hw)
          have henter : Step N E push ⟨v :: below, c⟩ _ := .enter hv hc hsucc
          have hwhite : c v ≠ .visited := by simp [hc]
          obtain ⟨cfg, hsteps, hstuck | ⟨hstack, hws, hext, hclosed'⟩⟩ :
              Visits N E push ((push v).filter fun w => c w = .unvisited) (v :: below)
                (paint c v .inProgress) := by
            refine .list (fun w hw c' hext hclosed' below' => ?_) (hclosed.enter hwhite)
            have hedge := ((henum v).2 w).mp (List.mem_of_mem_filter hw)
            refine ih _ (hsound.card_descendants_lt hedge) (hsucc w hedge).1
              (hsound.of_edge hedge) (fun u hu hgray' => ?_) hclosed' rfl
            -- a node in progress that `w` leads to would be `v`, on a cycle
            have hpaint := (hext.inProgress u).mp hgray'
            by_cases huv : u = v
            · subst huv
              exact hsound.acyclic u .refl (.head' hedge hu)
            · rw [paint_of_ne huv] at hpaint
              exact hgray u (.head hedge hu) hpaint
          · exact ⟨cfg, .head henter hsteps, Or.inl hstuck⟩
          · obtain ⟨stack, c'⟩ := cfg
            subst hstack
            have hdone : ∀ w, E v w → c' w = .visited := by
              intro w hw
              obtain ⟨-, hwv, hgrayw⟩ := hsucc w hw
              cases hcw : c w with
              | unvisited =>
                  exact hws w (List.mem_filter.mpr ⟨((henum v).2 w).mpr hw, decide_eq_true hcw⟩)
              | inProgress => exact absurd hcw hgrayw
              | visited => exact hext.visited w (by rwa [paint_of_ne hwv])
            have hleave : Step N E push ⟨v :: below, c'⟩ _ :=
              .leave hv ((hext.inProgress v).mpr (paint_self ..)) hdone
            refine ⟨_, .head henter (hsteps.tail hleave), Or.inr ⟨rfl, fun w hw => ?_,
              hext.leave hc, hclosed'.leave hdone⟩⟩
            rw [List.mem_singleton.mp hw]
            exact paint_self ..

end Visits

/-! ### The way down to a shortcut -/

section Descent

variable {V : Type*} [DecidableEq V] {N : Finset V} {E : V → V → Prop} {push : V → List V}
  {head u v : V} {path below : List V}

/-- The nodes of the path in progress, and no other node visited. -/
def onPath (path : List V) (v : V) : Color := if v ∈ path then .inProgress else .unvisited

lemma paint_onPath : paint (onPath path) u .inProgress = onPath (u :: path) := by
  funext v
  by_cases hvu : v = u
  · simp [hvu, onPath]
  · simp [hvu, onPath]

/-- Each node of the path but the last one puts its successor there on top. -/
def Leads (push : V → List V) : List V → Prop :=
  List.IsChain fun v u => (push u).head? = some v

/-- An enumeration may begin with any of the successors. -/
lemma Enumerates.update (henum : Enumerates E push) {front : List V} (hnodup : front.Nodup)
    (hfront : ∀ w ∈ front, E u w) :
    Enumerates E (Function.update push u (front ++ (push u).filter (· ∉ front))) := by
  intro v
  by_cases hvu : v = u
  · subst hvu
    rw [Function.update_self]
    refine ⟨hnodup.append ((henum v).1.filter _) fun w hw hw' => ?_, fun w => ?_⟩
    · exact of_decide_eq_true (List.mem_filter.mp hw').2 hw
    · rw [List.mem_append, List.mem_filter, (henum v).2 w, decide_eq_true_iff]
      by_cases hw : w ∈ front
      · simp [hw, hfront w hw]
      · simp [hw]
  · rw [Function.update_of_ne hvu]
    exact henum v

lemma exists_leads (henum : Enumerates E push) (hpath : OpenPath N E head (u :: path))
    (front : List V) (hnodup : front.Nodup) (hfront : ∀ w ∈ front, E u w) :
    ∃ push', Enumerates E push' ∧ front <+: push' u ∧ Leads push' (u :: path) := by
  induction path generalizing u front with
  | nil =>
      refine ⟨_, henum.update hnodup hfront, ?_, .singleton _⟩
      rw [Function.update_self]
      exact List.prefix_append ..
  | cons p path ih =>
      cases hpath with
      | next hpath hedge =>
          obtain ⟨push', henum', hprefix, hleads⟩ := ih hpath [u]
            (List.nodup_singleton u) (fun w hw => List.mem_singleton.mp hw ▸ hedge)
          have hne : ∀ q ∈ p :: path, q ≠ u := by
            rintro q hq rfl
            exact (hpath.clear hedge).2 hq
          refine ⟨_, henum'.update hnodup hfront, ?_, ?_⟩
          · rw [Function.update_self]
            exact List.prefix_append ..
          · have hhead : (push' p).head? = some u := by
              obtain ⟨rest, hrest⟩ := hprefix
              exact List.head?_eq_some_iff.mpr ⟨rest, hrest.symm⟩
            refine .cons_cons (by rwa [Function.update_of_ne (hne p List.mem_cons_self)]) ?_
            refine hleads.imp_of_mem_imp fun v q _ hq hvq => ?_
            rwa [Function.update_of_ne (hne q hq)]

lemma step_onPath (hpath : OpenPath N E head (u :: path)) (hu : u ∈ N)
    (henum : Enumerates E push) :
    Step N E push ⟨u :: below, onPath path⟩ ⟨push u ++ u :: below, onPath (u :: path)⟩ := by
  have hclear : ∀ w, E u w → w ∈ N ∧ w ≠ u ∧ onPath path w = .unvisited := by
    intro w hw
    obtain ⟨hN, hmem⟩ := hpath.clear hw
    rw [List.mem_cons, not_or] at hmem
    exact ⟨hN, hmem.1, if_neg hmem.2⟩
  have hwhite : onPath path u = .unvisited := if_neg hpath.notMem
  have hstep : Step N E push ⟨u :: below, onPath path⟩ _ := .enter hu hwhite
    fun w hw => ⟨(hclear w hw).1, (hclear w hw).2.1, by simp [(hclear w hw).2.2]⟩
  have hfilter : (push u).filter (fun w => onPath path w = .unvisited) = push u :=
    List.filter_eq_self.mpr fun w hw =>
      decide_eq_true (hclear w (((henum u).2 w).mp hw)).2.2
  rwa [hfilter, paint_onPath] at hstep

lemma exists_descent (hhead : head ∈ N) (henum : Enumerates E push)
    (hpath : OpenPath N E head (u :: path)) (hleads : Leads push (u :: path)) :
    ∃ below, ReflTransGen (Step N E push) (start head)
      ⟨push u ++ below, onPath (u :: path)⟩ := by
  induction path generalizing u with
  | nil =>
      cases hpath with
      | first hclear => exact ⟨[head], .single (step_onPath (.first hclear) hhead henum)⟩
  | cons p path ih =>
      cases hpath with
      | next hpath hedge hclear =>
          obtain ⟨hlead, hleads⟩ := List.isChain_cons_cons.mp hleads
          obtain ⟨below, hsteps⟩ := ih hpath hleads
          obtain ⟨rest, hrest⟩ := List.head?_eq_some_iff.mp hlead
          rw [hrest, List.cons_append] at hsteps
          have hstep : Step N E push ⟨u :: (rest ++ below), onPath (p :: path)⟩ _ :=
            step_onPath (.next hpath hedge hclear) (hpath.clear hedge).1 henum
          exact ⟨u :: (rest ++ below), hsteps.tail hstep⟩

/-- **With a shortcut in the graph, some order of the successors makes a search
stuck**: the successor that leads to the other one is visited first, and the
other one with it. -/
theorem exists_stuck (hhead : head ∈ N) (henum : Enumerates E push)
    (hshortcut : HasShortcut N E head) :
    ∃ push', Enumerates E push'
      ∧ ∃ cfg, ReflTransGen (Step N E push') (start head) cfg ∧ Stuck cfg := by
  obtain ⟨u, path, v, w, hpath, huv, huw, hne, hreach, hsound⟩ := hshortcut
  obtain ⟨push', henum', ⟨rest, hrest⟩, hleads⟩ :=
    exists_leads henum hpath [v, w] (by simpa using hne) (by simp [huv, huw])
  obtain ⟨below, hsteps⟩ := exists_descent hhead henum' hpath hleads
  rw [← hrest] at hsteps
  have hgray : ∀ x, ReflTransGen E v x → onPath (u :: path) x ≠ .inProgress := by
    intro x hx hx'
    have hmem : x ∈ u :: path := by
      by_contra hmem
      rw [onPath, if_neg hmem] at hx'
      cases hx'
    -- then `v` leads back to `u`
    exact hsound.acyclic v .refl (.tail' (hx.trans (hpath.reaches hmem)) huv)
  have hclosed : Closed E (onPath (u :: path)) := by
    intro x y hx
    rw [onPath] at hx
    split_ifs at hx
  obtain ⟨cfg, hsteps', hstuck | ⟨hstack, hvisited, -, hclosed'⟩⟩ :
      Visits N E push' [v] (w :: (rest ++ below)) (onPath (u :: path)) :=
    exists_visit henum' (hpath.clear huv).1 hsound hgray hclosed
  · exact ⟨push', henum', cfg, hsteps.trans hsteps', hstuck⟩
  · have hv := hvisited v List.mem_cons_self
    exact ⟨push', henum', cfg, hsteps.trans hsteps', w, rest ++ below, hstack,
      hclosed'.reaches hv hreach.to_reflTransGen⟩

end Descent

end DepthFirst
