import Mathlib.Algebra.Order.BigOperators.Group.Finset
import Mathlib.Logic.Function.Basic
import Mathlib.Logic.Relation
import Mathlib.Tactic.Lemma

/-!
Coloured depth-first search with an explicit stack.

A node is on the stack from when an in-edge of it is followed until its subtree
is done. The same node may be put there by several in-edges before its visit, so
that it is still on the stack once it is visited.

* `Step`: a pass that enters an unvisited node, putting its unvisited successors
  above it, or leaves a node in progress. `Stuck`: the node on top is visited.
* `Framed`: the stack is a pile of frames, one for each node in progress, and
  these form a path from the start, none of whose nodes has an edge back to it.
* `framed_step`: the step lemma. `Framed.successors_visited`: a node in progress
  that is on top has visited successors only.
* `pendingVisits_lt`: each step leaves fewer visits to be made.
-/

namespace DepthFirst

open Relation

/-- The progress of the visit of a node. -/
inductive Color where
  | unvisited
  | inProgress
  | visited
deriving DecidableEq

/-- The stack, top first, and the colours. -/
structure Config (V : Type*) where
  stack : List V
  color : V → Color

section Definitions

variable {V : Type*} [DecidableEq V]

/-- The start: the head alone on the stack. -/
def start (head : V) : Config V := ⟨[head], fun _ => .unvisited⟩

/-- The node is given another colour. -/
def paint (c : V → Color) (v : V) (color : Color) : V → Color := Function.update c v color

@[simp] lemma paint_self (c : V → Color) (v : V) (color : Color) : paint c v color v = color :=
  Function.update_self ..

@[simp] lemma paint_of_ne {c : V → Color} {v w : V} {color : Color} (h : w ≠ v) :
    paint c v color w = c w :=
  Function.update_of_ne h ..

/-- A pass over a graph with the nodes `N` and the edges `E`. The successors of
a node `v` go on the stack in the order of `push v`. -/
inductive Step (N : Finset V) (E : V → V → Prop) (push : V → List V) : Config V → Config V → Prop
  | enter {v : V} {below : List V} {c : V → Color} (hv : v ∈ N) (hc : c v = .unvisited)
      (hsucc : ∀ w, E v w → w ∈ N ∧ w ≠ v ∧ c w ≠ .inProgress) :
      Step N E push ⟨v :: below, c⟩
        ⟨(push v).filter (fun w => c w = .unvisited) ++ v :: below, paint c v .inProgress⟩
  | leave {v : V} {below : List V} {c : V → Color} (hv : v ∈ N) (hc : c v = .inProgress)
      (hsucc : ∀ w, E v w → c w = .visited) :
      Step N E push ⟨v :: below, c⟩ ⟨below, paint c v .visited⟩

/-- The node on top of the stack is visited already. -/
def Stuck (cfg : Config V) : Prop := ∃ v below, cfg.stack = v :: below ∧ cfg.color v = .visited

/-- The order lists the successors of each node once. -/
def Enumerates (E : V → V → Prop) (push : V → List V) : Prop :=
  ∀ v, (push v).Nodup ∧ ∀ w, w ∈ push v ↔ E v w

/-- The steps that the visit of a node still takes. -/
def Color.visits : Color → ℕ
  | .unvisited => 2
  | .inProgress => 1
  | .visited => 0

def pendingVisits (N : Finset V) (c : V → Color) : ℕ := ∑ v ∈ N, (c v).visits

/-- A path from the head, last node first: the edges out of each node lead to
nodes of the graph that are not on the path up to it. -/
inductive OpenPath (N : Finset V) (E : V → V → Prop) (head : V) : List V → Prop
  | nil : OpenPath N E head []
  | first (hclear : ∀ w, E head w → w ∈ N ∧ w ≠ head) : OpenPath N E head [head]
  | next {u v : V} {path : List V} (hpath : OpenPath N E head (u :: path)) (hedge : E u v)
      (hclear : ∀ w, E v w → w ∈ N ∧ w ∉ v :: u :: path) : OpenPath N E head (v :: u :: path)

end Definitions

section Paths

variable {V : Type*} {N : Finset V} {E : V → V → Prop} {head u v w : V} {path : List V}

lemma OpenPath.tail (h : OpenPath N E head (v :: path)) : OpenPath N E head path := by
  cases h with
  | first => exact .nil
  | next hpath => exact hpath

lemma OpenPath.clear (h : OpenPath N E head (v :: path)) (hedge : E v w) :
    w ∈ N ∧ w ∉ v :: path := by
  cases h with
  | first hclear => simpa using hclear w hedge
  | next _ _ hclear => exact hclear w hedge

lemma OpenPath.notMem (h : OpenPath N E head (v :: path)) : v ∉ path := by
  cases h with
  | first => exact List.not_mem_nil
  | next hpath hedge => exact (hpath.clear hedge).2

/-- The nodes of the path lead to its last one. -/
lemma OpenPath.reaches (h : OpenPath N E head (v :: path)) (hu : u ∈ v :: path) :
    ReflTransGen E u v := by
  induction path generalizing v with
  | nil => rw [List.mem_singleton.mp hu]
  | cons p path ih =>
      rcases List.mem_cons.mp hu with rfl | hu
      · exact .refl
      · cases h with
        | next hpath hedge => exact (ih hpath hu).tail hedge

end Paths

/-- A node that the search cannot enter has a successor that stops it. -/
lemma exists_blocking {V : Type*} [DecidableEq V] {N : Finset V} {E : V → V → Prop}
    {push : V → List V} {v : V} {below : List V} {c : V → Color} (hv : v ∈ N)
    (hc : c v = .unvisited) (hstep : ∀ cfg, ¬ Step N E push ⟨v :: below, c⟩ cfg) :
    ∃ w, E v w ∧ (w ∉ N ∨ w = v ∨ c w = .inProgress) := by
  by_contra hnone
  simp only [not_exists, not_and, not_or, not_not] at hnone
  exact hstep _ (.enter hv hc hnone)

/-! ### The frames of the stack -/

/-- A node in progress below those of its successors that wait for a visit. -/
structure Frame (V : Type*) where
  node : V
  pending : List V

/-- The part of the stack that a frame takes up. -/
def Frame.entries {V : Type*} (f : Frame V) : List V := f.pending ++ [f.node]

section Frames

variable {V : Type*}

/-- A node that another edge out of `u` leads to as well, over a successor of
`u` that is visited or is the node in progress above `u`. -/
def Shadowed (E : V → V → Prop) (c : V → Color) (above : Option V) (u w : V) : Prop :=
  ∃ w', E u w' ∧ w' ≠ w ∧ TransGen E w' w ∧ (c w' = .visited ∨ above = some w')

/-- A frame below the node in progress `above`. -/
structure Frame.Ok (E : V → V → Prop) (c : V → Color) (above : Option V) (f : Frame V) : Prop where
  above_edge : ∀ a, above = some a → E f.node a
  nodup : f.pending.Nodup
  edge : ∀ w ∈ f.pending, E f.node w
  covered : ∀ w, E f.node w → w ∈ f.pending ∨ c w = .visited ∨ above = some w
  shadowed : ∀ w ∈ f.pending, c w = .unvisited ∨ Shadowed E c above f.node w

/-- The frames below the node in progress `above`, from the top. -/
inductive Frames (E : V → V → Prop) (c : V → Color) : Option V → List (Frame V) → Prop
  | nil {above : Option V} : Frames E c above []
  | cons {above : Option V} {f : Frame V} {fs : List (Frame V)} (hf : f.Ok E c above)
      (hfs : Frames E c (some f.node) fs) : Frames E c above (f :: fs)

/-- The stack of a search under way. -/
structure Framed (N : Finset V) (E : V → V → Prop) (head : V) (cfg : Config V)
    (fs : List (Frame V)) : Prop where
  stack : cfg.stack = fs.flatMap Frame.entries
  frames : Frames E cfg.color none fs
  path : OpenPath N E head (fs.map Frame.node)
  inProgress : ∀ v, cfg.color v = .inProgress ↔ v ∈ fs.map Frame.node
  closed : ∀ v, cfg.color v = .visited → ∀ w, E v w → w ∈ N ∧ cfg.color w = .visited
  acyclic : ∀ v, cfg.color v = .visited → ¬ TransGen E v v

variable {N : Finset V} {E : V → V → Prop} {head : V} {cfg : Config V} {fs : List (Frame V)}
  {f : Frame V} {c c' : V → Color} {above above' : Option V} {u v w : V}

/-- What is visited, or passes from being in progress to it, stays a witness. -/
lemma Shadowed.mono (h : Shadowed E c above u w)
    (hvisited : ∀ w, c w = .visited → c' w = .visited)
    (habove : ∀ a, above = some a → above' = some a ∨ c' a = .visited) :
    Shadowed E c' above' u w := by
  obtain ⟨w', hedge, hne, hreach, hw'⟩ := h
  refine ⟨w', hedge, hne, hreach, ?_⟩
  rcases hw' with hw' | hw'
  · exact Or.inl (hvisited w' hw')
  · exact (habove w' hw').symm

lemma Frame.Ok.mono (h : f.Ok E c above) (hvisited : ∀ w, c w = .visited → c' w = .visited)
    (habove : ∀ a, above = some a → above' = some a ∨ c' a = .visited)
    (hedge : ∀ a, above' = some a → E f.node a)
    (hwhite : ∀ w ∈ f.pending, c w = .unvisited →
      c' w = .unvisited ∨ Shadowed E c' above' f.node w) :
    f.Ok E c' above' := by
  refine ⟨hedge, h.nodup, h.edge, fun w hw => ?_, fun w hw => ?_⟩
  · rcases h.covered w hw with hp | hv | ha
    · exact Or.inl hp
    · exact Or.inr (Or.inl (hvisited w hv))
    · exact Or.inr (habove w ha).symm
  · rcases h.shadowed w hw with hu | hs
    · exact hwhite w hw hu
    · exact Or.inr (hs.mono hvisited habove)

/-- The successors of a visited node are visited, and so is all it leads to. -/
lemma Framed.reaches_visited (h : Framed N E head cfg fs) (hv : cfg.color v = .visited)
    (hreach : ReflTransGen E v w) : cfg.color w = .visited := by
  induction hreach with
  | refl => exact hv
  | tail _ hedge ih => exact (h.closed _ ih _ hedge).2

/-- Where the node on top of the stack comes from. -/
inductive Top (E : V → V → Prop) (c : V → Color) (v : V) (below : List V) (fs : List (Frame V)) :
    Prop
  /-- its frame has nothing pending -/
  | ofFrame (fs' : List (Frame V)) (hfs : fs = ⟨v, []⟩ :: fs')
      (hbelow : below = fs'.flatMap Frame.entries) (hok : Frame.Ok E c none ⟨v, []⟩)
      (hframes : Frames E c (some v) fs')
  /-- it is pending in the top frame -/
  | ofPending (u : V) (pending : List V) (fs' : List (Frame V))
      (hfs : fs = ⟨u, v :: pending⟩ :: fs')
      (hbelow : below = pending ++ u :: fs'.flatMap Frame.entries)
      (hok : Frame.Ok E c none ⟨u, v :: pending⟩) (hframes : Frames E c (some u) fs')

lemma Framed.top (h : Framed N E head cfg fs) {below : List V} (hstack : cfg.stack = v :: below) :
    Top E cfg.color v below fs := by
  have hcons := hstack.symm.trans h.stack
  have hframes := h.frames
  cases fs with
  | nil => cases hcons
  | cons f fs =>
      obtain ⟨u, pending⟩ := f
      cases hframes with
      | cons hf hfs =>
          cases pending with
          | nil =>
              obtain ⟨rfl, rfl⟩ := List.cons.inj hcons
              exact .ofFrame fs rfl rfl hf hfs
          | cons p pending =>
              obtain ⟨rfl, rfl⟩ := List.cons.inj hcons
              exact .ofPending u pending fs rfl (List.append_assoc pending [u] _) hf hfs

/-- A node in progress on top has visited successors only. -/
lemma Framed.successors_visited (h : Framed N E head cfg fs) {below : List V}
    (hstack : cfg.stack = v :: below) (hv : cfg.color v = .inProgress) :
    ∃ fs', fs = ⟨v, []⟩ :: fs' ∧ below = fs'.flatMap Frame.entries
      ∧ ∀ w, E v w → cfg.color w = .visited := by
  cases h.top hstack with
  | ofFrame fs' hfs hbelow hok _ =>
      refine ⟨fs', hfs, hbelow, fun w hw => ?_⟩
      rcases hok.covered w hw with hp | hw | ha
      · cases hp
      · exact hw
      · cases ha
  | ofPending u pending fs' _ _ hok _ =>
      -- a pending node in progress is reached from a visited one, hence visited
      rcases hok.shadowed v List.mem_cons_self with hu | ⟨w', -, -, hreach, hw' | hw'⟩
      · exact absurd (hv.symm.trans hu) (by simp)
      · have := h.reaches_visited hw' hreach.to_reflTransGen
        exact absurd (hv.symm.trans this) (by simp)
      · cases hw'

/-- Entering `v` shadows it for the frames below, unless it is not pending there. -/
lemma Frames.enter [DecidableEq V] (h : Frames E c above fs) {a : V} (habove : above = some a)
    (hreach : TransGen E a v) (hav : a ≠ v) (hnode : ∀ f ∈ fs, f.node ≠ v)
    (hv : c v = .unvisited) : Frames E (paint c v .inProgress) above fs := by
  subst habove
  induction fs generalizing a with
  | nil => exact .nil
  | cons f fs ih =>
      cases h with
      | cons hf hfs =>
          have hedge : E f.node a := hf.above_edge a rfl
          refine .cons (hf.mono (fun w hw => ?_) (fun _ => Or.inl) hf.above_edge
            fun w _ hw => ?_) (ih ?_ ?_ ?_ hfs)
          · rwa [paint_of_ne]
            rintro rfl
            rw [hv] at hw
            cases hw
          · by_cases hwv : w = v
            · subst hwv
              exact Or.inr ⟨a, hedge, hav, hreach, Or.inr rfl⟩
            · exact Or.inl (by rwa [paint_of_ne hwv])
          · exact TransGen.head hedge hreach
          · exact hnode f List.mem_cons_self
          · exact fun f' hf' => hnode f' (List.mem_cons_of_mem f hf')

/-- Leaving `v` makes a visited witness of it. -/
lemma Frames.leave [DecidableEq V] (h : Frames E c above fs) (hv : c v = .inProgress)
    (habove : ∀ a, above = some a → above' = some a ∨ a = v)
    (hedge : ∀ a, above' = some a → above = some a) :
    Frames E (paint c v .visited) above' fs := by
  have hvisited : ∀ w, c w = .visited → paint c v .visited w = .visited := by
    intro w hw
    by_cases hwv : w = v
    · rw [hwv, paint_self]
    · rwa [paint_of_ne hwv]
  induction fs generalizing above above' with
  | nil => exact .nil
  | cons f fs ih =>
      cases h with
      | cons hf hfs =>
          refine .cons (hf.mono hvisited (fun a ha => ?_) (fun a ha => hf.above_edge a (hedge a ha))
            fun w _ hw => Or.inl ?_) (ih hfs (fun _ => Or.inl) fun _ => id)
          · rcases habove a ha with ha | rfl
            · exact Or.inl ha
            · exact Or.inr (paint_self ..)
          · rwa [paint_of_ne]
            rintro rfl
            rw [hv] at hw
            cases hw

end Frames

/-! ### A step of the search -/

section Steps

variable {V : Type*} [DecidableEq V] {N : Finset V} {E : V → V → Prop} {push : V → List V}
  {head : V} {cfg cfg' : Config V} {fs : List (Frame V)} {c : V → Color} {v : V} {below : List V}

/-- The configurations of a search from `head`. -/
def Searching (N : Finset V) (E : V → V → Prop) (head : V) (cfg : Config V) : Prop :=
  cfg = start head ∨ ∃ fs, Framed N E head cfg fs

/-- The frame of a node just entered. -/
lemma entered_ok (henum : Enumerates E push)
    (hsucc : ∀ w, E v w → w ∈ N ∧ w ≠ v ∧ c w ≠ .inProgress) :
    Frame.Ok E (paint c v .inProgress) none
      ⟨v, (push v).filter fun w => c w = .unvisited⟩ where
  above_edge _ h := by cases h
  nodup := (henum v).1.filter _
  edge w hw := ((henum v).2 w).mp (List.mem_of_mem_filter hw)
  covered w hw := by
    obtain ⟨-, hwv, hgray⟩ := hsucc w hw
    cases hcw : c w with
    | unvisited =>
        exact Or.inl (List.mem_filter.mpr ⟨((henum v).2 w).mpr hw, decide_eq_true hcw⟩)
    | inProgress => exact absurd hcw hgray
    | visited => exact Or.inr (Or.inl (by rwa [paint_of_ne hwv]))
  shadowed w hw := by
    obtain ⟨hw, hcw⟩ := List.mem_filter.mp hw
    obtain ⟨-, hwv, -⟩ := hsucc w (((henum v).2 w).mp hw)
    exact Or.inl (by rw [paint_of_ne hwv]; exact of_decide_eq_true hcw)

/-- Painting an unvisited node does not touch the visited ones. -/
lemma visited_of_paint_inProgress {w : V} (hc : paint c v .inProgress w = .visited) :
    w ≠ v ∧ c w = .visited := by
  have hwv : w ≠ v := by
    rintro rfl
    rw [paint_self] at hc
    cases hc
  exact ⟨hwv, by rwa [paint_of_ne hwv] at hc⟩

/-- The frame that the node on top was pending in. -/
lemma Frame.Ok.advance {u : V} {pending : List V} (h : Frame.Ok E c none ⟨u, v :: pending⟩)
    (hc : c v = .unvisited) : Frame.Ok E (paint c v .inProgress) (some v) ⟨u, pending⟩ where
  above_edge a ha := by
    cases ha
    exact h.edge v List.mem_cons_self
  nodup := (List.nodup_cons.mp h.nodup).2
  edge w hw := h.edge w (List.mem_cons_of_mem v hw)
  covered w hw := by
    by_cases hwv : w = v
    · exact Or.inr (Or.inr (by rw [hwv]))
    · rw [paint_of_ne hwv]
      rcases h.covered w hw with hp | hvisited | ha
      · exact Or.inl ((List.mem_cons.mp hp).resolve_left hwv)
      · exact Or.inr (Or.inl hvisited)
      · cases ha
  shadowed w hw := by
    have hwv : w ≠ v := fun hwv => (List.nodup_cons.mp h.nodup).1 (hwv ▸ hw)
    rcases h.shadowed w (List.mem_cons_of_mem v hw) with hu | ⟨w', hw', hne, hreach, hw'' | ha⟩
    · exact Or.inl (by rwa [paint_of_ne hwv])
    · refine Or.inr ⟨w', hw', hne, hreach, Or.inl ?_⟩
      rwa [paint_of_ne]
      rintro rfl
      rw [hc] at hw''
      cases hw''
    · cases ha

lemma framed_start_enter (henum : Enumerates E push)
    (hsucc : ∀ w, E head w → w ∈ N ∧ w ≠ head) :
    Framed N E head
      ⟨(push head).filter (fun w => (start head).color w = .unvisited) ++ [head],
        paint (start head).color head .inProgress⟩
      [⟨head, (push head).filter fun w => (start head).color w = .unvisited⟩] where
  stack := by simp [Frame.entries]
  frames := .cons (entered_ok henum fun w hw =>
    ⟨(hsucc w hw).1, (hsucc w hw).2, by simp [start]⟩) .nil
  path := .first hsucc
  inProgress w := by
    by_cases hw : w = head
    · simp [hw]
    · simp [hw, start]
  closed w hw := by
    obtain ⟨-, hw⟩ := visited_of_paint_inProgress hw
    cases hw
  acyclic w hw := by
    obtain ⟨-, hw⟩ := visited_of_paint_inProgress hw
    cases hw

lemma Framed.enter (h : Framed N E head ⟨v :: below, c⟩ fs) (henum : Enumerates E push)
    (hc : c v = .unvisited) (hsucc : ∀ w, E v w → w ∈ N ∧ w ≠ v ∧ c w ≠ .inProgress) :
    ∃ fs', Framed N E head
      ⟨(push v).filter (fun w => c w = .unvisited) ++ v :: below, paint c v .inProgress⟩ fs' := by
  cases h.top rfl with
  | ofFrame fs' hfs _ _ _ =>
      have hgray : c v = .inProgress := (h.inProgress v).mpr (by rw [hfs]; exact List.mem_cons_self)
      exact absurd (hc.symm.trans hgray) (by simp)
  | ofPending u pending fs' hfs hbelow hok hframes =>
      -- the node on top moves from the pending ones to a frame of its own
      subst hfs
      have hnode : ∀ f ∈ (⟨u, v :: pending⟩ : Frame V) :: fs', f.node ≠ v := by
        rintro f hmem rfl
        have hgray : c f.node = .inProgress :=
          (h.inProgress f.node).mpr (List.mem_map_of_mem hmem)
        exact absurd (hc.symm.trans hgray) (by simp)
      have hedge : E u v := hok.edge v List.mem_cons_self
      refine ⟨⟨v, (push v).filter fun w => c w = .unvisited⟩ :: ⟨u, pending⟩ :: fs', ?_⟩
      refine ⟨?_, .cons (entered_ok henum hsucc) (.cons (hok.advance hc) ?_),
        .next h.path hedge fun w hw => ?_, fun w => ?_, fun w hw w' hedge' => ?_, fun w hw => ?_⟩
      · simp [Frame.entries, hbelow]
      · exact hframes.enter rfl (.single hedge) (hnode _ List.mem_cons_self)
          (fun f hmem => hnode f (List.mem_cons_of_mem _ hmem)) hc
      · obtain ⟨hN, hwv, hgray⟩ := hsucc w hw
        refine ⟨hN, fun hmem => ?_⟩
        rcases List.mem_cons.mp hmem with rfl | hmem
        · exact hwv rfl
        · exact hgray ((h.inProgress w).mpr hmem)
      · by_cases hwv : w = v
        · simp [hwv]
        · have := h.inProgress w
          simp only [List.map_cons, List.mem_cons] at this
          simp [hwv, this]
      · obtain ⟨-, hvisited⟩ := visited_of_paint_inProgress hw
        obtain ⟨hN, hvisited'⟩ := h.closed w hvisited w' hedge'
        refine ⟨hN, ?_⟩
        show paint c v .inProgress w' = .visited
        rwa [paint_of_ne]
        rintro rfl
        exact absurd (hc.symm.trans hvisited') (by simp)
      · exact h.acyclic w (visited_of_paint_inProgress hw).2

lemma Framed.leave (h : Framed N E head ⟨v :: below, c⟩ fs) (hc : c v = .inProgress) :
    ∃ fs', Framed N E head ⟨below, paint c v .visited⟩ fs' := by
  obtain ⟨fs, rfl, hbelow, hsucc⟩ := h.successors_visited rfl hc
  have hfs : Frames E c (some v) fs := by
    cases h.frames with
    | cons _ hfs => exact hfs
  have hvisited : ∀ w, paint c v .visited w = .visited ↔ w = v ∨ c w = .visited := by
    intro w
    by_cases hwv : w = v
    · simp [hwv]
    · simp [hwv]
  have hclosed : ∀ w, w = v ∨ c w = .visited → ∀ w', E w w' → w' ∈ N ∧ c w' = .visited := by
    rintro w (rfl | hw) w' hedge
    · exact ⟨(h.path.clear hedge).1, hsucc w' hedge⟩
    · exact h.closed w hw w' hedge
  refine ⟨fs, hbelow, hfs.leave hc (fun a ha => Or.inr (Option.some.inj ha).symm) (by simp),
    h.path.tail, fun w => ?_, fun w hw w' hedge => ?_, fun w hw hcycle => ?_⟩
  · by_cases hwv : w = v
    · simpa [hwv] using h.path.notMem
    · have := h.inProgress w
      simp only [List.map_cons, List.mem_cons, hwv, false_or] at this
      simpa [hwv] using this
  · obtain ⟨hN, hw'⟩ := hclosed w ((hvisited w).mp hw) w' hedge
    exact ⟨hN, (hvisited w').mpr (Or.inr hw')⟩
  · rcases (hvisited w).mp hw with rfl | hw
    · -- a cycle through `w` would pass through a visited successor of it
      obtain ⟨w', hedge, hback⟩ := TransGen.head'_iff.mp hcycle
      have := h.reaches_visited (hsucc w' hedge) hback
      exact absurd (hc.symm.trans this) (by simp)
    · exact h.acyclic w hw hcycle

theorem framed_step (henum : Enumerates E push) (h : Searching N E head cfg)
    (hstep : Step N E push cfg cfg') : ∃ fs, Framed N E head cfg' fs := by
  cases hstep with
  | enter _ hc hsucc =>
      rcases h with hstart | ⟨fs, h⟩
      · obtain ⟨hcons, rfl⟩ := Config.mk.inj hstart
        obtain ⟨rfl, rfl⟩ := List.cons.inj hcons
        exact ⟨_, framed_start_enter henum fun w hw => ⟨(hsucc w hw).1, (hsucc w hw).2.1⟩⟩
      · exact h.enter henum hc hsucc
  | leave _ hc _ =>
      rcases h with hstart | ⟨fs, h⟩
      · obtain ⟨-, rfl⟩ := Config.mk.inj hstart
        cases hc
      · exact h.leave hc

omit [DecidableEq V] in
/-- A node in progress on top of the stack has visited successors only. -/
lemma Searching.successors_visited (h : Searching N E head cfg) (hstack : cfg.stack = v :: below)
    (hv : cfg.color v = .inProgress) {w : V} (hedge : E v w) : cfg.color w = .visited := by
  rcases h with rfl | ⟨fs, h⟩
  · cases hv
  · obtain ⟨-, -, -, hsucc⟩ := h.successors_visited hstack hv
    exact hsucc w hedge

/-- A node brought forward leaves fewer visits to be made. -/
lemma pendingVisits_paint_lt {color : Color} (hv : v ∈ N) (hlt : color.visits < (c v).visits) :
    pendingVisits N (paint c v color) < pendingVisits N c := by
  refine Finset.sum_lt_sum (fun w _ => ?_) ⟨v, hv, by rwa [paint_self]⟩
  by_cases hwv : w = v
  · rw [hwv, paint_self]
    exact hlt.le
  · rw [paint_of_ne hwv]

theorem pendingVisits_lt (hstep : Step N E push cfg cfg') :
    pendingVisits N cfg'.color < pendingVisits N cfg.color := by
  cases hstep with
  | enter hv hc _ => exact pendingVisits_paint_lt hv (by rw [hc]; decide)
  | leave hv hc _ => exact pendingVisits_paint_lt hv (by rw [hc]; decide)

end Steps

end DepthFirst
