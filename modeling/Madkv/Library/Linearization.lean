import Mathlib.Data.List.Induction
import Mathlib.Logic.Function.Basic
import Mathlib.Order.Lattice
import Mathlib.Tactic.Lemma

/-!
Linearizations of a concurrent history, and what they say about a map.

A history is a list of operations of an arbitrary type. Each has the time of
its invocation `inv` and, once it has returned, the time of its return `ret`,
in a linear order. An object is an effect of each operation on a state and a
relation that says when the answer an operation got is right in a state.

* `Linearizes`: an order of the operations by points of the time line, each
  between invocation and return, in which every answer is right. Operations
  that have not returned may be left out.
* `store`: the map object, an operation writing at most one key.
  `foldl_store_cases`: after a sequence of operations a key holds what the last
  writer of it left, or its first value.
* `Linearizes.value_cases`: the state an operation is answered in holds, at
  each key, a value whose writer was invoked before the answer and with no
  completed writer in between.
* `Serializes`: an order of the operations alone, which keeps the pairs of a relation in
  theirs. `exists_linearizes_iff`: there are points if and only if there is an order that
  keeps the real-time order.
-/

namespace Linearization

/-! ### Maps that operations write to -/

section Store

variable {O K V : Type*} [DecidableEq K]

/-- The effect of an operation that writes at most one key. -/
def store (writes : O → Option (K × V)) (m : K → V) (o : O) : K → V :=
  match writes o with
  | none => m
  | some (k, v) => Function.update m k v

lemma store_of_some {writes : O → Option (K × V)} {o : O} {k : K} {v : V} {m : K → V}
    (h : writes o = some (k, v)) : store writes m o = Function.update m k v := by
  rw [store, h]

lemma store_of_not_writes {writes : O → Option (K × V)} {o : O} {k : K} {m : K → V}
    (h : ∀ v, writes o ≠ some (k, v)) : store writes m o k = m k := by
  cases hw : writes o with
  | none => rw [store, hw]
  | some p =>
      have hne : k ≠ p.1 := by
        rintro rfl
        exact h p.2 hw
      rw [store_of_some hw, Function.update_of_ne hne]

/-- After a sequence of operations a key holds what its last writer left, or
what it held at first. -/
lemma foldl_store_cases (writes : O → Option (K × V)) (m : K → V) (k : K) (l : List O) :
    (∃ pre w post v, l = pre ++ w :: post ∧ writes w = some (k, v)
        ∧ (∀ o ∈ post, ∀ v', writes o ≠ some (k, v')) ∧ l.foldl (store writes) m k = v)
      ∨ ((∀ o ∈ l, ∀ v, writes o ≠ some (k, v)) ∧ l.foldl (store writes) m k = m k) := by
  induction l using List.reverseRecOn with
  | nil => exact Or.inr ⟨by simp, rfl⟩
  | append_singleton l o ih =>
      rw [List.foldl_append, List.foldl_cons, List.foldl_nil]
      by_cases hw : ∃ v, writes o = some (k, v)
      · -- `o` is the last writer
        obtain ⟨v, hv⟩ := hw
        refine Or.inl ⟨l, o, [], v, rfl, hv, by simp, ?_⟩
        rw [store_of_some hv, Function.update_self]
      · have hw' : ∀ v, writes o ≠ some (k, v) := fun v hv => hw ⟨v, hv⟩
        rw [store_of_not_writes hw']
        rcases ih with ⟨pre, w, post, v, rfl, hwk, hpost, hval⟩ | ⟨hall, hval⟩
        · refine Or.inl ⟨pre, w, post ++ [o], v, by simp, hwk, ?_, hval⟩
          intro x hx
          rcases List.mem_append.mp hx with hx | hx
          · exact hpost x hx
          · rw [List.mem_singleton.mp hx]; exact hw'
        · refine Or.inr ⟨?_, hval⟩
          intro x hx
          rcases List.mem_append.mp hx with hx | hx
          · exact hall x hx
          · rw [List.mem_singleton.mp hx]; exact hw'

end Store

/-! ### Linearizations -/

section Points

variable {O σ T : Type*} [LinearOrder T]

/-- Every operation of the sequence is answered right in the state the earlier
ones leave. -/
def Legal (effect : σ → O → σ) (answers : σ → O → Prop) : σ → List O → Prop
  | _, [] => True
  | s, o :: l => answers s o ∧ Legal effect answers (effect s o) l

lemma Legal.answers_at {effect : σ → O → σ} {answers : σ → O → Prop} {o : O}
    {pre post : List O} {s : σ} (h : Legal effect answers s (pre ++ o :: post)) :
    answers (pre.foldl effect s) o := by
  induction pre generalizing s with
  | nil => exact h.1
  | cons x pre ih => exact ih h.2

/-- A sequence is legal if in each place the answer is right in the state that the
operations before it leave. -/
lemma legal_of_getElem? {effect : σ → O → σ} {answers : σ → O → Prop} {l : List O} {s : σ}
    (h : ∀ i o, l[i]? = some o → answers ((l.take i).foldl effect s) o) :
    Legal effect answers s l := by
  induction l generalizing s with
  | nil => trivial
  | cons o l ih => exact ⟨h 0 o rfl, ih fun i o' hi => h (i + 1) o' hi⟩

/-- `L` is a linearization of the history `H` of an object that starts in `s₀`:
each operation at a point between its invocation and its return, all of those
that have returned among them, and every answer right in that order. -/
structure Linearizes (inv : O → T) (ret : O → Option T) (effect : σ → O → σ)
    (answers : σ → O → Prop) (s₀ : σ) (H : List O) (L : List (O × T)) : Prop where
  nodup : (L.map Prod.fst).Nodup
  mem : ∀ p ∈ L, p.1 ∈ H
  complete : ∀ o ∈ H, (ret o).isSome → ∃ t, (o, t) ∈ L
  ordered : L.Pairwise (fun p q => p.2 ≤ q.2)
  afterInv : ∀ p ∈ L, inv p.1 ≤ p.2
  beforeRet : ∀ p ∈ L, ∀ t, ret p.1 = some t → p.2 ≤ t
  legal : Legal effect answers s₀ (L.map Prod.fst)

variable {inv : O → T} {ret : O → Option T}

/-- An operation that returned before another was invoked stands before it. -/
lemma Linearizes.mem_pre {effect : σ → O → σ} {answers : σ → O → Prop} {s₀ : σ} {H : List O}
    {pre post : List (O × T)} {o w : O} {p t : T}
    (hL : Linearizes inv ret effect answers s₀ H (pre ++ (o, p) :: post)) (hw : w ∈ H)
    (hret : ret w = some t) (hlt : t < inv o) : ∃ q, (w, q) ∈ pre := by
  obtain ⟨q, hq⟩ := hL.complete w hw (by simp [hret])
  have hqt : q ≤ t := hL.beforeRet _ hq t hret
  have hop : inv o ≤ p := hL.afterInv (o, p) (by simp)
  have hqp : q < p := lt_of_le_of_lt hqt (lt_of_lt_of_le hlt hop)
  rcases List.mem_append.mp hq with hq | hq
  · exact ⟨q, hq⟩
  · rcases List.mem_cons.mp hq with heq | hq
    · exact absurd (Prod.mk.inj heq).2 (ne_of_lt hqp)
    · have hord := (List.pairwise_append.mp hL.ordered).2.1
      exact absurd hqp (not_lt.mpr ((List.pairwise_cons.mp hord).1 _ hq))

variable {K V : Type*} [DecidableEq K] {writes : O → Option (K × V)}

/-- **Reads of a linearizable map.** An operation that has returned at `t` is
answered in a state that holds, at each key, either a value whose writer was
invoked no later than `t` and with no completed writer in between, or the first
value, no writer having completed before. -/
theorem Linearizes.value_cases {answers : (K → V) → O → Prop} {m₀ : K → V} {H : List O}
    {L : List (O × T)} (hL : Linearizes inv ret (store writes) answers m₀ H L) {o : O} {t : T}
    (ho : o ∈ H) (hret : ret o = some t) :
    ∃ m, answers m o ∧ ∀ k,
      (∃ w ∈ H, writes w = some (k, m k) ∧ inv w ≤ t
          ∧ ∀ w' ∈ H, ∀ v' t', writes w' = some (k, v') → ret w' = some t' → t' < inv o →
              ∀ tw, ret w = some tw → ¬ tw < inv w')
        ∨ (m k = m₀ k
          ∧ ∀ w' ∈ H, ∀ v' t', writes w' = some (k, v') → ret w' = some t' → ¬ t' < inv o) := by
  obtain ⟨p, hp⟩ := hL.complete o ho (by simp [hret])
  obtain ⟨pre, post, rfl⟩ := List.append_of_mem hp
  have hlegal := hL.legal
  rw [List.map_append, List.map_cons] at hlegal
  refine ⟨(pre.map Prod.fst).foldl (store writes) m₀, hlegal.answers_at, fun k => ?_⟩
  have hpt : p ≤ t := hL.beforeRet (o, p) (by simp) t hret
  have hord := List.pairwise_append.mp hL.ordered
  rcases foldl_store_cases writes m₀ k (pre.map Prod.fst) with
    ⟨a, w, b, v, heq, hwk, hb, hval⟩ | ⟨hall, hval⟩
  · obtain ⟨a', r, rfl, rfl, hr⟩ := List.map_eq_append_iff.mp heq
    obtain ⟨⟨w, pw⟩, b', rfl, rfl, rfl⟩ := List.map_eq_cons_iff.mp hr
    have hwpre : (w, pw) ∈ a' ++ (w, pw) :: b' := by simp
    have hwL : (w, pw) ∈ (a' ++ (w, pw) :: b') ++ (o, p) :: post :=
      List.mem_append_left _ hwpre
    have hpwp : pw ≤ p := hord.2.2 _ hwpre (o, p) (by simp)
    refine Or.inl ⟨w, hL.mem _ hwL, by rw [hval]; exact hwk, ?_, ?_⟩
    · exact (hL.afterInv _ hwL).trans (hpwp.trans hpt)
    · -- a completed writer in between would stand after `w` and before `o`
      intro w' hw' v' t' hwr' hret' hlt tw hretw hbetween
      obtain ⟨q, hq⟩ := hL.mem_pre hw' hret' hlt
      have hqL : (w', q) ∈ (a' ++ (w, pw) :: b') ++ (o, p) :: post :=
        List.mem_append_left _ hq
      have hpwq : pw < q :=
        lt_of_le_of_lt (hL.beforeRet _ hwL tw hretw)
          (lt_of_lt_of_le hbetween (hL.afterInv _ hqL))
      rcases List.mem_append.mp hq with hqa | hqb
      · have := (List.pairwise_append.mp hord.1).2.2 _ hqa (w, pw) (by simp)
        exact absurd hpwq (not_lt.mpr this)
      · rcases List.mem_cons.mp hqb with heq | hqb
        · exact absurd (Prod.mk.inj heq).2.symm (ne_of_lt hpwq)
        · exact hb w' (List.mem_map.mpr ⟨_, hqb, rfl⟩) v' hwr'
  · refine Or.inr ⟨hval, ?_⟩
    intro w' hw' v' t' hwr' hret' hlt
    obtain ⟨q, hq⟩ := hL.mem_pre hw' hret' hlt
    exact hall w' (List.mem_map.mpr ⟨_, hq, rfl⟩) v' hwr'

/-! ### Orders without points -/

/-- `L` is an order of operations of the history `H`, all those that have returned among
them, in which each of two operations with `before` between them has its place, and every
answer is right. -/
structure Serializes (ret : O → Option T) (before : O → O → Prop) (effect : σ → O → σ)
    (answers : σ → O → Prop) (s₀ : σ) (H L : List O) : Prop where
  nodup : L.Nodup
  mem : ∀ o ∈ L, o ∈ H
  complete : ∀ o ∈ H, (ret o).isSome → o ∈ L
  keeps : L.Pairwise fun o o' => ¬ before o' o
  legal : Legal effect answers s₀ L

/-- The first operation has returned when the second one is invoked. -/
def RealTime (inv : O → T) (ret : O → Option T) (o o' : O) : Prop :=
  ∃ t, ret o = some t ∧ t < inv o'

/-- Points for a sequence of operations, from the time `t` on: each as soon as it and all
those before it have been invoked. -/
def pointsFrom (inv : O → T) : T → List O → List (O × T)
  | _, [] => []
  | t, o :: l => (o, max t (inv o)) :: pointsFrom inv (max t (inv o)) l

variable {t : T} {L H : List O} {p : O × T}

lemma pointsFrom_fst : (pointsFrom inv t L).map Prod.fst = L := by
  induction L generalizing t with
  | nil => rfl
  | cons o L ih => rw [pointsFrom, List.map_cons, ih]

lemma le_of_mem_pointsFrom (hp : p ∈ pointsFrom inv t L) : t ≤ p.2 ∧ inv p.1 ≤ p.2 := by
  induction L generalizing t with
  | nil => cases hp
  | cons o L ih =>
      rcases List.mem_cons.mp hp with rfl | hp
      · exact ⟨le_max_left _ _, le_max_right _ _⟩
      · exact ⟨(le_max_left _ _).trans (ih hp).1, (ih hp).2⟩

lemma pairwise_pointsFrom : (pointsFrom inv t L).Pairwise fun p q => p.2 ≤ q.2 := by
  induction L generalizing t with
  | nil => exact .nil
  | cons o L ih => exact .cons (fun p hp => (le_of_mem_pointsFrom hp).1) ih

/-- No point comes too late if the order keeps the real-time order. -/
lemma pointsFrom_le_ret (hspan : ∀ o ∈ L, ∀ u, ret o = some u → inv o ≤ u)
    (hkeeps : L.Pairwise fun o o' => ¬ RealTime inv ret o' o)
    (hstart : ∀ o ∈ L, ∀ u, ret o = some u → t ≤ u) (hp : p ∈ pointsFrom inv t L) {u : T}
    (hu : ret p.1 = some u) : p.2 ≤ u := by
  induction L generalizing t with
  | nil => cases hp
  | cons o L ih =>
      rcases List.mem_cons.mp hp with rfl | hp
      · exact max_le (hstart o List.mem_cons_self u hu) (hspan o List.mem_cons_self u hu)
      · obtain ⟨ho, hkeeps⟩ := List.pairwise_cons.mp hkeeps
        refine ih (fun o' ho' => hspan o' (List.mem_cons_of_mem o ho')) hkeeps ?_ hp
        intro o' ho' u' hu'
        refine max_le (hstart o' (List.mem_cons_of_mem o ho') u' hu') ?_
        by_contra hlt
        exact ho o' ho' ⟨u', hu', not_le.mp hlt⟩

/-- **Linearizable by points and by order.** For operations that do not return before they
are invoked, an order that keeps the real-time order has points. -/
theorem exists_linearizes_iff {effect : σ → O → σ} {answers : σ → O → Prop} {s₀ : σ}
    (hspan : ∀ o ∈ H, ∀ u, ret o = some u → inv o ≤ u) :
    (∃ P, Linearizes inv ret effect answers s₀ H P)
      ↔ ∃ L, Serializes ret (RealTime inv ret) effect answers s₀ H L := by
  constructor
  · rintro ⟨P, hP⟩
    refine ⟨P.map Prod.fst, hP.nodup, fun o ho => ?_, fun o ho hret => ?_, ?_, hP.legal⟩
    · obtain ⟨p, hp, rfl⟩ := List.mem_map.mp ho
      exact hP.mem p hp
    · obtain ⟨u, hu⟩ := hP.complete o ho hret
      exact List.mem_map.mpr ⟨_, hu, rfl⟩
    · rw [List.pairwise_map]
      refine hP.ordered.imp_of_mem fun {p q} hp hq hle => ?_
      rintro ⟨u, hu, hlt⟩
      have hinv := hP.afterInv p hp
      have hret := hP.beforeRet q hq u hu
      exact absurd (hinv.trans (hle.trans hret)) (not_le.mpr hlt)
  · rintro ⟨L, hL⟩
    have hspan' : ∀ o ∈ L, ∀ u, ret o = some u → inv o ≤ u := fun o ho => hspan o (hL.mem o ho)
    cases L with
    | nil =>
        refine ⟨[], .nil, fun p hp => absurd hp List.not_mem_nil, fun o ho hret => ?_, .nil,
          fun p hp => absurd hp List.not_mem_nil, fun p hp => absurd hp List.not_mem_nil, trivial⟩
        exact absurd (hL.complete o ho hret) List.not_mem_nil
    | cons o L =>
        -- the first point is the first invocation
        have hstart : ∀ o' ∈ o :: L, ∀ u, ret o' = some u → inv o ≤ u := by
          intro o' ho' u hu
          rcases List.mem_cons.mp ho' with rfl | hmem
          · exact hspan' o' ho' u hu
          · by_contra hlt
            exact (List.pairwise_cons.mp hL.keeps).1 o' hmem ⟨u, hu, not_le.mp hlt⟩
        have hfst : (pointsFrom inv (inv o) (o :: L)).map Prod.fst = o :: L := pointsFrom_fst
        refine ⟨pointsFrom inv (inv o) (o :: L), ?_, fun p hp => ?_, fun o' ho' hret => ?_,
          pairwise_pointsFrom, fun p hp => (le_of_mem_pointsFrom hp).2,
          fun p hp u hu => pointsFrom_le_ret hspan' hL.keeps hstart hp hu, ?_⟩
        · rw [hfst]
          exact hL.nodup
        · have hmem : p.1 ∈ (pointsFrom inv (inv o) (o :: L)).map Prod.fst := List.mem_map_of_mem hp
          rw [hfst] at hmem
          exact hL.mem _ hmem
        · have hmem := hL.complete o' ho' hret
          rw [← hfst] at hmem
          obtain ⟨p, hp, rfl⟩ := List.mem_map.mp hmem
          exact ⟨p.2, hp⟩
        · rw [hfst]
          exact hL.legal

end Points

end Linearization
