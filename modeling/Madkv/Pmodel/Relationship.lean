import Madkv.Library.Fallible
import Madkv.Pmodel.Convergence

/-!
The relationship constraint of an ordering graph.

* `checkPair`: the body of the two nested loops, which lowers the level when the
  pair breaks it; `checkPairs`: the loops; `relationshipConformity`: the check.
* `Demands`, `Meets`: what a level asks of a pair, and of the graph.
* `cascade`: a pair lowers the level past all those that it breaks.
  `Weighed`: the level is the strongest one that the pairs so far meet.
* `relationship_strongest`: the check returns the strongest level that the graph
  meets, whatever the order of the pairs.
-/

namespace Madkv

open Fallible

/-- The orders of the loops over the pairs of nodes. -/
structure PairOrders (ordering : OrderingGraph) where
  outer : List ℤ
  inner : ℤ → List ℤ
  outer_enum : Lists outer ordering.nodes.keys
  inner_enum : ∀ na, Lists (inner na) ordering.nodes.keys

/-- All pairs in increasing order. -/
def PairOrders.increasing (ordering : OrderingGraph) : PairOrders ordering where
  outer := Madkv.increasing ordering.nodes.keys
  inner _ := Madkv.increasing ordering.nodes.keys
  outer_enum := lists_increasing _
  inner_enum _ := lists_increasing _

/-- How the loops end before they have gone through all pairs. -/
inductive RelationshipEnd where
  | returned (level : RelationshipLevel)
  /-- a look-up in a map fails -/
  | failed
deriving DecidableEq

/-- Look up a key that must be there. -/
def entry {β : Type} (map : PMap β) (key : ℤ) : Except RelationshipEnd β :=
  match map.lookup key with
  | some value => .ok value
  | none => .error .failed

/-- `!(nb in reachable[na])` -/
def unordered (reachable : PMap (Finset ℤ)) (na nb : ℤ) : Except RelationshipEnd Bool := do
  let after ← entry reachable na
  .ok (nb ∉ after)

/-- One check of a pair: under the condition, a pair that is not ordered lowers
the level. -/
def lowerIf (reachable : PMap (Finset ℤ)) (na nb : ℤ) (cond : Prop) [Decidable cond]
    (lowered : Except RelationshipEnd RelationshipLevel) (level : RelationshipLevel) :
    Except RelationshipEnd RelationshipLevel :=
  if cond then do
    if ← unordered reachable na nb then lowered else .ok level
  else .ok level

/-- The body of the inner loop. -/
def checkPair (ordering : OrderingGraph) (reachable : PMap (Finset ℤ)) (na : ℤ)
    (level : RelationshipLevel) (nb : ℤ) : Except RelationshipEnd RelationshipLevel :=
  if na = nb then .ok level
  else do
    let a ← entry ordering.nodes na
    let b ← entry ordering.nodes nb
    -- real-time constraint
    let level ← lowerIf reachable na nb (level = .rRt ∧ a.tsResp < b.tsReq) (.ok .rCasl) level
    -- strict session order
    let level ← lowerIf reachable na nb
      (level = .rCasl ∧ a.cId = b.cId ∧ a.tsResp < b.tsReq) (.ok .rFifo) level
    -- session order without writes following reads
    lowerIf reachable na nb
      (level = .rFifo ∧ a.cId = b.cId ∧ a.tsResp < b.tsReq
        ∧ ¬ (a.op.typ = .opRead ∧ b.op.typ = .opWrite))
      (.error (.returned .rNone)) level

/-- The loops over all pairs of nodes. -/
def checkPairs (ordering : OrderingGraph) (reachable : PMap (Finset ℤ))
    (orders : PairOrders ordering) : Except RelationshipEnd RelationshipLevel :=
  orders.outer.foldlM (fun level na =>
    (orders.inner na).foldlM (checkPair ordering reachable na) level) .rRt

def relationshipConformity (ordering : OrderingGraph) (reachable : PMap (Finset ℤ))
    (orders : PairOrders ordering) : Except Failure RelationshipLevel :=
  match checkPairs ordering reachable orders with
  | .ok level => .ok level
  | .error (.returned level) => .ok level
  | .error .failed => .error .assertion

/-! ### What a level asks for -/

/-- The pairs that must be ordered at a level. -/
def Demands : RelationshipLevel → OrderingNode → OrderingNode → Prop
  | .rRt, a, b => a.tsResp < b.tsReq
  | .rCasl, a, b => a.cId = b.cId ∧ a.tsResp < b.tsReq
  | .rFifo, a, b => a.cId = b.cId ∧ a.tsResp < b.tsReq
      ∧ ¬ (a.op.typ = .opRead ∧ b.op.typ = .opWrite)
  | .rNone, _, _ => False

instance : (level : RelationshipLevel) → (a b : OrderingNode) → Decidable (Demands level a b)
  | .rRt, a, b => inferInstanceAs (Decidable (a.tsResp < b.tsReq))
  | .rCasl, a, b => inferInstanceAs (Decidable (a.cId = b.cId ∧ a.tsResp < b.tsReq))
  | .rFifo, a, b => inferInstanceAs (Decidable (a.cId = b.cId ∧ a.tsResp < b.tsReq
      ∧ ¬ (a.op.typ = .opRead ∧ b.op.typ = .opWrite)))
  | .rNone, _, _ => inferInstanceAs (Decidable False)

/-- Every pair that the level is about is ordered. -/
def OrderingGraph.Meets (ordering : OrderingGraph) (reachable : PMap (Finset ℤ))
    (level : RelationshipLevel) : Prop :=
  ∀ na nb a b, na ≠ nb → ordering.nodes.lookup na = some a → ordering.nodes.lookup nb = some b →
    Demands level a b → ∃ after, reachable.lookup na = some after ∧ nb ∈ after

/-- The first of the levels RT, CASL, FIFO that the graph meets, else NONE. -/
structure OrderingGraph.Strongest (ordering : OrderingGraph) (reachable : PMap (Finset ℤ))
    (level : RelationshipLevel) : Prop where
  rt : level = .rRt ↔ ordering.Meets reachable .rRt
  casl : level ≠ .rRt → (level = .rCasl ↔ ordering.Meets reachable .rCasl)
  fifo : level ≠ .rRt → level ≠ .rCasl → (level = .rFifo ↔ ordering.Meets reachable .rFifo)

/-! ### Lowering the level -/

/-- A level after a pair that breaks the levels in `P`. -/
def cascade (P : RelationshipLevel → Prop) [DecidablePred P] (level : RelationshipLevel) :
    Except RelationshipEnd RelationshipLevel :=
  let level := if level = .rRt ∧ P .rRt then .rCasl else level
  let level := if level = .rCasl ∧ P .rCasl then .rFifo else level
  if level = .rFifo ∧ P .rFifo then .error (.returned .rNone) else .ok level

section Pairs

variable {ordering : OrderingGraph} {reachable : PMap (Finset ℤ)} {orders : PairOrders ordering}
  {na nb : ℤ} {a b : OrderingNode} {level : RelationshipLevel} {pairs : List (ℤ × ℤ)}

lemma Demands.weaken (h : Demands .rFifo a b) : Demands .rCasl a b := ⟨h.1, h.2.1⟩

lemma Demands.weaken' (h : Demands .rCasl a b) : Demands .rRt a b := h.2

/-- The pair is one that the level is about, and it is not ordered. -/
def Breaks (ordering : OrderingGraph) (reachable : PMap (Finset ℤ)) (p : ℤ × ℤ)
    (level : RelationshipLevel) : Prop :=
  p.1 ≠ p.2 ∧ ∃ a b, ordering.nodes.lookup p.1 = some a ∧ ordering.nodes.lookup p.2 = some b
    ∧ Demands level a b ∧ p.2 ∉ reachable.setAt p.1

lemma Breaks.weaken {p : ℤ × ℤ} (h : Breaks ordering reachable p .rFifo) :
    Breaks ordering reachable p .rCasl := by
  obtain ⟨hne, a, b, ha, hb, hdemands, hnot⟩ := h
  exact ⟨hne, a, b, ha, hb, hdemands.weaken, hnot⟩

lemma Breaks.weaken' {p : ℤ × ℤ} (h : Breaks ordering reachable p .rCasl) :
    Breaks ordering reachable p .rRt := by
  obtain ⟨hne, a, b, ha, hb, hdemands, hnot⟩ := h
  exact ⟨hne, a, b, ha, hb, hdemands.weaken', hnot⟩

/-- The pairs so far bring the level down to this one. -/
def Weighed (ordering : OrderingGraph) (reachable : PMap (Finset ℤ)) (pairs : List (ℤ × ℤ)) :
    RelationshipLevel → Prop
  | .rRt => ∀ p ∈ pairs, ¬ Breaks ordering reachable p .rRt
  | .rCasl => (∃ p ∈ pairs, Breaks ordering reachable p .rRt)
      ∧ ∀ p ∈ pairs, ¬ Breaks ordering reachable p .rCasl
  | .rFifo => (∃ p ∈ pairs, Breaks ordering reachable p .rCasl)
      ∧ ∀ p ∈ pairs, ¬ Breaks ordering reachable p .rFifo
  | .rNone => ∃ p ∈ pairs, Breaks ordering reachable p .rFifo

/-- What an early end of the loops says. -/
def EndsEarly (ordering : OrderingGraph) (reachable : PMap (Finset ℤ)) : RelationshipEnd → Prop
  | .returned level => level = .rNone ∧ ∃ p, Breaks ordering reachable p .rFifo
  | .failed => ∃ n ∈ ordering.nodes, n ∉ reachable

section Cascade

variable {P : RelationshipLevel → Prop} [DecidablePred P]

lemma cascade_rRt (h : P .rRt) : cascade P .rRt = cascade P .rCasl := by
  simp [cascade, h]

lemma cascade_rCasl (h : P .rCasl) : cascade P .rCasl = cascade P .rFifo := by
  simp [cascade, h]

lemma cascade_rFifo (h : P .rFifo) : cascade P .rFifo = .error (.returned .rNone) := by
  simp [cascade, h]

lemma cascade_congr {P' : RelationshipLevel → Prop} [DecidablePred P']
    (h : ∀ level, P level ↔ P' level) : cascade P level = cascade P' level := by
  simp only [cascade, h]

lemma cascade_of_not (h : ¬ P level) : cascade P level = .ok level := by
  cases level <;> simp [cascade, h]

end Cascade

lemma forall_breaks_concat {p : ℤ × ℤ} (h : ∀ q ∈ pairs, ¬ Breaks ordering reachable q level)
    (hp : ¬ Breaks ordering reachable p level) :
    ∀ q ∈ pairs ++ [p], ¬ Breaks ordering reachable q level := by
  intro q hq
  rcases List.mem_append.mp hq with hq | hq
  · exact h q hq
  · rwa [List.mem_singleton.mp hq]

open Classical in
/-- **A pair lowers the level past all that it breaks.** -/
lemma Weighed.cascade (h : Weighed ordering reachable pairs level) (p : ℤ × ℤ) :
    Yields (Weighed ordering reachable (pairs ++ [p])) (EndsEarly ordering reachable)
      (cascade (Breaks ordering reachable p) level) := by
  have hp : p ∈ pairs ++ [p] := List.mem_append_right pairs (List.mem_singleton_self p)
  have hmono : ∀ level, (∃ q ∈ pairs, Breaks ordering reachable q level) →
      ∃ q ∈ pairs ++ [p], Breaks ordering reachable q level :=
    fun level ⟨q, hq, hbreaks⟩ => ⟨q, List.mem_append_left [p] hq, hbreaks⟩
  -- from each level on, what a pair does when the levels above it are broken
  have hfifo : (∃ q ∈ pairs ++ [p], Breaks ordering reachable q .rCasl) →
      (∀ q ∈ pairs, ¬ Breaks ordering reachable q .rFifo) →
      Yields (Weighed ordering reachable (pairs ++ [p])) (EndsEarly ordering reachable)
        (Madkv.cascade (Breaks ordering reachable p) .rFifo) := by
    intro hbroken hmet
    by_cases hbreaks : Breaks ordering reachable p .rFifo
    · rw [cascade_rFifo hbreaks]
      exact ⟨rfl, p, hbreaks⟩
    · rw [cascade_of_not hbreaks]
      exact ⟨hbroken, forall_breaks_concat hmet hbreaks⟩
  have hcasl : (∃ q ∈ pairs ++ [p], Breaks ordering reachable q .rRt) →
      (∀ q ∈ pairs, ¬ Breaks ordering reachable q .rCasl) →
      Yields (Weighed ordering reachable (pairs ++ [p])) (EndsEarly ordering reachable)
        (Madkv.cascade (Breaks ordering reachable p) .rCasl) := by
    intro hbroken hmet
    by_cases hbreaks : Breaks ordering reachable p .rCasl
    · rw [cascade_rCasl hbreaks]
      exact hfifo ⟨p, hp, hbreaks⟩ fun q hq hq' => hmet q hq hq'.weaken
    · rw [cascade_of_not hbreaks]
      exact ⟨hbroken, forall_breaks_concat hmet hbreaks⟩
  cases level with
  | rRt =>
      by_cases hbreaks : Breaks ordering reachable p .rRt
      · rw [cascade_rRt hbreaks]
        exact hcasl ⟨p, hp, hbreaks⟩ fun q hq hq' => h q hq hq'.weaken'
      · rw [cascade_of_not hbreaks]
        exact forall_breaks_concat h hbreaks
  | rCasl => exact hcasl (hmono .rRt h.1) h.2
  | rFifo => exact hfifo (hmono .rCasl h.1) h.2
  | rNone => exact hmono .rFifo h

lemma unordered_of_some {after : Finset ℤ} (h : reachable.lookup na = some after) :
    unordered reachable na nb = .ok (decide (nb ∉ after)) := by
  rw [unordered, entry, h]
  rfl

lemma unordered_of_none (h : reachable.lookup na = none) :
    unordered reachable na nb = .error .failed := by
  rw [unordered, entry, h]
  rfl

section Checks

variable {cond : Prop} [Decidable cond] {lowered : Except RelationshipEnd RelationshipLevel}

lemma lowerIf_of_not (h : ¬ cond) : lowerIf reachable na nb cond lowered level = .ok level :=
  if_neg h

lemma lowerIf_of_none (h : cond) (hset : reachable.lookup na = none) :
    lowerIf reachable na nb cond lowered level = .error .failed := by
  rw [lowerIf, if_pos h, unordered_of_none hset]
  rfl

lemma lowerIf_of_mem {after : Finset ℤ} (hset : reachable.lookup na = some after)
    (hmem : nb ∈ after) : lowerIf reachable na nb cond lowered level = .ok level := by
  rw [lowerIf, unordered_of_some hset, decide_eq_false (not_not.mpr hmem)]
  exact ite_self _

lemma lowerIf_of_notMem {after : Finset ℤ} (hset : reachable.lookup na = some after)
    (hnot : nb ∉ after) :
    lowerIf reachable na nb cond lowered level = if cond then lowered else .ok level := by
  rw [lowerIf, unordered_of_some hset, decide_eq_true hnot]
  rfl

end Checks

/-- The checks at a level, when the pair is not one that it is about or the pair
is ordered. -/
lemma checkPair_of_not (ha : entry ordering.nodes na = .ok a)
    (hb : entry ordering.nodes nb = .ok b)
    (h : na = nb ∨ ¬ Demands level a b ∨ ∃ after, reachable.lookup na = some after ∧ nb ∈ after) :
    checkPair ordering reachable na level nb = .ok level := by
  have hkeep : ∀ (cond : Prop) [Decidable cond]
      (lowered : Except RelationshipEnd RelationshipLevel), na ≠ nb → (cond → Demands level a b) →
      lowerIf reachable na nb cond lowered level = .ok level := by
    intro cond _ lowered hne hcond
    rcases h with heq | hdemands | ⟨after, hset, hmem⟩
    · exact absurd heq hne
    · exact lowerIf_of_not fun hc => hdemands (hcond hc)
    · exact lowerIf_of_mem hset hmem
  by_cases hne : na = nb
  · rw [checkPair, if_pos hne]
  · rw [checkPair, if_neg hne]
    refine bind_of_eq_ok ha (bind_of_eq_ok hb ?_)
    refine bind_of_eq_ok (hkeep _ _ hne ?_) (bind_of_eq_ok (hkeep _ _ hne ?_) (hkeep _ _ hne ?_))
    · rintro ⟨rfl, hd⟩
      exact hd
    · rintro ⟨rfl, hd⟩
      exact hd
    · rintro ⟨rfl, hd⟩
      exact hd

/-- A pair that the level is about needs the entry of its first node. -/
lemma checkPair_of_none (ha : entry ordering.nodes na = .ok a)
    (hb : entry ordering.nodes nb = .ok b) (hne : na ≠ nb) (h : Demands level a b)
    (hset : reachable.lookup na = none) :
    checkPair ordering reachable na level nb = .error .failed := by
  rw [checkPair, if_neg hne]
  refine bind_of_eq_ok ha (bind_of_eq_ok hb ?_)
  cases level with
  | rRt =>
      rw [lowerIf_of_none ⟨rfl, h⟩ hset]
      rfl
  | rCasl =>
      refine bind_of_eq_ok (lowerIf_of_not (by simp)) ?_
      rw [lowerIf_of_none ⟨rfl, h⟩ hset]
      rfl
  | rFifo =>
      refine bind_of_eq_ok (lowerIf_of_not (by simp)) (bind_of_eq_ok (lowerIf_of_not (by simp)) ?_)
      exact lowerIf_of_none ⟨rfl, h⟩ hset
  | rNone => exact absurd h id

/-- A pair that is not ordered lowers the level past all that are about it. -/
lemma checkPair_of_notMem (ha : entry ordering.nodes na = .ok a)
    (hb : entry ordering.nodes nb = .ok b) (hne : na ≠ nb) {after : Finset ℤ}
    (hset : reachable.lookup na = some after) (hnot : nb ∉ after) :
    checkPair ordering reachable na level nb = cascade (fun level => Demands level a b) level := by
  have hpure : ∀ (cond : Prop) [Decidable cond] (lowered level : RelationshipLevel),
      (if cond then (.ok lowered : Except RelationshipEnd RelationshipLevel) else .ok level)
        = .ok (if cond then lowered else level) := fun _ _ _ _ => (apply_ite _ _ _ _).symm
  rw [checkPair, if_neg hne]
  refine bind_of_eq_ok ha (bind_of_eq_ok hb ?_)
  refine bind_of_eq_ok ((lowerIf_of_notMem hset hnot).trans (hpure _ _ _)) ?_
  refine bind_of_eq_ok ((lowerIf_of_notMem hset hnot).trans (hpure _ _ _)) ?_
  exact lowerIf_of_notMem hset hnot

/-- **One pair**: the level stays the strongest that the pairs so far meet. -/
lemma Weighed.checkPair (h : Weighed ordering reachable pairs level) (hna : na ∈ ordering.nodes)
    (hnb : nb ∈ ordering.nodes) :
    Yields (Weighed ordering reachable (pairs ++ [(na, nb)])) (EndsEarly ordering reachable)
      (checkPair ordering reachable na level nb) := by
  classical
  obtain ⟨a, ha⟩ := Finmap.mem_iff.mp hna
  obtain ⟨b, hb⟩ := Finmap.mem_iff.mp hnb
  have hentry : ∀ {n : ℤ} {node : OrderingNode}, ordering.nodes.lookup n = some node →
      entry ordering.nodes n = .ok node := fun h => by rw [entry, h]
  have hbreaks : ∀ level, Breaks ordering reachable (na, nb) level
      ↔ na ≠ nb ∧ Demands level a b ∧ nb ∉ reachable.setAt na := by
    refine fun level => and_congr_right fun _ => ⟨?_, fun h => ⟨a, b, ha, hb, h⟩⟩
    rintro ⟨a', b', ha', hb', h⟩
    rw [show a = a' from Option.some.inj (ha.symm.trans ha'),
      show b = b' from Option.some.inj (hb.symm.trans hb')]
    exact h
  have hcascade := h.cascade (na, nb)
  by_cases hok : na = nb ∨ ¬ Demands level a b
      ∨ ∃ after, reachable.lookup na = some after ∧ nb ∈ after
  · have hnot : ¬ Breaks ordering reachable (na, nb) level := by
      rw [hbreaks]
      rintro ⟨hne, hdemands, hmem⟩
      rcases hok with heq | hd | ⟨after, hset, hin⟩
      · exact hne heq
      · exact hd hdemands
      · exact hmem (by rwa [PMap.setAt, hset])
    rw [checkPair_of_not (hentry ha) (hentry hb) hok]
    rwa [cascade_of_not hnot] at hcascade
  · simp only [not_or, not_not, not_exists, not_and] at hok
    obtain ⟨hne, hdemands, hafter⟩ := hok
    cases hset : reachable.lookup na with
    | none =>
        rw [checkPair_of_none (hentry ha) (hentry hb) hne hdemands hset]
        exact ⟨na, hna, Finmap.lookup_eq_none.mp hset⟩
    | some after =>
        have hnot := hafter after hset
        rw [checkPair_of_notMem (hentry ha) (hentry hb) hne hset hnot]
        have hiff : ∀ level, Breaks ordering reachable (na, nb) level ↔ Demands level a b := by
          intro level
          rw [hbreaks, PMap.setAt, hset]
          exact ⟨fun h => h.2.1, fun h => ⟨hne, h, hnot⟩⟩
        rwa [cascade_congr hiff] at hcascade

/-! ### The loops -/

/-- The pairs of the inner loop for `na`. -/
def PairOrders.row (orders : PairOrders ordering) (na : ℤ) : List (ℤ × ℤ) :=
  (orders.inner na).map (Prod.mk na)

lemma PairOrders.mem_pairs (orders : PairOrders ordering) {p : ℤ × ℤ}
    (h₁ : p.1 ∈ ordering.nodes) (h₂ : p.2 ∈ ordering.nodes) :
    p ∈ orders.outer.flatMap orders.row := by
  refine List.mem_flatMap.mpr ⟨p.1, (orders.outer_enum.2 p.1).mpr (Finmap.mem_keys.mpr h₁), ?_⟩
  exact List.mem_map.mpr ⟨p.2, ((orders.inner_enum p.1).2 p.2).mpr (Finmap.mem_keys.mpr h₂), rfl⟩

lemma Weighed.row (h : Weighed ordering reachable pairs level) (hna : na ∈ ordering.nodes) :
    Yields (Weighed ordering reachable (pairs ++ orders.row na)) (EndsEarly ordering reachable)
      ((orders.inner na).foldlM (Madkv.checkPair ordering reachable na) level) := by
  have hstart : Weighed ordering reachable (pairs ++ [].map (Prod.mk na)) level := by
    simpa using h
  refine Yields.foldlM
    (Q := fun done => Weighed ordering reachable (pairs ++ done.map (Prod.mk na)))
    (orders.inner na) [] hstart fun done nb level hnb h => ?_
  rw [List.map_append, ← List.append_assoc]
  exact h.checkPair hna (Finmap.mem_keys.mp (((orders.inner_enum na).2 nb).mp hnb))

lemma Weighed.rows (reachable : PMap (Finset ℤ)) (orders : PairOrders ordering) : Yields
    (Weighed ordering reachable (orders.outer.flatMap orders.row)) (EndsEarly ordering reachable)
    (checkPairs ordering reachable orders) := by
  have hstart : Weighed ordering reachable (([] : List ℤ).flatMap orders.row) .rRt :=
    fun p hp => absurd hp List.not_mem_nil
  refine Yields.foldlM (Q := fun done => Weighed ordering reachable (done.flatMap orders.row))
    orders.outer [] hstart fun done na level hna h => ?_
  rw [List.flatMap_append, List.flatMap_singleton]
  exact h.row (Finmap.mem_keys.mp ((orders.outer_enum.2 na).mp hna))

lemma meets_iff : ordering.Meets reachable level ↔ ∀ p, ¬ Breaks ordering reachable p level := by
  constructor
  · rintro h ⟨na, nb⟩ ⟨hne, a, b, ha, hb, hdemands, hnot⟩
    obtain ⟨after, hset, hmem⟩ := h na nb a b hne ha hb hdemands
    exact hnot (by rwa [PMap.setAt, hset])
  · intro h na nb a b hne ha hb hdemands
    by_contra hnot
    refine h (na, nb) ⟨hne, a, b, ha, hb, hdemands, fun hmem => ?_⟩
    cases hset : reachable.lookup na with
    | none => simp [PMap.setAt, hset] at hmem
    | some after => exact hnot ⟨after, hset, by simpa [PMap.setAt, hset] using hmem⟩

/-- All pairs together bring the level down to the strongest one that they meet. -/
lemma Weighed.strongest (h : Weighed ordering reachable pairs level)
    (hall : ∀ p level, Breaks ordering reachable p level → p ∈ pairs) :
    ordering.Strongest reachable level := by
  have hmeets : ∀ level, (∀ p ∈ pairs, ¬ Breaks ordering reachable p level) →
      ordering.Meets reachable level :=
    fun level h => meets_iff.mpr fun p hp => h p (hall p level hp) hp
  have hbroken : ∀ level, (∃ p ∈ pairs, Breaks ordering reachable p level) →
      ¬ ordering.Meets reachable level := by
    rintro level ⟨p, -, hp⟩ hmet
    exact meets_iff.mp hmet p hp
  have hcasl : (∃ p ∈ pairs, Breaks ordering reachable p .rCasl) →
      ∃ p ∈ pairs, Breaks ordering reachable p .rRt :=
    fun ⟨p, hp, hbreaks⟩ => ⟨p, hp, hbreaks.weaken'⟩
  have hfifo : (∃ p ∈ pairs, Breaks ordering reachable p .rFifo) →
      ∃ p ∈ pairs, Breaks ordering reachable p .rCasl :=
    fun ⟨p, hp, hbreaks⟩ => ⟨p, hp, hbreaks.weaken⟩
  cases level with
  | rRt => exact ⟨by simp [hmeets .rRt h], by simp, by simp⟩
  | rCasl =>
      obtain ⟨hrt, hmet⟩ := h
      exact ⟨by simp [hbroken .rRt hrt], by simp [hmeets .rCasl hmet], by simp⟩
  | rFifo =>
      obtain ⟨hbad, hmet⟩ := h
      exact ⟨by simp [hbroken .rRt (hcasl hbad)], by simp [hbroken .rCasl hbad],
        by simp [hmeets .rFifo hmet]⟩
  | rNone =>
      exact ⟨by simp [hbroken .rRt (hcasl (hfifo h))], by simp [hbroken .rCasl (hfifo h)],
        by simp [hbroken .rFifo h]⟩

lemma mem_pairs_of_breaks (orders : PairOrders ordering) {p : ℤ × ℤ}
    (h : Breaks ordering reachable p level) : p ∈ orders.outer.flatMap orders.row := by
  obtain ⟨-, a, b, ha, hb, -⟩ := h
  exact orders.mem_pairs (Finmap.mem_of_lookup_eq_some ha) (Finmap.mem_of_lookup_eq_some hb)

/-- The check returns if the nodes are keys of the map. -/
lemma exists_relationship (orders : PairOrders ordering)
    (hkeys : ∀ n ∈ ordering.nodes, n ∈ reachable) :
    ∃ level, relationshipConformity ordering reachable orders = .ok level := by
  have hyields := Weighed.rows reachable orders
  rw [relationshipConformity]
  generalize checkPairs ordering reachable orders = pairs at hyields ⊢
  cases pairs with
  | ok level => exact ⟨level, rfl⟩
  | error e =>
      cases e with
      | returned level => exact ⟨level, rfl⟩
      | failed =>
          obtain ⟨n, hn, hmissing⟩ := hyields
          exact absurd (hkeys n hn) hmissing

lemma strongest_of_ok (h : relationshipConformity ordering reachable orders = .ok level) :
    ordering.Strongest reachable level := by
  have hyields := Weighed.rows reachable orders
  rw [relationshipConformity] at h
  generalize checkPairs ordering reachable orders = pairs at hyields h
  cases pairs with
  | ok level' =>
      cases h
      exact hyields.strongest fun p level => mem_pairs_of_breaks orders
  | error e =>
      cases e with
      | returned level' =>
          cases h
          obtain ⟨rfl, p, hp⟩ := hyields
          have hweighed : Weighed ordering reachable (orders.outer.flatMap orders.row) .rNone :=
            ⟨p, mem_pairs_of_breaks orders hp, hp⟩
          exact hweighed.strongest fun p level => mem_pairs_of_breaks orders
      | failed => cases h

end Pairs

/-- **The check returns the strongest level that the graph meets**, for every
order of the pairs; it returns if every node has its set of reachable nodes. -/
theorem relationship_strongest (ordering : OrderingGraph) (reachable : PMap (Finset ℤ))
    (orders : PairOrders ordering) :
    ((∀ n ∈ ordering.nodes, n ∈ reachable) →
        ∃ level, relationshipConformity ordering reachable orders = .ok level)
      ∧ ∀ level, relationshipConformity ordering reachable orders = .ok level →
        ordering.Strongest reachable level :=
  ⟨exists_relationship orders, fun _ => strongest_of_ok⟩

/-- On a write and a read after it, with the nodes that the traversal finds. -/
theorem writeRead_strongest : ∃ level,
    relationshipConformity (writeRead 7) [⟨0, {1}⟩, ⟨1, ∅⟩].toFinmap (.increasing _) = .ok level
      ∧ (writeRead 7).Strongest [⟨0, {1}⟩, ⟨1, ∅⟩].toFinmap level := by
  obtain ⟨hreturns, hstrongest⟩ :=
    relationship_strongest (writeRead 7) [⟨0, {1}⟩, ⟨1, ∅⟩].toFinmap (.increasing _)
  have hkeys : (writeRead 7).nodes.keys
      = Finmap.keys ([⟨0, {1}⟩, ⟨1, ∅⟩] : List (Sigma fun _ : ℤ => Finset ℤ)).toFinmap := by decide
  obtain ⟨level, hlevel⟩ := hreturns fun n hn => by
    rwa [← Finmap.mem_keys, ← hkeys, Finmap.mem_keys]
  exact ⟨level, hlevel, hstrongest level hlevel⟩

end Madkv
