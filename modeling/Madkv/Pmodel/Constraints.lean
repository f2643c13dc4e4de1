import Madkv.Pmodel.Relationship

/-!
The consistency assertions on an ordering graph.

* `satisfiedConstraints`: the levels of a graph.
* `assertConstraints`: the assertion on both levels; `assertLinearizability` and
  its five siblings are its cases, `Consistency.assert`.
* `OrderingGraph.Converges`, `OrderingGraph.Relates`: what the levels demand of a
  graph. `Consistency.Holds`: what a model does.
* `consistency_exact`: each assertion asks for its own pair of levels and for no
  other, so that a stronger one rules out the weaker ones, although the graph
  meets what they demand.
-/

namespace Madkv

open Fallible Relation

/-- The orders of all loops of the checks. -/
structure CheckOrders (ordering : OrderingGraph) extends SetOrders ordering, PairOrders ordering

def CheckOrders.increasing (ordering : OrderingGraph) : CheckOrders ordering where
  toSetOrders := .increasing ordering
  toPairOrders := .increasing ordering

/-- The convergence level and the relationship level of a graph. -/
def satisfiedConstraints (ordering : OrderingGraph) (orders : CheckOrders ordering) (fuel : ℕ) :
    Option (Except Failure (ConvergenceLevel × RelationshipLevel)) :=
  (convergenceConformity ordering orders.toSetOrders fuel).map fun dfsResult => do
    let (convergence, reachable) ← dfsResult
    if convergence = .cInvalid then .ok (.cInvalid, .rNone)
    else do
      let relationship ← relationshipConformity ordering reachable orders.toPairOrders
      .ok (convergence, relationship)

/-- The two assertions on the levels, in their order. -/
def assertLevels (convergence : ConvergenceLevel) (relationship : RelationshipLevel)
    (convergenceName relationshipName model : String)
    (constraints : ConvergenceLevel × RelationshipLevel) : Except Failure Unit :=
  if constraints.1 = convergence then
    if constraints.2 = relationship then .ok ()
    else .error (.relationship
      ("Relationship constraint != " ++ relationshipName ++ " for " ++ model ++ ": ") constraints.2)
  else .error (.convergence
    ("Convergence constraint != " ++ convergenceName ++ " for " ++ model ++ ": ") constraints.1)

/-- The assertions of the consistency models differ in their levels and texts. -/
def assertConstraints (convergence : ConvergenceLevel) (relationship : RelationshipLevel)
    (convergenceName relationshipName model : String) (ordering : OrderingGraph)
    (orders : CheckOrders ordering) (fuel : ℕ) : Option (Except Failure Unit) :=
  (satisfiedConstraints ordering orders fuel).map fun result => do
    let constraints ← result
    assertLevels convergence relationship convergenceName relationshipName model constraints

def assertLinearizability : (ordering : OrderingGraph) → CheckOrders ordering → ℕ →
    Option (Except Failure Unit) :=
  assertConstraints .cSo .rRt "SO" "RT" "linearizability"

def assertSequentialConsistency : (ordering : OrderingGraph) → CheckOrders ordering → ℕ →
    Option (Except Failure Unit) :=
  assertConstraints .cSo .rCasl "SO" "CASL" "sequential consistency"

def assertCausalConsistency : (ordering : OrderingGraph) → CheckOrders ordering → ℕ →
    Option (Except Failure Unit) :=
  assertConstraints .cCpo .rCasl "CPO" "CASL" "causal consistency"

def assertPRAMConsistency : (ordering : OrderingGraph) → CheckOrders ordering → ℕ →
    Option (Except Failure Unit) :=
  assertConstraints .cNpo .rFifo "NPO" "FIFO" "PRAM consistency"

def assertEventualConsistency : (ordering : OrderingGraph) → CheckOrders ordering → ℕ →
    Option (Except Failure Unit) :=
  assertConstraints .cCpo .rNone "CPO" "NONE" "eventual consistency"

def assertWeakConsistency : (ordering : OrderingGraph) → CheckOrders ordering → ℕ →
    Option (Except Failure Unit) :=
  assertConstraints .cNpo .rNone "NPO" "NONE" "weak consistency"

/-! ### The consistency models -/

inductive Consistency where
  | linearizability
  | sequential
  | causal
  | pram
  | eventual
  | weak
deriving DecidableEq

/-- The constraints that the assertion names. -/
def Consistency.levels : Consistency → ConvergenceLevel × RelationshipLevel
  | .linearizability => (.cSo, .rRt)
  | .sequential => (.cSo, .rCasl)
  | .causal => (.cCpo, .rCasl)
  | .pram => (.cNpo, .rFifo)
  | .eventual => (.cCpo, .rNone)
  | .weak => (.cNpo, .rNone)

def Consistency.assert : Consistency → (ordering : OrderingGraph) → CheckOrders ordering → ℕ →
    Option (Except Failure Unit)
  | .linearizability => assertLinearizability
  | .sequential => assertSequentialConsistency
  | .causal => assertCausalConsistency
  | .pram => assertPRAMConsistency
  | .eventual => assertEventualConsistency
  | .weak => assertWeakConsistency

/-- The first model is the next stronger one. -/
inductive Consistency.Stronger : Consistency → Consistency → Prop
  | linearizability : Stronger .linearizability .sequential
  | sequential : Stronger .sequential .causal
  | causalPram : Stronger .causal .pram
  | causalEventual : Stronger .causal .eventual
  | pram : Stronger .pram .weak
  | eventual : Stronger .eventual .weak

/-- The numbers of the levels. -/
def ConvergenceLevel.number : ConvergenceLevel → ℕ
  | .cSo => 3
  | .cCpo => 2
  | .cNpo => 1
  | .cInvalid => 0

def RelationshipLevel.number : RelationshipLevel → ℕ
  | .rRt => 3
  | .rCasl => 2
  | .rFifo => 1
  | .rNone => 0

/-! ### What the levels demand -/

/-- What a convergence level demands of the graph. -/
def OrderingGraph.Converges (ordering : OrderingGraph) : ConvergenceLevel → Prop
  | .cSo => ¬ ordering.Malformed ∧ ¬ ordering.Unexplained ∧ ¬ ordering.Branching
  | .cCpo => ¬ ordering.Malformed ∧ ¬ ordering.Unexplained
  | .cNpo => ¬ ordering.Malformed
  | .cInvalid => True

/-- The edges order every pair that a relationship level is about. -/
def OrderingGraph.Relates (ordering : OrderingGraph) (level : RelationshipLevel) : Prop :=
  ∀ na nb a b, na ≠ nb → ordering.nodes.lookup na = some a → ordering.nodes.lookup nb = some b →
    Demands level a b → TransGen ordering.Edge na nb

/-- What a consistency model demands of the graph. -/
def Consistency.Holds (m : Consistency) (ordering : OrderingGraph) : Prop :=
  ordering.Converges m.levels.1 ∧ ordering.Relates m.levels.2

section Levels

variable {ordering : OrderingGraph} {reachable : PMap (Finset ℤ)} {fuel : ℕ}
  {level level' : RelationshipLevel} {convergence convergence' : ConvergenceLevel}

/-- A weaker level demands less. -/
lemma demands_mono {a b : OrderingNode} (hle : level.number ≤ level'.number)
    (h : Demands level a b) : Demands level' a b := by
  cases level with
  | rRt =>
      cases level' with
      | rRt => exact h
      | rCasl | rFifo | rNone => exact absurd hle (by decide)
  | rCasl =>
      cases level' with
      | rRt => exact h.2
      | rCasl => exact h
      | rFifo | rNone => exact absurd hle (by decide)
  | rFifo =>
      cases level' with
      | rRt => exact h.2.1
      | rCasl => exact ⟨h.1, h.2.1⟩
      | rFifo => exact h
      | rNone => exact absurd hle (by decide)
  | rNone => exact h.elim

/-- The strongest level is the last one that the graph meets. -/
lemma OrderingGraph.Strongest.meets_iff (h : ordering.Strongest reachable level') :
    ordering.Meets reachable level ↔ level.number ≤ level'.number := by
  have hmono : ∀ {l l' : RelationshipLevel}, l.number ≤ l'.number →
      ordering.Meets reachable l' → ordering.Meets reachable l :=
    fun hle hmeets na nb a b hne ha hb hdemands =>
      hmeets na nb a b hne ha hb (demands_mono hle hdemands)
  have hnone : ordering.Meets reachable .rNone := fun _ _ _ _ _ _ _ hdemands => hdemands.elim
  constructor
  · intro hmeets
    by_contra hlt
    cases level' with
    | rRt => exact hlt (by cases level <;> decide)
    | rCasl =>
        have hrt : ordering.Meets reachable .rRt := by
          cases level with
          | rRt => exact hmeets
          | rCasl | rFifo | rNone => exact absurd (by decide) hlt
        exact absurd (h.rt.mpr hrt) (by decide)
    | rFifo =>
        have hcasl : ordering.Meets reachable .rCasl := by
          cases level with
          | rRt => exact hmono (by decide) hmeets
          | rCasl => exact hmeets
          | rFifo | rNone => exact absurd (by decide) hlt
        exact absurd ((h.casl (by decide)).mpr hcasl) (by decide)
    | rNone =>
        have hfifo : ordering.Meets reachable .rFifo := by
          cases level with
          | rRt | rCasl => exact hmono (by decide) hmeets
          | rFifo => exact hmeets
          | rNone => exact absurd (by decide) hlt
        exact absurd ((h.fifo (by decide) (by decide)).mpr hfifo) (by decide)
  · intro hle
    refine hmono hle ?_
    cases level' with
    | rRt => exact h.rt.mp rfl
    | rCasl => exact (h.casl (by decide)).mp rfl
    | rFifo => exact (h.fifo (by decide) (by decide)).mp rfl
    | rNone => exact hnone

/-- What a check that returns says about the graph. -/
lemma classified_of_ok {orders : SetOrders ordering}
    (h : convergenceConformity ordering orders fuel = some (.ok (convergence, reachable))) :
    ordering.head ∈ ordering.nodes ∧ ordering.Classified convergence reachable := by
  obtain ⟨e, hends, h⟩ := Option.map_eq_some_iff.mp h
  have hhead : ordering.head ∈ ordering.nodes := by
    by_contra hmem
    rw [traverse, if_neg hmem] at hends
    cases hends
    cases h
  refine ⟨hhead, ?_⟩
  cases traverse_spec hhead hends with
  | returned hbad =>
      cases h
      exact classified_invalid (malformed_of_not_sound hbad)
  | @finished s hs =>
      by_cases hdone : s.done < ordering.nodes.keys.card
      · rw [afterTraversal, if_pos hdone] at h
        cases h
        exact classified_invalid ((malformed_iff_of_sound hs.sound).mpr (hs.done.mp hdone))
      · have hall : ∀ n ∈ ordering.nodes, ordering.Reached n := by
          rw [hs.done] at hdone
          simpa using hdone
        rw [afterTraversal, if_neg hdone] at h
        obtain ⟨level, hcheck, h⟩ := bind_eq_ok.mp h
        cases h
        exact hs.classified hhead hall hcheck

/-- Levels of a well-formed graph are got from both checks. -/
lemma satisfiedConstraints_ok_iff {orders : CheckOrders ordering}
    (hvalid : convergence ≠ .cInvalid) :
    satisfiedConstraints ordering orders fuel = some (.ok (convergence, level)) ↔ ∃ reachable,
      convergenceConformity ordering orders.toSetOrders fuel = some (.ok (convergence, reachable))
        ∧ relationshipConformity ordering reachable orders.toPairOrders = .ok level := by
  rw [satisfiedConstraints, Option.map_eq_some_iff]
  constructor
  · rintro ⟨dfsResult, hdfs, h⟩
    obtain ⟨⟨convergence', reachable⟩, rfl, hlevels⟩ := bind_eq_ok.mp h
    dsimp only at hlevels
    split at hlevels
    · cases hlevels
      exact absurd rfl hvalid
    · obtain ⟨relationship, hrelationship, hlevels⟩ := bind_eq_ok.mp hlevels
      cases hlevels
      exact ⟨reachable, hdfs, hrelationship⟩
  · rintro ⟨reachable, hdfs, hrelationship⟩
    exact ⟨_, hdfs, bind_of_eq_ok rfl ((if_neg hvalid).trans (bind_of_eq_ok hrelationship rfl))⟩

/-- A graph meets what the levels up to its own demand. -/
lemma OrderingGraph.Classified.converges (h : ordering.Classified convergence' reachable)
    (hle : convergence.number ≤ convergence'.number) : ordering.Converges convergence := by
  have hwell : convergence' ≠ .cInvalid → ¬ ordering.Malformed := fun hne hbad =>
    hne (h.invalid.mpr hbad)
  have hexplained : convergence' ≠ .cInvalid → convergence' ≠ .cNpo → ¬ ordering.Unexplained :=
    fun hne hnpo hbad => hnpo ((h.npo hne).mpr hbad)
  cases convergence with
  | cInvalid => trivial
  | cNpo =>
      refine hwell ?_
      rintro rfl
      exact absurd hle (by decide)
  | cCpo =>
      cases convergence' with
      | cSo | cCpo => exact ⟨hwell (by decide), hexplained (by decide) (by decide)⟩
      | cNpo | cInvalid => exact absurd hle (by decide)
  | cSo =>
      cases convergence' with
      | cSo =>
          refine ⟨hwell (by decide), hexplained (by decide) (by decide), fun hbranching => ?_⟩
          exact absurd ((h.cpo (by decide) (by decide)).mpr hbranching) (by decide)
      | cCpo | cNpo | cInvalid => exact absurd hle (by decide)

/-- **A graph with some levels** meets what all lower ones demand. -/
lemma holds_of_levels {orders : CheckOrders ordering} (hvalid : convergence' ≠ .cInvalid)
    (h : satisfiedConstraints ordering orders fuel = some (.ok (convergence', level')))
    (hconvergence : convergence.number ≤ convergence'.number)
    (hrelationship : level.number ≤ level'.number) :
    ordering.Converges convergence ∧ ordering.Relates level := by
  obtain ⟨reachable, hdfs, hlevel⟩ := (satisfiedConstraints_ok_iff hvalid).mp h
  obtain ⟨-, hclass⟩ := classified_of_ok hdfs
  refine ⟨hclass.converges hconvergence, fun na nb a b hne ha hb hdemands => ?_⟩
  have hmeets := (strongest_of_ok hlevel).meets_iff.mpr hrelationship
  obtain ⟨after, hafter, hmem⟩ := hmeets na nb a b hne ha hb hdemands
  obtain ⟨set, hset, hreach⟩ := hclass.reachable hvalid na (Finmap.mem_of_lookup_eq_some ha)
  rw [hafter] at hset
  exact (hreach nb).mp (Option.some.inj hset ▸ hmem)

end Levels

/-! ### The assertions -/

section Assertions

variable {ordering : OrderingGraph} {orders : CheckOrders ordering} {fuel : ℕ}
  {convergence : ConvergenceLevel} {relationship : RelationshipLevel}
  {convergenceName relationshipName model : String} {m m' : Consistency}

lemma assertLevels_ok_iff {constraints : ConvergenceLevel × RelationshipLevel} :
    assertLevels convergence relationship convergenceName relationshipName model constraints
      = .ok () ↔ constraints = (convergence, relationship) := by
  rw [assertLevels, Prod.ext_iff]
  by_cases hc : constraints.1 = convergence
  · by_cases hr : constraints.2 = relationship
    · simp [hc, hr]
    · simp [hc, hr]
  · simp [hc]

/-- An assertion passes exactly at its own pair of levels. -/
lemma assertConstraints_ok_iff :
    assertConstraints convergence relationship convergenceName relationshipName model ordering
        orders fuel = some (.ok ())
      ↔ satisfiedConstraints ordering orders fuel = some (.ok (convergence, relationship)) := by
  rw [assertConstraints, Option.map_eq_some_iff]
  constructor
  · rintro ⟨result, hresult, hpass⟩
    obtain ⟨constraints, rfl, hlevels⟩ := bind_eq_ok.mp hpass
    rw [hresult, assertLevels_ok_iff.mp hlevels]
  · intro hresult
    exact ⟨_, hresult, bind_of_eq_ok rfl (assertLevels_ok_iff.mpr rfl)⟩

lemma Consistency.assert_ok_iff (m : Consistency) :
    m.assert ordering orders fuel = some (.ok ())
      ↔ satisfiedConstraints ordering orders fuel = some (.ok m.levels) := by
  cases m <;> exact assertConstraints_ok_iff

lemma Consistency.Stronger.levels (h : m.Stronger m') : m.levels ≠ m'.levels
    ∧ m'.levels.1.number ≤ m.levels.1.number ∧ m'.levels.2.number ≤ m.levels.2.number := by
  cases h <;> decide

end Assertions

/-- **The assertions are exact**: each passes at its own pair of levels only. If
a stronger one passes, the levels are at least those of the weaker one and the
graph meets what its model demands, but it does not pass. -/
theorem consistency_exact (ordering : OrderingGraph) (orders : CheckOrders ordering) (fuel : ℕ)
    (m : Consistency) :
    (m.assert ordering orders fuel = some (.ok ())
        ↔ satisfiedConstraints ordering orders fuel = some (.ok m.levels))
      ∧ (m.assert ordering orders fuel = some (.ok ()) → ∀ m', m.Stronger m' →
        m'.assert ordering orders fuel ≠ some (.ok ())
          ∧ (∃ levels, satisfiedConstraints ordering orders fuel = some (.ok levels)
            ∧ m'.levels.1.number ≤ levels.1.number ∧ m'.levels.2.number ≤ levels.2.number)
          ∧ m'.Holds ordering) := by
  refine ⟨m.assert_ok_iff, fun hpass m' hstronger => ?_⟩
  have hlevels := m.assert_ok_iff.mp hpass
  obtain ⟨hne, hconvergence, hrelationship⟩ := hstronger.levels
  have hvalid : m.levels.1 ≠ .cInvalid := by cases m <;> decide
  refine ⟨fun hpass' => hne ?_, ⟨m.levels, hlevels, hconvergence, hrelationship⟩,
    holds_of_levels hvalid hlevels hconvergence hrelationship⟩
  have hlevels' := hlevels.symm.trans (m'.assert_ok_iff.mp hpass')
  exact Except.ok.inj (Option.some.inj hlevels')

theorem writeRead_exact :
    (∃ levels, satisfiedConstraints (writeRead 7) (.increasing _) 5 = some (.ok levels)
      ∧ Consistency.sequential.levels.1.number ≤ levels.1.number
      ∧ Consistency.sequential.levels.2.number ≤ levels.2.number)
      ∧ Consistency.sequential.Holds (writeRead 7) := by
  have hpass : Consistency.linearizability.assert (writeRead 7) (.increasing _) 5
      = some (.ok ()) := by decide
  obtain ⟨-, hmeets⟩ :=
    (consistency_exact (writeRead 7) (.increasing _) 5 .linearizability).2 hpass .sequential
      .linearizability
  exact hmeets

/-- The write and the read after it are linearizable, but not asserted to be
sequentially consistent. -/
theorem writeRead_not_sequential :
    assertLinearizability (writeRead 7) (.increasing _) 5 = some (.ok ())
      ∧ assertSequentialConsistency (writeRead 7) (.increasing _) 5 ≠ some (.ok ()) := by
  constructor
  · decide
  · decide

end Madkv
