import Madkv.Pmodel.OrderingGraph

/-!
The object pool machine and the expected transitions of its state.

* `Failure`: what ends a run of the machines or of the checks with an error.
* `waitForRequests`: the handler of the pool for a client request.
* `applyOpToPool`: the mutation that the specification expects of an operation.
* `Operation.apply`: the pool after an operation on a key that it has, which is
  what both compute: `applyOpToPool_eq`, `waitForRequests_of_mem`.
-/

namespace Madkv

/-- What ends a run with an error. -/
inductive Failure where
  /-- an assertion of a handler or inside a check fails, or a look-up does -/
  | assertion
  /-- the assertion on the convergence level of a graph -/
  | convergence (message : String) (level : ConvergenceLevel)
  /-- the assertion on the relationship level of a graph -/
  | relationship (message : String) (level : RelationshipLevel)
deriving DecidableEq

/-- What is looked up must be there. -/
def demand {β : Type} : Option β → Except Failure β
  | some value => .ok value
  | none => .error .assertion

/-- An event between a client and the pool: `cli` refers to the client's machine. -/
structure ClientRequest (ι : Type) where
  op : Operation
  cli : ι
  cId : ℤ
  tsReq : ℤ

structure ClientResponse (ι : Type) where
  op : Operation
  cli : ι
  cId : ℤ
  tsReq : ℤ

/-- The pool handles a request: its next state and the response. -/
def waitForRequests {ι : Type} (pool : PMap ℤ) (req : ClientRequest ι) :
    Except Failure (PMap ℤ × ClientResponse ι) := do
  let value ← demand (pool.lookup req.op.key)
  let (pool, retVal) :=
    match req.op.typ with
    | .opRead => (pool, value)
    | .opWrite => (pool.insert req.op.key req.op.val, 0)
    | .opRaddw => (pool.insert req.op.key (value + req.op.val), value)
  -- the value of the request is not part of the response
  let respOp := ⟨req.op.typ, req.op.key, 0, retVal⟩
  .ok (pool, ⟨respOp, req.cli, req.cId, req.tsReq⟩)

/-- The expected mutation when an operation is applied to a state of the pool. -/
def applyOpToPool (op : Operation) (pool : PMap ℤ) : Except Failure (PMap ℤ) := do
  let value ← demand (pool.lookup op.key)
  match op.typ with
  | .opRead => .ok pool
  | .opWrite => .ok (pool.insert op.key op.val)
  | .opRaddw => .ok (pool.insert op.key (value + op.val))

/-! ### The transitions of the pool -/

/-- The pool after an operation. -/
def Operation.apply (op : Operation) (pool : PMap ℤ) : PMap ℤ :=
  match op.typ with
  | .opRead => pool
  | .opWrite => pool.insert op.key op.val
  | .opRaddw => pool.insert op.key ((pool.lookup op.key).getD 0 + op.val)

/-- What the pool answers to an operation. -/
def Operation.answer (op : Operation) (pool : PMap ℤ) : Operation where
  typ := op.typ
  key := op.key
  val := 0
  ret := if op.typ = .opWrite then 0 else (pool.lookup op.key).getD 0

section Transitions

variable {ι : Type} {op : Operation} {pool pool' : PMap ℤ} {req : ClientRequest ι} {k : ℤ}

lemma applyOpToPool_eq : applyOpToPool op pool =
    if op.key ∈ pool then .ok (op.apply pool) else .error .assertion := by
  by_cases hkey : op.key ∈ pool
  · obtain ⟨value, hvalue⟩ := Finmap.mem_iff.mp hkey
    rw [if_pos hkey, applyOpToPool, hvalue, Operation.apply, hvalue]
    cases op.typ <;> rfl
  · rw [if_neg hkey, applyOpToPool, Finmap.lookup_eq_none.mpr hkey]
    rfl

lemma applyOpToPool_of_mem (h : op.key ∈ pool) : applyOpToPool op pool = .ok (op.apply pool) := by
  rw [applyOpToPool_eq, if_pos h]

lemma waitForRequests_of_mem (h : req.op.key ∈ pool) : waitForRequests pool req
    = .ok (req.op.apply pool, ⟨req.op.answer pool, req.cli, req.cId, req.tsReq⟩) := by
  obtain ⟨value, hvalue⟩ := Finmap.mem_iff.mp h
  rw [waitForRequests, hvalue, Operation.apply, Operation.answer, hvalue]
  cases req.op.typ <;> rfl

lemma waitForRequests_of_notMem (h : req.op.key ∉ pool) :
    waitForRequests pool req = .error .assertion := by
  rw [waitForRequests, Finmap.lookup_eq_none.mpr h]
  rfl

lemma waitForRequests_eq_ok {resp : ClientResponse ι}
    (h : waitForRequests pool req = .ok (pool', resp)) : req.op.key ∈ pool
      ∧ pool' = req.op.apply pool ∧ resp = ⟨req.op.answer pool, req.cli, req.cId, req.tsReq⟩ := by
  by_cases hkey : req.op.key ∈ pool
  · rw [waitForRequests_of_mem hkey] at h
    cases h
    exact ⟨hkey, rfl, rfl⟩
  · rw [waitForRequests_of_notMem hkey] at h
    cases h

/-- An operation on a key of the pool leaves the keys as they are. -/
lemma mem_apply_iff (h : op.key ∈ pool) : k ∈ op.apply pool ↔ k ∈ pool := by
  have hinsert : ∀ value, k ∈ pool.insert op.key value ↔ k ∈ pool := fun value => by
    rw [Finmap.mem_insert]
    exact or_iff_right_of_imp fun hk => hk ▸ h
  rw [Operation.apply]
  cases op.typ with
  | opRead => exact Iff.rfl
  | opWrite => exact hinsert _
  | opRaddw => exact hinsert _

end Transitions

end Madkv
