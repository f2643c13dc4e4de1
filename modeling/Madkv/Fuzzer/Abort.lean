import Madkv.Library.Fallible
import Madkv.Runner.KvCall

/-!
How a piece of the fuzzer can fail to return: a panic, an error handed up by
`?`, or a random retry loop that has not been drawn to its end. The build
modelled is one with debug assertions and overflow checks.
-/

namespace Madkv

/-- The places where the fuzzer can panic. -/
inductive Panic where
  /-- `gen_rand_index`: `debug_assert_ne!(max, 0)`. -/
  | indexMax
  /-- `gen_rand_client`: `debug_assert!(want_flying || !flying.all())`. -/
  | allFlying
  /-- `gen_rand_client`: `debug_assert!(!want_flying || !flying.none())`. -/
  | noneFlying
  /-- `gen_rand_kvcall`: the variant drawn is out of range. -/
  | callVariant
  /-- `add_to_queue`: `debug_assert!(ts_call < ts_resp)`. -/
  | queueSpan
  /-- `add_to_queue`: the back of the queue was not answered before. -/
  | queueOrder
  /-- `apply_update`: `debug_assert!(cidx < self.maxtr.len())`. -/
  | maxtrIndex
  /-- `apply_update`: `debug_assert!(cidx < key_spans.len())`. -/
  | spansIndex
  /-- `apply_update`: the client's last update was not over before this call. -/
  | spansOrder
  /-- `apply_update`: the minimum over no clients is unwrapped. -/
  | minUnwrap
  /-- `fuzz_test`: `timestamp += 1` overflows. -/
  | clock
  /-- `fuzz_test`: the progress modulus `total_ops / 100` is zero. -/
  | modulus
  /-- A vector is indexed out of its bounds. -/
  | bounds
  deriving DecidableEq, Repr

/-- Why a computation of the fuzzer does not return. -/
inductive Abort where
  | panic (p : Panic)
  | error (e : RunnerError)
  /-- The draws given do not end the retry loop of `gen_rand_client`. -/
  | retrying
  deriving DecidableEq, Repr

/-- `debug_assert!`. -/
def debugAssert (b : Bool) (p : Panic) : Except Abort Unit :=
  if b then .ok () else .error (.panic p)

/-- `unwrap()` on an optional value. -/
def unwrap {α : Type} (o : Option α) (p : Panic) : Except Abort α :=
  match o with
  | some a => .ok a
  | none => .error (.panic p)

/-- A vector access `l[i]`. -/
def index {α : Type} (l : List α) (i : ℕ) : Except Abort α := unwrap l[i]? .bounds

lemma debugAssert_of_true {b : Bool} (p : Panic) (h : b = true) : debugAssert b p = .ok () := by
  rw [debugAssert, if_pos h]

lemma debugAssert_eq_ok {b : Bool} {p : Panic} {u : Unit} (h : debugAssert b p = .ok u) :
    b = true := by
  rw [debugAssert] at h
  split at h
  · assumption
  · cases h

lemma unwrap_eq_ok {α : Type} {o : Option α} {p : Panic} {a : α} :
    unwrap o p = .ok a ↔ o = some a := by
  cases o <;> simp [unwrap]

lemma index_eq_ok {α : Type} {l : List α} {i : ℕ} {a : α} :
    index l i = .ok a ↔ l[i]? = some a :=
  unwrap_eq_ok

/-- `x` aborts, if at all, in a way that `P` allows. -/
def AbortsOnly (P : Abort → Prop) {α : Type} (x : Except Abort α) : Prop :=
  ∀ a, x = .error a → P a

lemma abortsOnly_ok {P : Abort → Prop} {α : Type} {x : Except Abort α} {r : α} (h : x = .ok r) :
    AbortsOnly P x := by
  intro a ha
  rw [h] at ha
  cases ha

/-- A sequence aborts where its first part does or, after that, its second. -/
lemma AbortsOnly.bind {P : Abort → Prop} {α β : Type} {x : Except Abort α}
    {f : α → Except Abort β} (hx : AbortsOnly P x) (hf : ∀ r, x = .ok r → AbortsOnly P (f r)) :
    AbortsOnly P (x >>= f) := by
  intro a ha
  rcases Fallible.bind_eq_error.mp ha with h | ⟨r, hr, h⟩
  · exact hx a h
  · exact hf r hr a h

end Madkv
