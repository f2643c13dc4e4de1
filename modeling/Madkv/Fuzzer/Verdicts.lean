import Madkv.Fuzzer.HistoryInvariant

/-!
What the fuzzer's checks amount to over a whole run.

* `check_iff_justified`: trimming and early checking do not change a verdict,
  each is the one of the complete history of the run.
* `queue_and_checks_of_passed`: while nothing has failed, each response
  harvested is queued or has been checked once, in order, and the bound
  `minAck` says which.
-/

namespace Madkv

/-- Two clients with a key each. -/
def disjointCfg : FuzzConfig where
  numClis := 2
  numOps := 1000
  keys := [["a"], ["b"]]
  numClis_pos := by decide
  keys_length := rfl
  keys_ne_nil := by decide

/-- Client 0 loses its write of `a` and reads null, then both clients write
once more. -/
def lostWriteDraws : List Draws :=
  [drawCall 0 0 "x", drawResp 0 (.put "a" false), drawCall 0 4 "", drawResp 0 (.get "a" none),
    drawCall 0 0 "y", drawResp 0 (.put "a" true), drawCall 1 0 "z", drawResp 1 (.put "b" false)]

variable {cfg : FuzzConfig} {evs : List Event} {s : FuzzState}

/-- **Trimming and early checking never change a verdict**: a response popped
from the queue is accepted iff the complete history of the run, with the
updates acknowledged after the check, justifies it. -/
theorem check_iff_justified (h : FuzzRun cfg evs s) {entry : QueuedSpan} {verdict : Bool}
    (hcheck : (entry, verdict) ∈ checksOf evs) :
    entry ∈ entries evs ∧ (verdict = true ↔ Justified cfg evs entry) := by
  obtain ⟨hmem, -, hverdict⟩ := h.histInv.verdicts _ hcheck
  exact ⟨hmem, hverdict⟩

theorem check_iff_justified_lostWrite :
    (⟨3, 4, .get "a" none⟩ : QueuedSpan) ∈ entries (runOf disjointCfg lostWriteDraws).1
      ∧ (true = true ↔
          Justified disjointCfg (runOf disjointCfg lostWriteDraws).1 ⟨3, 4, .get "a" none⟩) :=
  check_iff_justified (fuzzRun_runOf disjointCfg lostWriteDraws) (by decide)

/-- **Every response is checked exactly once, in order, as soon as it is
decidable**: while no failure has been reported, the responses harvested up to
`minAck` have been checked and accepted, in the order of their timestamps, and
the queue holds the others. -/
theorem queue_and_checks_of_passed (h : FuzzRun cfg evs s) (hpass : s.passed = true) :
    s.history.queue = (entries evs).filter (fun e => decide (minAck cfg evs ≤ e.tsResp))
      ∧ checksOf evs
          = ((entries evs).filter fun e => decide (e.tsResp < minAck cfg evs)).map (·, true)
      ∧ (entries evs).Pairwise (fun a b => a.tsResp < b.tsResp) :=
  have hquiet := h.histInv.passed hpass
  ⟨h.histInv.queue hquiet, h.histInv.checks hquiet, h.loopInv.entries_ordered⟩

theorem queue_and_checks_of_passed_lostWrite :
    (runOf disjointCfg lostWriteDraws).2.passed = true
      ∧ (runOf disjointCfg lostWriteDraws).2.history.queue
          = (entries (runOf disjointCfg lostWriteDraws).1).filter
              (fun e => decide (minAck disjointCfg (runOf disjointCfg lostWriteDraws).1 ≤ e.tsResp))
      ∧ checksOf (runOf disjointCfg lostWriteDraws).1
          = ((entries (runOf disjointCfg lostWriteDraws).1).filter fun e =>
              decide (e.tsResp < minAck disjointCfg (runOf disjointCfg lostWriteDraws).1)).map
                (·, true)
      ∧ (entries (runOf disjointCfg lostWriteDraws).1).Pairwise
          (fun a b => a.tsResp < b.tsResp) :=
  ⟨by decide,
    queue_and_checks_of_passed (fuzzRun_runOf disjointCfg lostWriteDraws) (by decide)⟩

/-- Two responses have been checked at the end of that run, two are queued. -/
example : (checksOf (runOf disjointCfg lostWriteDraws).1).map (·.1.tsResp) = [2, 4]
    ∧ (runOf disjointCfg lostWriteDraws).2.history.queue.map (·.tsResp) = [6, 8] := by
  decide

end Madkv
