import Mathlib.Data.List.AList
import Mathlib.Data.String.Basic
import Madkv.Library.Intervals
import Madkv.Fuzzer.Abort

/-!
The approximate real-time causal consistency checker of the fuzzer
(`history.rs`).

* `UpdateSpan`, `QueuedSpan`, `History`: the trimmed history of acknowledged
  updates, per key and per client, and the queue of responses to check.
* `checkCall` and the checks of the single operations, all but the Scan an
  instance of `checkSpans`, the newest-first search of one key's histories.
* `History.addToQueue`, `History.applyUpdate`: the two operations of the
  checker. `applyUpdate` also lists the responses it handed to `checkCall`,
  with the verdicts (`Applied.checks`).
-/

namespace Madkv

open Intervals

/-- Per-key, non-read-only operation record with timestamp span. -/
structure UpdateSpan where
  tsCall : ℕ
  tsResp : ℕ
  value : Option String
  deriving DecidableEq, Repr

/-- Check queue entry with timestamp span. -/
structure QueuedSpan where
  tsCall : ℕ
  tsResp : ℕ
  resp : KvResp
  deriving DecidableEq, Repr

/-- The per-client histories of one key, each oldest first. -/
abbrev KeySpans := List (List UpdateSpan)

/-- Per-key per-client trimmed history of acknowledged update operations. -/
abbrev Spans := AList (fun _ : String => KeySpans)

/-- Trimmed history of per-client acknowledged operations. -/
structure History where
  queue : List QueuedSpan
  spans : Spans
  maxtr : List ℕ

/-- The dummy Delete that every history starts with. -/
def UpdateSpan.dummy : UpdateSpan := ⟨0, 0, none⟩

/-- One iteration of the loops of `History::new`: a key not seen yet gets a
history of one dummy for each client. -/
def Spans.addKey (numClis : ℕ) (spans : Spans) (key : String) : Spans :=
  if key ∈ spans then spans else spans.insert key (List.replicate numClis [.dummy])

/-- Create a new empty history for given number of clients and keys pool. -/
def History.new (numClis : ℕ) (keys : List (List String)) : History where
  queue := []
  spans := keys.foldl (fun spans cliKeys => cliKeys.foldl (Spans.addKey numClis) spans) ∅
  maxtr := List.replicate numClis 0

/-- Add a newly acknowledged response result to the check queue. -/
def History.addToQueue (h : History) (tsCall tsResp : ℕ) (resp : KvResp) :
    Except Abort History := do
  debugAssert (tsCall < tsResp) .queueSpan
  debugAssert (h.queue.getLast?.all (·.tsResp < tsResp)) .queueOrder
  .ok { h with queue := h.queue ++ [⟨tsCall, tsResp, resp⟩] }

/-- Get the number of remaining checks in the check queue. -/
def History.queueLen (h : History) : ℕ := h.queue.length

/-! ### The checks -/

/-- The loops shared by the checks of one key: some client's history, searched
from its newest update, has an update called before the response whose value
`ok` accepts, with no update over before the call met on the way. -/
def checkSpans (ok : Option String → Bool) (keySpans : KeySpans) (tsCall tsResp : ℕ) : Bool :=
  keySpans.any fun cliSpans =>
    search (fun span => decide (span.tsCall < tsResp) && ok span.value)
      (fun span => decide (span.tsResp < tsCall)) cliSpans.reverse

/-- Check a Put operation result assuming given history. -/
def checkPut (keySpans : KeySpans) (tsCall tsResp : ℕ) (found : Bool) : Bool :=
  checkSpans (fun value => value.isSome == found) keySpans tsCall tsResp

/-- Check a Swap operation result assuming given history. -/
def checkSwap (keySpans : KeySpans) (tsCall tsResp : ℕ) (oldValue : Option String) : Bool :=
  checkSpans (fun value => value == oldValue) keySpans tsCall tsResp

/-- Check a Get operation result assuming given history. -/
def checkGet (keySpans : KeySpans) (tsCall tsResp : ℕ) (value : Option String) : Bool :=
  checkSpans (fun v => v == value) keySpans tsCall tsResp

/-- Check a Delete operation result assuming given history. -/
def checkDelete (keySpans : KeySpans) (tsCall tsResp : ℕ) (found : Bool) : Bool :=
  checkSpans (fun value => value.isSome == found) keySpans tsCall tsResp

/-- The first loop of `check_scan`: the entries as a map, `none` for an entry
out of range or a duplicate key. -/
def collectEntries (keyStart keyEnd : String) :
    List (String × String) → AList (fun _ : String => String) →
      Option (AList (fun _ : String => String))
  | [], entriesMap => some entriesMap
  | (key, value) :: entries, entriesMap =>
      if key < keyStart ∨ key > keyEnd then none
      else if key ∈ entriesMap then none
      else collectEntries keyStart keyEnd entries (entriesMap.insert key value)

/-- Check a Scan operation result assuming given history. All possible keys in
range are searched here. -/
def checkScan (spans : Spans) (tsCall tsResp : ℕ) (keyStart keyEnd : String)
    (entries : List (String × String)) : Bool :=
  match collectEntries keyStart keyEnd entries ∅ with
  | none => false
  | some entriesMap =>
      spans.entries.all fun ⟨key, keySpans⟩ =>
        !(decide (key ≥ keyStart) && decide (key ≤ keyEnd)
          && !checkGet keySpans tsCall tsResp (entriesMap.lookup key))

/-- Check a call popped off from the check queue, which is now decidable. A key
without a history fails. -/
def checkCall (spans : Spans) (entry : QueuedSpan) : Bool :=
  match entry.resp with
  | .put key found =>
      (spans.lookup key).any fun keySpans => checkPut keySpans entry.tsCall entry.tsResp found
  | .swap key oldValue =>
      (spans.lookup key).any fun keySpans => checkSwap keySpans entry.tsCall entry.tsResp oldValue
  | .get key value =>
      (spans.lookup key).any fun keySpans => checkGet keySpans entry.tsCall entry.tsResp value
  | .scan keyStart keyEnd entries =>
      checkScan spans entry.tsCall entry.tsResp keyStart keyEnd entries
  | .delete key found =>
      (spans.lookup key).any fun keySpans => checkDelete keySpans entry.tsCall entry.tsResp found
  | .stop => false

/-! ### Applying an update -/

/-- The `keep_ts` of a client history given newest first: the call of the
newest update fully ahead of the next possible incoming request and of any
pending request in the check queue. -/
def keepTs (minComingTs minQueuedTs : ℕ) : List UpdateSpan → ℕ
  | [] => 0
  | span :: older =>
      if span.tsResp < minComingTs ∧ span.tsResp < minQueuedTs then span.tsCall
      else keepTs minComingTs minQueuedTs older

/-- Pop off the head of a client history while it was over before `keepTs`,
always leaving one update. -/
def popHead (keepTs : ℕ) : List UpdateSpan → List UpdateSpan
  | a :: b :: rest => if a.tsResp < keepTs then popHead keepTs (b :: rest) else a :: b :: rest
  | l => l

/-- Trim off updates at the head of a client history. -/
def trimHead (minComingTs minQueuedTs : ℕ) (cliSpans : List UpdateSpan) : List UpdateSpan :=
  popHead (keepTs minComingTs minQueuedTs cliSpans.reverse) cliSpans

/-- What the last loop of `apply_update` leaves: the queue, the responses
handed to `check_call` with the verdicts, and the response that failed. -/
structure Popped where
  queue : List QueuedSpan
  checks : List (QueuedSpan × Bool)
  failed : Option KvResp
  deriving DecidableEq

/-- Pop off now-checkable results from the check queue, up to the first that
fails its check. -/
def popCheckable (spans : Spans) (minComingTs : ℕ) : List QueuedSpan → Popped
  | [] => ⟨[], [], none⟩
  | entry :: queue =>
      if entry.tsResp < minComingTs then
        if checkCall spans entry then
          let popped := popCheckable spans minComingTs queue
          { popped with checks := (entry, true) :: popped.checks }
        else ⟨queue, [(entry, false)], some entry.resp⟩
      else ⟨entry :: queue, [], none⟩

/-- What `apply_update` leaves and returns, with the checks it made:
`some (some resp)` if the check of `resp` failed, `some none` if the update key
is unexpected, `none` if everything is still alright. -/
structure Applied where
  history : History
  returned : Option (Option KvResp)
  checks : List (QueuedSpan × Bool)

/-- The largest timestamp, `u64::MAX`. -/
def u64Max : ℕ := 2 ^ 64 - 1

/-- Add a newly acknowledged update to the history, possibly trimming the heads
of the history and possibly triggering some pending results to get checked. -/
def History.applyUpdate (h : History) (cidx tsCall tsResp : ℕ) (key : String)
    (value : Option String) : Except Abort Applied :=
  match h.spans.lookup key with
  | none => .ok ⟨h, some none, []⟩
  | some keySpans => do
      debugAssert (cidx < h.maxtr.length) .maxtrIndex
      debugAssert (cidx < keySpans.length) .spansIndex
      debugAssert ((keySpans.getD cidx []).getLast?.all (·.tsResp < tsCall)) .spansOrder
      let keySpans := keySpans.modify cidx (· ++ [⟨tsCall, tsResp, value⟩])
      let maxtr := h.maxtr.set cidx tsResp
      let minComingTs ← unwrap maxtr.min? .minUnwrap
      let minQueuedTs := (h.queue.map (·.tsCall)).min?.getD u64Max
      let spans := h.spans.insert key (keySpans.map (trimHead minComingTs minQueuedTs))
      let popped := popCheckable spans minComingTs h.queue
      .ok ⟨⟨popped.queue, spans, maxtr⟩, popped.failed.map some, popped.checks⟩

end Madkv
