import Mathlib.Data.List.Pairwise
import Mathlib.Tactic.SplitIfs
import Madkv.Fuzzer.Checks
import Madkv.Fuzzer.FuzzTest

/-!
What the events of a run say: the responses harvested, the complete update
sequences of the clients, and the verdict these give on a response.

* `harvests`, `checksOf`: the responses harvested and the checks made, in order.
* `updateSeq`: the complete, untrimmed update sequence of one client on one
  key, after the dummy Delete at time 0.
* `lastAck`, `minAck`: the response time of a client's latest acknowledged
  update, and its minimum over the clients.
* `Justified`: the verdict of the complete history on a response.
* `TraceInv`: what holds of the events of every run, of whatever the iterations
  draw.
-/

namespace Madkv

open Intervals Execution

/-- The response that an event harvested. -/
def Event.harvest? : Event → Option Harvest
  | .waited h => some h
  | _ => none

/-- The call that an event made. -/
def Event.call? : Event → Option KvCall
  | .called _ _ call => some call
  | _ => none

/-- The timestamp of the iteration of an event. -/
def Event.ts : Event → ℕ
  | .called _ ts _ => ts
  | .stopped _ ts => ts
  | .waited h => h.tsResp

/-- The client of an event. -/
def Event.cidx : Event → ℕ
  | .called cidx _ _ => cidx
  | .stopped cidx _ => cidx
  | .waited h => h.cidx

/-- The responses harvested in a run, in order. -/
def harvests (evs : List Event) : List Harvest := evs.filterMap Event.harvest?

@[simp] lemma harvests_nil : harvests [] = [] := rfl

@[simp] lemma harvests_called (evs : List Event) (cidx ts : ℕ) (call : KvCall) :
    harvests (evs ++ [.called cidx ts call]) = harvests evs := by
  simp [harvests, Event.harvest?]

@[simp] lemma harvests_stopped (evs : List Event) (cidx ts : ℕ) :
    harvests (evs ++ [.stopped cidx ts]) = harvests evs := by
  simp [harvests, Event.harvest?]

@[simp] lemma harvests_waited (evs : List Event) (h : Harvest) :
    harvests (evs ++ [.waited h]) = harvests evs ++ [h] := by
  simp [harvests, Event.harvest?]

lemma forall_harvests_waited {evs : List Event} {h : Harvest} {p : Harvest → Prop} :
    (∀ h' ∈ harvests (evs ++ [.waited h]), p h') ↔ (∀ h' ∈ harvests evs, p h') ∧ p h := by
  rw [harvests_waited, List.forall_mem_append, List.forall_mem_singleton]

@[simp] lemma mem_harvests {evs : List Event} {h : Harvest} :
    h ∈ harvests evs ↔ .waited h ∈ evs := by
  rw [harvests, List.mem_filterMap]
  constructor
  · rintro ⟨ev, hev, heq⟩
    cases ev with
    | waited h' =>
        obtain rfl : h' = h := Option.some.inj heq
        exact hev
    | called _ _ _ => cases heq
    | stopped _ _ => cases heq
  · exact fun hev => ⟨_, hev, rfl⟩

/-- The update that an answered call made on a key. -/
def Harvest.updateOn (h : Harvest) (key : String) : Option UpdateSpan :=
  match h.call.updateInfo with
  | some (k, value) => if k = key then some ⟨h.tsCall, h.tsResp, value⟩ else none
  | none => none

lemma Harvest.updateOn_eq_some {h : Harvest} {key : String} {u : UpdateSpan} :
    h.updateOn key = some u ↔
      ∃ value, h.call.updateInfo = some (key, value) ∧ u = ⟨h.tsCall, h.tsResp, value⟩ := by
  rw [Harvest.updateOn]
  cases h.call.updateInfo with
  | none => simp
  | some p =>
      obtain ⟨k, value⟩ := p
      by_cases hk : k = key
      · subst hk
        simp [eq_comm]
      · simp [hk]

/-- The updates that a client had acknowledged on a key, in order. -/
def updatesBy (evs : List Event) (j : ℕ) (key : String) : List UpdateSpan :=
  (harvests evs).filterMap fun h => if h.cidx = j then h.updateOn key else none

/-- The complete update sequence of a client on a key, starting with the
initial null update at time 0. -/
def updateSeq (evs : List Event) (j : ℕ) (key : String) : List UpdateSpan :=
  .dummy :: updatesBy evs j key

/-- The response timestamp of a client's latest acknowledged update, 0 if it
has none. -/
def lastAck (evs : List Event) (j : ℕ) : ℕ :=
  (((harvests evs).filter fun h => h.cidx = j ∧ h.call.updateInfo.isSome).getLast?.map
    Harvest.tsResp).getD 0

/-- The minimum over the clients of `lastAck`. -/
def minAck (cfg : FuzzConfig) (evs : List Event) : ℕ :=
  ((List.range cfg.numClis).map (lastAck evs)).min?.getD 0

/-- The responses that the run passed to `check_call`, with the verdicts. -/
def checksOf (evs : List Event) : List (QueuedSpan × Bool) :=
  (harvests evs).flatMap Harvest.checks

/-- The complete history vouches for a value of a key: some client has an
update called before the response that carries the value, and no later update
on the key that was over before the call. -/
def Vouched (cfg : FuzzConfig) (evs : List Event) (tsCall tsResp : ℕ) (key : String)
    (ok : Option String → Prop) : Prop :=
  ∃ j < cfg.numClis,
    Vouches UpdateSpan.tsCall UpdateSpan.tsResp (updateSeq evs j key) tsCall tsResp
      (fun u => ok u.value)

/-- The verdict of the complete history on a response. -/
def Justified (cfg : FuzzConfig) (evs : List Event) (entry : QueuedSpan) : Prop :=
  RespHolds (· ∈ cfg.pool) (Vouched cfg evs entry.tsCall entry.tsResp) entry.resp

/-- A call of a client has been answered. -/
def Answered (evs : List Event) (j t : ℕ) : Prop :=
  ∃ h ∈ harvests evs, h.cidx = j ∧ h.tsCall = t

/-! ### How the events of one more iteration change them -/

lemma mem_updatesBy {evs : List Event} {j : ℕ} {key : String} {u : UpdateSpan} :
    u ∈ updatesBy evs j key ↔ ∃ h ∈ harvests evs, h.cidx = j ∧ h.updateOn key = some u := by
  rw [updatesBy, List.mem_filterMap]
  refine exists_congr fun h => and_congr_right fun _ => ?_
  by_cases hj : h.cidx = j <;> simp [hj]

lemma updatesBy_append_waited (evs : List Event) (h : Harvest) (j : ℕ) (key : String) :
    updatesBy (evs ++ [.waited h]) j key =
      updatesBy evs j key ++ if h.cidx = j then (h.updateOn key).toList else [] := by
  rw [updatesBy, harvests_waited, List.filterMap_append, updatesBy]
  congr 1
  by_cases hj : h.cidx = j
  · cases hu : h.updateOn key <;> simp [hj, hu]
  · simp [hj]

lemma lastAck_append_waited (evs : List Event) (h : Harvest) (j : ℕ) :
    lastAck (evs ++ [.waited h]) j =
      if h.cidx = j ∧ h.call.updateInfo.isSome then h.tsResp else lastAck evs j := by
  rw [lastAck, harvests_waited, List.filter_append]
  split_ifs with hj
  · simp [hj]
  · simp [hj, lastAck]

lemma updateSeq_congr {evs evs' : List Event} (h : harvests evs' = harvests evs) (j : ℕ)
    (key : String) : updateSeq evs' j key = updateSeq evs j key := by
  rw [updateSeq, updateSeq, updatesBy, updatesBy, h]

lemma lastAck_congr {evs evs' : List Event} (h : harvests evs' = harvests evs) (j : ℕ) :
    lastAck evs' j = lastAck evs j := by
  rw [lastAck, lastAck, h]

lemma checksOf_congr {evs evs' : List Event} (h : harvests evs' = harvests evs) :
    checksOf evs' = checksOf evs := by
  rw [checksOf, checksOf, h]

lemma checksOf_append_waited (evs : List Event) (h : Harvest) :
    checksOf (evs ++ [.waited h]) = checksOf evs ++ h.checks := by
  simp [checksOf]

lemma Answered.append {evs : List Event} {j t : ℕ} (h : Answered evs j t) (ev : Event) :
    Answered (evs ++ [ev]) j t := by
  obtain ⟨hv, hmem, hj, ht⟩ := h
  exact ⟨hv, by simpa using Or.inl (mem_harvests.mp hmem), hj, ht⟩

/-- A client's latest acknowledged update is one of its responses. -/
lemma lastAck_cases (evs : List Event) (j : ℕ) :
    lastAck evs j = 0 ∨ ∃ h ∈ harvests evs, h.cidx = j ∧ lastAck evs j = h.tsResp := by
  rw [lastAck]
  cases hlast : ((harvests evs).filter fun h => h.cidx = j ∧ h.call.updateInfo.isSome).getLast?
    with
  | none => exact Or.inl rfl
  | some h =>
      have hmem := List.mem_of_getLast? hlast
      rw [List.mem_filter] at hmem
      have hj : h.cidx = j := by
        have := hmem.2
        simp only [decide_eq_true_eq] at this
        exact this.1
      exact Or.inr ⟨h, hmem.1, hj, rfl⟩

end Madkv
