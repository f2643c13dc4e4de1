import Madkv.Fuzzer.Verdicts

/-!
Lost writes: a client writes a key, is acknowledged, and then reads null.

Every client's history of every key begins with a dummy Delete, and one client
is enough to vouch for an answer. So a client that has not updated the key
before the Get vouches for null with its dummy.

* `LostWrite`: the situation, with no Delete that could explain the null.
* `lostWrite_rejected_iff`: the check rejects it exactly if every client has
  updated the key before the Get; `exists_lostWrite_accepted` is a run with two
  clients on keys of their own where it does not.
-/

namespace Madkv

open Intervals

/-- Client `g.cidx` reads null for a key after its acknowledged write `w`, and
nobody has called a Delete of the key before the answer. -/
structure LostWrite (evs : List Event) (key : String) (w g : Harvest) : Prop where
  write : w ∈ harvests evs
  writes : (∃ value, w.call = .put key value) ∨ ∃ value, w.call = .swap key value
  get : g ∈ harvests evs
  call : g.call = .get key
  resp : g.resp = .get key none
  client : w.cidx = g.cidx
  before : w.tsResp < g.tsCall
  noDelete : ∀ ev ∈ evs, ev.call? = some (.delete key) → g.tsResp ≤ ev.ts

/-- A client has an acknowledged update on the key that was over before `t`. -/
def UpdatedBefore (evs : List Event) (j : ℕ) (key : String) (t : ℕ) : Prop :=
  ∃ u ∈ updatesBy evs j key, u.tsResp < t

variable {cfg : FuzzConfig} {evs : List Event} {s : FuzzState} {key : String} {w g : Harvest}

/-- With no update over before the query, the dummy vouches for null. -/
lemma vouches_dummy {j c r : ℕ} (hr : 0 < r) (h : ¬ UpdatedBefore evs j key c) :
    Vouches UpdateSpan.tsCall UpdateSpan.tsResp (updateSeq evs j key) c r
      (fun u => u.value = none) :=
  ⟨[], .dummy, updatesBy evs j key, rfl, hr, rfl, fun u hu hlt => h ⟨u, hu, hlt⟩⟩

/-- Behind an update over before the query, only a Delete vouches for null. -/
lemma exists_delete_of_vouches {j c r : ℕ} (h : UpdatedBefore evs j key c)
    (hv : Vouches UpdateSpan.tsCall UpdateSpan.tsResp (updateSeq evs j key) c r
      (fun u => u.value = none)) :
    ∃ u ∈ updatesBy evs j key, u.tsCall < r ∧ u.value = none := by
  obtain ⟨pre, u, post, heq, hlo, hnone, hpost⟩ := hv
  cases pre with
  | nil =>
      -- the dummy is cut off by the update
      obtain ⟨v, hv, hlt⟩ := h
      obtain ⟨-, htail⟩ := List.cons.inj heq
      rw [htail] at hv
      exact absurd hlt (hpost v hv)
  | cons x pre =>
      obtain ⟨-, htail⟩ := List.cons.inj heq
      exact ⟨u, by rw [htail]; simp, hlo, hnone⟩

/-- A null in an update sequence is a Delete that has been called. -/
lemma TraceInv.delete_called (hinv : TraceInv cfg evs) {j : ℕ} {u : UpdateSpan}
    (hu : u ∈ updatesBy evs j key) (hnone : u.value = none) :
    .called j u.tsCall (.delete key) ∈ evs := by
  obtain ⟨h, hh, rfl, hupd⟩ := mem_updatesBy.mp hu
  obtain ⟨value, hinfo, rfl⟩ := Harvest.updateOn_eq_some.mp hupd
  obtain rfl : value = none := hnone
  have hdel : h.call = .delete key := by
    cases hcall : h.call <;> rw [hcall] at hinfo <;> simp [KvCall.updateInfo] at hinfo
    rw [hinfo]
  rw [← hdel]
  exact hinv.call h hh

/-- **When a lost write is detected**: the check of the null answer rejects it
iff every client has an acknowledged update on the key that was over before the
Get was called. -/
theorem lostWrite_rejected_iff (h : FuzzRun cfg evs s) (hlost : LostWrite evs key w g)
    {verdict : Bool} (hcheck : (g.entry, verdict) ∈ checksOf evs) :
    verdict = false ↔ ∀ j < cfg.numClis, UpdatedBefore evs j key g.tsCall := by
  have hinv := h.loopInv.toTraceInv
  obtain ⟨-, -, hverdict⟩ := h.histInv.verdicts _ hcheck
  have hpool : key ∈ cfg.pool := by
    have hgen := hinv.generated_pool (hinv.call g hlost.get)
    rw [hlost.call] at hgen
    cases hgen with
    | get hk => exact hk
  have hjust : Justified cfg evs g.entry ↔
      Vouched cfg evs g.tsCall g.tsResp key (fun v => v = none) := by
    rw [Justified, show g.entry.resp = .get key none from hlost.resp]
    exact and_iff_right hpool
  rw [← Bool.not_eq_true, hverdict, hjust]
  have hspan := hinv.span g hlost.get
  constructor
  · intro hnot j hj
    by_contra hno
    exact hnot ⟨j, hj, vouches_dummy (by omega) hno⟩
  · rintro hall ⟨j, hj, hv⟩
    obtain ⟨u, hu, hlt, hnone⟩ := exists_delete_of_vouches (hall j hj) hv
    have hle := hlost.noDelete _ (hinv.delete_called hu hnone) rfl
    exact absurd hlt (not_lt.mpr hle)

/-- The write that client 0 loses, and the Get that shows it. -/
lemma lostWrite_demo : LostWrite (runOf disjointCfg lostWriteDraws).1 "a"
    ⟨0, .put "a" "x", 1, 2, .put "a" false, none, []⟩
    ⟨0, .get "a", 3, 4, .get "a" none, none, []⟩ :=
  ⟨by decide, Or.inl ⟨"x", rfl⟩, by decide, rfl, rfl, rfl, by decide, by decide⟩

theorem lostWrite_rejected_iff_disjoint :
    true = false ↔ ∀ j < disjointCfg.numClis,
      UpdatedBefore (runOf disjointCfg lostWriteDraws).1 j "a" 3 :=
  lostWrite_rejected_iff (fuzzRun_runOf disjointCfg lostWriteDraws) lostWrite_demo (by decide)

/-- With a second client on keys of its own, a lost write goes undetected. -/
theorem exists_lostWrite_accepted :
    ¬ ∀ (cfg : FuzzConfig) (evs : List Event) (s : FuzzState) (key : String) (w g : Harvest)
        (verdict : Bool), FuzzRun cfg evs s → LostWrite evs key w g →
          (g.entry, verdict) ∈ checksOf evs → verdict = false := by
  intro h
  exact absurd (h disjointCfg _ _ "a" _ _ true (fuzzRun_runOf disjointCfg lostWriteDraws)
    lostWrite_demo (by decide)) (by decide)

end Madkv
