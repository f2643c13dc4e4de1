import Mathlib.Data.Rat.Cast.Order
import Mathlib.Tactic.NormNum
import Madkv.Fuzzer.Verdicts

/-!
No false alarms: the fuzzer accepts every linearizable run.

* `RunOp`, `opsOf`: the calls of a run with the answers they got.
* `Linearizable`: an order of these operations, each at a point of the time
  line between its timestamps, in which a sequential map that starts empty
  gives the answers.
* `Linearized.vouched`: the value of a key at such a point is vouched for by
  the complete history, once the response is checkable. The writer of the value
  has been acknowledged, since a client with a call outstanding holds `minAck`
  below that call.
* `unreported_of_linearizable`: `apply_update` reports nothing.
-/

namespace Madkv

open Linearization Intervals

/-- A call of a run, with the timestamp and the text of its answer if it got
one. -/
structure RunOp where
  cidx : ℕ
  tsCall : ℕ
  call : KvCall
  answer : Option (ℕ × KvResp)
  deriving DecidableEq

/-- What a client answered to its call made at `t`. -/
def answerTo (evs : List Event) (j t : ℕ) : Option (ℕ × KvResp) :=
  ((harvests evs).find? fun h => h.cidx = j ∧ h.tsCall = t).map fun h => (h.tsResp, h.resp)

/-- The calls of a run, with their answers. -/
def opsOf (evs : List Event) : List RunOp :=
  evs.filterMap fun ev =>
    ev.call?.map fun call => ⟨ev.cidx, ev.ts, call, answerTo evs ev.cidx ev.ts⟩

/-- A sequential map gives the answer that the call got. -/
def RunOp.Right (m : KvMap) (o : RunOp) : Prop := ∀ a ∈ o.answer, Answers m o.call a.2

/-- `L` is a linearization of the run. -/
def Linearized (evs : List Event) (L : List (RunOp × ℚ)) : Prop :=
  Linearizes (fun o : RunOp => (o.tsCall : ℚ)) (fun o => o.answer.map fun a => (a.1 : ℚ))
    (store fun o => o.call.updateInfo) RunOp.Right KvMap.empty (opsOf evs) L

/-- Each call of the run takes effect at some point between its call and its
response, on a map that starts empty and produces the responses. -/
def Linearizable (evs : List Event) : Prop := ∃ L, Linearized evs L

/-! ### The operations of a run -/

lemma mem_opsOf {evs : List Event} {o : RunOp} :
    o ∈ opsOf evs ↔
      .called o.cidx o.tsCall o.call ∈ evs ∧ o.answer = answerTo evs o.cidx o.tsCall := by
  rw [opsOf, List.mem_filterMap]
  constructor
  · rintro ⟨ev, hev, heq⟩
    cases ev with
    | called j t call =>
        obtain rfl := Option.some.inj heq
        exact ⟨hev, rfl⟩
    | stopped j t => cases heq
    | waited h => cases heq
  · rintro ⟨hev, hans⟩
    refine ⟨_, hev, ?_⟩
    obtain ⟨j, t, call, answer⟩ := o
    obtain rfl : answer = answerTo evs j t := hans
    rfl

variable {cfg : FuzzConfig} {evs : List Event} {s : FuzzState}

lemma TraceInv.answerTo_eq (hinv : TraceInv cfg evs) {h : Harvest} (hh : h ∈ harvests evs) :
    answerTo evs h.cidx h.tsCall = some (h.tsResp, h.resp) := by
  rw [answerTo]
  cases hfind : (harvests evs).find? fun h' => h'.cidx = h.cidx ∧ h'.tsCall = h.tsCall with
  | none =>
      rw [List.find?_eq_none] at hfind
      exact absurd (hfind h hh) (by simp)
  | some h' =>
      have hmem := List.mem_of_find?_eq_some hfind
      have hts := List.find?_some hfind
      simp only [decide_eq_true_eq] at hts
      rw [hinv.eq_of_tsCall_eq hmem hh hts.2]
      rfl

/-- The operation of a call that was answered. -/
def Harvest.op (h : Harvest) : RunOp := ⟨h.cidx, h.tsCall, h.call, some (h.tsResp, h.resp)⟩

lemma TraceInv.op_mem (hinv : TraceInv cfg evs) {h : Harvest} (hh : h ∈ harvests evs) :
    h.op ∈ opsOf evs :=
  mem_opsOf.mpr ⟨hinv.call h hh, (hinv.answerTo_eq hh).symm⟩

/-- An operation of the run has been answered, or its client's latest
acknowledged update is older than it. -/
lemma TraceInv.op_cases (hinv : TraceInv cfg evs) {o : RunOp} (ho : o ∈ opsOf evs) :
    (∃ h ∈ harvests evs, h.op = o) ∨ lastAck evs o.cidx < o.tsCall := by
  obtain ⟨hcalled, hans⟩ := mem_opsOf.mp ho
  rcases hinv.pending _ _ _ hcalled with ⟨h, hh, hj, ht⟩ | hlast
  · left
    have heq := hinv.eq_of_ts_eq (hinv.call h hh) hcalled ht
    have hcall : h.call = o.call := (Event.called.inj heq).2.2
    refine ⟨h, hh, ?_⟩
    rw [← hj, ← ht, hinv.answerTo_eq hh] at hans
    obtain ⟨j, t, call, answer⟩ := o
    obtain rfl : answer = some (h.tsResp, h.resp) := hans
    rw [Harvest.op, hj, ht, hcall]
  · right
    rcases lastAck_cases evs o.cidx with hzero | ⟨h, hh, hj, heq⟩
    · rw [hzero]
      exact (hinv.ts_le hcalled).1
    · rw [heq]
      exact hlast h hh hj

/-! ### Values at a point of the linearization -/

/-- An acknowledged update vouches for its value if no update of its client on
the key came between it and the query. -/
lemma TraceInv.vouches_update (hinv : TraceInv cfg evs) {w : Harvest} {key : String}
    {u : UpdateSpan} {c r : ℕ} {ok : UpdateSpan → Prop} (hw : w ∈ harvests evs)
    (hupd : w.updateOn key = some u) (hr : w.tsCall < r) (hok : ok u)
    (hbetween : ∀ w' ∈ harvests evs, ∀ u', w'.updateOn key = some u' → w'.tsResp < c →
      ¬ w.tsResp < w'.tsCall) :
    Vouches UpdateSpan.tsCall UpdateSpan.tsResp (updateSeq evs w.cidx key) c r ok := by
  obtain ⟨pre, post, hsplit⟩ := List.append_of_mem hw
  set f : Harvest → Option UpdateSpan :=
    fun h => if h.cidx = w.cidx then h.updateOn key else none with hf
  have hfw : f w = some u := by rw [hf]; simp [hupd]
  have hseq : updateSeq evs w.cidx key
      = (.dummy :: pre.filterMap f) ++ u :: post.filterMap f := by
    rw [updateSeq, updatesBy, hsplit, List.filterMap_append, List.filterMap_cons_some hfw,
      List.cons_append]
  obtain ⟨value, -, rfl⟩ := Harvest.updateOn_eq_some.mp hupd
  refine ⟨_, _, _, hseq, hr, hok, fun v hv hlt => ?_⟩
  -- a later update of the same client was called after `w` was answered
  obtain ⟨w', hw', hfw'⟩ := List.mem_filterMap.mp hv
  have hmem : w' ∈ harvests evs := by rw [hsplit]; simp [hw']
  have hj : w'.cidx = w.cidx ∧ w'.updateOn key = some v := by
    rw [hf] at hfw'
    by_cases hj : w'.cidx = w.cidx
    · exact ⟨hj, by simpa [hj] using hfw'⟩
    · simp [hj] at hfw'
  have hsequential := hinv.sequential
  rw [hsplit, List.pairwise_append] at hsequential
  have hafter := (List.pairwise_cons.mp hsequential.2.1).1 w' hw' hj.1.symm
  obtain ⟨value', -, rfl⟩ := Harvest.updateOn_eq_some.mp hj.2
  exact hbetween w' hmem _ hj.2 hlt hafter

/-- The value that a key has at the point of a checkable response is vouched
for by the complete history. -/
lemma Linearized.vouched {L : List (RunOp × ℚ)} (hL : Linearized evs L) (hinv : TraceInv cfg evs)
    {g : Harvest} (hg : g ∈ harvests evs) (hmin : g.tsResp < minAck cfg evs) :
    ∃ m, Answers m g.call g.resp
      ∧ ∀ k, Vouched cfg evs g.tsCall g.tsResp k (fun v => v = m k) := by
  obtain ⟨m, hright, hvalue⟩ := hL.value_cases (hinv.op_mem hg) rfl
  have hgspan := hinv.span g hg
  refine ⟨m, hright _ rfl, fun k => ?_⟩
  rcases hvalue k with ⟨w, hw, hwrites, hle, hbetween⟩ | ⟨hnone, hbefore⟩
  · have hcalled := (mem_opsOf.mp hw).1
    have hlt : w.tsCall < g.tsResp := by
      -- the response is another event than the call
      rcases Nat.lt_or_eq_of_le (Nat.cast_le.mp hle) with hlt | heq
      · exact hlt
      · have := hinv.eq_of_ts_eq hcalled (mem_harvests.mp hg) heq
        cases this
    have hlast : minAck cfg evs ≤ lastAck evs w.cidx := minAck_le (hinv.cidx _ hcalled)
    rcases hinv.op_cases hw with ⟨h, hh, rfl⟩ | hpending
    · have hupd : h.updateOn k = some ⟨h.tsCall, h.tsResp, m k⟩ :=
        Harvest.updateOn_eq_some.mpr ⟨m k, hwrites, rfl⟩
      refine ⟨h.cidx, hinv.cidx _ hcalled, hinv.vouches_update hh hupd hlt rfl ?_⟩
      intro w' hw' u' hupd' hlt' hafter
      obtain ⟨v', hinfo, -⟩ := Harvest.updateOn_eq_some.mp hupd'
      exact hbetween w'.op (hinv.op_mem hw') v' _ hinfo rfl (Nat.cast_lt.mpr hlt') _ rfl
        (Nat.cast_lt.mpr hafter)
    · -- a client with a call outstanding keeps the response from being checked
      omega
  · refine ⟨0, cfg.numClis_pos, [], .dummy, updatesBy evs 0 k, rfl, ?_, hnone.symm, ?_⟩
    · show 0 < g.tsResp
      omega
    · intro u hu hlt
      obtain ⟨h, hh, -, hupd⟩ := mem_updatesBy.mp hu
      obtain ⟨v, hinfo, rfl⟩ := Harvest.updateOn_eq_some.mp hupd
      exact hbefore h.op (hinv.op_mem hh) v _ hinfo rfl (Nat.cast_lt.mpr hlt)

/-- The answer that a map gives holds if the map's values are vouched for. -/
lemma respHolds_of_answers {vouched : String → (Option String → Prop) → Prop}
    {keys : List String} {m : KvMap} {call : KvCall} {resp : KvResp} (hans : Answers m call resp)
    (hgen : GeneratedFrom keys call)
    (hvouched : ∀ k (ok : Option String → Prop), ok (m k) → vouched k ok) :
    RespHolds (· ∈ keys) vouched resp := by
  cases hgen with
  | put value hk =>
      cases resp <;> simp only [Answers] at hans
      obtain ⟨rfl, rfl⟩ := hans
      exact ⟨hk, hvouched _ _ rfl⟩
  | swap value hk =>
      cases resp <;> simp only [Answers] at hans
      obtain ⟨rfl, rfl⟩ := hans
      exact ⟨hk, hvouched _ _ rfl⟩
  | get hk =>
      cases resp <;> simp only [Answers] at hans
      obtain ⟨rfl, rfl⟩ := hans
      exact ⟨hk, hvouched _ _ rfl⟩
  | scan hs he hle =>
      cases resp <;> try exact hans.elim
      obtain ⟨rfl, rfl⟩ := And.intro hans.1 hans.2.1
      obtain ⟨hnodup, hrange, hlookup⟩ := answers_scan_iff.mp hans
      exact ⟨hnodup, hrange, fun k _ hs he => hvouched k _ (hlookup k hs he)⟩
  | delete hk =>
      cases resp <;> simp only [Answers] at hans
      obtain ⟨rfl, rfl⟩ := hans
      exact ⟨hk, hvouched _ _ rfl⟩

/-- **No false alarm**: in a linearizable run no `apply_update` reports a
violation. -/
theorem unreported_of_linearizable (h : FuzzRun cfg evs s) (hlin : Linearizable evs) :
    Unreported evs := by
  have hinv := h.loopInv.toTraceInv
  obtain ⟨L, hL⟩ := hlin
  intro g hg
  rw [(h.histInv.returned g hg).2]
  intro p hp
  have hcheck : p ∈ checksOf evs := List.mem_flatMap.mpr ⟨g, hg, hp⟩
  obtain ⟨hmem, hmin, hverdict⟩ := h.histInv.verdicts p hcheck
  rw [hverdict]
  obtain ⟨e, he, heq⟩ := mem_entries.mp hmem
  rw [← heq] at hmin ⊢
  obtain ⟨m, hans, hvouched⟩ := hL.vouched hinv he hmin
  refine respHolds_of_answers hans (hinv.generated_pool (hinv.call e he)) fun k ok hok => ?_
  obtain ⟨j, hj, hv⟩ := hvouched k
  refine ⟨j, hj, hv.mono fun u _ hu => ?_⟩
  rw [hu]
  exact hok

/-- Two clients with a key in common. -/
def conflictCfg : FuzzConfig where
  numClis := 2
  numOps := 1000
  keys := [["a"], ["a"]]
  numClis_pos := Nat.two_pos
  keys_length := rfl
  keys_ne_nil := by decide

/-- Client 1 reads a write of client 0 before it is acknowledged. -/
def earlyReadDraws : List Draws :=
  [drawCall 0 0 "x", drawCall 1 4 "", drawResp 1 (.get "a" (some "x")),
    drawResp 0 (.put "a" false), drawCall 0 0 "y", drawResp 0 (.put "a" true),
    drawCall 1 0 "z", drawResp 1 (.put "a" true)]

lemma opsOf_earlyRead : opsOf (runOf conflictCfg earlyReadDraws).1 =
    [⟨0, 1, .put "a" "x", some (4, .put "a" false)⟩,
      ⟨1, 2, .get "a", some (3, .get "a" (some "x"))⟩,
      ⟨0, 5, .put "a" "y", some (6, .put "a" true)⟩,
      ⟨1, 7, .put "a" "z", some (8, .put "a" true)⟩] := by
  decide

/-- The write takes effect at its call, the read at its response. -/
lemma linearizable_earlyRead : Linearizable (runOf conflictCfg earlyReadDraws).1 := by
  refine ⟨[(⟨0, 1, .put "a" "x", some (4, .put "a" false)⟩, 1),
    (⟨1, 2, .get "a", some (3, .get "a" (some "x"))⟩, 3),
    (⟨0, 5, .put "a" "y", some (6, .put "a" true)⟩, 5),
    (⟨1, 7, .put "a" "z", some (8, .put "a" true)⟩, 7)], ?_⟩
  rw [Linearized, opsOf_earlyRead]
  refine ⟨by decide, by simp, by simp, by norm_num, by norm_num, by norm_num, ?_⟩
  simp [Legal, RunOp.Right, Answers, store, KvCall.updateInfo, KvMap.empty]

theorem unreported_of_linearizable_earlyRead :
    Unreported (runOf conflictCfg earlyReadDraws).1 :=
  unreported_of_linearizable (fuzzRun_runOf conflictCfg earlyReadDraws) linearizable_earlyRead

end Madkv
