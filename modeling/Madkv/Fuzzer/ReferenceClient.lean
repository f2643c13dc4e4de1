import Madkv.Refcli.HandleKvCall
import Madkv.Fuzzer.SingleClient

/-!
The reference client under the fuzzer.

* `ServedBy`: a run's responses are those of the reference client, its map
  threaded through the run.
* `served_unreported_iff`: the checker, whose Scan includes the key it ends on,
  reports nothing exactly if no Scan that gets checked ended on a present key.
-/

namespace Madkv

open Linearization Refcli

/-- Each response is the one that the reference client returns, on the map that
the calls before it left. -/
def ServedBy : State → List Harvest → Prop
  | _, [] => True
  | state, h :: hs =>
      ∃ state', handleKvCall h.call state = some (h.resp, state') ∧ ServedBy state' hs

/-- What the reference client answered in the middle of a run. -/
lemma ServedBy.answers {state : State} {pre post : List Harvest} {g : Harvest}
    (h : ServedBy state (pre ++ g :: post)) :
    HalfOpenAnswers ((pre.map Harvest.call).foldl KvMap.after state.toMap) g.call g.resp := by
  induction pre generalizing state with
  | nil =>
      obtain ⟨state', hserve, -⟩ := h
      exact (handleKvCall_spec hserve).1
  | cons a pre ih =>
      obtain ⟨state', hserve, hrest⟩ := h
      rw [List.map_cons, List.foldl_cons, ← (handleKvCall_spec hserve).2]
      exact ih hrest

variable {cfg : FuzzConfig} {evs : List Event} {s : FuzzState} {g : Harvest}

lemma ServedBy.answers_mapBefore (hserved : ServedBy ∅ (harvests evs)) (hinv : TraceInv cfg evs)
    (hone : cfg.numClis = 1) (hg : g ∈ harvests evs) :
    HalfOpenAnswers (mapBefore evs g.tsCall) g.call g.resp := by
  obtain ⟨pre, post, hsplit⟩ := List.append_of_mem hg
  rw [mapBefore, hinv.callsBefore_eq hone hsplit, ← State.toMap_empty]
  rw [hsplit] at hserved
  exact hserved.answers

/-- The reference client's answers have the shape the checker expects. -/
lemma halfOpenAnswers_matches {m : KvMap} {call : KvCall} {resp : KvResp}
    (h : HalfOpenAnswers m call resp) (hm : ∀ k ∉ cfg.pool, m k = none) :
    Matches call resp ∧ ScansPool cfg resp := by
  cases call <;> cases resp <;> try exact h.elim
  case scan.scan =>
    obtain ⟨hs, he, -, hiff⟩ := h
    refine ⟨⟨hs, he⟩, fun p hp => ?_⟩
    by_contra hout
    have := ((hiff p.1 p.2).mp hp).2.2
    rw [hm p.1 hout] at this
    cases this
  case stop.stop => exact ⟨trivial, trivial⟩
  all_goals exact ⟨h.1, trivial⟩

/-- Right answers are not explained by the call's own update alone. -/
lemma not_ownUpdateMisleads {m : KvMap} {call : KvCall} {resp : KvResp}
    (h : HalfOpenAnswers m call resp) : ¬ OwnUpdateMisleads m call resp := by
  cases call <;> cases resp <;> try exact h.elim
  case put.put =>
    rintro ⟨rfl, hnone⟩
    have := h.2
    rw [hnone] at this
    cases this
  case swap.swap =>
    rintro ⟨rfl, hne⟩
    exact hne h.2.symm
  case delete.delete =>
    rintro ⟨rfl, hne⟩
    exact hne (by simpa using h.2.symm)
  all_goals exact not_false

/-- With a single client, the bound of the checks is its latest update. -/
lemma minAck_single (hone : cfg.numClis = 1) : minAck cfg evs = lastAck evs 0 := by
  refine le_antisymm (minAck_le cfg.numClis_pos) (le_minAck fun j hj => ?_)
  rw [hone] at hj
  rw [Nat.lt_one_iff.mp hj]

/-- The verdict on a response of the reference client. -/
lemma ServedBy.check_iff (h : FuzzRun cfg evs s) (hone : cfg.numClis = 1)
    (hserved : ServedBy ∅ (harvests evs)) (hg : g ∈ harvests evs) {verdict : Bool}
    (hcheck : (g.entry, verdict) ∈ checksOf evs) :
    verdict = true ↔ ¬ ScanEndsOnKey (mapBefore evs g.tsCall) g.call := by
  have hinv := h.loopInv.toTraceInv
  have hhalf := hserved.answers_mapBefore hinv hone hg
  have hgen := hinv.generated_pool (hinv.call g hg)
  have hnone : ∀ k ∉ cfg.pool, mapBefore evs g.tsCall k = none :=
    fun k hk => mapBefore_eq_none hinv hk
  obtain ⟨hmatch, hscan⟩ := halfOpenAnswers_matches hhalf hnone
  rw [check_single h hone hg hcheck, respHolds_own_iff hgen hmatch hscan hnone,
    or_iff_left (not_ownUpdateMisleads hhalf)]
  refine halfOpenAnswers_iff hhalf ?_
  intro keyStart keyEnd hcall
  rw [hcall] at hgen
  cases hgen with
  | scan _ _ hle => exact hle

/-- **When the reference client passes the fuzzer**: `apply_update` reports
nothing iff no Scan answered before the latest acknowledged update ended on a
key that was present. -/
theorem served_unreported_iff (h : FuzzRun cfg evs s) (hone : cfg.numClis = 1)
    (hserved : ServedBy ∅ (harvests evs)) :
    Unreported evs ↔ ∀ g ∈ harvests evs, g.tsResp < lastAck evs 0 →
      ¬ ScanEndsOnKey (mapBefore evs g.tsCall) g.call := by
  constructor
  · intro hquiet g hg hlt
    have hcheck : (g.entry, true) ∈ checksOf evs := by
      rw [h.histInv.checks hquiet, minAck_single hone]
      refine List.mem_map.mpr ⟨g.entry, List.mem_filter.mpr ⟨?_, ?_⟩, rfl⟩
      · exact mem_entries.mpr ⟨g, hg, rfl⟩
      · exact decide_eq_true hlt
    exact (hserved.check_iff h hone hg hcheck).mp rfl
  · intro hends g hg
    rw [(h.histInv.returned g hg).2]
    intro p hp
    have hcheck : p ∈ checksOf evs := List.mem_flatMap.mpr ⟨g, hg, hp⟩
    obtain ⟨hmem, hmin, -⟩ := h.histInv.verdicts p hcheck
    obtain ⟨e, he, heq⟩ := mem_entries.mp hmem
    rw [minAck_single hone, ← heq] at hmin
    rw [(by rw [heq] : p = (e.entry, p.2))] at hcheck
    exact (hserved.check_iff h hone he hcheck).mpr (hends e he hmin)

/-- The reference client answers a Scan of the single key it holds. -/
def scanEndDraws : List Draws :=
  [drawCall 0 0 "x", drawResp 0 (.put "a" false), drawCall 0 7 "", drawResp 0 (.scan "a" "a" []),
    drawCall 0 0 "y", drawResp 0 (.put "a" true)]

lemma served_scanEnd : ServedBy ∅ (harvests (runOf singleCfg scanEndDraws).1) := by
  have hlist : harvests (runOf singleCfg scanEndDraws).1 =
      [⟨0, .put "a" "x", 1, 2, .put "a" false, none, []⟩,
        ⟨0, .scan "a" "a", 3, 4, .scan "a" "a" [], none, []⟩,
        ⟨0, .put "a" "y", 5, 6, .put "a" true, some (some (.scan "a" "a" [])),
          [(⟨1, 2, .put "a" false⟩, true), (⟨3, 4, .scan "a" "a" []⟩, false)]⟩] := by
    decide
  rw [hlist]
  exact ⟨_, rfl, _, rfl, _, rfl, trivial⟩

theorem served_unreported_iff_scanEnd :
    Unreported (runOf singleCfg scanEndDraws).1 ↔
      ∀ g ∈ harvests (runOf singleCfg scanEndDraws).1,
        g.tsResp < lastAck (runOf singleCfg scanEndDraws).1 0 →
          ¬ ScanEndsOnKey (mapBefore (runOf singleCfg scanEndDraws).1 g.tsCall) g.call :=
  served_unreported_iff (fuzzRun_runOf singleCfg scanEndDraws) rfl served_scanEnd

/-- The fuzzer reports a violation of the reference client. -/
theorem exists_served_reported :
    ¬ ∀ (cfg : FuzzConfig) (evs : List Event) (s : FuzzState), FuzzRun cfg evs s →
        cfg.numClis = 1 → ServedBy ∅ (harvests evs) → ∀ g ∈ harvests evs, g.returned = none := by
  intro h
  have hall := h singleCfg _ _ (fuzzRun_runOf singleCfg scanEndDraws) rfl served_scanEnd
  have hreported : ¬ ∀ g ∈ harvests (runOf singleCfg scanEndDraws).1, g.returned = none := by
    decide
  exact hreported hall

end Madkv
