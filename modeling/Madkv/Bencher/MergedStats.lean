import Madkv.Bencher.Stats
import Madkv.Library.Folds

/-!
The merge of the clients' statistics, apart from the averages.

* `MergesTo`: what the result says of the clients, whatever their order. Each map
  is described by `MergedBy`, from the values that are reported (`valuesOf`).
* `mergeAll_eq_foldl`: a reading of the result is the fold of the clients' readings,
  if it is so for the merge of two.
* `mergeAll_mergesTo`: the merge in any order gives what `MergesTo` says.
-/

namespace Madkv.Bencher

open Folds

section Specification

variable {T : Type} (field : Stats → OpMap T) (R : List T → T → Prop) (clients : List Stats)
  (st : Stats)

/-- The values that clients report for an operation. -/
def valuesOf (op : String) : List T := clients.filterMap fun c => (field c).lookup op

/-- The operations are those of all clients, and the value of each is got from the
values reported for it. -/
def MergedBy : Prop := ∀ op, (op ∈ field st ↔ ∃ c ∈ clients, op ∈ field c)
  ∧ ∀ v, (field st).lookup op = some v → R (valuesOf field clients op) v

/-- Statistics of all clients together. -/
structure MergesTo : Prop where
  totalMs : IsGreatest {t | ∃ c ∈ clients, c.totalMs = t} st.totalMs
  tputAll : st.tputAll = (clients.map fun c => c.tputAll).sum
  numOps : MergedBy Stats.numOps (fun ns n => n = ns.sum) clients st
  latMin : MergedBy Stats.latMin (fun vs v => IsLeast {w | w ∈ vs} v) clients st
  latMax : MergedBy Stats.latMax (fun vs v => IsGreatest {w | w ∈ vs} v) clients st
  latP99 : MergedBy Stats.latP99 (fun vs v => IsGreatest {w | w ∈ vs} v) clients st

end Specification

section Order

variable {T : Type} {field : Stats → OpMap T} {R : List T → T → Prop} {clients merged : List Stats}
  {st : Stats}

/-- The order of the clients does not matter if that of the values does not. -/
lemma MergedBy.perm (h : MergedBy field R merged st) (hperm : merged.Perm clients)
    (hR : ∀ vs vs' v, vs.Perm vs' → R vs v → R vs' v) : MergedBy field R clients st := by
  refine fun op => ⟨?_, fun v hv => hR _ _ v (hperm.filterMap _) ((h op).2 v hv)⟩
  rw [(h op).1]
  exact exists_congr fun c => and_congr_left' hperm.mem_iff

lemma MergesTo.perm (h : MergesTo merged st) (hperm : merged.Perm clients) :
    MergesTo clients st := by
  have hmem {T : Type} {vs vs' : List T} (hvs : vs.Perm vs') : {w | w ∈ vs} = {w | w ∈ vs'} :=
    Set.ext fun w => hvs.mem_iff
  refine ⟨?_, ?_, ?_, ?_, ?_, ?_⟩
  · have htotals : {t | ∃ c ∈ clients, c.totalMs = t} = {t | ∃ c ∈ merged, c.totalMs = t} :=
      Set.ext fun t => exists_congr fun c => and_congr_left' hperm.mem_iff.symm
    rw [htotals]
    exact h.totalMs
  · rw [h.tputAll]
    exact (hperm.map _).sum_eq
  · exact h.numOps.perm hperm fun vs vs' v hvs hv => hv.trans hvs.sum_eq
  · exact h.latMin.perm hperm fun vs vs' v hvs hv => hmem hvs ▸ hv
  · exact h.latMax.perm hperm fun vs vs' v hvs hv => hmem hvs ▸ hv
  · exact h.latP99.perm hperm fun vs vs' v hvs hv => hmem hvs ▸ hv

end Order

section Merge

variable {T : Type} {st st' client : Stats} {rest : List Stats} {field : Stats → OpMap T}
  {R : List T → T → Prop} {f : T → T → T}

/-- A reading of merged statistics is the merge of the two readings. -/
def Reads {β : Type} (g : Stats → β) (f : β → β → β) : Prop :=
  ∀ st client st', st.merged = 1 → client.merged = 1 → st.merge client = some st' →
    g st' = f (g st) (g client)

/-- The merge of two, both of them one client's. -/
lemma merge_eq (hst : st.merged = 1) (hclient : client.merged = 1)
    (h : st.merge client = some st') : st' = { st with
      totalMs := max st.totalMs client.totalMs
      tputAll := st.tputAll + client.tputAll
      numOps := Stats.mergeMap st.numOps client.numOps fun sc oc => sc + oc
      latAvg := st'.latAvg
      latMin := Stats.mergeMap st.latMin client.latMin min
      latMax := Stats.mergeMap st.latMax client.latMax max
      latP99 := Stats.mergeMap st.latP99 client.latP99 max } := by
  rw [Stats.merge, if_neg (by omega), if_neg (by omega)] at h
  cases h
  rfl

/-- The rule for readings: the merge of all is read as the fold. -/
lemma foldlM_merge_eq {β : Type} {g : Stats → β} {f : β → β → β} (hg : Reads g f)
    (hst : st.merged = 1) (hone : ∀ c ∈ rest, c.merged = 1)
    (h : rest.foldlM Stats.merge st = some st') : g st' = (rest.map g).foldl f (g st) := by
  induction rest generalizing st with
  | nil =>
      cases h
      rfl
  | cons client rest ih =>
      rw [List.foldlM_cons, Option.bind_eq_bind, Option.bind_eq_some_iff] at h
      obtain ⟨st₁, hmerge, hrest⟩ := h
      have hclient := hone client List.mem_cons_self
      have hst₁ : st₁.merged = 1 := by rw [merge_eq hst hclient hmerge, hst]
      rw [ih hst₁ (fun c hc => hone c (List.mem_cons_of_mem _ hc)) hrest,
        hg st client st₁ hst hclient hmerge]
      rfl

lemma mergeAll_eq_foldl {β : Type} {g : Stats → β} {f : β → β → β} (hg : Reads g f)
    (hone : ∀ c ∈ client :: rest, c.merged = 1) (h : mergeAll (client :: rest) = some st) :
    g st = (rest.map g).foldl f (g client) := by
  have hclient := hone client List.mem_cons_self
  rw [mergeAll, List.foldlM_cons, merge_new hclient] at h
  exact foldlM_merge_eq hg hclient (fun c hc => hone c (List.mem_cons_of_mem _ hc)) h

/-- Each map is the fold of the maps, operation by operation. -/
lemma mergedBy_of_reads
    (hg : Reads field fun x y => Stats.mergeMap x y f)
    (hR : ∀ v vs, R (v :: vs) (vs.foldl f v))
    (hone : ∀ c ∈ client :: rest, c.merged = 1) (h : mergeAll (client :: rest) = some st) :
    MergedBy field R (client :: rest) st := by
  intro op
  have hlookup : Reads (fun st => (field st).lookup op) (Option.merge f) := by
    intro st client st' hst hclient h
    dsimp only
    rw [hg st client st' hst hclient h, lookup_mergeMap]
  have hfold : (field st).lookup op
      = ((client :: rest).map fun c => (field c).lookup op).foldl (Option.merge f) none := by
    rw [mergeAll_eq_foldl hlookup hone h, List.map_cons, List.foldl_cons]
    cases (field client).lookup op <;> rfl
  have hvalues : ((client :: rest).map fun c => (field c).lookup op).reduceOption
      = valuesOf field (client :: rest) op := by
    rw [List.reduceOption, List.filterMap_map]
    rfl
  constructor
  · rw [← AList.lookup_isSome, hfold, foldl_merge_isSome]
    simp only [List.mem_map, ← AList.lookup_isSome, Option.isSome_iff_exists]
    constructor
    · rintro ⟨v, c, hc, hv⟩
      exact ⟨c, hc, v, hv⟩
    · rintro ⟨c, hc, v, hv⟩
      exact ⟨v, c, hc, hv⟩
  · intro v hv
    rw [hfold, foldl_merge, hvalues, Option.map_eq_some_iff] at hv
    obtain ⟨v₀, hhead, rfl⟩ := hv
    obtain ⟨vs, hvs⟩ := List.head?_eq_some_iff.mp hhead
    rw [hvs]
    exact hR v₀ vs

end Merge

/-- The merge of all, in the order of the list. -/
lemma mergesTo_cons {st client : Stats} {rest : List Stats}
    (hone : ∀ c ∈ client :: rest, c.merged = 1) (h : mergeAll (client :: rest) = some st) :
    MergesTo (client :: rest) st := by
  have htotalMs : Reads Stats.totalMs max := fun _ _ _ hst hclient h =>
    congrArg Stats.totalMs (merge_eq hst hclient h)
  have htputAll : Reads Stats.tputAll (· + ·) := fun _ _ _ hst hclient h =>
    congrArg Stats.tputAll (merge_eq hst hclient h)
  refine ⟨?_, ?_, ?_, ?_, ?_, ?_⟩
  · have htotals : {t | ∃ c ∈ client :: rest, c.totalMs = t}
        = {t | t ∈ client.totalMs :: rest.map Stats.totalMs} := by
      ext t
      simp [eq_comm]
    rw [htotals, mergeAll_eq_foldl htotalMs hone h]
    exact foldl_max_isGreatest _ _
  · rw [mergeAll_eq_foldl htputAll hone h, List.sum_eq_foldl, List.map_cons, List.foldl_cons,
      zero_add]
  · refine mergedBy_of_reads (fun _ _ _ hst hclient h => congrArg Stats.numOps
      (merge_eq hst hclient h)) (fun n ns => ?_) hone h
    rw [List.sum_eq_foldl, List.foldl_cons, zero_add]
  · exact mergedBy_of_reads (fun _ _ _ hst hclient h => congrArg Stats.latMin
      (merge_eq hst hclient h)) foldl_min_isLeast hone h
  · exact mergedBy_of_reads (fun _ _ _ hst hclient h => congrArg Stats.latMax
      (merge_eq hst hclient h)) foldl_max_isGreatest hone h
  · exact mergedBy_of_reads (fun _ _ _ hst hclient h => congrArg Stats.latP99
      (merge_eq hst hclient h)) foldl_max_isGreatest hone h

/-- **The other merged statistics**: in every order of the clients, the merge is the
longest time, the sum of the throughputs and of the numbers of operations, and the
extreme latencies of the clients that report them. -/
theorem mergeAll_mergesTo (clients : List Stats) (hne : clients ≠ [])
    (hone : ∀ c ∈ clients, c.merged = 1) (merged : List Stats) (hperm : merged.Perm clients) :
    ∃ st, mergeAll merged = some st ∧ MergesTo clients st := by
  obtain ⟨client, rest, rfl⟩ : ∃ client rest, merged = client :: rest :=
    List.exists_cons_of_ne_nil fun hnil => hne (List.nil_perm.mp (hnil ▸ hperm))
  have hone' : ∀ c ∈ client :: rest, c.merged = 1 := fun c hc => hone c (hperm.mem_iff.mp hc)
  obtain ⟨st, hst, -⟩ := mergeAll_eq hone'
  exact ⟨st, hst, (mergesTo_cons hone' hst).perm hperm⟩

/-- Two clients, only one of which reports its reads. -/
theorem mergeAll_mergesTo_two :
    ∃ st, mergeAll [{ readClient 20 with numOps := AList.singleton "READ" 3 }, readClient 10]
        = some st
      ∧ MergesTo [readClient 10, { readClient 20 with numOps := AList.singleton "READ" 3 }] st :=
  mergeAll_mergesTo _ (List.cons_ne_nil _ _) (by decide) _ (List.Perm.swap _ _ [])

end Madkv.Bencher
