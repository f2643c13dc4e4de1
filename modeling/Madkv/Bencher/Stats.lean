import Mathlib.Algebra.BigOperators.Group.List.Basic
import Mathlib.Data.List.AList
import Mathlib.Data.List.Induction
import Mathlib.Data.Rat.Defs
import Mathlib.Tactic.Linarith

/-!
The merge of the clients' statistics in the benchmark (`Stats::merge` of the
bencher's `main.rs`), on exact rationals.

* `Stats.mergeMap`: the merge of two maps from operations to values, with
  `lookup_mergeMap` as its specification.
* `Stats.merge`, `mergeAll`: the merge of two statistics and of all clients'.
* `mergeAll_eq`: the merge of all never adds up `merged`, so that each client
  gets half of what is left of the weight (`halving`).
* `averages_iff`: the averages are the means over the clients in every order of
  the merge with up to two clients, or if they are equal.
* `mergeAll_iff`: they are, with the number of clients beside them, for a single
  client only.
-/

namespace Madkv.Bencher

/-- A map from the types of operations to values. -/
abbrev OpMap (T : Type) := AList fun _ : String => T

/-- Per-client performance statistics recording. -/
structure Stats where
  /-- number of client stats merged into this struct -/
  merged : ℕ
  totalMs : ℚ
  tputAll : ℚ
  numOps : OpMap ℕ
  latAvg : OpMap ℚ
  latMin : OpMap ℚ
  latMax : OpMap ℚ
  latP99 : OpMap ℚ

def Stats.new : Stats where
  merged := 0
  totalMs := 0
  tputAll := 0
  numOps := ∅
  latAvg := ∅
  latMin := ∅
  latMax := ∅
  latP99 := ∅

section Merge

variable {T : Type}

/-- The first loop of `merge_map`: merge the values that both maps have. -/
def Stats.mergeCommon (mergeFn : T → T → T) (otherLat : OpMap T)
    (entries : List (Sigma fun _ : String => T)) (selfLat : OpMap T) : OpMap T :=
  entries.foldl (fun selfLat entry =>
    match otherLat.lookup entry.1 with
    | some other => selfLat.insert entry.1 (mergeFn entry.2 other)
    | none => selfLat) selfLat

/-- The second loop of `merge_map`: insert the values that only the other map has. -/
def Stats.insertMissing (entries : List (Sigma fun _ : String => T)) (selfLat : OpMap T) :
    OpMap T :=
  entries.foldl (fun selfLat entry =>
    if entry.1 ∈ selfLat then selfLat else selfLat.insert entry.1 entry.2) selfLat

/-- Internal helper for the merge of op count or latency values. -/
def Stats.mergeMap (selfLat otherLat : OpMap T) (mergeFn : T → T → T) : OpMap T :=
  insertMissing otherLat.entries (mergeCommon mergeFn otherLat selfLat.entries selfLat)

end Merge

/-- Merge with another stats struct, taking reasonable arithmetics on the stats
fields. There is no result if the assertion on `other` fails. -/
def Stats.merge (self other : Stats) : Option Stats :=
  if other.merged = 0 then none
  else if self.merged = 0 then some other
  else some { self with
    totalMs := max self.totalMs other.totalMs
    tputAll := self.tputAll + other.tputAll
    numOps := mergeMap self.numOps other.numOps fun sc oc => sc + oc
    latAvg := mergeMap self.latAvg other.latAvg fun sl ol =>
      (sl * self.merged + ol * other.merged) / ((self.merged + other.merged : ℕ) : ℚ)
    latMin := mergeMap self.latMin other.latMin min
    latMax := mergeMap self.latMax other.latMax max
    latP99 := mergeMap self.latP99 other.latP99 max }

/-- The statistics of all clients, merged as `ycsb_bench` does. -/
def mergeAll (clients : List Stats) : Option Stats := clients.foldlM Stats.merge Stats.new

/-! ### The merge of two maps -/

section Maps

variable {T : Type} {mergeFn : T → T → T} {otherLat selfLat : OpMap T} {op : String}

lemma lookup_mergeCommon {entries : List (Sigma fun _ : String => T)} (h : entries.NodupKeys) :
    (Stats.mergeCommon mergeFn otherLat entries selfLat).lookup op =
      match entries.dlookup op, otherLat.lookup op with
      | some value, some other => some (mergeFn value other)
      | _, _ => selfLat.lookup op := by
  induction entries generalizing selfLat with
  | nil => rfl
  | cons entry entries ih =>
      obtain ⟨key, value⟩ := entry
      rw [List.nodupKeys_cons] at h
      rw [Stats.mergeCommon, List.foldl_cons]
      refine (ih h.2).trans ?_
      by_cases hop : op = key
      · subst hop
        rw [List.dlookup_eq_none.mpr h.1, List.dlookup_cons_eq]
        cases hother : otherLat.lookup op with
        | none => simp
        | some other => simp
      · rw [List.dlookup_cons_ne _ _ hop]
        cases hother : otherLat.lookup key with
        | none => rfl
        | some other => simp only [AList.lookup_insert_ne hop]

lemma lookup_insertMissing {entries : List (Sigma fun _ : String => T)} :
    (Stats.insertMissing entries selfLat).lookup op
      = (selfLat.lookup op).or (entries.dlookup op) := by
  induction entries generalizing selfLat with
  | nil => simp [Stats.insertMissing]
  | cons entry entries ih =>
      obtain ⟨key, value⟩ := entry
      rw [Stats.insertMissing, List.foldl_cons]
      refine ih.trans ?_
      by_cases hkey : key ∈ selfLat
      · rw [if_pos hkey]
        obtain ⟨own, hown⟩ := Option.isSome_iff_exists.mp (AList.lookup_isSome.mpr hkey)
        by_cases hop : op = key
        · rw [hop, hown]
          rfl
        · rw [List.dlookup_cons_ne _ _ hop]
      · rw [if_neg hkey]
        by_cases hop : op = key
        · subst hop
          simp [AList.lookup_eq_none.mpr hkey]
        · rw [List.dlookup_cons_ne _ _ hop, AList.lookup_insert_ne hop]

/-- The merged map has the merge of the values where both have one. -/
lemma lookup_mergeMap : (Stats.mergeMap selfLat otherLat mergeFn).lookup op
    = Option.merge mergeFn (selfLat.lookup op) (otherLat.lookup op) := by
  rw [Stats.mergeMap, lookup_insertMissing, lookup_mergeCommon selfLat.nodupKeys]
  show Option.or (match selfLat.lookup op, otherLat.lookup op with
    | some value, some other => some (mergeFn value other)
    | _, _ => selfLat.lookup op) (otherLat.lookup op) = _
  cases selfLat.lookup op <;> cases otherLat.lookup op <;> rfl

end Maps

/-! ### The merge of all statistics -/

/-- The average latency that a client reports for an operation. -/
def Stats.average (st : Stats) (op : String) : ℚ := (st.latAvg.lookup op).getD 0

/-- The arithmetic mean of the clients' average latencies. -/
def mean (clients : List Stats) (op : String) : ℚ :=
  (clients.map fun st => st.average op).sum / clients.length

/-- Half of the weight for what has been merged, half for the next value. -/
def halving (first : ℚ) (values : List ℚ) : ℚ := values.foldl (fun sl ol => (sl + ol) / 2) first

section Clients

variable {st client other : Stats} {clients rest : List Stats} {op : String}

/-- A client's statistics replace the new ones. -/
lemma merge_new (h : client.merged = 1) : Stats.new.merge client = some client := by
  rw [Stats.merge, if_neg (by omega)]
  rfl

lemma merge_of_one (hst : st.merged = 1) (hother : other.merged = 1) :
    ∃ st', st.merge other = some st' ∧ st'.merged = 1
      ∧ ∀ op, op ∈ st.latAvg → op ∈ other.latAvg →
        op ∈ st'.latAvg ∧ st'.average op = (st.average op + other.average op) / 2 := by
  refine ⟨_, (if_neg (by omega)).trans (if_neg (by omega)), hst, fun op hop hop' => ?_⟩
  obtain ⟨own, hown⟩ := Option.isSome_iff_exists.mp (AList.lookup_isSome.mpr hop)
  obtain ⟨value, hvalue⟩ := Option.isSome_iff_exists.mp (AList.lookup_isSome.mpr hop')
  have hlookup : (Stats.mergeMap st.latAvg other.latAvg fun sl ol =>
      (sl * st.merged + ol * other.merged) / ((st.merged + other.merged : ℕ) : ℚ)).lookup op
        = some ((own + value) / 2) := by
    rw [lookup_mergeMap, hown, hvalue, Option.merge, hst, hother]
    norm_num
  refine ⟨AList.lookup_isSome.mp (by rw [hlookup]; rfl), ?_⟩
  rw [Stats.average, hlookup, Stats.average, hown, Stats.average, hvalue]
  rfl

/-- The operation is reported by each of the clients. -/
def Reported (clients : List Stats) (op : String) : Prop := ∀ st ∈ clients, op ∈ st.latAvg

/-- From the first client on, `merged` stays 1 and the averages are halved. -/
lemma foldlM_merge (hst : st.merged = 1) (hone : ∀ c ∈ clients, c.merged = 1) :
    ∃ st', clients.foldlM Stats.merge st = some st' ∧ st'.merged = 1
      ∧ ∀ op, Reported (st :: clients) op → op ∈ st'.latAvg
        ∧ st'.average op = halving (st.average op) (clients.map fun c => c.average op) := by
  induction clients generalizing st with
  | nil => exact ⟨st, rfl, hst, fun op hop => ⟨hop st (List.mem_singleton_self st), rfl⟩⟩
  | cons client rest ih =>
      obtain ⟨st₁, hmerge, hst₁, havg₁⟩ := merge_of_one hst (hone client List.mem_cons_self)
      obtain ⟨st', hrest, hst', havg'⟩ := ih hst₁ fun c hc => hone c (List.mem_cons_of_mem _ hc)
      refine ⟨st', ?_, hst', fun op hop => ?_⟩
      · rw [List.foldlM_cons, hmerge]
        exact hrest
      · have hfirst := hop st List.mem_cons_self
        have hclient := hop client (List.mem_cons_of_mem _ List.mem_cons_self)
        obtain ⟨hop₁, heq₁⟩ := havg₁ op hfirst hclient
        obtain ⟨hop', heq'⟩ := havg' op fun c hc => by
          rcases List.mem_cons.mp hc with rfl | hc
          · exact hop₁
          · exact hop c (List.mem_cons_of_mem _ (List.mem_cons_of_mem _ hc))
        refine ⟨hop', ?_⟩
        rw [heq', heq₁]
        rfl

/-- **What the benchmark reports**: one client merged, and averages whose weights
are halved with each client. -/
lemma mergeAll_eq (hone : ∀ c ∈ client :: rest, c.merged = 1) :
    ∃ st, mergeAll (client :: rest) = some st ∧ st.merged = 1
      ∧ ∀ op, Reported (client :: rest) op → st.latAvg.lookup op
        = some (halving (client.average op) (rest.map fun c => c.average op)) := by
  obtain ⟨st, hst, hmerged, havg⟩ := foldlM_merge (hone client List.mem_cons_self)
    fun c hc => hone c (List.mem_cons_of_mem _ hc)
  refine ⟨st, ?_, hmerged, fun op hop => ?_⟩
  · rw [mergeAll, List.foldlM_cons, merge_new (hone client List.mem_cons_self)]
    exact hst
  · obtain ⟨hmem, heq⟩ := havg op hop
    obtain ⟨value, hvalue⟩ := Option.isSome_iff_exists.mp (AList.lookup_isSome.mpr hmem)
    rw [← heq, Stats.average, hvalue]
    rfl

/-- The merge gives the number of the clients and the means of their averages. -/
def MergesToMeans (clients merged : List Stats) : Prop :=
  ∃ st, mergeAll merged = some st ∧ st.merged = clients.length
    ∧ ∀ op, Reported clients op → st.latAvg.lookup op = some (mean clients op)

end Clients

/-! ### The averages alone -/

section Averages

variable {clients : List Stats} {op : String} {first last value : ℚ} {values : List ℚ}

lemma halving_concat : halving first (values ++ [last]) = (halving first values + last) / 2 := by
  rw [halving, List.foldl_append]
  rfl

lemma halving_of_forall (h : ∀ v ∈ values, v = value) : halving value values = value := by
  induction values using List.reverseRecOn with
  | nil => rfl
  | append_singleton values last ih =>
      have hlast : last = value := h last (List.mem_append_right _ (List.mem_singleton_self last))
      have hvalues := ih fun v hv => h v (List.mem_append_left _ hv)
      calc halving value (values ++ [last])
        _ = (halving value values + last) / 2 := halving_concat
        _ = (value + value) / 2 := by rw [hvalues, hlast]
        _ = value := add_self_div_two value

lemma mean_of_forall (hne : clients ≠ []) (h : ∀ c ∈ clients, c.average op = value) :
    mean clients op = value := by
  have hmap : clients.map (fun c => c.average op) = List.replicate clients.length value :=
    List.eq_replicate_iff.mpr ⟨List.length_map _, by simpa using h⟩
  have hlength : (clients.length : ℚ) ≠ 0 := by simpa using hne
  calc mean clients op
    _ = (List.replicate clients.length value).sum / clients.length := by rw [mean, hmap]
    _ = clients.length * value / clients.length := by rw [List.sum_replicate, nsmul_eq_mul]
    _ = value := mul_div_cancel_left₀ value hlength

/-- The merge in this order gives the mean of the averages. -/
def AveragesToMean (clients merged : List Stats) (op : String) : Prop :=
  ∃ st, mergeAll merged = some st ∧ st.latAvg.lookup op = some (mean clients op)

lemma averagesToMean_iff {client : Stats} {rest : List Stats}
    (hone : ∀ c ∈ clients, c.merged = 1) (hop : Reported clients op)
    (hperm : (client :: rest).Perm clients) : AveragesToMean clients (client :: rest) op ↔
      halving (client.average op) (rest.map fun c => c.average op) = mean clients op := by
  obtain ⟨st, hst, -, havg⟩ := mergeAll_eq fun c hc => hone c (hperm.mem_iff.mp hc)
  have hlookup := havg op fun c hc => hop c (hperm.mem_iff.mp hc)
  constructor
  · rintro ⟨st', hst', hmean⟩
    obtain rfl : st = st' := Option.some.inj (hst.symm.trans hst')
    exact Option.some.inj (hlookup.symm.trans hmean)
  · exact fun heq => ⟨st, hst, heq ▸ hlookup⟩

lemma exists_cons_perm {α : Type} {l : List α} {a : α} (h : a ∈ l) :
    ∃ rest, (a :: rest).Perm l := by
  obtain ⟨pre, post, rfl⟩ := List.append_of_mem h
  exact ⟨pre ++ post, List.perm_middle.symm⟩

/-- Of three or more clients, any two can come last, in both orders. -/
lemma average_eq_of_all_orders (hone : ∀ c ∈ clients, c.merged = 1) (hop : Reported clients op)
    (hlength : 2 < clients.length)
    (hall : ∀ merged, merged.Perm clients → AveragesToMean clients merged op)
    {c c' : Stats} (hc : c ∈ clients) (hc' : c' ∈ clients) : c.average op = c'.average op := by
  by_cases heq : c = c'
  · rw [heq]
  obtain ⟨l, hl⟩ := exists_cons_perm hc
  have hmem : c' ∈ l := (List.mem_cons.mp (hl.mem_iff.mpr hc')).resolve_left (Ne.symm heq)
  obtain ⟨l', hl'⟩ := exists_cons_perm hmem
  have hpair : (c :: c' :: l').Perm clients := (hl'.cons c).trans hl
  obtain ⟨first, rest, rfl⟩ : ∃ first rest, l' = first :: rest := by
    refine List.exists_cons_of_ne_nil fun hnil => ?_
    have := hpair.length_eq
    simp [hnil] at this
    omega
  have hlast : ∀ x y, [x, y].Perm [c, c'] →
      ((halving (first.average op) (rest.map fun c => c.average op) + x.average op) / 2
        + y.average op) / 2 = mean clients op := by
    intro x y hxy
    have hperm : (first :: (rest ++ [x, y])).Perm clients := by
      have hfront : (first :: rest ++ [x, y]).Perm ([x, y] ++ first :: rest) :=
        List.perm_append_comm
      exact hfront.trans ((hxy.append_right (first :: rest)).trans hpair)
    have hmean := (averagesToMean_iff hone hop hperm).mp (hall _ hperm)
    rwa [List.map_append, List.map_cons, List.map_singleton, List.append_cons, halving_concat,
      halving_concat] at hmean
  have h := hlast c c' (List.Perm.refl _)
  have h' := hlast c' c (List.Perm.swap c c' [])
  linarith

/-- **When the averages are right in every order**: with one or two clients, where
the weights cannot be wrong, or with equal averages. -/
lemma averages_iff (clients : List Stats) (hne : clients ≠ [])
    (hone : ∀ c ∈ clients, c.merged = 1) (op : String) (hop : Reported clients op) :
    (∀ merged, merged.Perm clients → AveragesToMean clients merged op) ↔
      clients.length ≤ 2 ∨ ∀ c ∈ clients, ∀ c' ∈ clients, c.average op = c'.average op := by
  constructor
  · intro hall
    rcases Nat.lt_or_ge 2 clients.length with hlength | hlength
    · exact Or.inr fun c hc c' hc' => average_eq_of_all_orders hone hop hlength hall hc hc'
    · exact Or.inl hlength
  · intro hcases merged hperm
    obtain ⟨client, rest, rfl⟩ : ∃ client rest, merged = client :: rest :=
      List.exists_cons_of_ne_nil fun hnil => hne (List.nil_perm.mp (hnil ▸ hperm))
    rw [averagesToMean_iff hone hop hperm]
    have hmean : mean clients op = mean (client :: rest) op := by
      rw [mean, mean, hperm.length_eq, (hperm.map _).sum_eq]
    rw [hmean]
    match rest with
    | [] => simp [halving, mean]
    | [other] => simp [halving, mean]
    | other :: third :: rest =>
        have hlength : ¬ clients.length ≤ 2 := by
          rw [← hperm.length_eq]
          simp
        have hequal : ∀ c ∈ client :: other :: third :: rest, c.average op = client.average op :=
          fun c hc => hcases.resolve_left hlength c (hperm.mem_iff.mp hc) client
            (hperm.mem_iff.mp List.mem_cons_self)
        rw [mean_of_forall (List.cons_ne_nil _ _) hequal]
        refine halving_of_forall fun v hv => ?_
        obtain ⟨c, hc, rfl⟩ := List.mem_map.mp hv
        exact hequal c (List.mem_cons_of_mem _ hc)

end Averages

/-! ### The averages and the number of clients -/

/-- **The average latency is the mean over the clients**, in every order of the merge
and with the number of clients beside it, for a single client and only then. The average
alone is right for two as well, and where all clients have the same. -/
theorem mergeAll_iff (clients : List Stats) (hne : clients ≠ [])
    (hone : ∀ c ∈ clients, c.merged = 1) :
    ((∀ merged, merged.Perm clients → MergesToMeans clients merged) ↔ clients.length = 1)
      ∧ ∀ op, Reported clients op →
        ((∀ merged, merged.Perm clients → AveragesToMean clients merged op) ↔
          clients.length ≤ 2 ∨ ∀ c ∈ clients, ∀ c' ∈ clients, c.average op = c'.average op) := by
  refine ⟨?_, averages_iff clients hne hone⟩
  obtain ⟨client, rest, rfl⟩ := List.exists_cons_of_ne_nil hne
  obtain ⟨st, hst, hmerged, havg⟩ := mergeAll_eq hone
  constructor
  · intro hall
    obtain ⟨st', hst', hlength, -⟩ := hall _ (List.Perm.refl _)
    rw [hst, Option.some_inj] at hst'
    rw [← hlength, ← hst', hmerged]
  · intro hlength merged hperm
    obtain rfl : rest = [] := List.length_eq_zero_iff.mp (by simpa using hlength)
    rw [List.perm_singleton.mp hperm]
    refine ⟨st, hst, hmerged, fun op hop => ?_⟩
    rw [havg op hop]
    simp [mean, halving]

/-- A client that reports an average latency of its reads. -/
def readClient (latency : ℚ) : Stats :=
  { Stats.new with merged := 1, latAvg := AList.singleton "READ" latency }

lemma average_readClient (latency : ℚ) : (readClient latency).average "READ" = latency := rfl

lemma mem_readClient (latency : ℚ) : "READ" ∈ (readClient latency).latAvg :=
  List.mem_singleton_self _

theorem mergeAll_iff_one :
    (∀ merged, merged.Perm [readClient 10] → MergesToMeans [readClient 10] merged)
      ∧ ∀ merged, merged.Perm [readClient 10] → AveragesToMean [readClient 10] merged "READ" := by
  have hreported : Reported [readClient 10] "READ" := by
    simp [Reported, mem_readClient]
  obtain ⟨hmeans, haverages⟩ := mergeAll_iff [readClient 10] (List.cons_ne_nil _ _) (by decide)
  exact ⟨hmeans.mpr rfl, (haverages "READ" hreported).mpr (.inl (by decide))⟩

/-- Three clients with the averages 10, 20 and 60 are merged to 37.5 instead of 30. -/
theorem exists_wrong_average :
    ¬ ∀ clients : List Stats, clients ≠ [] → (∀ c ∈ clients, c.merged = 1) →
      ∀ merged, merged.Perm clients → MergesToMeans clients merged := by
  intro h
  have hone : ∀ c ∈ [readClient 10, readClient 20, readClient 60], c.merged = 1 := by decide
  have hreported : Reported [readClient 10, readClient 20, readClient 60] "READ" := by
    simp [Reported, mem_readClient]
  obtain ⟨st, hst, -, hmean⟩ := h _ (List.cons_ne_nil _ _) hone _ (List.Perm.refl _)
  obtain ⟨st', hst', -, havg⟩ := mergeAll_eq hone
  obtain rfl : st' = st := Option.some.inj (hst'.symm.trans hst)
  have heq := Option.some.inj ((havg "READ" hreported).symm.trans (hmean "READ" hreported))
  norm_num [halving, mean, average_readClient] at heq

end Madkv.Bencher
