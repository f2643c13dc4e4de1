import Mathlib.Algebra.BigOperators.Group.List.Basic
import Mathlib.Algebra.GroupWithZero.Nat
import Madkv.Fuzzer.LoopInvariant

/-!
The statistics that the fuzzer prints after a round.

* `Stats.count`, `Stats.freq`: the counter of a kind of calls, and what the frequencies
  of a client tell of a key, at whichever of its places the key was drawn.
* `Counted`: what one generated call adds to them (`genRandKvcall_counted`).
* `stats_exact`: so they count the calls made, whatever was drawn.
-/

namespace Madkv

open Execution Fallible

/-- The kinds of calls that the fuzzer makes. -/
inductive Kind where
  | put
  | swap
  | get
  | scan
  | delete
  deriving DecidableEq

def KvCall.kind : KvCall → Option Kind
  | .put _ _ => some .put
  | .swap _ _ => some .swap
  | .get _ => some .get
  | .scan _ _ => some .scan
  | .delete _ => some .delete
  | .stop => none

/-- The keys that a call names. -/
def KvCall.named : KvCall → List String
  | .put key _ | .swap key _ | .get key | .delete key => [key]
  | .scan keyStart keyEnd => [keyStart, keyEnd]
  | .stop => []

/-- The counter of a kind of calls. -/
def Stats.count (stats : Stats) : Kind → ℕ
  | .put => stats.cntPut
  | .swap => stats.cntSwap
  | .get => stats.cntGet
  | .scan => stats.cntScan
  | .delete => stats.cntDelete

/-- The sum of the frequencies at the places of a key, which may be more than one. -/
def freqOf (keys : List String) (row : List ℕ) (key : String) : ℕ :=
  (((keys.zip row).filter fun p => p.1 = key).map Prod.snd).sum

def Stats.freq (stats : Stats) (keys : List String) (cidx : ℕ) (key : String) : ℕ :=
  freqOf keys (stats.keysFreq.getD cidx []) key

/-- The calls made by the loop. -/
def callsOf (evs : List Event) : List KvCall := evs.filterMap Event.call?

/-- The calls made of one client. -/
def callsTo (evs : List Event) (cidx : ℕ) : List KvCall :=
  evs.filterMap fun ev => if ev.cidx = cidx then ev.call? else none

/-! ### One call -/

section Call

variable {keys : List String} {stats stats' : Stats} {cidx kidx : ℕ} {key : String}

lemma freqOf_cons (key₀ : String) (n : ℕ) (row : List ℕ) (key : String) :
    freqOf (key₀ :: keys) (n :: row) key = (if key₀ = key then n else 0) + freqOf keys row key := by
  by_cases h : key₀ = key <;> simp [freqOf, h]

/-- One more at the place of a key. -/
lemma freqOf_set {row : List ℕ} {n : ℕ} (hkey : keys[kidx]? = some key) (hrow : row[kidx]? = some n)
    (k : String) :
    freqOf keys (row.set kidx (n + 1)) k = freqOf keys row k + if key = k then 1 else 0 := by
  induction keys generalizing row kidx with
  | nil => cases hkey
  | cons key₀ keys ih =>
      cases row with
      | nil => cases hrow
      | cons m row =>
          cases kidx with
          | zero =>
              obtain rfl := Option.some.inj hkey
              obtain rfl := Option.some.inj hrow
              rw [List.set_cons_zero, freqOf_cons, freqOf_cons]
              split_ifs <;> omega
          | succ kidx =>
              rw [List.set_cons_succ, freqOf_cons, freqOf_cons, ih hkey hrow]
              omega

/-- What a call on a client's keys adds to the statistics. -/
structure Counted (stats : Stats) (cidx : ℕ) (keys : List String) (kinds : List Kind)
    (named : List String) (stats' : Stats) : Prop where
  count : ∀ kind, stats'.count kind = stats.count kind + kinds.count kind
  freq : ∀ key, stats'.freq keys cidx key = stats.freq keys cidx key + named.count key
  other : ∀ j, j ≠ cidx → stats'.keysFreq[j]? = stats.keysFreq[j]?

lemma Counted.trans {stats'' : Stats} {kinds kinds' : List Kind} {named named' : List String}
    (h : Counted stats cidx keys kinds named stats')
    (h' : Counted stats' cidx keys kinds' named' stats'') :
    Counted stats cidx keys (kinds ++ kinds') (named ++ named') stats'' where
  count := fun kind => by rw [h'.count, h.count, List.count_append, Nat.add_assoc]
  freq := fun key => by rw [h'.freq, h.freq, List.count_append, Nat.add_assoc]
  other := fun j hj => (h'.other j hj).trans (h.other j hj)

/-- The counter of a kind goes up. -/
def Stats.bump (stats : Stats) : Kind → Stats
  | .put => { stats with cntPut := stats.cntPut + 1 }
  | .swap => { stats with cntSwap := stats.cntSwap + 1 }
  | .get => { stats with cntGet := stats.cntGet + 1 }
  | .scan => { stats with cntScan := stats.cntScan + 1 }
  | .delete => { stats with cntDelete := stats.cntDelete + 1 }

lemma bump_counted (kind : Kind) : Counted stats cidx keys [kind] [] (stats.bump kind) where
  count := fun kind' => by cases kind <;> cases kind' <;> rfl
  freq := fun key => by cases kind <;> rfl
  other := fun j _ => by cases kind <;> rfl

lemma touch_counted (htouch : stats.touch cidx kidx = .ok stats')
    (hkey : index keys kidx = .ok key) : Counted stats cidx keys [] [key] stats' := by
  simp only [Stats.touch, bind_eq_ok] at htouch
  obtain ⟨row, hrow, cnt, hcnt, h⟩ := htouch
  cases h
  have hlt := (List.getElem?_eq_some_iff.mp (index_eq_ok.mp hrow)).1
  refine ⟨fun kind => ?_, fun k => ?_, fun j hj => ?_⟩
  · cases kind <;> rfl
  · have hnew : (stats.keysFreq.set cidx (row.set kidx (cnt + 1))).getD cidx []
        = row.set kidx (cnt + 1) := by
      rw [List.getD_eq_getElem?_getD, List.getElem?_set_self hlt, Option.getD_some]
    have hold : stats.keysFreq.getD cidx [] = row := by
      rw [List.getD_eq_getElem?_getD, index_eq_ok.mp hrow, Option.getD_some]
    rw [Stats.freq, Stats.freq, hnew, hold, freqOf_set (index_eq_ok.mp hkey) (index_eq_ok.mp hcnt),
      List.count_singleton]
    simp only [beq_iff_eq]
  · exact List.getElem?_set_ne (Ne.symm hj)

/-- **What a generated call adds** to the statistics. -/
lemma genRandKvcall_counted {d : Draws} {call : KvCall}
    (h : genRandKvcall keys stats cidx d = .ok (call, stats')) :
    Counted stats cidx keys call.kind.toList call.named stats' := by
  have hone : ∀ (kind : Kind) {kidx : ℕ} {key : String},
      (stats.bump kind).touch cidx kidx = .ok stats' → index keys kidx = .ok key →
        Counted stats cidx keys [kind] [key] stats' :=
    fun kind _ _ htouch hkey => (bump_counted kind).trans (touch_counted htouch hkey)
  rw [genRandKvcall, bind_eq_ok] at h
  obtain ⟨variant, -, h⟩ := h
  split_ifs at h
  · simp only [bind_eq_ok] at h
    obtain ⟨kidx, -, _, htouch, key, hkey, h⟩ := h
    cases h
    exact hone .put htouch hkey
  · simp only [bind_eq_ok] at h
    obtain ⟨kidx, -, _, htouch, key, hkey, h⟩ := h
    cases h
    exact hone .swap htouch hkey
  · simp only [bind_eq_ok] at h
    obtain ⟨kidx, -, _, htouch, key, hkey, h⟩ := h
    cases h
    exact hone .get htouch hkey
  · simp only [bind_eq_ok] at h
    obtain ⟨ksidx, -, keidx, -, keyStart, hs, keyEnd, he, stats₁, htouch, stats₂, htouch', h⟩ := h
    replace htouch : (stats.bump .scan).touch cidx ksidx = .ok stats₁ := htouch
    have hscan := (bump_counted .scan).trans ((touch_counted htouch hs).trans
      (touch_counted htouch' he))
    by_cases hlt : keyEnd < keyStart
    · -- the ends have been swapped
      rw [if_pos hlt] at h
      cases h
      refine ⟨hscan.count, fun key => ?_, hscan.other⟩
      rw [hscan.freq key]
      exact congrArg _ ((List.Perm.swap keyEnd keyStart []).count_eq key)
    · rw [if_neg hlt] at h
      cases h
      exact hscan
  · simp only [bind_eq_ok] at h
    obtain ⟨kidx, -, _, htouch, key, hkey, h⟩ := h
    cases h
    exact hone .delete htouch hkey

end Call

/-! ### A round -/

/-- What the statistics are after the calls made. -/
structure StatsInv (cfg : FuzzConfig) (evs : List Event) (s : FuzzState) : Prop where
  count : ∀ kind, s.stats.count kind = ((callsOf evs).filterMap KvCall.kind).count kind
  freq : ∀ j keys, cfg.keys[j]? = some keys → ∀ key,
    s.stats.freq keys j key = ((callsTo evs j).flatMap KvCall.named).count key
  total : s.opsCalled = (callsOf evs).length

section Round

variable {cfg : FuzzConfig} {evs : List Event} {s s' : FuzzState}

lemma StatsInv.init (cfg : FuzzConfig) : StatsInv cfg [] (FuzzState.init cfg) where
  count := fun kind => by cases kind <;> rfl
  freq := by
    intro j keys hkeys key
    have hzero : ∀ (keys : List String) (n : ℕ), freqOf keys (List.replicate n 0) key = 0 := by
      intro keys n
      refine List.sum_eq_zero fun m hm => ?_
      obtain ⟨p, hp, rfl⟩ := List.mem_map.mp hm
      exact List.eq_of_mem_replicate (List.of_mem_zip (List.mem_filter.mp hp).1).2
    have hrow : (FuzzState.init cfg).stats.keysFreq.getD j [] = List.replicate keys.length 0 := by
      simp [FuzzState.init, Stats.new, hkeys]
    rw [Stats.freq, hrow, hzero]
    rfl
  total := rfl

/-- An iteration without a call leaves them. -/
lemma StatsInv.frame {ev : Event} (h : StatsInv cfg evs s) (hcall : ev.call? = none)
    (hstats : s'.stats = s.stats) (hcalled : s'.opsCalled = s.opsCalled) :
    StatsInv cfg (evs ++ [ev]) s' := by
  have hof : callsOf (evs ++ [ev]) = callsOf evs := by simp [callsOf, hcall]
  have hto : ∀ j, callsTo (evs ++ [ev]) j = callsTo evs j := fun j => by simp [callsTo, hcall]
  refine ⟨fun kind => ?_, fun j keys hkeys key => ?_, ?_⟩
  · rw [hstats, hof, h.count]
  · rw [hstats, hto, h.freq j keys hkeys]
  · rw [hcalled, hof, h.total]

/-- **Every call** is counted. -/
lemma StatsInv.called {cidx ts : ℕ} {call : KvCall} {cliKeys : List String} {client : ClientProc}
    {stats : Stats} (h : StatsInv cfg evs s)
    (hmade : MadeCall cfg s cidx call cliKeys client stats s') :
    StatsInv cfg (evs ++ [.called cidx ts call]) s' := by
  obtain ⟨d, hdrawn⟩ := hmade.drawn
  have hcounted := genRandKvcall_counted hdrawn
  have hstats : s'.stats = stats := by rw [hmade.state]
  have hof : callsOf (evs ++ [.called cidx ts call]) = callsOf evs ++ [call] := by
    simp [callsOf, Event.call?]
  refine ⟨fun kind => ?_, fun j keys hkeys key => ?_, ?_⟩
  · rw [hstats, hcounted.count, h.count, hof, List.filterMap_append, List.count_append]
    cases call <;> rfl
  · by_cases hj : j = cidx
    · subst hj
      obtain rfl : cliKeys = keys := Option.some.inj (hmade.keys.symm.trans hkeys)
      have hto : callsTo (evs ++ [.called j ts call]) j = callsTo evs j ++ [call] := by
        simp [callsTo, Event.call?, Event.cidx]
      rw [hstats, hcounted.freq, h.freq j cliKeys hkeys, hto, List.flatMap_append,
        List.count_append, List.flatMap_singleton]
    · have hto : callsTo (evs ++ [.called cidx ts call]) j = callsTo evs j := by
        simp [callsTo, Event.cidx, Ne.symm hj]
      rw [hto, ← h.freq j keys hkeys, hstats, Stats.freq, Stats.freq,
        List.getD_eq_getElem?_getD, List.getD_eq_getElem?_getD, hcounted.other j hj]
  · rw [hof, List.length_append, List.length_singleton, ← h.total, hmade.state]

lemma FuzzRun.statsInv (h : FuzzRun cfg evs s) : StatsInv cfg evs s := by
  refine h.invariant (P := fun evs s => StatsInv cfg evs s) (.init cfg) ?_
  intro evs s ev s' _ ih hstep
  cases hstep.cases.2 with
  | called hmade => exact ih.called hmade
  | stopped hh =>
      obtain ⟨rest, hstate⟩ := hh.state
      exact ih.frame rfl (by rw [hstate]) (by rw [hstate])
  | waited hh => exact ih.frame rfl (by rw [hh.state]) (by rw [hh.state])

/-- Each call is of one of the kinds. -/
lemma sum_count_kinds (kinds : List Kind) :
    kinds.count .put + kinds.count .swap + kinds.count .get + kinds.count .scan
      + kinds.count .delete = kinds.length := by
  induction kinds with
  | nil => rfl
  | cons kind kinds ih =>
      simp only [List.count_cons, List.length_cons]
      cases kind <;> simp <;> omega

lemma TraceInv.length_kinds (hinv : TraceInv cfg evs) :
    ((callsOf evs).filterMap KvCall.kind).length = (callsOf evs).length := by
  rw [List.length_filterMap_eq_countP, List.countP_eq_length]
  intro call hcall
  obtain ⟨ev, hev, heq⟩ := List.mem_filterMap.mp hcall
  cases ev with
  | called j ts call' =>
      cases heq
      cases hinv.generated_pool hev <;> rfl
  | stopped | waited => cases heq

end Round

/-- **The statistics are exact**: after any run of the loop the counters are the numbers
of the calls made of each kind, their sum is the number of all, and the frequencies of a
client tell for each key how often its calls named it. -/
theorem stats_exact (cfg : FuzzConfig) (evs : List Event) (s : FuzzState)
    (h : FuzzRun cfg evs s) :
    (∀ kind, s.stats.count kind = ((callsOf evs).filterMap KvCall.kind).count kind)
      ∧ s.stats.cntPut + s.stats.cntSwap + s.stats.cntGet + s.stats.cntScan + s.stats.cntDelete
        = s.opsCalled
      ∧ ∀ j keys, cfg.keys[j]? = some keys → ∀ key,
        s.stats.freq keys j key = ((callsTo evs j).flatMap KvCall.named).count key := by
  have hinv := h.statsInv
  refine ⟨hinv.count, ?_, hinv.freq⟩
  calc s.stats.cntPut + s.stats.cntSwap + s.stats.cntGet + s.stats.cntScan + s.stats.cntDelete
      = ((callsOf evs).filterMap KvCall.kind).length := by
        rw [← sum_count_kinds, ← hinv.count, ← hinv.count, ← hinv.count, ← hinv.count,
          ← hinv.count]
        rfl
    _ = (callsOf evs).length := h.loopInv.length_kinds
    _ = s.opsCalled := hinv.total.symm

/-- A client that draws the same key at two places. -/
def sameKeyCfg : FuzzConfig where
  numClis := 1
  numOps := 1000
  keys := [["a", "a"]]
  numClis_pos := Nat.one_pos
  keys_length := rfl
  keys_ne_nil := by simp

def sameKeyDraws : List Draws :=
  [⟨true, [0], 0, 1, 0, "x", .ok (), .error .join⟩, drawResp 0 (.put "a" false),
    ⟨true, [0], 7, 0, 1, "", .ok (), .error .join⟩]

theorem stats_exact_sameKey :
    (∀ kind, (runOf sameKeyCfg sameKeyDraws).2.stats.count kind
        = ((callsOf (runOf sameKeyCfg sameKeyDraws).1).filterMap KvCall.kind).count kind)
      ∧ (runOf sameKeyCfg sameKeyDraws).2.stats.cntPut
          + (runOf sameKeyCfg sameKeyDraws).2.stats.cntSwap
          + (runOf sameKeyCfg sameKeyDraws).2.stats.cntGet
          + (runOf sameKeyCfg sameKeyDraws).2.stats.cntScan
          + (runOf sameKeyCfg sameKeyDraws).2.stats.cntDelete
        = (runOf sameKeyCfg sameKeyDraws).2.opsCalled
      ∧ ∀ j keys, sameKeyCfg.keys[j]? = some keys → ∀ key,
        (runOf sameKeyCfg sameKeyDraws).2.stats.freq keys j key
          = ((callsTo (runOf sameKeyCfg sameKeyDraws).1 j).flatMap KvCall.named).count key :=
  stats_exact sameKeyCfg _ _ (fuzzRun_runOf sameKeyCfg sameKeyDraws)

/-- The key has been named three times, at two places. -/
example : (runOf sameKeyCfg sameKeyDraws).2.stats.freq ["a", "a"] 0 "a" = 3
    ∧ (runOf sameKeyCfg sameKeyDraws).2.stats.keysFreq = [[1, 2]] := by decide

end Madkv
