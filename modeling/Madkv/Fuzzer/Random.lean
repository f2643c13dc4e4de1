import Mathlib.Data.String.Basic
import Madkv.Fuzzer.Abort

/-!
The randomisation helpers of the fuzzer (`random.rs`). What the random source
yields is a parameter of each function, so that a statement over all parameters
is one over all outcomes.

* `genCallVsWait`, `genRandClient`: whether to call or to wait, and for whom.
* `genRandKvcall`: a random call on a client's keys; `GeneratedFrom` is what it
  can return (`genRandKvcall_eq_ok`).
* `Stats`: the counters that `genRandKvcall` keeps.
-/

namespace Madkv

open Fallible

/-- Statistics about the fuzz testing round. -/
structure Stats where
  cntPut : ℕ
  cntSwap : ℕ
  cntGet : ℕ
  cntScan : ℕ
  cntDelete : ℕ
  keysFreq : List (List ℕ)
  deriving DecidableEq, Repr

def Stats.new (keys : List (List String)) : Stats :=
  ⟨0, 0, 0, 0, 0, keys.map fun ks => List.replicate ks.length 0⟩

/-- `stats.keys_freq[cidx][kidx] += 1`. -/
def Stats.touch (stats : Stats) (cidx kidx : ℕ) : Except Abort Stats := do
  let freq ← index stats.keysFreq cidx
  let cnt ← index freq kidx
  .ok { stats with keysFreq := stats.keysFreq.set cidx (freq.set kidx (cnt + 1)) }

/-- What one iteration of the fuzz loop takes from outside: the random draws in
the order of their use, and what the client's channels return. -/
structure Draws where
  coin : Bool
  cidxs : List ℕ
  variant : ℕ
  kidx : ℕ
  keidx : ℕ
  value : String
  send : Except RunnerError Unit
  resp : Except RunnerError KvResp

/-- Generate a random index in the range `[0, max)`. -/
def genRandIndex (max draw : ℕ) : Except Abort ℕ := do
  debugAssert (max ≠ 0) .indexMax
  .ok (draw % max)

/-- Generate a random decision on call vs. wait resp. -/
def genCallVsWait (opsCalled numOps : ℕ) (flying : List Bool) (coin : Bool) : Bool :=
  if opsCalled = numOps ∨ flying.all id = true then false
  else if flying.any id = false then true
  else coin

/-- The loop of `gen_rand_client` on the indices drawn. -/
def retryClient (flying : List Bool) (wantFlying : Bool) : List ℕ → Except Abort ℕ
  | [] => .error .retrying
  | draw :: draws => do
      let cidx ← genRandIndex flying.length draw
      let bit ← index flying cidx
      if bit = wantFlying then .ok cidx else retryClient flying wantFlying draws

/-- Generate a random client index, retry until one with expected on-the-fly
status is found. -/
def genRandClient (flying : List Bool) (wantFlying : Bool) (draws : List ℕ) :
    Except Abort ℕ := do
  debugAssert (wantFlying || !flying.all id) .allFlying
  debugAssert (!wantFlying || flying.any id) .noneFlying
  retryClient flying wantFlying draws

/-- Generate a random `KvCall` operation, updating statistics accordingly. -/
def genRandKvcall (keys : List String) (stats : Stats) (cidx : ℕ) (d : Draws) :
    Except Abort (KvCall × Stats) := do
  let variant ← genRandIndex 10 d.variant
  if variant ≤ 1 then
    let kidx ← genRandIndex keys.length d.kidx
    let stats ← { stats with cntPut := stats.cntPut + 1 }.touch cidx kidx
    let key ← index keys kidx
    .ok (.put key d.value, stats)
  else if variant ≤ 3 then
    let kidx ← genRandIndex keys.length d.kidx
    let stats ← { stats with cntSwap := stats.cntSwap + 1 }.touch cidx kidx
    let key ← index keys kidx
    .ok (.swap key d.value, stats)
  else if variant ≤ 6 then
    let kidx ← genRandIndex keys.length d.kidx
    let stats ← { stats with cntGet := stats.cntGet + 1 }.touch cidx kidx
    let key ← index keys kidx
    .ok (.get key, stats)
  else if variant ≤ 8 then
    let ksidx ← genRandIndex keys.length d.kidx
    let keidx ← genRandIndex keys.length d.keidx
    let keyStart ← index keys ksidx
    let keyEnd ← index keys keidx
    let (keyStart, keyEnd) :=
      if keyEnd < keyStart then (keyEnd, keyStart) else (keyStart, keyEnd)
    let stats ← { stats with cntScan := stats.cntScan + 1 }.touch cidx ksidx
    let stats ← stats.touch cidx keidx
    .ok (.scan keyStart keyEnd, stats)
  else if variant = 9 then
    let kidx ← genRandIndex keys.length d.kidx
    let stats ← { stats with cntDelete := stats.cntDelete + 1 }.touch cidx kidx
    let key ← index keys kidx
    .ok (.delete key, stats)
  else .error (.panic .callVariant)

/-! ### What the helpers return -/

lemma genRandIndex_of_pos {max : ℕ} (draw : ℕ) (h : 0 < max) :
    genRandIndex max draw = .ok (draw % max) := by
  rw [genRandIndex, debugAssert_of_true _ (by simp; omega)]
  rfl

lemma index_of_lt {α : Type} {l : List α} {i : ℕ} (h : i < l.length) :
    index l i = .ok l[i] := by
  rw [index_eq_ok, List.getElem?_eq_getElem h]

/-- The retry loop does not end while none of the draws has the status. -/
lemma retryClient_eq_error {flying : List Bool} {want : Bool} {draws : List ℕ} {a : Abort}
    (hpos : 0 < flying.length) (h : retryClient flying want draws = .error a) :
    a = .retrying ∧ ∀ draw ∈ draws, flying[draw % flying.length]? ≠ some want := by
  induction draws with
  | nil =>
      cases h
      exact ⟨rfl, by simp⟩
  | cons draw draws ih =>
      have hlt : draw % flying.length < flying.length := Nat.mod_lt _ hpos
      rw [retryClient, genRandIndex_of_pos draw hpos] at h
      change (index flying (draw % flying.length) >>= fun bit =>
        if bit = want then .ok (draw % flying.length) else retryClient flying want draws)
          = .error a at h
      rw [index_of_lt hlt] at h
      change (if flying[draw % flying.length] = want then .ok (draw % flying.length)
        else retryClient flying want draws) = .error a at h
      split at h
      · cases h
      · rename_i hne
        obtain ⟨ha, hall⟩ := ih h
        refine ⟨ha, fun d hd => ?_⟩
        rcases List.mem_cons.mp hd with rfl | hd
        · rw [List.getElem?_eq_getElem hlt]
          exact fun heq => hne (Option.some.inj heq)
        · exact hall d hd

/-- The index that the retry loop ends with has the status asked for. -/
lemma retryClient_eq_ok {flying : List Bool} {want : Bool} {draws : List ℕ} {cidx : ℕ}
    (h : retryClient flying want draws = .ok cidx) : flying[cidx]? = some want := by
  induction draws with
  | nil => cases h
  | cons draw draws ih =>
      rw [retryClient, bind_eq_ok] at h
      obtain ⟨i, -, h⟩ := h
      rw [bind_eq_ok] at h
      obtain ⟨bit, hbit, h⟩ := h
      split at h
      · cases h
        rename_i heq
        rw [← heq]
        exact index_eq_ok.mp hbit
      · exact ih h

lemma genRandClient_eq_ok {flying : List Bool} {want : Bool} {draws : List ℕ} {cidx : ℕ}
    (h : genRandClient flying want draws = .ok cidx) : flying[cidx]? = some want := by
  simp only [genRandClient, bind_eq_ok] at h
  obtain ⟨-, -, -, -, h⟩ := h
  exact retryClient_eq_ok h

/-- The calls that `gen_rand_kvcall` can return on a client's keys. -/
inductive GeneratedFrom (keys : List String) : KvCall → Prop
  | put {key : String} (value : String) (h : key ∈ keys) : GeneratedFrom keys (.put key value)
  | swap {key : String} (value : String) (h : key ∈ keys) : GeneratedFrom keys (.swap key value)
  | get {key : String} (h : key ∈ keys) : GeneratedFrom keys (.get key)
  | scan {keyStart keyEnd : String} (hs : keyStart ∈ keys) (he : keyEnd ∈ keys)
      (h : keyStart ≤ keyEnd) : GeneratedFrom keys (.scan keyStart keyEnd)
  | delete {key : String} (h : key ∈ keys) : GeneratedFrom keys (.delete key)

/-- The key that a generated call updates is one of the client's. -/
lemma GeneratedFrom.key_mem {keys : List String} {call : KvCall} {key : String}
    {value : Option String} (h : GeneratedFrom keys call)
    (hupd : call.updateInfo = some (key, value)) : key ∈ keys := by
  cases h with
  | put v hk => obtain ⟨rfl, -⟩ := Prod.mk.inj (Option.some.inj hupd); exact hk
  | swap v hk => obtain ⟨rfl, -⟩ := Prod.mk.inj (Option.some.inj hupd); exact hk
  | get hk => cases hupd
  | scan hs he hle => cases hupd
  | delete hk => obtain ⟨rfl, -⟩ := Prod.mk.inj (Option.some.inj hupd); exact hk

lemma GeneratedFrom.mono {keys keys' : List String} {call : KvCall} (h : GeneratedFrom keys call)
    (hsub : ∀ k ∈ keys, k ∈ keys') : GeneratedFrom keys' call := by
  cases h with
  | put value hk => exact .put value (hsub _ hk)
  | swap value hk => exact .swap value (hsub _ hk)
  | get hk => exact .get (hsub _ hk)
  | scan hs he hle => exact .scan (hsub _ hs) (hsub _ he) hle
  | delete hk => exact .delete (hsub _ hk)

lemma mem_of_index {keys : List String} {i : ℕ} {key : String} (h : index keys i = .ok key) :
    key ∈ keys :=
  List.mem_of_getElem? (index_eq_ok.mp h)

lemma touch_eq_ok {stats stats' : Stats} {cidx kidx : ℕ} (h : stats.touch cidx kidx = .ok stats') :
    stats'.keysFreq.map List.length = stats.keysFreq.map List.length := by
  simp only [Stats.touch, bind_eq_ok] at h
  obtain ⟨freq, hfreq, cnt, -, h⟩ := h
  cases h
  obtain ⟨hi, hfreq⟩ := List.getElem?_eq_some_iff.mp (index_eq_ok.mp hfreq)
  have hi' : cidx < (stats.keysFreq.map List.length).length := by simpa using hi
  rw [List.map_set, List.length_set, ← hfreq,
    show (stats.keysFreq[cidx]).length = (stats.keysFreq.map List.length)[cidx] by simp,
    List.set_getElem_self hi']

lemma exists_touch {stats : Stats} {cidx kidx n : ℕ}
    (hfreq : (stats.keysFreq.map List.length)[cidx]? = some n) (hlt : kidx < n) :
    ∃ stats', stats.touch cidx kidx = .ok stats' := by
  rw [List.getElem?_map, Option.map_eq_some_iff] at hfreq
  obtain ⟨freq, hfreq, rfl⟩ := hfreq
  rw [Stats.touch]
  refine exists_bind_ok (index_eq_ok.mpr hfreq) ?_
  exact exists_bind_ok (index_of_lt hlt) ⟨_, rfl⟩

/-- Counting a key drawn and looking it up does not fail. -/
lemma exists_touch_index {keys : List String} {stats : Stats} {cidx kidx : ℕ}
    {f : String → Stats → KvCall × Stats} (hlt : kidx < keys.length)
    (hfreq : (stats.keysFreq.map List.length)[cidx]? = some keys.length) :
    ∃ r, (do
      let stats ← stats.touch cidx kidx
      let key ← index keys kidx
      .ok (f key stats)) = .ok r := by
  obtain ⟨stats', htouch⟩ := exists_touch hfreq hlt
  refine exists_bind_ok htouch ?_
  exact exists_bind_ok (index_of_lt hlt) ⟨_, rfl⟩

/-- On a pool with keys, a call is generated whatever is drawn. -/
lemma exists_genRandKvcall {keys : List String} {stats : Stats} {cidx : ℕ} (d : Draws)
    (hne : keys ≠ []) (hfreq : (stats.keysFreq.map List.length)[cidx]? = some keys.length) :
    ∃ r, genRandKvcall keys stats cidx d = .ok r := by
  have hpos : 0 < keys.length := List.length_pos_of_ne_nil hne
  have hlt : ∀ draw, draw % keys.length < keys.length := fun draw => Nat.mod_lt _ hpos
  have hvariant : d.variant % 10 < 10 := Nat.mod_lt _ (by omega)
  rw [genRandKvcall]
  refine exists_bind_ok (genRandIndex_of_pos d.variant (by omega)) ?_
  split_ifs
  · exact exists_bind_ok (genRandIndex_of_pos _ hpos) (exists_touch_index (hlt _) hfreq)
  · exact exists_bind_ok (genRandIndex_of_pos _ hpos) (exists_touch_index (hlt _) hfreq)
  · exact exists_bind_ok (genRandIndex_of_pos _ hpos) (exists_touch_index (hlt _) hfreq)
  · refine exists_bind_ok (genRandIndex_of_pos d.kidx hpos) ?_
    refine exists_bind_ok (genRandIndex_of_pos d.keidx hpos) ?_
    refine exists_bind_ok (index_of_lt (hlt d.kidx)) ?_
    refine exists_bind_ok (index_of_lt (hlt d.keidx)) ?_
    obtain ⟨stats₁, h₁⟩ : ∃ stats₁, Stats.touch { stats with cntScan := stats.cntScan + 1 } cidx
        (d.kidx % keys.length) = .ok stats₁ := exists_touch hfreq (hlt _)
    obtain ⟨stats₂, h₂⟩ : ∃ stats₂, stats₁.touch cidx (d.keidx % keys.length) = .ok stats₂ :=
      exists_touch (by rw [touch_eq_ok h₁]; exact hfreq) (hlt _)
    refine exists_bind_ok h₁ ?_
    exact exists_bind_ok h₂ ⟨_, rfl⟩
  · exact exists_bind_ok (genRandIndex_of_pos _ hpos) (exists_touch_index (hlt _) hfreq)
  · omega

/-- The call is one on the client's keys, and the counters keep their shape. -/
lemma genRandKvcall_eq_ok {keys : List String} {stats stats' : Stats} {cidx : ℕ} {d : Draws}
    {call : KvCall} (h : genRandKvcall keys stats cidx d = .ok (call, stats')) :
    GeneratedFrom keys call
      ∧ stats'.keysFreq.map List.length = stats.keysFreq.map List.length := by
  rw [genRandKvcall, bind_eq_ok] at h
  obtain ⟨variant, -, h⟩ := h
  split_ifs at h
  · simp only [bind_eq_ok] at h
    obtain ⟨_, -, _, htouch, key, hkey, h⟩ := h
    cases h
    have hshape := touch_eq_ok htouch
    exact ⟨.put _ (mem_of_index hkey), hshape⟩
  · simp only [bind_eq_ok] at h
    obtain ⟨_, -, _, htouch, key, hkey, h⟩ := h
    cases h
    have hshape := touch_eq_ok htouch
    exact ⟨.swap _ (mem_of_index hkey), hshape⟩
  · simp only [bind_eq_ok] at h
    obtain ⟨_, -, _, htouch, key, hkey, h⟩ := h
    cases h
    have hshape := touch_eq_ok htouch
    exact ⟨.get (mem_of_index hkey), hshape⟩
  · simp only [bind_eq_ok] at h
    obtain ⟨_, -, _, -, keyStart, hs, keyEnd, he, _, htouch, _, htouch', h⟩ := h
    have hshape := (touch_eq_ok htouch').trans (touch_eq_ok htouch)
    by_cases hlt : keyEnd < keyStart
    · rw [if_pos hlt] at h
      cases h
      exact ⟨.scan (mem_of_index he) (mem_of_index hs) hlt.le, hshape⟩
    · rw [if_neg hlt] at h
      cases h
      exact ⟨.scan (mem_of_index hs) (mem_of_index he) (not_lt.mp hlt), hshape⟩
  · simp only [bind_eq_ok] at h
    obtain ⟨_, -, _, htouch, key, hkey, h⟩ := h
    cases h
    have hshape := touch_eq_ok htouch
    exact ⟨.delete (mem_of_index hkey), hshape⟩

end Madkv
