import Madkv.Refcli.Main
import Madkv.Fuzzer.FuzzTest

/-!
The fuzzer's `main`: what it checks of its arguments, the keys that it generates, and the
result that it prints.

* `Args`, `Args.Checked`: the arguments and the assertions on them.
* `genKeys`, `Args.config`: the pool of keys. `RandString.mem_genKeys`: its keys are such as
  `gen_rand_string` returns, also those that the clients share.
* `Verdict`, `verdict`: the line with the result.
* `clean_of_generated`: the calls on such keys are clean.
-/

namespace Madkv

open Refcli

def keyLen : ℕ := 8

def valueLen : ℕ := 16

def remainThresh : ℕ := 1000

/-- Fuzzer utility arguments. -/
structure Args where
  numClis : ℕ
  numKeys : ℕ
  numOps : ℕ
  conflict : Bool
  deriving DecidableEq

/-- The assertions on the arguments. -/
structure Args.Checked (args : Args) : Prop where
  numClis : args.numClis ≠ 0
  numKeys : args.numKeys ≠ 0
  numKeys_lt : args.numKeys < 100000
  numOps : 1000 ≤ args.numOps

/-- What `gen_rand_string` can return. -/
structure RandString (len : ℕ) (s : String) : Prop where
  length : s.length = len
  alphanum : ∀ c ∈ s.toList, c.isAlphanum = true

/-- `format!("key{:0w$}", i, w = KEY_LEN - 3)`. -/
def conflictKey (i : ℕ) : String :=
  String.ofList ("key".toList ++ (Nat.toDigits 10 i).leftpad (keyLen - 3) '0')

/-- The pool of keys, `drawn` from `gen_rand_string` unless the clients conflict. -/
def genKeys (args : Args) (drawn : ℕ → ℕ → String) : List (List String) :=
  (List.range args.numClis).map fun j =>
    (List.range args.numKeys).map fun i => if args.conflict then conflictKey i else drawn j i

/-- The fuzz testing round that `main` runs. -/
def Args.config (args : Args) (h : args.Checked) (drawn : ℕ → ℕ → String) : FuzzConfig where
  numClis := args.numClis
  numOps := args.numOps
  keys := genKeys args drawn
  numClis_pos := Nat.pos_of_ne_zero h.numClis
  keys_length := by simp [genKeys]
  keys_ne_nil := by
    intro ks hks
    obtain ⟨j, -, rfl⟩ := List.mem_map.mp hks
    simpa using h.numKeys

/-- The result that `main` prints. -/
inductive Verdict where
  | unfair (remaining : ℕ)
  | passed (remaining : ℕ)
  | failed
  deriving DecidableEq

/-- The result printed for what `fuzz_test` returned. -/
def verdict : Option ℕ → Verdict
  | some remaining => if remaining ≥ remainThresh then .unfair remaining else .passed remaining
  | none => .failed

/-! ### The pool -/

/-- The keys of clients in conflict look like those of the others. -/
lemma randString_conflictKey {i : ℕ} (hi : i < 100000) : RandString keyLen (conflictKey i) := by
  have hdigits : (Nat.toDigits 10 i).length ≤ 5 :=
    (Nat.length_toDigits_le_iff (by omega) (by omega)).mpr hi
  refine ⟨?_, fun c hc => ?_⟩
  · rw [conflictKey, String.length_ofList, List.length_append, List.length_leftpad, keyLen]
    have hkey : "key".toList.length = 3 := rfl
    omega
  · rw [conflictKey, String.toList_ofList, List.mem_append, List.leftpad, List.mem_append] at hc
    rcases hc with hc | hc | hc
    · have hall : "key".toList.all Char.isAlphanum = true := rfl
      exact List.all_eq_true.mp hall c hc
    · rw [List.eq_of_mem_replicate hc]
      rfl
    · rw [Char.isAlphanum, Nat.isDigit_of_mem_toDigits (by omega) (by omega) hc, Bool.or_true]

section Pool

variable {args : Args} {drawn : ℕ → ℕ → String}

lemma RandString.mem_genKeys (h : args.Checked) (hdrawn : ∀ j i, RandString keyLen (drawn j i))
    {key : String} (hkey : key ∈ (args.config h drawn).pool) : RandString keyLen key := by
  obtain ⟨ks, hks, hmem⟩ := List.mem_flatten.mp hkey
  obtain ⟨j, -, rfl⟩ := List.mem_map.mp hks
  obtain ⟨i, hi, rfl⟩ := List.mem_map.mp hmem
  split_ifs
  · exact randString_conflictKey ((List.mem_range.mp hi).trans h.numKeys_lt)
  · exact hdrawn j i

end Pool

/-! ### Calls on the wire -/

/-- The value that a call writes has been drawn. -/
def KvCall.Drawn : KvCall → Prop
  | .put _ value | .swap _ value => RandString valueLen value
  | _ => True

lemma RandString.word {len : ℕ} {s : String} (h : RandString len s) (hlen : len ≠ 0) :
    Words.Word isWhitespace s.toList := by
  refine ⟨fun hnil => hlen ?_, fun c hc => isWhitespace_of_alphanum (h.alphanum c hc)⟩
  rw [← h.length, ← String.length_toList, hnil]
  rfl

lemma cleanEntry_of_randString {key value : String} (hkey : RandString keyLen key)
    (hvalue : RandString valueLen value) : CleanEntry key value where
  keyWord := hkey.word (by decide)
  valueWord := hvalue.word (by decide)
  not_null := by
    rintro rfl
    exact absurd hvalue.length (by decide)
  not_end := by
    intro h
    rw [Prod.mk.injEq] at h
    have hlen := hkey.length
    rw [h.1] at hlen
    exact absurd hlen (by decide)

/-- The calls that `gen_rand_kvcall` returns are clean. -/
lemma clean_of_generated {keys : List String} {call : KvCall} (hgen : GeneratedFrom keys call)
    (hkeys : ∀ key ∈ keys, RandString keyLen key) (hdrawn : call.Drawn) : call.Clean := by
  have hlen : keyLen ≠ 0 := by decide
  cases hgen with
  | put value hk => exact cleanEntry_of_randString (hkeys _ hk) hdrawn
  | swap value hk => exact cleanEntry_of_randString (hkeys _ hk) hdrawn
  | get hk => exact (hkeys _ hk).word hlen
  | scan hs he _ => exact ⟨(hkeys _ hs).word hlen, (hkeys _ he).word hlen⟩
  | delete hk => exact (hkeys _ hk).word hlen

end Madkv
