import Mathlib.Data.Finset.Insert
import Mathlib.Data.List.Infix
import Mathlib.Data.String.Basic
import Madkv.Bencher.Stats
import Madkv.Library.Fallible
import Madkv.Library.Ranks
import Madkv.Refcli.ParseInputCall

/-!
The lines of the YCSB basic driver (`ycsb.rs` of the bencher): its calls, and its
reports of performance numbers.

* `LineEnd`: how the handling of a line fails, by an error or by a panic. The
  build modelled is one with overflow checks.
* `interpretYcsbCall`: a line as an operation call. `Translated`: the calls by the
  kinds of lines; `interpretYcsbCall_eq_ok_iff`: these are all.
* `recordYcsbPerf`: a line as a performance number. How numbers are read from
  text is left open.
-/

namespace Madkv.Bencher

open Words Fallible

/-- The places where the handling of a line could panic. -/
inductive Panic where
  /-- a subtraction below zero -/
  | underflow
  /-- `unwrap()` on `None` -/
  | unwrap
  /-- a slice out of range, or not at the bounds of characters -/
  | slice
  deriving DecidableEq, Repr

/-- Why the handling of a line does not return `Ok`. -/
inductive LineEnd where
  | panic (p : Panic)
  | error (e : RunnerError)
  deriving DecidableEq, Repr

/-! ### The standard library -/

/-- `a - b` on `usize`. -/
def checkedSub (a b : ℕ) : Except LineEnd ℕ :=
  if b ≤ a then .ok (a - b) else .error (.panic .underflow)

/-- `unwrap()` on an optional value. -/
def unwrap {α : Type} : Option α → Except LineEnd α
  | some a => .ok a
  | none => .error (.panic .unwrap)

/-- `usize::MAX`. -/
def usizeMax : ℕ := 2 ^ 64 - 1

/-- The digits of a number, after those that make up `n`. -/
def parseDigits (n : ℕ) : List Char → Except RunnerError ℕ
  | [] => .ok n
  | c :: cs =>
      if !c.isDigit then .error (.parse "invalid digit found in string")
      else if usizeMax < 10 * n + (c.toNat - 48) then
        .error (.parse "number too large to fit in target type")
      else parseDigits (10 * n + (c.toNat - 48)) cs

/-- `parse::<usize>()`. -/
def parseUsize (s : String) : Except RunnerError ℕ :=
  match s.toList with
  | [] => .error (.parse "cannot parse integer from empty string")
  | ['+'] => .error (.parse "invalid digit found in string")
  | '+' :: cs => parseDigits 0 cs
  | cs => parseDigits 0 cs

/-- The first `n` bytes of a text and the others, if a character ends there. -/
def splitAtByte : ℕ → List Char → Option (List Char × List Char)
  | 0, cs => some ([], cs)
  | _ + 1, [] => none
  | n + 1, c :: cs =>
      if c.utf8Size ≤ n + 1 then
        (splitAtByte (n + 1 - c.utf8Size) cs).map fun (front, back) => (c :: front, back)
      else none

/-- `s[i..j]`, by bytes. -/
def slice (s : String) (i j : ℕ) : Except LineEnd String :=
  if j < i then .error (.panic .slice)
  else match splitAtByte j s.toList with
    | none => .error (.panic .slice)
    | some (front, _) =>
        match splitAtByte i front with
        | none => .error (.panic .slice)
        | some (_, mid) => .ok (String.ofList mid)

/-- `name.contains(part)`. -/
def contains (name part : String) : Bool := decide (part.toList <:+: name.toList)

/-- An error of a parsing helper. -/
def liftError {α : Type} : Except RunnerError α → Except LineEnd α
  | .ok a => .ok a
  | .error e => .error (.error e)

section Lifted

variable {α : Type} {a b c : ℕ} {r : α}

lemma checkedSub_eq_ok : checkedSub a b = .ok c ↔ b ≤ a ∧ c = a - b := by
  rw [checkedSub]
  by_cases h : b ≤ a
  · simp [h, eq_comm]
  · simp [h]

lemma unwrap_eq_ok {o : Option α} : unwrap o = .ok r ↔ o = some r := by
  cases o <;> simp [unwrap]

lemma liftError_eq_ok {x : Except RunnerError α} : liftError x = .ok r ↔ x = .ok r := by
  cases x <;> simp [liftError]

end Lifted

/-! ### Calls -/

/-- Two key segments joined by `_`. -/
def joinKey (table key : String) : String := table ++ "_" ++ key

/-- Parse the key from YCSB call line. -/
def parseYcsbKey (segs : List String) : Except LineEnd (String × List String) :=
  match segs with
  | table :: key :: segs => .ok (joinKey table key, segs)
  | _ => .error (.error (.parse "missing key segment"))

/-- The segments of a value, each with `_` for the space before it. -/
def joinValue (segs : List String) : String := segs.foldl (fun value seg => value ++ "_" ++ seg) ""

/-- Parse the square-bracketed "value" from YCSB call line. -/
def parseYcsbValue (segs : List String) : Except LineEnd String :=
  match segs with
  | "[" :: segs => .ok (joinValue segs)
  | _ => .error (.error (.parse "no value start bracket"))

/-- Parse the scan keys count from YCSB call line. -/
def parseYcsbScnt (segs : List String) : Except LineEnd ℕ :=
  match segs with
  | seg :: _ => liftError (parseUsize seg)
  | [] => .error (.error (.parse "missing scan count"))

/-- `ikeys.range(key..)` in the order of its iterator. -/
def rangeFrom (ikeys : Finset String) (key : String) : List String :=
  (ikeys.filter (key ≤ ·)).sort

/-- `ikeys.last()`. -/
def last (ikeys : Finset String) : Option String := ikeys.sort.getLast?

/-- The key that the Scan of a line ends on. -/
def scanEnd (keyStart : String) (segs : List String) (ikeys : Finset String) :
    Except LineEnd String :=
  if ikeys = ∅ then .ok "zzzzzzzz"
  else do
    let scnt ← parseYcsbScnt segs
    let n ← checkedSub scnt 1
    let last ← unwrap (last ikeys)
    .ok ((rangeFrom ikeys keyStart)[n]?.getD last)

/-- Parse a YCSB driver output line into a KV operation call, or `none` if not a
call line, with the keys inserted so far. -/
def interpretYcsbCall (line : List Char) (ikeys : Finset String) :
    Except LineEnd (Option KvCall × Finset String) :=
  match getSegsOfLine line with
  | "INSERT" :: segs => do
      let (key, segs) ← parseYcsbKey segs
      let value ← parseYcsbValue segs
      .ok (some (.put key value), insert key ikeys)
  | "UPDATE" :: segs => do
      let (key, segs) ← parseYcsbKey segs
      let value ← parseYcsbValue segs
      .ok (some (.swap key value), ikeys)
  | "READ" :: segs => do
      let (key, _) ← parseYcsbKey segs
      .ok (some (.get key), ikeys)
  | "SCAN" :: segs => do
      let (keyStart, segs) ← parseYcsbKey segs
      let keyEnd ← scanEnd keyStart segs ikeys
      .ok (some (.scan keyStart keyEnd), ikeys)
  -- no Deletes in default YCSB
  | _ => .ok (none, ikeys)

/-- The calls of the kinds of lines, with the keys inserted after them. -/
inductive Translated : List String → Finset String → Option KvCall → Finset String → Prop
  | insert {table key : String} {fields : List String} {ikeys : Finset String} :
      Translated ("INSERT" :: table :: key :: "[" :: fields) ikeys
        (some (.put (joinKey table key) (joinValue fields))) (insert (joinKey table key) ikeys)
  | update {table key : String} {fields : List String} {ikeys : Finset String} :
      Translated ("UPDATE" :: table :: key :: "[" :: fields) ikeys
        (some (.swap (joinKey table key) (joinValue fields))) ikeys
  | read {table key : String} {segs : List String} {ikeys : Finset String} :
      Translated ("READ" :: table :: key :: segs) ikeys (some (.get (joinKey table key))) ikeys
  | scan {table key keyEnd : String} {segs : List String} {ikeys : Finset String}
      (h : scanEnd (joinKey table key) segs ikeys = .ok keyEnd) :
      Translated ("SCAN" :: table :: key :: segs) ikeys
        (some (.scan (joinKey table key) keyEnd)) ikeys
  | other {segs : List String} {ikeys : Finset String}
      (h : ∀ kind ∈ ["INSERT", "UPDATE", "READ", "SCAN"], segs.head? ≠ some kind) :
      Translated segs ikeys none ikeys

section Calls

variable {line : List Char} {segs rest : List String} {table key value keyStart keyEnd : String}
  {ikeys ikeys' : Finset String} {call : Option KvCall}

/-- The Scan of a line. -/
lemma translated_scan
    (h : Translated ("SCAN" :: table :: key :: segs) ikeys (some (.scan keyStart keyEnd)) ikeys') :
    keyStart = joinKey table key ∧ scanEnd keyStart segs ikeys = .ok keyEnd := by
  generalize hline : "SCAN" :: table :: key :: segs = line,
    hcall : some (KvCall.scan keyStart keyEnd) = call at h
  cases h with
  | insert | update | read | other => cases hcall
  | scan hend =>
      cases hcall
      simp only [List.cons.injEq, true_and] at hline
      obtain ⟨rfl, rfl, rfl⟩ := hline
      exact ⟨rfl, hend⟩

lemma parseYcsbKey_eq_ok : parseYcsbKey segs = .ok (key, rest) ↔
    ∃ table k, segs = table :: k :: rest ∧ key = joinKey table k := by
  match segs with
  | [] | [_] => simp [parseYcsbKey]
  | table :: k :: segs =>
      simp only [parseYcsbKey, Except.ok.injEq, Prod.mk.injEq, List.cons.injEq]
      constructor
      · rintro ⟨rfl, rfl⟩
        exact ⟨table, k, ⟨rfl, rfl, rfl⟩, rfl⟩
      · rintro ⟨_, _, ⟨rfl, rfl, rfl⟩, rfl⟩
        exact ⟨rfl, rfl⟩

lemma parseYcsbValue_eq_ok : parseYcsbValue segs = .ok value ↔
    ∃ fields, segs = "[" :: fields ∧ value = joinValue fields := by
  constructor
  · intro h
    unfold parseYcsbValue at h
    split at h
    · rename_i fields
      cases h
      exact ⟨fields, rfl, rfl⟩
    · cases h
  · rintro ⟨fields, rfl, rfl⟩
    rfl

/-- A key and a value, as `INSERT` and `UPDATE` read them. -/
lemma keyValue_eq_ok {β : Type} {g : String → String → β} {r : β} :
    (do
      let (key, segs) ← parseYcsbKey segs
      let value ← parseYcsbValue segs
      .ok (g key value)) = .ok r ↔
    ∃ table k fields, segs = table :: k :: "[" :: fields
      ∧ r = g (joinKey table k) (joinValue fields) := by
  constructor
  · intro h
    obtain ⟨⟨key, segs₁⟩, hkey, h⟩ := bind_eq_ok.mp h
    obtain ⟨value, hvalue, h⟩ := bind_eq_ok.mp h
    obtain ⟨table, k, rfl, rfl⟩ := parseYcsbKey_eq_ok.mp hkey
    obtain ⟨fields, rfl, rfl⟩ := parseYcsbValue_eq_ok.mp hvalue
    exact ⟨table, k, fields, rfl, (Except.ok.inj h).symm⟩
  · rintro ⟨table, k, fields, rfl, rfl⟩
    rfl

/-- **What a line is translated to**: there is one case for each kind of lines. -/
theorem interpretYcsbCall_eq_ok_iff : interpretYcsbCall line ikeys = .ok (call, ikeys') ↔
    Translated (getSegsOfLine line) ikeys call ikeys' := by
  constructor
  · intro h
    rw [interpretYcsbCall] at h
    split at h
    · rename_i segs hsegs
      obtain ⟨table, k, fields, rfl, hout⟩ := (keyValue_eq_ok
        (g := fun key value => (some (KvCall.put key value), insert key ikeys))).mp h
      cases hout
      rw [hsegs]
      exact .insert
    · rename_i segs hsegs
      obtain ⟨table, k, fields, rfl, hout⟩ := (keyValue_eq_ok
        (g := fun key value => (some (KvCall.swap key value), ikeys))).mp h
      cases hout
      rw [hsegs]
      exact .update
    · rename_i segs hsegs
      obtain ⟨⟨key, segs₁⟩, hkey, h⟩ := bind_eq_ok.mp h
      obtain ⟨table, k, rfl, rfl⟩ := parseYcsbKey_eq_ok.mp hkey
      cases h
      rw [hsegs]
      exact .read
    · rename_i segs hsegs
      obtain ⟨⟨key, segs₁⟩, hkey, h⟩ := bind_eq_ok.mp h
      obtain ⟨keyEnd, hend, h⟩ := bind_eq_ok.mp h
      obtain ⟨table, k, rfl, rfl⟩ := parseYcsbKey_eq_ok.mp hkey
      cases h
      rw [hsegs]
      exact .scan hend
    · rename_i hinsert hupdate hread hscan
      cases h
      refine .other fun kind hkind hhead => ?_
      obtain ⟨segs, hsegs⟩ : ∃ segs, getSegsOfLine line = kind :: segs := by
        cases hl : getSegsOfLine line with
        | nil =>
            rw [hl] at hhead
            cases hhead
        | cons word segs =>
            rw [hl] at hhead
            exact ⟨segs, by rw [Option.some.inj hhead]⟩
      simp only [List.mem_cons, List.not_mem_nil, or_false] at hkind
      rcases hkind with rfl | rfl | rfl | rfl
      · exact hinsert segs hsegs
      · exact hupdate segs hsegs
      · exact hread segs hsegs
      · exact hscan segs hsegs
  · intro h
    rw [interpretYcsbCall]
    generalize getSegsOfLine line = segs at h
    cases h with
    | insert | update | read => rfl
    | scan hend =>
        refine bind_of_eq_ok rfl ?_
        exact bind_of_eq_ok hend rfl
    | other hkind =>
        split
        · exact absurd rfl (hkind "INSERT" (by simp))
        · exact absurd rfl (hkind "UPDATE" (by simp))
        · exact absurd rfl (hkind "READ" (by simp))
        · exact absurd rfl (hkind "SCAN" (by simp))
        · rfl

end Calls

/-! ### Performance numbers -/

/-- The statistics that a driver reports, with numbers of an arbitrary type. -/
structure Perf (F : Type) where
  totalMs : F
  tputAll : F
  numOps : OpMap ℕ
  latAvg : OpMap F
  latMin : OpMap F
  latMax : OpMap F
  latP99 : OpMap F

section Perf

variable {F : Type} (parseFloat : String → Except RunnerError F) (asUsize : F → ℕ)

/-- Parse a floating point number from YCSB performance reporting line. -/
def parseYcsbFloat (segs : List String) : Except LineEnd F :=
  match segs with
  | seg :: _ => liftError (parseFloat seg)
  | [] => .error (.error (.parse "missing float number"))

/-- The numbers of one type of operations. -/
def recordOp (op name : String) (segs : List String) (stats : Perf F) : Except LineEnd (Perf F) :=
  if contains name "Operations" then do
    let num ← parseYcsbFloat parseFloat segs
    .ok { stats with numOps := stats.numOps.insert op (asUsize num) }
  else if contains name "AverageLatency" then do
    let num ← parseYcsbFloat parseFloat segs
    .ok { stats with latAvg := stats.latAvg.insert op num }
  else if contains name "MinLatency" then do
    let num ← parseYcsbFloat parseFloat segs
    .ok { stats with latMin := stats.latMin.insert op num }
  else if contains name "MaxLatency" then do
    let num ← parseYcsbFloat parseFloat segs
    .ok { stats with latMax := stats.latMax.insert op num }
  else if contains name "99thPercentileLatency" then do
    let num ← parseYcsbFloat parseFloat segs
    .ok { stats with latP99 := stats.latP99.insert op num }
  else .ok stats

/-- Parse a YCSB driver performance reporting line and record in the given
`stats`. -/
def recordYcsbPerf (line : List Char) (stats : Perf F) : Except LineEnd (Perf F) :=
  match getSegsOfLine line with
  | "[OVERALL]," :: name :: segs =>
      if contains name "RunTime(ms)" then do
        let num ← parseYcsbFloat parseFloat segs
        .ok { stats with totalMs := num }
      else if contains name "Throughput" then do
        let num ← parseYcsbFloat parseFloat segs
        .ok { stats with tputAll := num }
      else .ok stats
  | header :: segs =>
      if header ∈ ["[INSERT],", "[UPDATE],", "[READ],", "[SCAN],"] then do
        let stop ← checkedSub (utf8Size header.toList) 2
        let op ← slice header 1 stop
        match segs with
        | name :: segs => recordOp parseFloat asUsize op name segs stats
        | [] => .ok stats
      else .ok stats
  | [] => .ok stats

end Perf

end Madkv.Bencher
