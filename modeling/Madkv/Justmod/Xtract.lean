import Mathlib.Data.List.Nodup
import Madkv.Library.Fallible
import Madkv.Library.Python

/-!
The routines for the recipes that start a service (`xtract.py` of `justmod`). A
node has a name, `nodeName`, and the servers are a list of addresses in one text.

* `partid`, `repid`: the two numbers of a name, which `partid_nodeName` and
  `repid_nodeName` read back.
* `portof`: the port of a node, from its place in the list. `portof_of_le` and
  `portof_of_getElem` describe it.
* `peersof`: the other addresses of its partition (`partition`). `peersof_of_le` and
  `peersof_of_lt` describe it.
-/

namespace Madkv.Justmod

open Python Fallible

/-- Example: node = "s1.2". Returns: "1". -/
def partid : List Str → Except Error Str
  | [] => .error (.valueError "missing argument to 'partid'")
  | node :: _ =>
      if node.head? = some 's' then
        let doti := find node '.'
        if doti = -1 then .ok (sliceFrom node 1) else .ok (slice node 1 (find node '.'))
      else .ok ['0']

/-- Example: node = "s1.2". Returns: "2". -/
def repid : List Str → Except Error Str
  | [] => .error (.valueError "missing argument to 'repid'")
  | node :: _ =>
      let doti := find node '.'
      if doti = -1 then .ok ['0'] else .ok (sliceFrom node (doti + 1))

/-- The port of each server. -/
def portsOf (servers : Str) : List Str :=
  (split servers ',').map fun a => sliceFrom a (find a ':' + 1)

/-- Example: servers = "1.2.3.4:3777,5.6.7.8:3778,9.10.11.12:3779" node = "s0.1"
rf = "3". Returns: "3778". -/
def portof : List Str → Except Error Str
  | servers :: name :: args => do
      let ports := portsOf servers
      let part ← partid (name :: args)
      let pid ← int part
      let rep ← repid (name :: args)
      let rid ← int rep
      let rf ← match args with
        | rf :: _ => int rf
        -- may be managers list
        | [] => .ok (if pid = 0 then (ports.length : ℤ) else 1)
      let node := pid * rf + rid
      if ports.length ≤ node then .ok []
      else
        let port ← index ports node
        if (strip port).length = 0 then
          .error (.valueError ("node " ++ String.ofList name ++ "'s API port is empty"))
        else .ok (strip port)
  | _ => .error (.valueError "missing argument to 'portof'")

/-- Example: servers = "1.2.3.4:3707,5.6.7.8:3708,9.10.11.12:3709" node = "s0.1"
rf = "3". Returns: "1.2.3.4:3707,9.10.11.12:3709". -/
def peersof : List Str → Except Error Str
  | servers :: name :: args => do
      let addrs := split servers ','
      let rf ← match args with
        | rf :: _ => int rf
        | [] => .ok (addrs.length : ℤ)
      let part ← partid (name :: args)
      let pid ← int part
      let rep ← repid (name :: args)
      let rid ← int rep
      let partaddrs := slice addrs (pid * rf) ((pid + 1) * rf)
      if partaddrs.length ≤ rid then .ok []
      else
        -- exclude self
        let peeraddrs := join ',' (sliceTo partaddrs rid ++ sliceFrom partaddrs (rid + 1))
        -- specially defined
        if peeraddrs.length = 0 then .ok "none".toList else .ok peeraddrs
  | _ => .error (.valueError "missing argument to 'peersof'")

/-! ### Names of nodes -/

/-- The node of a partition and a replica. -/
def nodeName (p r : ℕ) : Str := 's' :: decimal p ++ '.' :: decimal r

section Names

variable {args : List Str} {p r : ℕ}

lemma find_nodeName (p r : ℕ) : find (nodeName p r) '.' = ((decimal p).length + 1 : ℕ) := by
  have hdot : '.' ∉ 's' :: decimal p := by
    rw [List.mem_cons, not_or]
    exact ⟨by decide, fun h => absurd (isDigit_of_mem_decimal h) (by decide)⟩
  exact find_append hdot

lemma partid_nodeName : partid (nodeName p r :: args) = .ok (decimal p) := by
  have hslice : slice (nodeName p r) (1 : ℕ) ((decimal p).length + 1 : ℕ) = decimal p := by
    rw [slice_natCast, nodeName]
    simp
  have hhead : (nodeName p r).head? = some 's' := rfl
  have hfind := find_nodeName p r
  rw [partid, if_pos hhead, hfind, if_neg (by omega)]
  exact congrArg Except.ok hslice

lemma repid_nodeName : repid (nodeName p r :: args) = .ok (decimal r) := by
  have hslice : sliceFrom (nodeName p r) ((decimal p).length + 1 + 1 : ℕ) = decimal r := by
    rw [sliceFrom_natCast, nodeName]
    simp
  have hfind := find_nodeName p r
  rw [repid, hfind, if_neg (by omega)]
  exact congrArg Except.ok hslice

end Names

/-! ### Ports and peers -/

/-- The addresses of a partition. -/
def partition {α : Type*} (addrs : List α) (rf p : ℕ) : List α :=
  (addrs.take ((p + 1) * rf)).drop (p * rf)

section Services

variable {servers ip port : Str} {p r rf : ℕ}

/-- A node behind the end of the list has no port. -/
lemma portof_of_le (h : (split servers ',').length ≤ p * rf + r) :
    portof [servers, nodeName p r, decimal rf] = .ok [] := by
  have hports : ((portsOf servers).length : ℤ) ≤ (p : ℤ) * rf + r := by
    rw [portsOf, List.length_map]
    exact_mod_cast h
  refine bind_of_eq_ok partid_nodeName (bind_of_eq_ok (int_decimal p) ?_)
  refine bind_of_eq_ok repid_nodeName (bind_of_eq_ok (int_decimal r) ?_)
  exact bind_of_eq_ok (int_decimal rf) (if_pos hports)

/-- A node in the list has the port of its address, without the blanks around it. -/
lemma portof_of_getElem (h : (split servers ',')[p * rf + r]? = some (ip ++ ':' :: port))
    (hip : ':' ∉ ip) (hport : strip port ≠ []) :
    portof [servers, nodeName p r, decimal rf] = .ok (strip port) := by
  have hlt : p * rf + r < (split servers ',').length := (List.getElem?_eq_some_iff.mp h).1
  have hports : ¬ ((portsOf servers).length : ℤ) ≤ (p : ℤ) * rf + r := by
    rw [portsOf, List.length_map]
    exact_mod_cast not_le.mpr hlt
  have hindex : index (portsOf servers) ((p : ℤ) * rf + r) = .ok port := by
    have hplace : (portsOf servers)[p * rf + r]? = some port := by
      rw [portsOf, List.getElem?_map, h, Option.map_some, sliceFrom_find hip]
    exact_mod_cast index_natCast hplace
  refine bind_of_eq_ok partid_nodeName (bind_of_eq_ok (int_decimal p) ?_)
  refine bind_of_eq_ok repid_nodeName (bind_of_eq_ok (int_decimal r) ?_)
  refine bind_of_eq_ok (int_decimal rf) ((if_neg hports).trans ?_)
  exact bind_of_eq_ok hindex (if_neg (by simpa using hport))

example : portof ["1.2.3.4:3777,5.6.7.8:3778,9.10.11.12:3779".toList, "s0.1".toList, "3".toList]
    = .ok "3778".toList := by
  decide

lemma slice_partition (addrs : List Str) :
    slice addrs ((p : ℤ) * rf) (((p : ℤ) + 1) * rf) = partition addrs rf p := by
  exact_mod_cast slice_natCast addrs (p * rf) ((p + 1) * rf)

/-- A node that its partition does not have has no peers. -/
lemma peersof_of_le (h : (partition (split servers ',') rf p).length ≤ r) :
    peersof [servers, nodeName p r, decimal rf] = .ok [] := by
  refine bind_of_eq_ok (int_decimal rf) ?_
  refine bind_of_eq_ok partid_nodeName (bind_of_eq_ok (int_decimal p) ?_)
  refine bind_of_eq_ok repid_nodeName (bind_of_eq_ok (int_decimal r) ?_)
  rw [slice_partition, if_pos (by exact_mod_cast h)]

/-- The text of a list of peers. -/
def peersText (peers : List Str) : Str :=
  if (join ',' peers).length = 0 then "none".toList else join ',' peers

/-- The peers of another node are the rest of its partition. -/
lemma peersof_of_lt (h : r < (partition (split servers ',') rf p).length) :
    peersof [servers, nodeName p r, decimal rf]
      = .ok (peersText ((partition (split servers ',') rf p).eraseIdx r)) := by
  refine bind_of_eq_ok (int_decimal rf) ?_
  refine bind_of_eq_ok partid_nodeName (bind_of_eq_ok (int_decimal p) ?_)
  refine bind_of_eq_ok repid_nodeName (bind_of_eq_ok (int_decimal r) ?_)
  have hrest : sliceFrom (partition (split servers ',') rf p) ((r : ℤ) + 1)
      = (partition (split servers ',') rf p).drop (r + 1) := by
    exact_mod_cast sliceFrom_natCast _ (r + 1)
  have hlt : ¬ ((partition (split servers ',') rf p).length : ℤ) ≤ r := by
    exact_mod_cast not_le.mpr h
  rw [slice_partition]
  refine (if_neg hlt).trans ?_
  dsimp only
  rw [sliceTo_natCast, hrest, ← List.eraseIdx_eq_take_drop_succ, peersText]
  split <;> rfl

example : peersof ["1.2.3.4:3707,5.6.7.8:3708,9.10.11.12:3709".toList, "s0.1".toList, "3".toList]
    = .ok "1.2.3.4:3707,9.10.11.12:3709".toList := by
  decide

end Services

end Madkv.Justmod
