import Mathlib.Data.List.Basic
import Mathlib.Tactic.Lemma

/-!
The operation calls and responses of the workload interface (`ioapi.rs`) and
the runner's error type (`error.rs`).
-/

namespace Madkv

/-- Unified error type in the runner utility. -/
inductive RunnerError where
  | io (msg : String)
  | parse (msg : String)
  | chan (msg : String)
  | join
  deriving DecidableEq, Repr

/-- KV operation call type. -/
inductive KvCall where
  | put (key value : String)
  | swap (key value : String)
  | get (key : String)
  | scan (keyStart keyEnd : String)
  | delete (key : String)
  | stop
  deriving DecidableEq, Repr

/-- KV operation response type. -/
inductive KvResp where
  | put (key : String) (found : Bool)
  | swap (key : String) (oldValue : Option String)
  | get (key : String) (value : Option String)
  | scan (keyStart keyEnd : String) (entries : List (String × String))
  | delete (key : String) (found : Bool)
  | stop
  deriving DecidableEq, Repr

/-- The value update made by this operation call: `none` if it is read-only,
`(key, none)` for a Delete, `(key, some value)` for a Put or a Swap. -/
def KvCall.updateInfo : KvCall → Option (String × Option String)
  | .put key value => some (key, some value)
  | .swap key value => some (key, some value)
  | .delete key => some (key, none)
  | _ => none

/-- Write a KV operation call as a string line. -/
def KvCall.intoWrite : KvCall → String
  | .put key value => "PUT " ++ key ++ " " ++ value ++ "\n"
  | .swap key value => "SWAP " ++ key ++ " " ++ value ++ "\n"
  | .get key => "GET " ++ key ++ "\n"
  | .scan keyStart keyEnd => "SCAN " ++ keyStart ++ " " ++ keyEnd ++ "\n"
  | .delete key => "DELETE " ++ key ++ "\n"
  | .stop => "STOP\n"

end Madkv
