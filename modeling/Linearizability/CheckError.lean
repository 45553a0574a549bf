import Linearizability.Text.Quoted

/-!
# Errors of a check

A history that is not linearizable is a verdict and no error. An error is
what a caller can answer to: more time, other keys, another configuration.
-/

namespace Linearizability

inductive CheckError where
  | timeout (limitMillis iterations : Nat)
  /-- The entry with this id carries no key to slice by. -/
  | notPartitionable (entryId : Nat)
  /-- A value of the configuration is out of range. -/
  | invalidConfig (reason : String)
  deriving DecidableEq, Repr

namespace CheckError

def message : CheckError → String
  | .timeout limit iterations =>
    s!"Linearizability check timed out after {limit}ms ({iterations} iterations)"
  | .notPartitionable id => s!"Entry {id} has no partition key and cannot be sliced"
  | .invalidConfig reason => s!"Invalid checker configuration: {reason}"

/-- A timeout tells nothing about the history. -/
def isTimeout : CheckError → Bool
  | .timeout .. => true
  | _ => false

/-- The constructor and its fields, texts quoted. -/
def debug : CheckError → String
  | .timeout limit iterations =>
    s!"Timeout \x7b limit_ms: {limit}, iterations: {iterations} \x7d"
  | .notPartitionable id => s!"NotPartitionable \x7b entry_id: {id} \x7d"
  | .invalidConfig reason => s!"InvalidConfig({Text.quoted reason})"

end CheckError

end Linearizability
