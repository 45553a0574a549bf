import Linearizability.Slicing

/-!
# Outcomes

The outcome of checking a recorded history, whole or by sub-histories. Of
several outcomes a negative one counts most, then a timeout.
-/

namespace Linearizability

inductive Outcome where
  | linearizable
  | notLinearizable
  | timeout
  deriving DecidableEq, Repr

structure Report where
  outcome : Outcome := .linearizable
  traces : List String := []
  deriving Repr

/-- A check that is to be run, with a clock of its own. -/
abbrev Check := Clock → Except Fault Report

namespace Outcome

def merge : Outcome → Outcome → Outcome
  | .notLinearizable, _ | _, .notLinearizable => .notLinearizable
  | .timeout, _ | _, .timeout => .timeout
  | .linearizable, .linearizable => .linearizable

def failure? : Outcome → Option String
  | .linearizable => none
  | .notLinearizable => some "history is not linearizable"
  | .timeout => some "check timed out before reaching a verdict"

def ofResult (r : CheckResult) : Outcome :=
  if r.isTimeout then .timeout else if r.linearizable then .linearizable else .notLinearizable

end Outcome

namespace Report

def merge (a b : Report) : Report := ⟨a.outcome.merge b.outcome, a.traces ++ b.traces⟩

/-- Merge the outcomes in order, up to the first check that failed. -/
def collect (results : List (Except Fault Report)) : Except Fault Report :=
  results.foldlM (fun report result => return report.merge (← result)) {}

def ofChecks (clocks : Nat → Clock) (checks : List Check) : Except Fault Report :=
  collect (checks.zipIdx.map fun (check, part) => check (clocks part))

variable {Op : Type} [Operation Op]

def ofHistory (State : Type) [Specification State Op] (config : Config) (clock : Clock)
    (h : History Op) : Except Fault Report := do
  let tester ← Tester.ofConfig State h config
  match tester.checkInto clock {} with
  | (.error f, _) => throw f
  | (.ok _, r) =>
    match Outcome.ofResult r with
    | .notLinearizable => return ⟨.notLinearizable, [← r.trace h false]⟩
    | outcome => return ⟨outcome, []⟩

def checksOfSublogs (State : Type) [Specification State Op] (config : Config)
    (sublogs : List (Log Op)) : List Check :=
  sublogs.map fun sublog clock => sublog.info >>= ofHistory State config clock

def ofSublogs (State : Type) [Specification State Op] (config : Config) (clocks : Nat → Clock)
    (sublogs : List (Log Op)) : Except Fault Report :=
  ofChecks clocks (checksOfSublogs State config sublogs)

end Report

end Linearizability
