import Linearizability.History.Basic
import Linearizability.MemoryUsage

/-!
# Results of a check

A result holds the verdict and what there is to explain it: the order that
was found, or the largest id that the search came to and the entries that
were left. A check that ran out of time has no verdict.
-/

namespace Linearizability

structure CheckResult where
  linearizable : Bool := true
  isTimeout : Bool := false
  /-- The linearized calls, in order. -/
  witness : List Nat := []
  /-- The largest id that followed a skipped call. -/
  cutoff : Nat := 0
  /-- The entries that were left, in recording order. -/
  remaining : List Nat := []
  memory : MemoryUsage := {}

namespace CheckResult

instance : Inhabited CheckResult := ⟨{}⟩

def reset (_ : CheckResult) : CheckResult := {}

def isLinearizable (r : CheckResult) : Except Fault Bool :=
  if r.isTimeout then .error .noVerdict else .ok r.linearizable

/-! ## Trace -/

variable {Op : Type} [Operation Op]

def witnessLine (h : History Op) (call : Nat) : Except Fault String := do
  let c ← h.entry call
  match c.matched with
  | none => return s!"{c.display} : none"
  | some ret => return s!"{c.display} : {(← h.entry ret).display}"

/-- The entries that were left, up to the return of the cutoff id unless `verbose`. -/
def shown (h : History Op) (cutoff : Nat) (verbose : Bool) :
    List Nat → Except Fault (List (Entry Op))
  | [] => return []
  | ref :: rest => do
    let e ← h.entry ref
    if e.id = cutoff ∧ !e.isCall ∧ !verbose then return [e]
    else return e :: (← shown h cutoff verbose rest)

def marker : String := "^ previous entries cannot be linearized"

def entryLines (cutoff : Nat) (e : Entry Op) : List String :=
  if e.id = cutoff then [e.display, marker] else [e.display]

/-- The verdict, and then the witness or the entries that were left. The references of the result
are read in `h`. -/
def lines (r : CheckResult) (h : History Op) (verbose : Bool) : Except Fault (List String) := do
  if r.linearizable then return "Linearizable: Yes" :: (← r.witness.mapM (witnessLine h))
  else
    let entries ← shown h r.cutoff verbose r.remaining
    return "Linearizable: No" :: entries.flatMap (entryLines r.cutoff)

def trace (r : CheckResult) (h : History Op) (verbose : Bool) : Except Fault String := do
  return String.join ((← r.lines h verbose).map (· ++ "\n"))

end CheckResult

end Linearizability
