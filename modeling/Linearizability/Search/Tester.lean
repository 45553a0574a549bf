import Linearizability.Search.Basic
import Linearizability.Search.CheckResult

/-!
# Testers

A tester checks one history under one configuration, as often as it is
asked to, and counts its work over all checks. Every check starts with an
empty memo and a clock of its own.
-/

namespace Linearizability

structure Tester (State Op : Type) [Specification State Op] where
  history : History Op
  config : Config := {}
  stats : Stats := {}

namespace Tester

variable {State Op : Type} [Specification State Op]

def ofConfig (State : Type) [Specification State Op] (history : History Op) (config : Config) :
    Except Fault (Tester State Op) :=
  match config.validate with
  | .error e => .error (.invalidConfig e)
  | .ok _ => .ok { history, config }

def search (t : Tester State Op) (clock : Clock) : Except Fault (Search State × Ending) := do
  let list ← WorkingList.ofHistory t.history
  let s ← Search.start t.history list t.config t.stats
  s.runToEnd t.history ⟨clock, t.config.timeout⟩

def conclude (t : Tester State Op) (r : CheckResult) (s : Search State) (e : Ending) :
    Except Fault CheckResult := do
  let linearizable := s.stack.length == t.history.calls
  let isTimeout := e == .expired
  if !isTimeout && linearizable != (← s.list.isEmpty) then throw .searchOutOfStep
  let witness ← s.stack.reverse.mapM fun frame => (s.list.node frame.call).map (·.entry)
  return { r with
    linearizable, isTimeout, witness
    cutoff := s.cutoff
    remaining := s.list.remaining
    memory := r.memory.max .sample }

/-- Check the history. The result is reset first, whatever comes of the check. -/
def checkInto (t : Tester State Op) (clock : Clock) (r : CheckResult) :
    Except Fault (Tester State Op) × CheckResult :=
  let r := r.reset
  match t.search clock with
  | .error f => (.error f, r)
  | .ok (s, e) =>
    match t.conclude r s e with
    | .error f => (.error f, r)
    | .ok r => (.ok { t with stats := s.stats }, r)

/-- Check the history for its verdict alone. A check that ran out of time has none. -/
def check (t : Tester State Op) (clock : Clock) :
    Except Fault (Except CheckError Bool × Tester State Op) :=
  match t.checkInto clock {} with
  | (.error f, _) => .error f
  | (.ok after, r) =>
    if r.isTimeout then
      let limit := t.config.timeout.elim 0 Duration.toMillis
      .ok (.error (.timeout limit (after.stats.iterations - t.stats.iterations)), after)
    else
      match r.isLinearizable with
      | .error f => .error f
      | .ok verdict => .ok (.ok verdict, after)

end Tester

end Linearizability
