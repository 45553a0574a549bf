import Linearizability.Experiment.Basic

/-!
# The program

`experiment MODEL [OPTIONS]` records a history and checks it. The exit code
is 0 for a linearizable history, 1 for any failure, and 2 for arguments that
cannot be read.
-/

namespace Linearizability.Program

def usage : String := "usage: experiment <set|stack|queue|register>
  --threads N --ops N --max-value N --capacity <8|64|512|4096>
  --cache <disabled|lru|always> --lru-capacity N --timeout-secs N
  --partitions N --config FILE --corrupt --trace"

def readConfig (args : Arguments) : IO (Option String) :=
  match args.config with
  | none => return none
  | some path => try return some (← IO.FS.readFile path) catch _ => return none

/-- Run a check for as long as the limit says. A check cannot look at the time itself: it is told
after how many looks the limit is over, and starts again with more if they were too few. -/
def runWithin (limit : Duration) (check : Check) : IO (Except Fault Report) := do
  let mut looks := 1024
  repeat
    let start ← IO.monoNanosNow
    match check fun look => if look < looks then .zero else limit with
    | .error f => return .error f
    | .ok r =>
      if limit.toNanos ≤ (← IO.monoNanosNow) - start then break
      if r.outcome != .timeout then return .ok r
      looks := 2 * looks
  return .ok ⟨.timeout, []⟩

/-- Run the checks side by side, each with the whole limit to itself. -/
def runChecks (limit : Option Duration) (checks : List Check) :
    IO (List (Except Fault Report)) := do
  let tasks ← checks.mapM fun check => IO.asTask (match limit with
    | none => return check .frozen
    | some limit => runWithin limit check)
  tasks.mapM fun task => IO.ofExcept task.get

def report (args : Arguments) (r : Report) : IO UInt32 := do
  if args.trace then r.traces.forM fun trace => IO.print trace
  match r.outcome.failure? with
  | none =>
    IO.println "history is linearizable"
    return 0
  | some message =>
    IO.eprintln s!"Error: {message}"
    return 1

def fail (e : ExperimentError) : IO UInt32 := do
  IO.eprintln s!"Error: {e.message}"
  return 1

def runExperiment (args : Arguments) : IO UInt32 := do
  let text ← readConfig args
  let seed ← IO.rand 0 (1 <<< 31)
  let prepared := do
    let config ← Experiment.loadConfig args fun _ => text
    return (config.timeout, ← Experiment.checks args config (mkStdGen seed))
  match prepared with
  | .error e => fail e
  | .ok (limit, checks) =>
    match (Report.collect (← runChecks limit checks)).mapError .checkerFailed with
    | .error e => fail e
    | .ok r => report args r

def start : List String → IO UInt32
  | "experiment" :: words => do
    match Arguments.parse words with
    | .ok args => runExperiment args
    | .error .displayHelp =>
      IO.println usage
      return 0
    | .error _ =>
      IO.eprintln usage
      return 2
  | _ => do
    IO.eprintln usage
    return 2

end Linearizability.Program

def main (words : List String) : IO UInt32 := Linearizability.Program.start words
