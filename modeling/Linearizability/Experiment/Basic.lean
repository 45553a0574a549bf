import Linearizability.Config.Json
import Linearizability.Experiment.Arguments
import Linearizability.Experiment.Outcome
import Linearizability.Experiment.Session
import Linearizability.Experiment.Workload

/-!
# Experiments

An experiment records the history of an object that several workers use,
and checks it against the model of the object. An object that is corrupted
beforehand holds a value that no history tells of.
-/

namespace Linearizability

inductive ExperimentError where
  | unreadableConfig (path : String)
  | malformedConfig (path : String)
  | invalidConfig
  | partitionsWithoutSet
  | unsupportedCapacity (capacity : Nat)
  | tooManyOperations (threads ops : Nat)
  | notSliced (error : CheckError)
  | workerFailed (fault : Fault)
  | checkerFailed (fault : Fault)
  deriving DecidableEq, Repr

namespace Experiment

def capacities : List Nat := [8, 64, 512, 4096]

end Experiment

def ExperimentError.message : ExperimentError → String
  | unreadableConfig path => s!"failed to read {path}"
  | malformedConfig path => s!"failed to parse checker config {path}"
  | invalidConfig => "invalid checker configuration"
  | partitionsWithoutSet => "--partitions only applies to the set model"
  | unsupportedCapacity capacity =>
    s!"unsupported capacity {capacity}, expected one of {Experiment.capacities}"
  | tooManyOperations threads ops => s!"history of {threads} x {ops} operations is too large"
  | notSliced error => error.message
  | workerFailed _ => "worker task failed"
  | checkerFailed _ => "checker task failed"

namespace Experiment

/-! ## Configuration -/

/-- The configuration of the file that is named, or the default, with the values that the arguments
give in its place. `read` gives the text of a file. -/
def loadConfig (args : Arguments) (read : String → Option String) :
    Except ExperimentError Config := do
  let base ← match args.config with
    | none => pure {}
    | some path =>
      match read path with
      | none => throw (.unreadableConfig path)
      | some text =>
        match Config.parse? text with
        | none => throw (.malformedConfig path)
        | some config => pure config
  let config : Config := {
    memo := args.memo.getD base.memo
    lruCapacity := args.lruCapacity.getD base.lruCapacity
    timeout := (args.timeoutSecs.map Duration.ofSecs).or base.timeout }
  match config.validate with
  | .error _ => throw .invalidConfig
  | .ok _ => return config

/-! ## Recording and checking -/

/-- Room for a call and a return of every operation, if their number fits a word. -/
def entryCount (args : Arguments) : Except ExperimentError Nat :=
  let count := args.threads.toNat * args.ops.toNat * 2
  if count < UInt64.size then .ok count
  else .error (.tooManyOperations args.threads.toNat args.ops.toNat)

variable {Object Request Op : Type} [SharedObject Object Request Op] [Operation Op]

def record (args : Arguments) (object : Object) (draw : UInt8 → StdGen → Request × StdGen)
    (g : StdGen) : Except ExperimentError (Recorder Op) := do
  let capacity ← entryCount args
  let threads := args.threads.toNat
  let ops := args.ops.toNat
  let (programs, g) := Workload.drawList (Workload.drawList (draw args.maxValue) ops) threads g
  let (schedule, _) := Workload.drawSchedule threads ops g
  match (Session.start capacity object programs).run schedule >>= fun s => s.run s.turnsLeft with
  | .error f => throw (.workerFailed f)
  | .ok session => return session.recorder

def wholeChecks (State : Type) [Specification State Op] (config : Config)
    (recorder : Recorder Op) : List Check :=
  [fun clock => recorder.info.1 >>= Report.ofHistory State config clock]

def partChecks (State : Type) [Specification State Op] (config : Config) (count : Nat)
    (recorder : Recorder Op) : Except ExperimentError (List Check) :=
  match recorder.info.1 >>= fun h => Slices.ofHistory h count with
  | .error f => throw (.checkerFailed f)
  | .ok (.error e) => throw (.notSliced e)
  | .ok (.ok slices) => return Report.checksOfSublogs State config slices.sublogs.toList

def runChecks (clocks : Nat → Clock) (checks : List Check) : Except ExperimentError Report :=
  (Report.ofChecks clocks checks).mapError .checkerFailed

def checkWhole (State : Type) [Specification State Op] (config : Config) (clocks : Nat → Clock)
    (recorder : Recorder Op) : Except ExperimentError Report :=
  runChecks clocks (wholeChecks State config recorder)

def checkPartitioned (State : Type) [Specification State Op] (config : Config)
    (clocks : Nat → Clock) (count : Nat) (recorder : Recorder Op) :
    Except ExperimentError Report :=
  partChecks State config count recorder >>= runChecks clocks

/-! ## Models -/

def recordSet (args : Arguments) (g : StdGen) : Except ExperimentError (Recorder ByteSet.Op) :=
  let object : SharedSet := if args.corrupt then ⟨[args.maxValue]⟩ else {}
  record args object Workload.drawSet g

def recordStack (capacity : Nat) (args : Arguments) (g : StdGen) :
    Except ExperimentError (Recorder Stack.Op) :=
  let object := BoundedStack.ofCapacity capacity
  let object := if args.corrupt then (object.tryPush args.maxValue).2 else object
  record args object Workload.drawStack g

def recordQueue (capacity : Nat) (args : Arguments) (g : StdGen) :
    Except ExperimentError (Recorder Queue.Op) :=
  let object := BoundedQueue.ofCapacity capacity
  let object := if args.corrupt then (object.tryEnqueue args.maxValue).2 else object
  record args object Workload.drawQueue g

def recordRegister (args : Arguments) (g : StdGen) :
    Except ExperimentError (Recorder Register.Op) :=
  let value :=
    if args.corrupt then Int8.ofNat (Workload.signedMost args.maxValue) else Register.init.value
  record args (⟨value⟩ : SharedCell) Workload.drawCell g

/-- Record a history and say how it is to be checked. All chance comes from `g`. -/
def checks (args : Arguments) (config : Config) (g : StdGen) :
    Except ExperimentError (List Check) := do
  if args.partitions.isSome && args.model != .set then throw .partitionsWithoutSet
  let capacity := args.capacity.toNat
  match args.model with
  | .set =>
    let recorder ← recordSet args g
    match args.partitions with
    | some count => partChecks ByteSet config count.toNat recorder
    | none => return wholeChecks ByteSet config recorder
  | .register => return wholeChecks Register config (← recordRegister args g)
  | .stack =>
    if capacities.contains capacity then
      return wholeChecks (Stack capacity) config (← recordStack capacity args g)
    else throw (.unsupportedCapacity capacity)
  | .queue =>
    if capacities.contains capacity then
      return wholeChecks (Queue capacity) config (← recordQueue capacity args g)
    else throw (.unsupportedCapacity capacity)

/-- Run the experiment of the arguments. All time comes from `clocks`. -/
def run (args : Arguments) (read : String → Option String) (clocks : Nat → Clock) (g : StdGen) :
    Except ExperimentError Report := do
  let config ← loadConfig args read
  runChecks clocks (← checks args config g)

end Experiment

end Linearizability
