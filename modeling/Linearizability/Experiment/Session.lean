import Linearizability.Experiment.Container
import Linearizability.History.Recorder

/-!
# Recording sessions

Several workers use one object and record what they do with one recorder.
A worker takes five steps for each request: it claims a slot for the call,
writes the call, performs the request, claims a slot for the return, and
writes the return. What is recorded thus spans the moment at which the
object answered. A schedule says whose turn it is; it may mix the steps of
the workers in any way.
-/

namespace Linearizability

inductive Phase (Request Op : Type) where
  /-- Claim a slot for the next call, if there is one. -/
  | idle
  /-- Write the call to the slot that was claimed. -/
  | calling (slot : Nat) (request : Request)
  /-- Perform the request of the call that was recorded. -/
  | called (call : Nat) (request : Request)
  | answered (call : Nat) (ret : Op)
  /-- Write the return to the slot that was claimed. -/
  | returning (slot call : Nat) (ret : Op)
  deriving Repr

structure Worker (Request Op : Type) where
  program : List Request
  phase : Phase Request Op := .idle
  deriving Repr

structure Session (Object Request Op : Type) where
  recorder : Recorder Op
  object : Object
  workers : Array (Worker Request Op)

namespace Session

variable {Object Request Op : Type} [SharedObject Object Request Op]

def start (capacity : Nat) (object : Object) (programs : List (List Request)) :
    Session Object Request Op :=
  { recorder := .ofCapacity capacity
    object
    workers := (programs.map fun program => { program }).toArray }

def act (recorder : Recorder Op) (object : Object) (thread : Nat) :
    Worker Request Op → Except Fault (Recorder Op × Object × Worker Request Op)
  | ⟨[], .idle⟩ => .ok (recorder, object, ⟨[], .idle⟩)
  | ⟨request :: rest, .idle⟩ =>
    match recorder.claim with
    | (.error f, _) => .error f
    | (.ok slot, recorder) => .ok (recorder, object, ⟨rest, .calling slot request⟩)
  | ⟨rest, .calling slot request⟩ =>
    let content := ⟨SharedObject.call Object request, thread, none⟩
    .ok (recorder.write slot content, object, ⟨rest, .called slot request⟩)
  | ⟨rest, .called call request⟩ =>
    let (ret, object) := SharedObject.perform object request
    .ok (recorder, object, ⟨rest, .answered call ret⟩)
  | ⟨rest, .answered call ret⟩ =>
    match recorder.claim with
    | (.error f, _) => .error f
    | (.ok slot, recorder) => .ok (recorder, object, ⟨rest, .returning slot call ret⟩)
  | ⟨rest, .returning slot call ret⟩ =>
    .ok (recorder.write slot ⟨ret, thread, some call⟩, object, ⟨rest, .idle⟩)

/-- One step of worker `i`. A worker that has finished, or does not exist, does nothing. -/
def step : Session Object Request Op → (i : Nat) → Except Fault (Session Object Request Op)
  | ⟨recorder, object, workers⟩, i =>
    match workers[i]? with
    | none => .ok ⟨recorder, object, workers⟩
    | some worker =>
      match act recorder object (i + 1) worker with
      | .error f => .error f
      | .ok (recorder, object, worker) =>
        .ok ⟨recorder, object, workers.modify i fun _ => worker⟩

def run (s : Session Object Request Op) (schedule : List Nat) :
    Except Fault (Session Object Request Op) :=
  schedule.foldlM step s

def Worker.isFinished (w : Worker Request Op) : Bool :=
  w.program.isEmpty && match w.phase with
    | .idle => true
    | _ => false

def isFinished (s : Session Object Request Op) : Bool := s.workers.all Worker.isFinished

/-- Turns enough for every worker to finish, one worker after another. -/
def turnsLeft (s : Session Object Request Op) : List Nat :=
  s.workers.toList.zipIdx.flatMap fun (w, i) => List.replicate (5 * (w.program.length + 1)) i

end Session

end Linearizability
