import Linearizability.History.Log
import Linearizability.Search.Tester

/-!
# Slicing a history by key

Operations of different keys never constrain each other. A history whose
entries all have a key is split into sub-histories, by the key modulo their
number, and these are checked one by one. Each is a log of its own, with ids
of its own, just large enough.

Allocation is idealised: there is an array of any number of sub-histories,
however large.
-/

namespace Linearizability

structure Slices (Op : Type) where
  sublogs : Array (Log Op)
  /-- The sub-history that comes next in turn. -/
  current : Nat := 0

namespace Slices

variable {Op : Type}

/-! ## Splitting -/

/-- How many entries go to each of `count` sub-histories. Every entry needs a key. -/
def sizes (count : Nat) (entries : List (Nat × Entry Op)) : Except CheckError (Array Nat) :=
  entries.foldlM (fun sizes (_, e) =>
    match e.key with
    | none => .error (.notPartitionable e.id)
    | some key => .ok (sizes.modify (key % count) (· + 1))) (Array.replicate count 0)

/-- Sub-histories in the making. `calls` leads from a call to its place in its sub-history. -/
structure Cut (Op : Type) where
  sublogs : Array (Log Op)
  calls : List (Nat × Nat) := []

variable [Operation Op]

/-- Sub-history `part`, and all of them with a blank in its place. -/
@[noinline] def takeOut (sublogs : Array (Log Op)) (part : Nat) (h : part < sublogs.size) :
    Log Op × Array (Log Op) :=
  sublogs.swapAt part (.ofCapacity 0) h

/-- Append to sub-history `part` by `add`, which tells where the entry went. The sub-history is out
of the array while it changes. -/
def Cut.append : Cut Op → (part : Nat) → (add : Log Op → Except Fault Nat × Log Op) →
    Except Fault Nat × Cut Op
  | ⟨sublogs, calls⟩, part, add =>
    if h : part < sublogs.size then
      let (sublog, sublogs) := takeOut sublogs part h
      let (ref, sublog) := add sublog
      (ref, ⟨sublogs.setIfInBounds part sublog, calls⟩)
    else (.error (.outOfBounds sublogs.size part), ⟨sublogs, calls⟩)

def Cut.add (cut : Cut Op) : Nat × Entry Op → Except Fault (Cut Op)
  | (ref, e) =>
    let part := e.key.elim 0 (· % cut.sublogs.size)
    if e.isCall then
      match cut.append part (·.addCall e.op e.thread) with
      | (.error f, _) => .error f
      | (.ok call, ⟨sublogs, calls⟩) => .ok ⟨sublogs, (ref, call) :: calls⟩
    else
      match e.matched.bind (cut.calls.lookup ·) with
      | none => .error (.returnBeforeCall e.id)
      | some call =>
        match cut.append part (·.addRet call e.op e.thread) with
        | (.error f, _) => .error f
        | (.ok _, cut) => .ok cut

def ofHistory (h : History Op) (count : Nat) : Except Fault (Except CheckError (Slices Op)) :=
  if count = 0 then .ok (.error (.invalidConfig "number of partitions must be positive"))
  else
    match sizes count h.toList with
    | .error e => .ok (.error e)
    | .ok sizes => do
      let cut ← h.toList.foldlM Cut.add ⟨sizes.map .ofCapacity, []⟩
      return .ok ⟨cut.sublogs, 0⟩

/-! ## Reading -/

def size (s : Slices Op) : Nat := s.sublogs.size

def sublogInfo (s : Slices Op) (part : Nat) : Except Fault (History Op) :=
  match s.sublogs[part]? with
  | some sublog => sublog.info
  | none => .error (.outOfBounds s.size part)

/-- The sub-histories in turn, then the empty history for ever. -/
def nextSublogInfo (s : Slices Op) : Except Fault (History Op) × Slices Op :=
  let next := { s with current := s.current + 1 }
  match s.sublogs[s.current]? with
  | some sublog => (sublog.info, next)
  | none => (.ok .empty, next)

/-! ## Checking -/

variable {State : Type} [Specification State Op]

/-- Check one sub-history after another, each by the clock of its number, up to the first one that
is not linearizable. A timeout does not end the walk. The answer is the number of the last one
checked; the result is about that one alone. -/
def checkFrom (State : Type) [Specification State Op] (config : Config) (clocks : Nat → Clock) :
    List (Log Op) → (part : Nat) → (last : Nat) → CheckResult → Except Fault Nat × CheckResult
  | [], _, last, r => (.ok last, r)
  | sublog :: rest, part, _, r =>
    match sublog.info >>= fun h => Tester.ofConfig State h config with
    | .error f => (.error f, r)
    | .ok tester =>
      match tester.checkInto (clocks part) r with
      | (.error f, r) => (.error f, r)
      | (.ok _, r) =>
        if r.isTimeout || r.linearizable then checkFrom State config clocks rest (part + 1) part r
        else (.ok part, r)

def check (State : Type) [Specification State Op] (s : Slices Op) (config : Config)
    (clocks : Nat → Clock) (r : CheckResult) : Except Fault Nat × CheckResult :=
  checkFrom State config clocks s.sublogs.toList 0 0 r

end Slices

/-- Check a history by its sub-histories. The result is about the last one checked: the first that
is not linearizable, if there is one. It stays as it was when the history cannot be sliced or the
configuration is not valid. -/
def History.checkSliced (State : Type) {Op : Type} [Operation Op] [Specification State Op]
    (h : History Op) (count : Nat) (config : Config) (clocks : Nat → Clock) (r : CheckResult) :
    Except Fault (Except CheckError Unit) × CheckResult :=
  match config.validate with
  | .error e => (.ok (.error e), r)
  | .ok _ =>
    match Slices.ofHistory h count with
    | .error f => (.error f, r)
    | .ok (.error e) => (.ok (.error e), r)
    | .ok (.ok slices) =>
      match slices.check State config clocks r with
      | (.error f, r) => (.error f, r)
      | (.ok _, r) => (.ok (.ok ()), r)

end Linearizability
