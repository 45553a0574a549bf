import Linearizability.History.Log

/-!
# Recording from several threads

A push takes two steps. The first claims the next slot by raising the index,
which may go past the capacity; the second writes the slot that was claimed.
Steps of several threads may come in any order.

Once all pushes are over, the slots are assembled into a log in the order of
their numbers. Pairs are checked only then. An assembly that fails leaves
the recorder open; one that succeeds closes it for good.
-/

namespace Linearizability

structure Slot (Op : Type) where
  op : Op
  thread : Nat
  /-- The call, if the operation is a return. -/
  call : Option Nat
  deriving Repr

structure Recorder (Op : Type) where
  slots : Array (Option (Slot Op))
  index : Nat := 0
  log : Option (Log Op) := none
  deriving Repr

namespace Recorder

variable {Op : Type}

def ofCapacity (capacity : Nat) : Recorder Op := { slots := Array.replicate capacity none }

def capacity (r : Recorder Op) : Nat := r.slots.size

def size (r : Recorder Op) : Nat := min r.index r.capacity

/-! ## Pushing -/

def claim (r : Recorder Op) : Except Fault Nat × Recorder Op :=
  if r.log.isSome then (.error .recorderFinalized, r)
  else
    let slot := r.index
    let r := { r with index := slot + 1 }
    if slot < r.capacity then (.ok slot, r) else (.error (.recorderFull r.capacity), r)

def write (r : Recorder Op) (slot : Nat) (content : Slot Op) : Recorder Op :=
  { r with slots := r.slots.modify slot fun old => old.or (some content) }

def push (r : Recorder Op) (content : Slot Op) : Except Fault Nat × Recorder Op :=
  match r.claim with
  | (.error f, r) => (.error f, r)
  | (.ok slot, r) => (.ok slot, r.write slot content)

def pushCall (r : Recorder Op) (op : Op) (thread : Nat) : Except Fault Nat × Recorder Op :=
  r.push ⟨op, thread, none⟩

def pushRet (r : Recorder Op) (call : Nat) (op : Op) (thread : Nat) :
    Except Fault Nat × Recorder Op :=
  r.push ⟨op, thread, some call⟩

/-! ## Reading -/

variable [Operation Op]

def assembleSlot (log : Log Op) : Option (Slot Op) × Nat → Except Fault (Log Op)
  | (none, i) => .error (.slotNotWritten i)
  | (some ⟨op, thread, none⟩, _) =>
    match log.addCall op thread with
    | (.error f, _) => .error f
    | (.ok _, log) => .ok log
  | (some ⟨op, thread, some call⟩, i) =>
    if call < i then
      match log.addRet call op thread with
      | (.error f, _) => .error f
      | (.ok _, log) => .ok log
    else .error (.returnSlotBeforeCall i call)

/-- Slot order is log order, so the claimed numbers stay valid. -/
def assemble (r : Recorder Op) : Except Fault (Log Op) :=
  (r.slots.toList.take r.size).zipIdx.foldlM assembleSlot (.ofCapacity r.size)

/-- The assembled log, made at the first request that succeeds. -/
def finalize (r : Recorder Op) : Except Fault (Log Op) × Recorder Op :=
  match r.log with
  | some log => (.ok log, r)
  | none =>
    match r.assemble with
    | .error f => (.error f, r)
    | .ok log => (.ok log, { r with log := some log })

def head (r : Recorder Op) : Except Fault (Option Nat) × Recorder Op :=
  let (log, r) := r.finalize
  (log.map (·.head), r)

def info (r : Recorder Op) : Except Fault (History Op) × Recorder Op :=
  let (log, r) := r.finalize
  (log.bind (·.info), r)

end Recorder

end Linearizability
