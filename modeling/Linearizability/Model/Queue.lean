import Linearizability.Fault
import Linearizability.Specification

/-!
# Bounded queues

A queue holds its values oldest first, with their hash: the polynomial of
the values plus one, oldest first, at 31. An enqueue takes the polynomial
one degree up; a dequeue takes its leading term away.
-/

namespace Linearizability

structure Queue (capacity : Nat) where
  /-- Oldest first. -/
  values : List UInt8
  hash : UInt64
  deriving Repr

namespace Queue

variable {capacity : Nat}

def hashBase : UInt64 := 31

def weight (value : UInt8) : UInt64 := value.toUInt64 + 1

def empty : Queue capacity := ⟨[], 0⟩

def size (q : Queue capacity) : Nat := q.values.length

def isEmpty (q : Queue capacity) : Bool := q.values.isEmpty

def isFull (q : Queue capacity) : Bool := q.size == capacity

def front (q : Queue capacity) : Option UInt8 := q.values.head?

def enqueue (q : Queue capacity) (value : UInt8) : Except Fault (Queue capacity) :=
  if q.isFull then .error (.enqueueOntoFull capacity)
  else .ok ⟨q.values ++ [value], q.hash * hashBase + weight value⟩

/-- The degree of the leading term is held in 32 bits. -/
def dequeue (q : Queue capacity) : Except Fault (Queue capacity) :=
  match q.values with
  | [] => .error .dequeueFromEmpty
  | front :: rest =>
    .ok ⟨rest, q.hash - weight front * hashBase.pow (min rest.length (UInt32.size - 1))⟩

def toList (q : Queue capacity) : List UInt8 := q.values

def debug (q : Queue capacity) : String := "[" ++ ", ".intercalate (q.toList.map toString) ++ "]"

instance : BEq (Queue capacity) := ⟨fun q r => q.hash == r.hash && q.values == r.values⟩

instance : Hashable (Queue capacity) := ⟨hash⟩

inductive Op where
  | enqueue (value : UInt8)
  | enqueueRet (enqueued : Bool)
  | dequeue
  | dequeueRet (dequeued : Option UInt8)
  deriving DecidableEq, Repr

namespace Op

def label : Op → String
  | .enqueue v => s!"try_enqueue({v})"
  | .enqueueRet ok => s!"ret: {ok.toNat}"
  | .dequeue => "try_dequeue()"
  | .dequeueRet (some v) => s!"ret: [ok: 1, value: {v}]"
  | .dequeueRet none => "ret: [ok: 0, value: undefined]"

end Op

instance : Operation Op := ⟨Op.label, fun _ => none⟩

/-- An enqueue onto a full queue and a dequeue from an empty one are refused and change nothing. -/
def apply (q : Queue capacity) : (call ret : Op) → Effect (Queue capacity)
  | .enqueue v, .enqueueRet enqueued =>
    match q.enqueue v with
    | .error _ => ⟨!enqueued, q⟩
    | .ok next => ⟨enqueued, next⟩
  | .dequeue, .dequeueRet dequeued =>
    match q.dequeue with
    | .error _ => ⟨dequeued.isNone, q⟩
    | .ok next => ⟨dequeued == q.front, next⟩
  | _, _ => ⟨false, q⟩

instance : Specification (Queue capacity) Op where
  init := empty
  apply := apply

end Queue

end Linearizability
