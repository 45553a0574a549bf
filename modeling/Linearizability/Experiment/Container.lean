import Linearizability.Model.ByteSet
import Linearizability.Model.Queue
import Linearizability.Model.Register
import Linearizability.Model.Stack

/-!
# Objects under test

A shared object answers one request at a time: performing a request is
atomic. Each request is recorded as a call, and its answer as a return.
-/

namespace Linearizability

class SharedObject (Object : Type) (Request Op : outParam Type) where
  call : Request → Op
  /-- The return of a request, and what it leaves behind. -/
  perform : Object → Request → Op × Object

/-! ## Bounded stack -/

structure BoundedStack where
  items : Array UInt8 := #[]
  capacity : Nat
  deriving Repr

namespace BoundedStack

def ofCapacity (capacity : Nat) : BoundedStack := { capacity }

def tryPush : BoundedStack → (value : UInt8) → Bool × BoundedStack
  | ⟨items, capacity⟩, value =>
    if items.size = capacity then (false, ⟨items, capacity⟩)
    else (true, ⟨items.push value, capacity⟩)

def tryPop (s : BoundedStack) : Option UInt8 × BoundedStack :=
  (s.items.back?, { s with items := s.items.pop })

inductive Request where
  | push (value : UInt8)
  | pop
  deriving DecidableEq, Repr

instance : SharedObject BoundedStack Request Stack.Op where
  call
    | .push v => .push v
    | .pop => .pop
  perform s
    | .push v => (s.tryPush v).map .pushRet id
    | .pop => s.tryPop.map .popRet id

end BoundedStack

/-! ## Bounded queue -/

structure BoundedQueue where
  /-- Newest first. -/
  back : List UInt8 := []
  /-- Oldest first, and older than all of `back`. -/
  front : List UInt8 := []
  size : Nat := 0
  capacity : Nat
  deriving Repr

namespace BoundedQueue

def ofCapacity (capacity : Nat) : BoundedQueue := { capacity }

def tryEnqueue (q : BoundedQueue) (value : UInt8) : Bool × BoundedQueue :=
  if q.size = q.capacity then (false, q)
  else (true, { q with back := value :: q.back, size := q.size + 1 })

/-- When the front runs out, the back is turned around. -/
def tryDequeue (q : BoundedQueue) : Option UInt8 × BoundedQueue :=
  match q.front with
  | value :: front => (some value, { q with front, size := q.size - 1 })
  | [] =>
    match q.back.reverse with
    | value :: front => (some value, { q with front, back := [], size := q.size - 1 })
    | [] => (none, q)

inductive Request where
  | enqueue (value : UInt8)
  | dequeue
  deriving DecidableEq, Repr

instance : SharedObject BoundedQueue Request Queue.Op where
  call
    | .enqueue v => .enqueue v
    | .dequeue => .dequeue
  perform q
    | .enqueue v => (q.tryEnqueue v).map .enqueueRet id
    | .dequeue => q.tryDequeue.map .dequeueRet id

end BoundedQueue

/-! ## Set of bytes -/

structure SharedSet where
  elements : List UInt8 := []
  deriving Repr

namespace SharedSet

def contains (s : SharedSet) (value : UInt8) : Bool := s.elements.contains value

def insert (s : SharedSet) (value : UInt8) : Bool × SharedSet :=
  if s.contains value then (false, s) else (true, ⟨value :: s.elements⟩)

def erase (s : SharedSet) (value : UInt8) : Bool × SharedSet :=
  (s.contains value, ⟨s.elements.erase value⟩)

inductive Request where
  | contains (value : UInt8)
  | insert (value : UInt8)
  | erase (value : UInt8)
  deriving DecidableEq, Repr

instance : SharedObject SharedSet Request ByteSet.Op where
  call
    | .contains v => .contains v
    | .insert v => .insert v
    | .erase v => .erase v
  perform s
    | .contains v => (.ret (s.contains v), s)
    | .insert v => (s.insert v).map .ret id
    | .erase v => (s.erase v).map .ret id

end SharedSet

/-! ## Cell of a signed byte -/

structure SharedCell where
  value : Int8
  deriving Repr

namespace SharedCell

def compareAndSwap (c : SharedCell) (current new : Int8) : Bool × SharedCell :=
  if c.value = current then (true, ⟨new⟩) else (false, c)

inductive Request where
  | read
  | write (value : Int8)
  | cas (current new : Int8)
  deriving DecidableEq, Repr

instance : SharedObject SharedCell Request Register.Op where
  call
    | .read => .read
    | .write v => .write v
    | .cas current new => .cas current new
  perform c
    | .read => (.readRet c.value, c)
    | .write v => (.writeRet, ⟨v⟩)
    | .cas current new => (c.compareAndSwap current new).map .casRet id

end SharedCell

end Linearizability
