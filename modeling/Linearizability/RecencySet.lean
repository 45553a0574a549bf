import Std.Data.HashMap
import Std.Data.TreeMap
import Linearizability.Fault

/-!
# Windows of recent keys

A recency set keeps the keys inserted last. A key that is inserted again
becomes the most recent one. As soon as an insertion fills the window, the
oldest key leaves it, so that at most `capacity - 1` keys stay.

Every insertion has a time of its own. The keys are found by their hash, and
their times by order.
-/

namespace Linearizability

structure RecencySet (α : Type) [BEq α] [Hashable α] where
  capacity : Nat
  /-- When each key was inserted last. -/
  times : Std.HashMap α Nat := {}
  /-- The keys by these times. -/
  keys : Std.TreeMap Nat α := {}
  now : Nat := 0

namespace RecencySet

def defaultCapacity : Nat := 4096

variable {α : Type} [BEq α] [Hashable α]

def ofCapacity (capacity : Nat) : Except Fault (RecencySet α) :=
  if capacity = 0 then .error .emptyWindow else .ok { capacity }

def size (c : RecencySet α) : Nat := c.times.size

def isEmpty (c : RecencySet α) : Bool := c.times.isEmpty

def toList (c : RecencySet α) : List α := c.keys.values.reverse

def clear (c : RecencySet α) : RecencySet α := { capacity := c.capacity }

def contains (c : RecencySet α) (key : α) : Bool := c.times.contains key

def dropOldest : RecencySet α → RecencySet α
  | ⟨capacity, times, keys, now⟩ =>
    match keys.minEntry? with
    | none => ⟨capacity, times, keys, now⟩
    | some (time, key) => ⟨capacity, times.erase key, keys.erase time, now⟩

/-- Make `key` the most recent one, whatever the capacity. The flag tells whether it was absent. -/
def put : RecencySet α → (key : α) → Bool × RecencySet α
  | ⟨capacity, times, keys, now⟩, key =>
    match times[key]? with
    | some time =>
      (false, ⟨capacity, times.insert key now, (keys.erase time).insert now key, now + 1⟩)
    | none => (true, ⟨capacity, times.insert key now, keys.insert now key, now + 1⟩)

def evict (c : RecencySet α) : RecencySet α := if c.size = c.capacity then c.dropOldest else c

def insert (c : RecencySet α) (key : α) : Bool × RecencySet α :=
  let (fresh, c) := c.put key
  (fresh, c.evict)

end RecencySet

end Linearizability
