/-!
# Time limits

A duration is a number of whole seconds and of nanoseconds below one
second. A clock gives the time that has passed since it was started, at the
first look, the second, and so on. A deadline looks at it once per
iteration of a search.
-/

namespace Linearizability

structure Duration where
  secs : UInt64
  nanos : Fin 1000000000
  deriving DecidableEq, Repr

namespace Duration

def zero : Duration := ⟨0, 0⟩

def ofSecs (secs : UInt64) : Duration := ⟨secs, 0⟩

/-- Whole seconds in `nanos` are carried over; there is no result when the seconds overflow. -/
def ofParts? (secs nanos : Nat) : Option Duration :=
  let total := secs + nanos / 1000000000
  if total < UInt64.size then
    some ⟨UInt64.ofNat total, ⟨nanos % 1000000000, Nat.mod_lt _ (by decide)⟩⟩
  else none

def toNanos (d : Duration) : Nat := d.secs.toNat * 1000000000 + d.nanos

/-- Whole milliseconds, the largest 64-bit number if there are more. -/
def toMillis (d : Duration) : Nat := min (d.toNanos / 1000000) (UInt64.size - 1)

end Duration

/-- The time that has passed at each look. -/
abbrev Clock := Nat → Duration

def Clock.frozen : Clock := fun _ => .zero

structure Deadline where
  clock : Clock
  /-- Without a limit a deadline never expires. -/
  limit : Option Duration

/-- The limit is over once that much time has passed: a limit of zero at once. -/
def Deadline.isExpired (d : Deadline) (look : Nat) : Bool :=
  d.limit.any fun limit => limit.toNanos ≤ (d.clock look).toNanos

end Linearizability
