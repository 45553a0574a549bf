/-!
# Memory of the running program

Sizes are in MiB. A host without a probe reports zero, which reads as
"unknown".
-/

namespace Linearizability

structure MemoryUsage where
  virtualSize : Float := 0
  residentSize : Float := 0

namespace MemoryUsage

/-- No probe is known here. -/
def sample : MemoryUsage := {}

/-- The larger of two sizes, the first if they are equal. -/
def larger (a b : Float) : Float := if a < b then b else a

def max (a b : MemoryUsage) : MemoryUsage :=
  ⟨larger a.virtualSize b.virtualSize, larger a.residentSize b.residentSize⟩

end MemoryUsage

end Linearizability
