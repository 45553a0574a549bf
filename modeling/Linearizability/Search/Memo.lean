import Std.Data.HashSet
import Linearizability.Bitset.Basic
import Linearizability.Config.Basic
import Linearizability.RecencySet
import Linearizability.Specification

/-!
# Visited configurations

A configuration is a set of linearized calls with the state that they lead
to. A search reaches the same one along many paths and need not go on from
it twice. Configurations are compared exactly: the hash only finds them.
-/

namespace Linearizability

structure Configuration (State : Type) where
  /-- The ids of the linearized calls. -/
  linearized : Bitset
  state : State

namespace Configuration

variable {State : Type}

instance [BEq State] : BEq (Configuration State) :=
  ⟨fun a b => a.linearized == b.linearized && a.state == b.state⟩

def rotateLeft7 (w : UInt64) : UInt64 := w <<< 7 ||| w >>> 57

instance [Hashable State] : Hashable (Configuration State) :=
  ⟨fun c => rotateLeft7 (hash c.linearized) ^^^ hash c.state⟩

end Configuration

inductive Memo (State : Type) [BEq State] [Hashable State] where
  | disabled
  | recent (window : RecencySet (Configuration State))
  | all (seen : Std.HashSet (Configuration State))

namespace Memo

variable {State : Type} [BEq State] [Hashable State]

def ofConfig (config : Config) : Except Fault (Memo State) :=
  match config.memo with
  | .disabled => .ok .disabled
  | .lru => (RecencySet.ofCapacity config.lruCapacity.toNat).map .recent
  | .always => .ok (.all {})

/-- Remember that linearizing the call `id` on top of `linearized` leads to `state`. The flag tells
whether this is new, as far as the memo remembers. -/
@[inline] def remember : Memo State → (state : State) → (linearized : Bitset) → (id : Nat) →
    Except Fault (Bool × Memo State)
  | .disabled, _, _, _ => .ok (true, .disabled)
  | .recent window, state, linearized, id => do
    let (fresh, window) := window.insert ⟨← linearized.withSet id, state⟩
    return (fresh, .recent window)
  | .all seen, state, linearized, id => do
    let (present, seen) := seen.containsThenInsert ⟨← linearized.withSet id, state⟩
    return (!present, .all seen)

end Memo

end Linearizability
