/-!
# Sequential specifications

A specification is a deterministic state machine. An operation comes in two
halves of one type, its call and its return. The machine is asked whether
the call can take effect in a state, given the return that was observed,
and which state follows.

States are compared and hashed only to remember them. A specification is
lawful when that is safe: equality is an equivalence, equal states have
equal hashes, and they accept the same operations and lead to equal states.

All methods are total: an operation always has a label, and a key or none,
and every state gives an effect. Types whose methods can fail by themselves
are not covered.
-/

namespace Linearizability

/-- What a history needs to know about one half of an operation. -/
class Operation (Op : Type) where
  label : Op → String
  /-- Operations of different keys never affect each other. -/
  key : Op → Option Nat

/-- What an operation does in a state. The next state counts only if the operation is accepted. -/
structure Effect (State : Type) where
  accepted : Bool
  next : State
  deriving Repr

class Specification (State : Type) (Op : outParam Type) extends BEq State, Hashable State where
  init : State
  apply : State → (call ret : Op) → Effect State

class LawfulSpecification (State : Type) {Op : Type} [Specification State Op] : Prop
    extends EquivBEq State, LawfulHashable State where
  accepted_congr {s t : State} (call ret : Op) : s == t →
    (Specification.apply s call ret).accepted = (Specification.apply t call ret).accepted
  next_congr {s t : State} (call ret : Op) : s == t → (Specification.apply s call ret).accepted →
    (Specification.apply s call ret).next == (Specification.apply t call ret).next

/-- A specification in which only the same states are equal is lawful. -/
theorem LawfulSpecification.of_lawfulBEq {State Op : Type} [Specification State Op]
    [LawfulBEq State] : LawfulSpecification State where
  accepted_congr _ _ h := by rw [eq_of_beq h]
  next_congr _ _ h _ := by rw [eq_of_beq h]; exact beq_self_eq_true _

end Linearizability
