import Linearizability.History.Log

/-!
# Linearizations

A history is complete when it was recorded without a fault and every call
in it has its return. A linearization of it is an order of all its calls
that keeps to real time, and in which the specification accepts one
operation after another.

The search is about these: its verdict says whether there is one.
-/

namespace Linearizability

variable {Op : Type}

/-! ## Complete histories -/

/-- A log that was recorded without a fault. -/
inductive Log.Recorded [Operation Op] : Log Op → Prop where
  | ofCapacity (capacity : Nat) : Recorded (.ofCapacity capacity)
  | addCall {log after : Log Op} {op : Op} {thread call : Nat} :
    Recorded log → log.addCall op thread = (.ok call, after) → Recorded after
  | addRet {log after : Log Op} {call : Nat} {op : Op} {thread ret : Nat} :
    Recorded log → log.addRet call op thread = (.ok ret, after) → Recorded after

structure Log.Complete [Operation Op] (log : Log Op) : Prop where
  recorded : log.Recorded
  matched : ∀ e ∈ log.entries, e.matched.isSome

namespace History

def Complete [Operation Op] (h : History Op) : Prop :=
  ∃ log : Log Op, log.Complete ∧ log.info = .ok h

/-! ## Orders of calls -/

def callRefs (h : History Op) : List Nat := (h.toList.filter fun (_, e) => e.isCall).map (·.1)

def halves? (h : History Op) (call : Nat) : Option (Op × Op) := do
  let c ← h.entries[call]?
  let r ← h.entries[← c.matched]?
  return (c.op, r.op)

/-- The return of `a` was recorded before the call `b`. -/
def Precedes (h : History Op) (a b : Nat) : Prop :=
  ∃ c ret, h.entries[a]? = some c ∧ c.matched = some ret ∧ ret < b

variable {State : Type} [Specification State Op]

/-- The state after some calls, one after another, if the specification accepts them all. -/
def replay? (h : History Op) (s : State) : (order : List Nat) → Option State
  | [] => some s
  | call :: order => do
    let (c, r) ← h.halves? call
    let effect := Specification.apply s c r
    if effect.accepted then h.replay? effect.next order else none

structure IsLinearization (State : Type) [Specification State Op] (h : History Op)
    (order : List Nat) : Prop where
  perm : order.Perm h.callRefs
  realTime : order.Pairwise fun a b => ¬ h.Precedes b a
  accepted : (h.replay? (Specification.init : State) order).isSome

def Linearizable (State : Type) [Specification State Op] (h : History Op) : Prop :=
  ∃ order, h.IsLinearization State order

/-! ## Replays in parts -/

theorem replay?_append (h : History Op) (s : State) (first second : List Nat) :
    h.replay? s (first ++ second) = (h.replay? s first).bind (h.replay? · second) := by
  induction first generalizing s with
  | nil => rfl
  | cons call first ih =>
    simp only [List.cons_append, replay?]
    cases h.halves? call with
    | none => rfl
    | some ops =>
      simp only [Option.bind_eq_bind, Option.bind_some]
      split
      · exact ih _
      · rfl

end History

end Linearizability
