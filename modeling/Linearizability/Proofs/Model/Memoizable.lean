import Linearizability.Proofs.Model.ByteSet
import Linearizability.Proofs.Model.QueueRoutes
import Linearizability.Proofs.Model.Register
import Linearizability.Proofs.Model.Stack

/-!
# What a memo relies on

A memo takes equal states for one. That is safe when equality is an
equivalence, when equal states have equal hashes and answer every operation
alike, and when no operation faults on them. Operations are asked for in
search of an order, so this has to hold after refused ones as well, and for
calls and returns that stand in each other's place.

Equality compares little where it can. It takes two stacks for equal at a
node that both have, and two queues if they have their values in one place,
which is so only for copies of one queue. The answer is the same without.
-/

namespace Linearizability

namespace Specification

variable {State Op : Type} [Specification State Op]

inductive Reachable : State → Prop where
  | init : Reachable init
  | apply {s : State} (call ret : Op) :
    Reachable s → Reachable (Specification.apply s call ret).next

/-- Equal states can stand for each other. `attempt` is `apply` with the faults of what it does. -/
structure Memoizable (State : Type) {Op : Type} [Specification State Op]
    (attempt : State → (call ret : Op) → Except Fault (Effect State)) : Prop where
  equivalence : Equivalence fun s t : { s : State // Reachable s } => (s.1 == t.1) = true
  hash_eq {s t : State} : Reachable s → Reachable t → (s == t) = true → hash s = hash t
  accepted_eq {s t : State} : Reachable s → Reachable t → (s == t) = true → ∀ call ret,
    (Specification.apply s call ret).accepted = (Specification.apply t call ret).accepted
  next_beq {s t : State} : Reachable s → Reachable t → (s == t) = true → ∀ call ret,
    ((Specification.apply s call ret).next == (Specification.apply t call ret).next) = true
  attempt_eq {s : State} : Reachable s → ∀ call ret,
    attempt s call ret = .ok (Specification.apply s call ret)

theorem Memoizable.of_lawfulBEq [LawfulBEq State]
    {attempt : State → (call ret : Op) → Except Fault (Effect State)}
    (hattempt : ∀ s call ret, attempt s call ret = .ok (Specification.apply s call ret)) :
    Memoizable State attempt where
  equivalence := ⟨fun s => beq_self_eq_true s.1, fun h => BEq.symm h, fun h h' => BEq.trans h h'⟩
  hash_eq _ _ h := by rw [eq_of_beq h]
  accepted_eq _ _ h _ _ := by rw [eq_of_beq h]
  next_beq _ _ h _ _ := by rw [eq_of_beq h]; exact beq_self_eq_true _
  attempt_eq _ call ret := hattempt _ call ret

end Specification

open Specification

/-! ## Operations and their faults -/

/-- A set first makes room for a value. Its bits are written with the check for a place that does
not exist. -/
def ByteSet.attempt (s : ByteSet) : (call ret : Op) → Except Fault (Effect ByteSet)
  | .empty, .ret r => .ok ⟨s.isEmpty == r, s⟩
  | .contains v, .ret r => .ok ⟨s.contains v == r, s⟩
  | .insert v, .ret r => do
    let (changed, bits) ← (s.members.bits.grow v.toNat).set v.toNat
    return ⟨changed == r, ⟨⟨bits⟩⟩⟩
  | .erase v, .ret r => do
    let (changed, bits) ← (s.members.bits.grow v.toNat).reset v.toNat
    return ⟨changed == r, ⟨⟨bits⟩⟩⟩
  | _, _ => .ok ⟨false, s⟩

theorem ByteSet.attempt_eq (s : ByteSet) (call ret : Op) :
    s.attempt call ret = .ok (Specification.apply s call ret) := by
  cases ret with
  | empty | contains | insert | erase => cases call <;> rfl
  | ret r =>
    cases call with
    | empty | contains | ret => rfl
    | insert v =>
      rw [attempt, Bitset.set, dif_pos (s.members.bits.blockIndex_lt_size_grow v.toNat)]
      rfl
    | erase v =>
      rw [attempt, Bitset.reset, dif_pos (s.members.bits.blockIndex_lt_size_grow v.toNat)]
      rfl

variable {capacity : Nat}

def Stack.attempt (s : Stack capacity) : (call ret : Op) → Except Fault (Effect (Stack capacity))
  | .push v, .pushRet pushed =>
    if s.isFull then .ok ⟨!pushed, s⟩ else do return ⟨pushed, ← s.push v⟩
  | .pop, .popRet popped =>
    match s.peek with
    | none => .ok ⟨popped.isNone, s⟩
    | some top => do return ⟨popped == some top, ← s.pop⟩
  | _, _ => .ok ⟨false, s⟩

theorem Stack.attempt_eq (s : Stack capacity) (call ret : Op) :
    s.attempt call ret = .ok (Specification.apply s call ret) := by
  cases call with
  | pushRet | popRet => cases ret <;> rfl
  | push v =>
    cases ret with
    | pushRet pushed =>
      show _ = Except.ok (s.apply _ _)
      rw [attempt, apply, push]
      cases s.isFull <;> rfl
    | push | pop | popRet => rfl
  | pop =>
    cases ret with
    | popRet popped =>
      obtain ⟨top⟩ := s
      cases top <;> rfl
    | push | pop | pushRet => rfl

def Queue.attempt (q : Queue capacity) : (call ret : Op) → Except Fault (Effect (Queue capacity))
  | .enqueue v, .enqueueRet enqueued =>
    if q.isFull then .ok ⟨!enqueued, q⟩ else do return ⟨enqueued, ← q.enqueue v⟩
  | .dequeue, .dequeueRet dequeued =>
    match q.front with
    | none => .ok ⟨dequeued.isNone, q⟩
    | some front => do return ⟨dequeued == some front, ← q.dequeue⟩
  | _, _ => .ok ⟨false, q⟩

theorem Queue.attempt_eq (q : Queue capacity) (call ret : Op) :
    q.attempt call ret = .ok (Specification.apply q call ret) := by
  cases call with
  | enqueueRet | dequeueRet => cases ret <;> rfl
  | enqueue v =>
    cases ret with
    | enqueueRet enqueued =>
      show _ = Except.ok (q.apply _ _)
      rw [attempt, apply, enqueue]
      cases q.isFull <;> rfl
    | enqueue | dequeue | dequeueRet => rfl
  | dequeue =>
    cases ret with
    | dequeueRet dequeued =>
      obtain ⟨values, hash⟩ := q
      cases values <;> rfl
    | enqueue | dequeue | enqueueRet => rfl

/-! ## The models -/

theorem Stack.agree_eq_beq {s t : Stack capacity} {shared : Chain → Chain → Bool}
    (hshared : ∀ c ∈ s.top.tails, ∀ d ∈ t.top.tails, shared c d = true → c = d) :
    s.top.agree shared t.top = (s == t) :=
  Bool.eq_iff_iff.mpr ((Chain.agree_iff_eq hshared).trans (beq_iff_top_eq s t).symm)

theorem Queue.same_eq_beq {q r : Queue capacity} {shared : Bool} (hshared : shared = true → q = r) :
    q.same shared r = (q == r) := by
  cases shared with
  | false => rfl
  | true => exact (beq_iff_eq.mpr (hshared rfl)).symm

/-- In every model, equal states can stand for each other, and no operation faults. (A register
does nothing that could.) A node that two stacks share, or values that two queues share, do not
change whether they are equal. -/
theorem models_memoizable :
    Memoizable ByteSet ByteSet.attempt ∧
    Memoizable Register (fun r call ret => .ok (r.apply call ret)) ∧
    (∀ capacity, Memoizable (Stack capacity) Stack.attempt) ∧
    (∀ capacity, Memoizable (Queue capacity) Queue.attempt) ∧
    (∀ capacity (s t : Stack capacity) (shared : Chain → Chain → Bool),
      (∀ c ∈ s.top.tails, ∀ d ∈ t.top.tails, shared c d = true → c = d) →
        s.top.agree shared t.top = (s == t)) ∧
    ∀ capacity (q r : Queue capacity) (shared : Bool), (shared = true → q = r) →
      q.same shared r = (q == r) :=
  ⟨.of_lawfulBEq ByteSet.attempt_eq, .of_lawfulBEq fun _ _ _ => rfl,
    fun _ => .of_lawfulBEq Stack.attempt_eq, fun _ => .of_lawfulBEq Queue.attempt_eq,
    fun _ _ _ _ => Stack.agree_eq_beq, fun _ _ _ _ => Queue.same_eq_beq⟩

theorem models_memoizable_refused :
    let s := (Specification.apply (init : Stack 2) (.push 7) (.pushRet false)).next
    let t := (Specification.apply (init : Stack 2) (.push 7) (.pushRet true)).next
    Reachable s ∧ Reachable t ∧ (s == t) = true ∧ hash s = hash t ∧
      s.top.agree (fun _ _ => true) t.top = (s == t) := by
  intro s t
  obtain ⟨_, _, hstack, _, hshared, _⟩ := models_memoizable
  have hs : Reachable s := .apply _ _ .init
  have ht : Reachable t := .apply _ _ .init
  have hequal : (s == t) = true := rfl
  refine ⟨hs, ht, hequal, (hstack 2).hash_eq hs ht hequal, hshared 2 s t _ fun c hc d hd _ => ?_⟩
  exact (List.mem_singleton.mp hc).trans (List.mem_singleton.mp hd).symm

end Linearizability
