import Linearizability.Experiment.Container
import Linearizability.Proofs.Experiment.Refinement

/-!
# Bounded queues as lists

Queues are equal exactly when their values and their hashes are. The shared
queue keeps its values in two lists, and it answers as the specification does
when the front and the reversed back together are the values of the queue.
-/

namespace Linearizability

namespace Queue

variable {capacity : Nat}

instance : LawfulBEq (Queue capacity) where
  rfl {q} := by
    show (q.hash == q.hash && q.values == q.values) = true
    simp
  eq_of_beq {q r} h := by
    have h : (q.hash == r.hash && q.values == r.values) = true := h
    obtain ⟨hhash, hvalues⟩ := Bool.and_eq_true_iff.mp h
    cases q
    cases r
    cases eq_of_beq hhash
    cases eq_of_beq hvalues
    rfl

instance : LawfulSpecification (Queue capacity) := .of_lawfulBEq

theorem accepted_enqueue_iff {q : Queue capacity} {value : UInt8} {ret : Op} :
    (q.apply (.enqueue value) ret).accepted = true ↔ ret = .enqueueRet (!q.isFull) := by
  cases ret with
  | enqueueRet enqueued =>
    rw [apply, enqueue]
    cases q.isFull <;> simp
  | enqueue | dequeue | dequeueRet => simp [apply]

theorem accepted_dequeue_iff {q : Queue capacity} {ret : Op} :
    (q.apply .dequeue ret).accepted = true ↔ ret = .dequeueRet q.front := by
  cases ret with
  | dequeueRet dequeued =>
    rw [apply, dequeue, front]
    cases q.values <;> simp
  | enqueue | dequeue | enqueueRet => simp [apply]

theorem singleReturn (capacity : Nat) : SingleReturn (Queue capacity) := by
  intro q call ret ret' h h'
  cases call with
  | enqueue value => exact (accepted_enqueue_iff.mp h).trans (accepted_enqueue_iff.mp h').symm
  | dequeue => exact (accepted_dequeue_iff.mp h).trans (accepted_dequeue_iff.mp h').symm
  | enqueueRet | dequeueRet => cases h

end Queue

/-! ## The shared queue -/

namespace BoundedQueue

variable {capacity : Nat}

/-- Oldest first. -/
def toList (b : BoundedQueue) : List UInt8 := b.front ++ b.back.reverse

structure Shows (b : BoundedQueue) (q : Queue capacity) : Prop where
  capacity : b.capacity = capacity
  size : b.size = b.toList.length
  values : q.values = b.toList

theorem shows_ofCapacity (capacity : Nat) :
    (ofCapacity capacity).Shows (Specification.init : Queue capacity) := ⟨rfl, rfl, rfl⟩

theorem Shows.isFull {b : BoundedQueue} {q : Queue capacity} (hs : b.Shows q) :
    q.isFull = decide (b.size = b.capacity) := by
  rw [Queue.isFull, Queue.size, hs.values, ← hs.size, hs.capacity]
  rfl

theorem Shows.tryEnqueue_full {b : BoundedQueue} {q : Queue capacity} (hs : b.Shows q)
    (value : UInt8) (hfull : b.size = b.capacity) :
    q.enqueue value = .error (.enqueueOntoFull capacity) ∧ b.tryEnqueue value = (false, b) := by
  have hq : q.isFull = true := by rw [hs.isFull, decide_eq_true hfull]
  exact ⟨by rw [Queue.enqueue, hq]; rfl, if_pos hfull⟩

theorem Shows.tryEnqueue {b : BoundedQueue} {q : Queue capacity} (hs : b.Shows q) (value : UInt8)
    (hroom : b.size ≠ b.capacity) :
    ∃ next b', q.enqueue value = .ok next ∧ b.tryEnqueue value = (true, b') ∧ b'.Shows next := by
  have hq : q.isFull = false := by rw [hs.isFull, decide_eq_false hroom]
  refine ⟨_, _, by rw [Queue.enqueue, hq]; rfl, if_neg hroom, hs.capacity, ?_, ?_⟩
  · have hsize := hs.size
    simp only [toList, List.reverse_cons, List.length_append, List.length_singleton] at hsize ⊢
    omega
  · simp [toList, hs.values]

theorem Shows.tryDequeue_empty {b : BoundedQueue} {q : Queue capacity} (hs : b.Shows q)
    (hq : q.values = []) : q.dequeue = .error .dequeueFromEmpty ∧ b.tryDequeue = (none, b) := by
  have hempty := hs.values.symm.trans hq
  simp only [toList, List.append_eq_nil_iff] at hempty
  exact ⟨by rw [Queue.dequeue, hq], by simp only [BoundedQueue.tryDequeue, hempty]⟩

theorem Shows.tryDequeue {b : BoundedQueue} {q : Queue capacity} (hs : b.Shows q) {value : UInt8}
    {rest : List UInt8} (hq : q.values = value :: rest) :
    ∃ next b', q.dequeue = .ok next ∧ b.tryDequeue = (some value, b') ∧ b'.Shows next := by
  have hvalues := hs.values.symm.trans hq
  have hsize := hs.size
  rw [hvalues, List.length_cons] at hsize
  cases hfront : b.front with
  | cons front others =>
    rw [toList, hfront, List.cons_append, List.cons.injEq] at hvalues
    obtain ⟨rfl, rfl⟩ := hvalues
    refine ⟨_, { b with front := others, size := b.size - 1 }, by rw [Queue.dequeue, hq],
      by simp only [BoundedQueue.tryDequeue, hfront], hs.capacity, ?_, rfl⟩
    show b.size - 1 = _
    rw [hsize]
    rfl
  | nil =>
    rw [toList, hfront, List.nil_append] at hvalues
    refine ⟨_, { b with front := rest, back := [], size := b.size - 1 }, by rw [Queue.dequeue, hq],
      by simp only [BoundedQueue.tryDequeue, hfront, hvalues], hs.capacity, ?_, ?_⟩
    · show b.size - 1 = _
      rw [hsize]
      simp [toList]
    · simp [toList]

theorem refines (capacity : Nat) : Refines (@Shows capacity) := by
  intro b q request hs
  cases request with
  | enqueue v =>
    simp only [SharedObject.perform, SharedObject.call, Specification.apply, Queue.apply]
    by_cases hfull : b.size = b.capacity
    · obtain ⟨hq, hb⟩ := hs.tryEnqueue_full v hfull
      simp only [hb, Prod.map_apply, id, hq]
      exact ⟨rfl, hs⟩
    · obtain ⟨next, b', hq, hb, hs'⟩ := hs.tryEnqueue v hfull
      simp only [hb, Prod.map_apply, id, hq]
      exact ⟨trivial, hs'⟩
  | dequeue =>
    simp only [SharedObject.perform, SharedObject.call, Specification.apply, Queue.apply]
    cases hvalues : q.values with
    | nil =>
      obtain ⟨hq, hb⟩ := hs.tryDequeue_empty hvalues
      simp only [hb, Prod.map_apply, id, hq]
      exact ⟨rfl, hs⟩
    | cons value rest =>
      obtain ⟨next, b', hq, hb, hs'⟩ := hs.tryDequeue hvalues
      have hfront : q.front = some value := by rw [Queue.front, hvalues]; rfl
      simp only [hb, Prod.map_apply, id, hq, hfront]
      exact ⟨beq_self_eq_true (some value), hs'⟩

end BoundedQueue

end Linearizability
