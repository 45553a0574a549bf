import Linearizability.Proofs.Model.Queue
import Linearizability.Proofs.Model.Stack

/-!
# Verdicts about recorded containers

A bounded stack or a bounded queue, used by any number of workers, is never
accused: what is recorded around its steps passes the check against the
sequential model of the same capacity.
-/

namespace Linearizability.Session

/-- Whatever its workers do and however their steps interleave, a recorder with two slots for each
request never fails them. Once they have finished, the history has every call and its return, and
the check accepts it. -/
theorem recorded_passes (capacity slots : Nat) (schedule : List Nat) :
    (∀ programs : List (List BoundedStack.Request), 2 * programs.flatten.length ≤ slots →
      ∃ s, (start slots (BoundedStack.ofCapacity capacity) programs).run schedule = .ok s ∧
        s.Unwritten ∧ (s.isFinished = true → s.Passes (Stack capacity) programs)) ∧
    (∀ programs : List (List BoundedQueue.Request), 2 * programs.flatten.length ≤ slots →
      ∃ s, (start slots (BoundedQueue.ofCapacity capacity) programs).run schedule = .ok s ∧
        s.Unwritten ∧ (s.isFinished = true → s.Passes (Queue capacity) programs)) :=
  ⟨fun _ hroom => exists_run_passes (BoundedStack.refines capacity)
      (BoundedStack.shows_ofCapacity capacity) hroom schedule,
    fun _ hroom => exists_run_passes (BoundedQueue.refines capacity)
      (BoundedQueue.shows_ofCapacity capacity) hroom schedule⟩

/-- Two workers get in each other's way: the second call overlaps both calls of the first worker. -/
def overlapping : List Nat := [0, 1, 0, 0, 0, 1, 0, 0, 0, 1, 0, 1, 0, 1, 0]

def contendedPushes : List (List BoundedStack.Request) := [[.push 3, .pop], [.push 5]]

def contendedEnqueues : List (List BoundedQueue.Request) := [[.enqueue 3, .dequeue], [.enqueue 5]]

theorem recorded_passes_overlapping :
    (∃ s, (start 6 (BoundedStack.ofCapacity 1) contendedPushes).run overlapping = .ok s ∧
      s.isFinished = true ∧ s.Passes (Stack 1) contendedPushes) ∧
    (∃ s, (start 6 (BoundedQueue.ofCapacity 1) contendedEnqueues).run overlapping = .ok s ∧
      s.isFinished = true ∧ s.Passes (Queue 1) contendedEnqueues) := by
  obtain ⟨hstack, hqueue⟩ := recorded_passes 1 6 overlapping
  constructor
  · obtain ⟨s, hrun, _, hpasses⟩ := hstack contendedPushes (by decide)
    have hfinished : ((start 6 (BoundedStack.ofCapacity 1) contendedPushes).run
        overlapping).toOption.any isFinished = true := by decide +kernel
    rw [hrun] at hfinished
    exact ⟨s, hrun, hfinished, hpasses hfinished⟩
  · obtain ⟨s, hrun, _, hpasses⟩ := hqueue contendedEnqueues (by decide)
    have hfinished : ((start 6 (BoundedQueue.ofCapacity 1) contendedEnqueues).run
        overlapping).toOption.any isFinished = true := by decide +kernel
    rw [hrun] at hfinished
    exact ⟨s, hrun, hfinished, hpasses hfinished⟩

end Linearizability.Session
