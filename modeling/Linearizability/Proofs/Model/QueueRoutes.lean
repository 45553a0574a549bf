import Linearizability.Proofs.Model.Contents
import Linearizability.Proofs.Model.Queue

/-!
# Queues and the routes to them

A queue is reached by enqueues and dequeues. Its hash is updated at every
step, and no more than one term is added to it or taken out. All the same it
depends on the values alone: a queue that has been through many values is
equal to one that never held any others.
-/

namespace Linearizability.Queue

open Contents

variable {capacity : Nat}

def ofList (values : List UInt8) : Queue capacity := ⟨values, hashOf values⟩

def act (q : Queue capacity) : Step → Except Fault (Queue capacity)
  | .add value => q.enqueue value
  | .remove => q.dequeue

def run (capacity : Nat) (steps : List Step) : Except Fault (Queue capacity) :=
  steps.foldlM act empty

/-- The comparison of two queues when it is known whether they have their values in one place. -/
def same (shared : Bool) (q r : Queue capacity) : Bool := shared || q == r

theorem enqueue_ofList (values : List UInt8) (value : UInt8) :
    (ofList values : Queue capacity).enqueue value =
      if values.length = capacity then .error (.enqueueOntoFull capacity)
      else .ok (ofList (values ++ [value])) := by
  simp [enqueue, isFull, size, ofList, hashOf_snoc, hashBase, weight]

theorem dequeue_ofList_cons (value : UInt8) {values : List UInt8} (h : values.length < 2 ^ 32) :
    (ofList (value :: values) : Queue capacity).dequeue = .ok (ofList values) := by
  have hdegree : min values.length (UInt32.size - 1) = values.length :=
    Nat.min_eq_left (Nat.le_sub_one_of_lt h)
  have hhash := hashOf_cons_sub value values
  rw [← hdegree] at hhash
  exact congrArg (fun hash => Except.ok (Queue.mk values hash)) hhash

theorem toOption_act_ofList (hcapacity : capacity ≤ 2 ^ 32) {values : List UInt8}
    (hv : values.length ≤ capacity) (step : Step) :
    ((ofList values : Queue capacity).act step).toOption =
      (Discipline.fifo.next? capacity values step).map ofList := by
  cases step with
  | add value =>
    rw [act, enqueue_ofList, Discipline.next?_add hv]
    split <;> rfl
  | remove =>
    cases values with
    | nil => rfl
    | cons first rest =>
      rw [act, dequeue_ofList_cons first (Nat.lt_of_lt_of_le hv hcapacity)]
      rfl

theorem toOption_run (hcapacity : capacity ≤ 2 ^ 32) (steps : List Step) :
    (run capacity steps).toOption = (Discipline.fifo.after? capacity steps).map ofList := by
  induction steps using List.reverseRecOn with
  | nil => rfl
  | append_singleton steps step ih =>
    have hsnoc : run capacity (steps ++ [step]) = (run capacity steps).bind (act · step) := by
      simp only [run, List.foldlM_append, List.foldlM_cons, List.foldlM_nil, bind_pure]
      rfl
    rw [hsnoc, toOption_bind, ih, Discipline.after?_snoc]
    cases hvalues : Discipline.fifo.after? capacity steps with
    | none => rfl
    | some values =>
      exact toOption_act_ofList hcapacity (Discipline.length_le_of_after? hvalues) step

theorem run_eq_ok_iff (hcapacity : capacity ≤ 2 ^ 32) {steps : List Step} {q : Queue capacity} :
    run capacity steps = .ok q ↔
      ∃ values, Discipline.fifo.after? capacity steps = some values ∧ q = ofList values := by
  rw [← toOption_eq_some_iff, toOption_run hcapacity, Option.map_eq_some_iff]
  simp only [eq_comm]

theorem same_ofList_iff {shared : Bool} {values values' : List UInt8}
    (hshared : shared = true → values = values') :
    (ofList values : Queue capacity).same shared (ofList values') = true ↔ values = values' := by
  rw [same, Bool.or_eq_true, beq_iff_eq]
  constructor
  · rintro (hone | hequal)
    · exact hshared hone
    · exact congrArg Queue.values hequal
  · rintro rfl
    exact .inr rfl

/-- As long as the degree of the hash fits into 32 bits, the queue after some steps holds the
values of a list that is used first in, first out, and its hash is their polynomial. It is there
exactly if the steps are allowed. By whatever routes two queues were reached, they are equal
exactly if they hold the same values, and then they have the same hash. -/
theorem routes_spec {capacity : Nat} (hcapacity : capacity ≤ 2 ^ 32) :
    (∀ steps values, Discipline.fifo.after? capacity steps = some values →
      ∃ q, run capacity steps = .ok q ∧ q.toList = values ∧ values.length ≤ capacity ∧
        (Hashable.hash q).toNat = polynomial values % 2 ^ 64) ∧
    (∀ steps, Discipline.fifo.after? capacity steps = none →
      ∃ f, run capacity steps = .error f) ∧
    ∀ steps steps' (q r : Queue capacity),
      run capacity steps = .ok q → run capacity steps' = .ok r →
      ∀ shared : Bool, (shared = true → q.toList = r.toList) →
        (q.same shared r = true ↔ q.toList = r.toList) ∧ q.same shared r = (q == r) ∧
        (q.same shared r = true → Hashable.hash q = Hashable.hash r) := by
  refine ⟨?_, ?_, ?_⟩
  · intro steps values hvalues
    refine ⟨ofList values, (run_eq_ok_iff hcapacity).mpr ⟨values, hvalues, rfl⟩, rfl, ?_, ?_⟩
    · exact Discipline.length_le_of_after? hvalues
    · exact toNat_hashOf values
  · intro steps hnone
    cases hq : run capacity steps with
    | error f => exact ⟨f, rfl⟩
    | ok q =>
      obtain ⟨values, hvalues, _⟩ := (run_eq_ok_iff hcapacity).mp hq
      cases hnone.symm.trans hvalues
  · intro steps steps' q r hq hr shared hshared
    obtain ⟨values, _, rfl⟩ := (run_eq_ok_iff hcapacity).mp hq
    obtain ⟨values', _, rfl⟩ := (run_eq_ok_iff hcapacity).mp hr
    have hiff : same shared (ofList values : Queue capacity) (ofList values') = true ↔
        values = values' := same_ofList_iff hshared
    have hbeq : same false (ofList values : Queue capacity) (ofList values') = true ↔
        values = values' := same_ofList_iff fun h => by cases h
    refine ⟨hiff, Bool.eq_iff_iff.mpr (hiff.trans hbeq.symm), fun hsame => ?_⟩
    exact congrArg hashOf (hiff.mp hsame)

/-- Fifteen values, so that the power of the first one has wrapped. -/
def direct : List Step := (List.range 15).map fun i => .add (.ofNat i)

def detour : List Step := .add 255 :: direct ++ [.remove]

theorem routes_spec_detour :
    16 ≤ 2 ^ 32 ∧ ∃ q r : Queue 16, run 16 detour = .ok q ∧ run 16 direct = .ok r ∧
      q.same false r = true ∧ Hashable.hash q = Hashable.hash r := by
  obtain ⟨hok, _, hsame⟩ := @routes_spec 16 (by decide)
  obtain ⟨q, hq, hvalues, _⟩ := hok detour _ rfl
  obtain ⟨r, hr, hvalues', _⟩ := hok direct _ rfl
  obtain ⟨hiff, _, hhash⟩ := hsame detour direct q r hq hr false (fun h => by cases h)
  have hequal := hiff.mpr (hvalues.trans hvalues'.symm)
  exact ⟨by decide, q, r, hq, hr, hequal, hhash hequal⟩

end Linearizability.Queue
