import Linearizability.Experiment.Container
import Linearizability.Proofs.Experiment.Refinement

/-!
# Bounded stacks as chains

A chain whose sizes and hashes are kept is determined by its values, and
stacks are equal exactly when their chains are the same. The shared stack
answers as the specification does when its values, last first, are those of
the chain.
-/

namespace Linearizability

namespace Chain

def ofList (values : List UInt8) : Chain := values.foldr cons nil

@[simp] theorem ofList_nil : ofList [] = nil := rfl

@[simp] theorem ofList_cons (value : UInt8) (values : List UInt8) :
    ofList (value :: values) = (ofList values).cons value := rfl

@[simp] theorem size_ofList (values : List UInt8) : (ofList values).size = values.length := by
  induction values with
  | nil => rfl
  | cons value values ih => rw [ofList_cons, cons, size, ih, List.length_cons]

def tails : Chain → List Chain
  | nil => []
  | node value size hash below => node value size hash below :: below.tails

/-- Whatever nodes are known to be the same ones, two chains agree only if they are equal. -/
theorem agree_iff_eq {shared : Chain → Chain → Bool} {c d : Chain}
    (hshared : ∀ x ∈ c.tails, ∀ y ∈ d.tails, shared x y = true → x = y) :
    c.agree shared d = true ↔ c = d := by
  induction c generalizing d with
  | nil => cases d <;> simp [agree]
  | node v m g c ih =>
    cases d with
    | nil => simp [agree]
    | node w n h d =>
      have hbelow := ih fun x hx y hy =>
        hshared x (List.mem_cons_of_mem _ hx) y (List.mem_cons_of_mem _ hy)
      have htop := hshared _ List.mem_cons_self _ List.mem_cons_self
      have hwalk : (m == n && g == h && v == w && c.agree shared d) = true ↔
          node v m g c = node w n h d := by
        simp [hbelow, and_assoc, and_left_comm]
      rw [agree, Bool.or_eq_true, hwalk]
      exact or_iff_right_of_imp htop

end Chain

namespace Stack

variable {capacity : Nat}

theorem beq_iff_top_eq (s t : Stack capacity) : (s == t) = true ↔ s.top = t.top :=
  Chain.agree_iff_eq fun _ _ _ _ h => by cases h

instance : LawfulBEq (Stack capacity) where
  rfl {s} := (beq_iff_top_eq s s).mpr rfl
  eq_of_beq {s t} h := by
    cases s
    cases t
    exact congrArg Stack.mk ((beq_iff_top_eq _ _).mp h)

instance : LawfulSpecification (Stack capacity) := .of_lawfulBEq

def ofList (values : List UInt8) : Stack capacity := ⟨.ofList values⟩

theorem push_ofList (values : List UInt8) (value : UInt8) :
    (ofList values : Stack capacity).push value =
      if values.length = capacity then .error (.pushOntoFull capacity)
      else .ok (ofList (value :: values)) := by
  simp [push, isFull, size, ofList]

theorem pop_ofList_cons (value : UInt8) (values : List UInt8) :
    (ofList (value :: values) : Stack capacity).pop = .ok (ofList values) := rfl

theorem accepted_push_iff {s : Stack capacity} {value : UInt8} {ret : Op} :
    (s.apply (.push value) ret).accepted = true ↔ ret = .pushRet (!s.isFull) := by
  cases ret with
  | pushRet pushed =>
    rw [apply, push]
    cases s.isFull <;> simp
  | push | pop | popRet => simp [apply]

theorem accepted_pop_iff {s : Stack capacity} {ret : Op} :
    (s.apply .pop ret).accepted = true ↔ ret = .popRet s.peek := by
  cases ret with
  | popRet popped =>
    rw [apply, pop, peek]
    cases s.top <;> simp
  | push | pop | pushRet => simp [apply]

theorem singleReturn (capacity : Nat) : SingleReturn (Stack capacity) := by
  intro s call ret ret' h h'
  cases call with
  | push value => exact (accepted_push_iff.mp h).trans (accepted_push_iff.mp h').symm
  | pop => exact (accepted_pop_iff.mp h).trans (accepted_pop_iff.mp h').symm
  | pushRet | popRet => cases h

end Stack

/-! ## The shared stack -/

namespace BoundedStack

variable {capacity : Nat}

def ofList (capacity : Nat) (values : List UInt8) : BoundedStack :=
  ⟨values.reverse.toArray, capacity⟩

theorem tryPush_ofList (values : List UInt8) (value : UInt8) :
    (ofList capacity values).tryPush value =
      if values.length = capacity then (false, ofList capacity values)
      else (true, ofList capacity (value :: values)) := by
  simp [tryPush, ofList]

theorem tryPop_ofList_cons (value : UInt8) (values : List UInt8) :
    (ofList capacity (value :: values)).tryPop = (some value, ofList capacity values) := by
  simp [tryPop, ofList]

def Shows (b : BoundedStack) (s : Stack capacity) : Prop :=
  ∃ values, b = ofList capacity values ∧ s = .ofList values

theorem shows_ofCapacity (capacity : Nat) :
    (ofCapacity capacity).Shows (Specification.init : Stack capacity) := ⟨[], rfl, rfl⟩

theorem refines (capacity : Nat) : Refines (@Shows capacity) := by
  rintro _ _ request ⟨values, rfl, rfl⟩
  cases request with
  | push v =>
    simp only [SharedObject.perform, SharedObject.call, Specification.apply, Stack.apply,
      tryPush_ofList, Stack.push_ofList]
    by_cases hfull : values.length = capacity
    · simp only [if_pos hfull]
      exact ⟨rfl, values, rfl, rfl⟩
    · simp only [if_neg hfull]
      exact ⟨rfl, v :: values, rfl, rfl⟩
  | pop =>
    cases values with
    | nil => exact ⟨rfl, [], rfl, rfl⟩
    | cons top rest =>
      simp only [SharedObject.perform, SharedObject.call, Specification.apply, Stack.apply,
        tryPop_ofList_cons, Stack.pop_ofList_cons]
      exact ⟨beq_self_eq_true (some top), rest, rfl, rfl⟩

end BoundedStack

end Linearizability
