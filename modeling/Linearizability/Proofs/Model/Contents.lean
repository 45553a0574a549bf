import Linearizability.Fault
import Mathlib.Algebra.BigOperators.Fin
import Mathlib.Data.List.Induction
import Mathlib.Tactic.Ring

/-!
# Contents of bounded containers

A bounded container holds a list of values. It takes the first one away, and
it puts a new one in front of them or behind them. The hash of a container is
the polynomial of its values plus one, at 31, in 64 bits. As a number it has
no wrapping, so a term that was put in can be taken out again.
-/

namespace Linearizability.Contents

theorem toOption_eq_some_iff {α : Type} {x : Except Fault α} {a : α} :
    x.toOption = some a ↔ x = .ok a := by
  cases x <;> simp [Except.toOption]

theorem toOption_bind {α β : Type} (x : Except Fault α) (f : α → Except Fault β) :
    (x.bind f).toOption = x.toOption.bind fun a => (f a).toOption := by
  cases x <;> rfl

inductive Step where
  | add (value : UInt8)
  | remove

inductive Discipline where
  | lifo
  | fifo

namespace Discipline

def add : Discipline → List UInt8 → UInt8 → List UInt8
  | lifo, values, value => value :: values
  | fifo, values, value => values ++ [value]

def next? (d : Discipline) (capacity : Nat) (values : List UInt8) : Step → Option (List UInt8)
  | .add value => if values.length < capacity then some (d.add values value) else none
  | .remove => values.tail?

def after? (d : Discipline) (capacity : Nat) (steps : List Step) : Option (List UInt8) :=
  steps.foldlM (d.next? capacity) []

variable {d : Discipline} {capacity : Nat}

theorem length_add (d : Discipline) (values : List UInt8) (value : UInt8) :
    (d.add values value).length = values.length + 1 := by
  cases d with
  | lifo => rfl
  | fifo => exact List.length_append

theorem next?_add {values : List UInt8} (hv : values.length ≤ capacity) (value : UInt8) :
    d.next? capacity values (.add value) =
      if values.length = capacity then none else some (d.add values value) := by
  rw [next?]
  split
  · rw [if_neg (by omega)]
  · rw [if_pos (by omega)]

theorem length_le_of_next? {values next : List UInt8} {step : Step}
    (hv : values.length ≤ capacity) (h : d.next? capacity values step = some next) :
    next.length ≤ capacity := by
  cases step with
  | add value =>
    obtain ⟨hroom, hnext⟩ := Option.ite_none_right_eq_some.mp h
    cases hnext
    rw [length_add]
    exact hroom
  | remove =>
    cases values with
    | nil => cases h
    | cons first rest =>
      cases h
      exact Nat.le_of_succ_le hv

theorem after?_snoc (d : Discipline) (capacity : Nat) (steps : List Step) (step : Step) :
    d.after? capacity (steps ++ [step]) =
      (d.after? capacity steps).bind (d.next? capacity · step) := by
  simp only [after?, List.foldlM_append, List.foldlM_cons, List.foldlM_nil, bind_pure]
  rfl

theorem length_le_of_after? {steps : List Step} {values : List UInt8}
    (h : d.after? capacity steps = some values) : values.length ≤ capacity := by
  induction steps using List.reverseRecOn generalizing values with
  | nil =>
    cases h
    exact Nat.zero_le capacity
  | append_singleton steps step ih =>
    rw [after?_snoc] at h
    obtain ⟨before, hbefore, hstep⟩ := Option.bind_eq_some_iff.mp h
    exact length_le_of_next? (ih hbefore) hstep

end Discipline

/-! ## The polynomial of the values -/

/-- The first value has the highest power. -/
def polynomial (values : List UInt8) : Nat :=
  ∑ i : Fin values.length, (values[i].toNat + 1) * 31 ^ (values.length - 1 - i)

theorem polynomial_nil : polynomial [] = 0 := rfl

theorem polynomial_cons (value : UInt8) (values : List UInt8) :
    polynomial (value :: values) = (value.toNat + 1) * 31 ^ values.length + polynomial values := by
  have hsplit := Fin.sum_univ_succ fun i : Fin (values.length + 1) =>
    ((value :: values)[i].toNat + 1) * 31 ^ (values.length - i)
  refine hsplit.trans (congrArg₂ (· + ·) rfl (Finset.sum_congr rfl fun i _ => ?_))
  have hpower : values.length - (i.val + 1) = values.length - 1 - i.val := by omega
  simp [hpower]

theorem polynomial_snoc (values : List UInt8) (value : UInt8) :
    polynomial (values ++ [value]) = polynomial values * 31 + (value.toNat + 1) := by
  induction values with
  | nil => simp [polynomial_cons, polynomial_nil]
  | cons first values ih =>
    rw [List.cons_append, polynomial_cons, ih, polynomial_cons, List.length_append,
      List.length_singleton]
    ring

def hashOf (values : List UInt8) : UInt64 := .ofNat (polynomial values)

theorem toNat_hashOf (values : List UInt8) : (hashOf values).toNat = polynomial values % 2 ^ 64 :=
  UInt64.toNat_ofNat'

theorem weight_eq (value : UInt8) : value.toUInt64 + 1 = UInt64.ofNat (value.toNat + 1) := by
  rw [UInt64.ofNat_add, UInt64.ofNat_uInt8ToNat]
  rfl

theorem hashOf_snoc (values : List UInt8) (value : UInt8) :
    hashOf (values ++ [value]) = hashOf values * 31 + (value.toUInt64 + 1) := by
  rw [hashOf, polynomial_snoc, UInt64.ofNat_add, UInt64.ofNat_mul, ← weight_eq]
  rfl

theorem pow_eq (n : Nat) : UInt64.pow 31 n = UInt64.ofNat (31 ^ n) := by
  induction n with
  | zero => rfl
  | succ n ih =>
    rw [pow_succ, UInt64.ofNat_mul, ← ih]
    rfl

/-- The first term can be taken out again, although each part of it has wrapped. -/
theorem hashOf_cons_sub (value : UInt8) (values : List UInt8) :
    hashOf (value :: values) - (value.toUInt64 + 1) * UInt64.pow 31 values.length =
      hashOf values := by
  rw [weight_eq, pow_eq, ← UInt64.ofNat_mul, hashOf, polynomial_cons, Nat.add_comm,
    UInt64.ofNat_add, UInt64.add_sub_cancel]
  rfl

end Linearizability.Contents
