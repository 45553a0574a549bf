import Linearizability.Bitset.Lemmas
import Linearizability.Model.ByteSet

/-!
# What an operation on a byte set depends on

An operation on a value asks for that value alone and changes no other one.
Blocks that a set has grown show in equality and nowhere else.
-/

namespace Linearizability

deriving instance ReflBEq, LawfulBEq for ByteSet

namespace ByteSet

instance : LawfulSpecification ByteSet := .of_lawfulBEq

/-! ## The key of an operation -/

def Op.keyOf (call ret : Op) : Option Nat := (Operation.key ret).or (Operation.key call)

def Op.accepts (present : Bool) : (call ret : Op) → Bool
  | .contains _, .ret r | .erase _, .ret r => present == r
  | .insert _, .ret r => (!present) == r
  | _, _ => false

/-- Whether the value of an operation is there afterwards, if the operation writes it. -/
def Op.written? : (call ret : Op) → Option Bool
  | .insert _, .ret _ => some true
  | .erase _, .ret _ => some false
  | _, _ => none

def write (s : ByteSet) (value : Nat) : (change : Option Bool) → ByteSet
  | none => s
  | some on => ⟨(if on then s.members.insert value else s.members.erase value).2⟩

theorem contains_write (s : ByteSet) (value : Nat) (change : Option Bool) (q : Nat) :
    (s.write value change).members.contains q =
      if value = q then change.getD (s.members.contains q) else s.members.contains q := by
  cases change with
  | none => exact (ite_self _).symm
  | some on =>
    cases on with
    | true =>
      show (s.members.insert value).2.contains q = _
      rw [GrowingBitset.contains_insert]
      by_cases hq : value = q <;> simp [hq]
    | false =>
      show (s.members.erase value).2.contains q = _
      rw [GrowingBitset.contains_erase]
      by_cases hq : value = q <;> simp [hq]

theorem apply_eq_write (s : ByteSet) {call : Op} {value : Nat}
    (hcall : Operation.key call = some value) (ret : Op) :
    Specification.apply s call ret =
      ⟨Op.accepts (s.members.contains value) call ret, s.write value (Op.written? call ret)⟩ := by
  cases call with
  | empty | ret => cases hcall
  | contains v =>
    cases hcall
    cases ret <;> rfl
  | insert v =>
    cases hcall
    cases ret with
    | ret r => exact congrArg (Effect.mk · _) (congrArg (· == r) (GrowingBitset.insert_fst _ _))
    | empty | contains | insert | erase => rfl
  | erase v =>
    cases hcall
    cases ret with
    | ret r => exact congrArg (Effect.mk · _) (congrArg (· == r) (GrowingBitset.erase_fst _ _))
    | empty | contains | insert | erase => rfl

def Op.outcome? (present : Bool) : (call ret : Op) → Option Bool
  | .contains _, .ret r => if present = r then some present else none
  | .insert _, .ret r => if (!present) = r then some true else none
  | .erase _, .ret r => if present = r then some false else none
  | _, _ => none

theorem Op.outcome?_eq (present : Bool) (call ret : Op) :
    outcome? present call ret =
      if accepts present call ret then some ((written? call ret).getD present) else none := by
  cases call <;> cases ret <;> simp [outcome?, accepts, written?]

/-- Only the presence of its value decides over an operation, and only that may change. -/
theorem apply_spec (s : ByteSet) {call ret : Op} {v : Nat} (hk : Op.keyOf call ret = some v) :
    (Op.outcome? (s.members.contains v) call ret = none ∧
      (Specification.apply s call ret).accepted = false) ∨
    ∃ present, Op.outcome? (s.members.contains v) call ret = some present ∧
      (Specification.apply s call ret).accepted = true ∧
      ∀ q, (Specification.apply s call ret).next.members.contains q =
        if q = v then present else s.members.contains q := by
  cases ret with
  | empty | contains | insert | erase => exact .inl ⟨by cases call <;> rfl, by cases call <;> rfl⟩
  | ret r =>
    have hcall : Operation.key call = some v := hk
    rw [apply_eq_write s hcall, Op.outcome?_eq]
    cases Op.accepts (s.members.contains v) call (.ret r) with
    | false => exact .inl ⟨rfl, rfl⟩
    | true =>
      refine .inr ⟨_, rfl, rfl, fun q => ?_⟩
      rw [contains_write]
      by_cases hq : v = q
      · rw [if_pos hq, if_pos hq.symm, hq]
      · rw [if_neg hq, if_neg (Ne.symm hq)]

/-! ## Sets that agree on a part -/

def Agree (count part : Nat) (s t : ByteSet) : Prop :=
  ∀ q, q % count = part → s.members.contains q = t.members.contains q

theorem Agree.refl (count part : Nat) (s : ByteSet) : Agree count part s s := fun _ _ => rfl

theorem Agree.apply {count : Nat} {s t : ByteSet} {call ret : Op} {v : Nat}
    (hk : Op.keyOf call ret = some v) (ha : Agree count (v % count) s t)
    (hs : (Specification.apply s call ret).accepted = true) :
    (Specification.apply t call ret).accepted = true ∧
      Agree count (v % count) (Specification.apply s call ret).next
        (Specification.apply t call ret).next := by
  have hv := ha v rfl
  rcases apply_spec s hk with ⟨_, hrej⟩ | ⟨present, ho, _, hnext⟩
  · rw [hs] at hrej
    cases hrej
  rcases apply_spec t hk with ⟨ho', _⟩ | ⟨present', ho', hacc, hnext'⟩
  · rw [← hv, ho] at ho'
    cases ho'
  rw [← hv, ho] at ho'
  cases ho'
  refine ⟨hacc, fun q hq => ?_⟩
  rw [hnext q, hnext' q]
  split
  · rfl
  · exact ha q hq

theorem Agree.apply_other {count part : Nat} {s t : ByteSet} {call ret : Op} {v : Nat}
    (hk : Op.keyOf call ret = some v) (ha : Agree count part s t) (hp : v % count ≠ part)
    (hs : (Specification.apply s call ret).accepted = true) :
    Agree count part (Specification.apply s call ret).next t := by
  rcases apply_spec s hk with ⟨_, hrej⟩ | ⟨_, _, _, hnext⟩
  · rw [hs] at hrej
    cases hrej
  intro q hq
  have hne : q ≠ v := by
    rintro rfl
    exact hp hq
  rw [hnext q, if_neg hne]
  exact ha q hq

end ByteSet

end Linearizability
