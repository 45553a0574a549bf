import Linearizability.Proofs.Bitset.Positions
import Linearizability.Proofs.Model.ByteSet

/-!
# Operations on different values commute

An operation on a value asks whether the value is present, and it may write
it. An insert and an erase write their value also when they are refused, and
they make room for it also when that changes nothing else. So the blocks that
two operations leave are those of the same members, and there are as many of
them in either order.
-/

namespace Linearizability.ByteSet

theorem size_write (s : ByteSet) (value : Nat) (change : Option Bool) :
    (s.write value change).members.bits.blocks.size =
      max s.members.bits.blocks.size (if change.isSome then Bitset.blockIndex value + 1 else 0) := by
  cases change with
  | none => exact (Nat.max_eq_left (Nat.zero_le _)).symm
  | some on =>
    obtain ⟨after, hwrite, hsize, _⟩ := Bitset.exists_write_growing s.members on value
    rw [write, hwrite]
    exact hsize

theorem write_comm (s : ByteSet) {v w : Nat} (hne : v ≠ w) (c d : Option Bool) :
    (s.write v c).write w d = (s.write w d).write v c := by
  have hbits : ((s.write v c).write w d).members.bits = ((s.write w d).write v c).members.bits := by
    apply Bitset.ext_contains
    · simp only [size_write]
      omega
    · intro q
      show ((s.write v c).write w d).members.contains q = ((s.write w d).write v c).members.contains q
      simp only [contains_write]
      by_cases hv : v = q
      · have hw : w ≠ q := fun hw => hne (hv.trans hw.symm)
        simp only [if_neg hw, if_pos hv]
      · simp only [if_neg hv]
  exact congrArg (fun bits => ByteSet.mk ⟨bits⟩) hbits

/-- Two operations with different values are each accepted or refused alike, whichever comes
first, and they leave the same set with as much room in it. -/
theorem apply_comm (s : ByteSet) {a b : Op} {k l : Nat} (ha : Operation.key a = some k)
    (hb : Operation.key b = some l) (hne : k ≠ l) (retA retB : Op) :
    let afterA := Specification.apply s a retA
    let afterB := Specification.apply s b retB
    let afterAB := Specification.apply afterA.next b retB
    let afterBA := Specification.apply afterB.next a retA
    afterBA.accepted = afterA.accepted ∧ afterAB.accepted = afterB.accepted ∧
      (afterAB.next == afterBA.next) = true ∧ hash afterAB.next = hash afterBA.next ∧
      afterAB.next.members.bits.capacity = afterBA.next.members.bits.capacity := by
  intro afterA afterB afterAB afterBA
  -- An operation asks for its own value only, which the other one does not write.
  have hacceptedA : afterBA.accepted = afterA.accepted := by
    simp only [afterBA, afterB, afterA, apply_eq_write _ ha, apply_eq_write _ hb, contains_write,
      if_neg hne.symm]
  have hacceptedB : afterAB.accepted = afterB.accepted := by
    simp only [afterAB, afterA, afterB, apply_eq_write _ ha, apply_eq_write _ hb, contains_write,
      if_neg hne]
  have hnext : afterAB.next = afterBA.next := by
    simp only [afterAB, afterBA, afterA, afterB, apply_eq_write _ ha, apply_eq_write _ hb]
    exact write_comm s hne _ _
  refine ⟨hacceptedA, hacceptedB, ?_, ?_, ?_⟩
  · rw [hnext]
    exact beq_self_eq_true _
  · rw [hnext]
  · rw [hnext]

theorem apply_comm_growing :
    Operation.key (Op.erase 200) = some 200 ∧ Operation.key (Op.insert 70) = some 70 ∧ 200 ≠ 70 ∧
      let erased := Specification.apply empty (.erase 200) (.ret true)
      let inserted := Specification.apply empty (.insert 70) (.ret true)
      let second := Specification.apply erased.next (.insert 70) (.ret true)
      let second' := Specification.apply inserted.next (.erase 200) (.ret true)
      second'.accepted = erased.accepted ∧ second.accepted = inserted.accepted ∧
        (second.next == second'.next) = true ∧ hash second.next = hash second'.next ∧
        second.next.members.bits.capacity = second'.next.members.bits.capacity :=
  ⟨rfl, rfl, by decide, apply_comm empty rfl rfl (by decide) (.ret true) (.ret true)⟩

end Linearizability.ByteSet
