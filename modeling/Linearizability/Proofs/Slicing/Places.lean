import Linearizability.Proofs.History.Complete

/-!
# Places in a sub-history

Every entry of a history belongs to one part, and so does its other half. Its
place in the sub-history of that part is the number of entries of the part
before it.
-/

namespace Linearizability

/-! ## Places -/

def countPart (part : Nat → Nat) (p k : Nat) : Nat := (List.range k).countP (part · = p)

def place (part : Nat → Nat) (i : Nat) : Nat := countPart part (part i) i

section

variable {part : Nat → Nat} {p i j k : Nat}

theorem countPart_succ (part : Nat → Nat) (p k : Nat) :
    countPart part p (k + 1) = countPart part p k + if part k = p then 1 else 0 := by
  rw [countPart, List.range_succ, List.countP_append, List.countP_singleton]
  simp [countPart]

theorem countPart_mono (part : Nat → Nat) (p : Nat) (h : i ≤ k) :
    countPart part p i ≤ countPart part p k := by
  induction h with
  | refl => exact Nat.le_refl _
  | step _ ih => rw [countPart_succ]; omega

theorem place_lt (hp : part i = p) (hi : i < k) : place part i < countPart part p k := by
  have hs : countPart part p (i + 1) = countPart part p i + 1 := by rw [countPart_succ, if_pos hp]
  have hm : countPart part p (i + 1) ≤ countPart part p k := countPart_mono part p hi
  rw [place, hp]
  omega

theorem place_lt_place (hp : part i = part j) (hij : i < j) : place part i < place part j :=
  place_lt hp hij

theorem place_lt_place_iff (hp : part i = part j) : place part i < place part j ↔ i < j := by
  constructor
  · intro hlt
    by_contra hle
    rcases Nat.eq_or_lt_of_le (Nat.not_lt.mp hle) with rfl | hgt
    · omega
    · have := place_lt_place hp.symm hgt
      omega
  · exact place_lt_place hp

theorem place_inj (hp : part i = part j) (he : place part i = place part j) : i = j := by
  have hij := place_lt_place_iff hp
  have hji := place_lt_place_iff hp.symm
  omega

theorem exists_place (hj : j < countPart part p k) : ∃ i < k, part i = p ∧ place part i = j := by
  induction k with
  | zero => simp [countPart] at hj
  | succ k ih =>
    by_cases hlt : j < countPart part p k
    · obtain ⟨i, hi, hip⟩ := ih hlt
      exact ⟨i, by omega, hip⟩
    · rw [countPart_succ] at hj
      by_cases hk : part k = p
      · rw [if_pos hk] at hj
        refine ⟨k, by omega, hk, ?_⟩
        rw [place, hk]
        omega
      · rw [if_neg hk] at hj
        omega

end

/-! ## Parts of a history -/

variable {Op : Type}

namespace History

def keyAt (h : History Op) (i : Nat) : Option Nat := h.entries[i]?.bind (·.key)

def partAt (h : History Op) (count i : Nat) : Nat := (h.keyAt i).elim 0 (· % count)

/-- The two halves of an operation belong to one part. -/
def KeepsPairs (h : History Op) (part : Nat → Nat) : Prop :=
  ∀ i < h.entries.size, part (h.mate i) = part i

theorem partAt_lt {h : History Op} {count : Nat} (hpos : 0 < count) (i : Nat) :
    h.partAt count i < count := by
  rw [partAt]
  cases h.keyAt i with
  | none => exact hpos
  | some v => exact Nat.mod_lt v hpos

variable [Operation Op] {h : History Op} (hw : h.WellPaired) {i : Nat} (hi : i < h.entries.size)

include hw hi

theorem WellPaired.keyAt_mate : h.keyAt (h.mate i) = h.keyAt i := by
  obtain ⟨e, f, he, hf, _, hh⟩ := hw.exists_halves hi
  rw [keyAt, keyAt, he, hf]
  rcases hh with hh | hh <;> simp [hh.retKey]

omit hi in
theorem WellPaired.keepsPairs_partAt (count : Nat) : h.KeepsPairs (h.partAt count) := by
  intro i hi
  rw [partAt, partAt, hw.keyAt_mate hi]

end History

end Linearizability
