import Linearizability.Bitset.Growing

/-!
# Members of a bitset

A bitset is read through `contains`. Two bitsets with the same number of
blocks and the same members are equal, and equality is exact. Clearing a
bit that was just set gives back the bitset from before.

A write tells whether it changed its own bit, and leaves all others alone.
-/

namespace Linearizability

namespace Bitset

instance : LawfulBEq Bitset where
  rfl {a} := by
    show (a.count == a.count && a.blocks == a.blocks) = true
    simp
  eq_of_beq {a b} h := by
    obtain ⟨blocks, hash, count, hash_eq, count_eq⟩ := a
    obtain ⟨blocks', hash', count', hash_eq', count_eq'⟩ := b
    have hb : blocks = blocks' := by
      have := (Bool.and_eq_true_iff.mp h).2
      exact eq_of_beq this
    subst hb
    simp [hash_eq, count_eq, hash_eq', count_eq']

theorem eq_of_blocks {a b : Bitset} (h : a.blocks = b.blocks) : a = b := by
  obtain ⟨blocks, hash, count, hash_eq, count_eq⟩ := a
  obtain ⟨blocks', hash', count', hash_eq', count_eq'⟩ := b
  cases h
  simp [hash_eq, count_eq, hash_eq', count_eq']

theorem contains_eq (b : Bitset) (pos : Nat) :
    b.contains pos = b.blocks[pos / 64]?.any fun block => block.toBitVec.getLsbD (pos % 64) := by
  unfold contains blockIndex
  cases b.blocks[pos / 64]? with
  | none => rfl
  | some block => simp only [and_mask_ne_zero, Option.any_some]

theorem ext_contains {a b : Bitset} (hs : a.blocks.size = b.blocks.size)
    (h : ∀ pos, a.contains pos = b.contains pos) : a = b := by
  apply eq_of_blocks
  apply Array.ext hs
  intro i hi hi'
  apply block_ext
  intro k hk
  have hpos := h (i * 64 + k)
  rw [contains_eq, contains_eq] at hpos
  have hdiv : (i * 64 + k) / 64 = i := by omega
  have hmod : (i * 64 + k) % 64 = k := by omega
  simpa [hdiv, hmod, hi, hi'] using hpos

@[simp] theorem contains_ofMaxPos (maxPos pos : Nat) : (ofMaxPos maxPos).contains pos = false := by
  rw [contains_eq]
  simp only [ofMaxPos, Array.getElem?_replicate]
  split <;> simp

@[simp] theorem size_ofMaxPos (maxPos : Nat) :
    (ofMaxPos maxPos).blocks.size = blockIndex maxPos + 1 := by
  simp [ofMaxPos]

/-! ## Writing -/

@[simp] theorem size_setAt (b : Bitset) (pos : Nat) (h : blockIndex pos < b.blocks.size) :
    (b.setAt pos h).2.blocks.size = b.blocks.size := by
  simp [setAt]

@[simp] theorem size_resetAt (b : Bitset) (pos : Nat) (h : blockIndex pos < b.blocks.size) :
    (b.resetAt pos h).2.blocks.size = b.blocks.size := by
  simp [resetAt]

theorem eq_iff_div_mod {p q : Nat} (hd : p / 64 = q / 64) : p = q ↔ p % 64 = q % 64 := by
  constructor
  · rintro rfl; rfl
  · intro hm; omega

theorem contains_setAt (b : Bitset) (pos : Nat) (h : blockIndex pos < b.blocks.size) (q : Nat) :
    (b.setAt pos h).2.contains q = (b.contains q || decide (pos = q)) := by
  rw [contains_eq, contains_eq]
  unfold blockIndex at h
  by_cases hd : pos / 64 = q / 64
  · have hq : q / 64 < b.blocks.size := hd ▸ h
    have he := eq_iff_div_mod hd
    simp only [setAt, blockIndex, hd, Array.getElem?_set_self hq, Option.any_some, getLsbD_or_mask,
      Array.getElem?_eq_getElem hq, he]
  · have he : pos ≠ q := by rintro rfl; exact hd rfl
    simp only [setAt, blockIndex, Array.getElem?_set_ne h hd, he, decide_false, Bool.or_false]

theorem contains_resetAt (b : Bitset) (pos : Nat) (h : blockIndex pos < b.blocks.size) (q : Nat) :
    (b.resetAt pos h).2.contains q = (b.contains q && !decide (pos = q)) := by
  rw [contains_eq, contains_eq]
  unfold blockIndex at h
  by_cases hd : pos / 64 = q / 64
  · have hq : q / 64 < b.blocks.size := hd ▸ h
    have he := eq_iff_div_mod hd
    simp only [resetAt, blockIndex, hd, Array.getElem?_set_self hq, Option.any_some,
      getLsbD_and_not_mask, Array.getElem?_eq_getElem hq, he]
  · have he : pos ≠ q := by rintro rfl; exact hd rfl
    simp only [resetAt, blockIndex, Array.getElem?_set_ne h hd, he, decide_false, Bool.not_false,
      Bool.and_true]

theorem setAt_fst (b : Bitset) (pos : Nat) (h : blockIndex pos < b.blocks.size) :
    (b.setAt pos h).1 = !b.contains pos := by
  have hget : b.blocks[pos / 64]? = some b.blocks[blockIndex pos] :=
    Array.getElem?_eq_getElem h
  have hor := or_mask_eq_iff b.blocks[blockIndex pos] pos
  have hfst : (b.setAt pos h).1 =
      (b.blocks[blockIndex pos] != b.blocks[blockIndex pos] ||| mask pos) := rfl
  rw [contains_eq, hget, Option.any_some, hfst, Bool.eq_iff_iff, bne_iff_ne, ne_comm, ne_eq, hor]
  simp

theorem resetAt_fst (b : Bitset) (pos : Nat) (h : blockIndex pos < b.blocks.size) :
    (b.resetAt pos h).1 = b.contains pos := by
  have hget : b.blocks[pos / 64]? = some b.blocks[blockIndex pos] :=
    Array.getElem?_eq_getElem h
  have hand := and_not_mask_eq_iff b.blocks[blockIndex pos] pos
  have hfst : (b.resetAt pos h).1 =
      (b.blocks[blockIndex pos] != b.blocks[blockIndex pos] &&& ~~~mask pos) := rfl
  rw [contains_eq, hget, Option.any_some, hfst, Bool.eq_iff_iff, bne_iff_ne, ne_comm, ne_eq, hand]
  simp

def put (b : Bitset) (pos : Nat) : Bitset :=
  if h : blockIndex pos < b.blocks.size then (b.setAt pos h).2 else b

theorem withSet_eq {b : Bitset} {pos : Nat} (h : blockIndex pos < b.blocks.size) :
    b.withSet pos = .ok (b.put pos) := by
  rw [withSet, set, dif_pos h, put, dif_pos h]
  rfl

@[simp] theorem size_put (b : Bitset) (pos : Nat) : (b.put pos).blocks.size = b.blocks.size := by
  unfold put
  split
  · exact size_setAt b pos _
  · rfl

theorem contains_put {b : Bitset} {pos : Nat} (h : blockIndex pos < b.blocks.size) (q : Nat) :
    (b.put pos).contains q = (b.contains q || decide (pos = q)) := by
  rw [put, dif_pos h, contains_setAt]

theorem set_eq {b : Bitset} {pos : Nat} (h : blockIndex pos < b.blocks.size) :
    ∃ flag, b.set pos = .ok (flag, b.put pos) := by
  rw [set, dif_pos h, put, dif_pos h]
  exact ⟨(b.setAt pos h).1, rfl⟩

theorem reset_put {b : Bitset} {pos : Nat} (h : blockIndex pos < b.blocks.size)
    (hc : b.contains pos = false) : ∃ flag, (b.put pos).reset pos = .ok (flag, b) := by
  have h' : blockIndex pos < (b.put pos).blocks.size := by rwa [size_put]
  have hback : ((b.put pos).resetAt pos h').2 = b := by
    apply ext_contains
    · rw [size_resetAt, size_put]
    · intro q
      rw [contains_resetAt, contains_put h]
      by_cases hq : pos = q
      · subst hq; simp [hc]
      · simp [hq]
  refine ⟨((b.put pos).resetAt pos h').1, ?_⟩
  rw [reset, dif_pos h']
  exact congrArg Except.ok (Prod.ext rfl hback)

/-! ## Growing -/

@[simp] theorem contains_grow (b : Bitset) (pos q : Nat) :
    (b.grow pos).contains q = b.contains q := by
  rw [contains_eq, contains_eq]
  simp only [grow, Array.getElem?_append, Array.getElem?_replicate]
  split
  · rfl
  · rename_i h
    rw [Array.getElem?_eq_none (Nat.not_lt.mp h)]
    split <;> simp

end Bitset

deriving instance ReflBEq, LawfulBEq for GrowingBitset

namespace GrowingBitset

theorem insert_fst (b : GrowingBitset) (pos : Nat) : (b.insert pos).1 = !b.contains pos := by
  show ((b.bits.grow pos).setAt pos _).1 = !b.bits.contains pos
  rw [Bitset.setAt_fst, Bitset.contains_grow]

theorem contains_insert (b : GrowingBitset) (pos q : Nat) :
    (b.insert pos).2.contains q = (b.contains q || decide (pos = q)) := by
  show ((b.bits.grow pos).setAt pos _).2.contains q = _
  rw [Bitset.contains_setAt, Bitset.contains_grow]
  rfl

theorem erase_fst (b : GrowingBitset) (pos : Nat) : (b.erase pos).1 = b.contains pos := by
  show ((b.bits.grow pos).resetAt pos _).1 = b.bits.contains pos
  rw [Bitset.resetAt_fst, Bitset.contains_grow]

theorem contains_erase (b : GrowingBitset) (pos q : Nat) :
    (b.erase pos).2.contains q = (b.contains q && !decide (pos = q)) := by
  show ((b.bits.grow pos).resetAt pos _).2.contains q = _
  rw [Bitset.contains_resetAt, Bitset.contains_grow]
  rfl

end GrowingBitset

end Linearizability
