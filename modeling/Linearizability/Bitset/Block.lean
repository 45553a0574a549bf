/-!
# Blocks of bits

The bits of 64 positions make one block. A write changes one bit of one
block, and the number of set bits by at most one. Over many blocks, the
hash is the exclusive or, and the count is the sum.
-/

namespace Linearizability.Bitset

@[inline] def blockIndex (pos : Nat) : Nat := pos / 64

@[inline] def mask (pos : Nat) : UInt64 := 1 <<< UInt64.ofNat (pos % 64)

def blockPositions (block : UInt64) : List Nat :=
  if block == 0 then [] else (List.range 64).filter fun pos => block &&& mask pos != 0

def blockCount (block : UInt64) : Nat := (blockPositions block).length

def hashOf (blocks : List UInt64) : UInt64 := blocks.foldr (· ^^^ ·) 0

def countOf (blocks : List UInt64) : Nat := blocks.foldr (blockCount · + ·) 0

/-! ## Single bits -/

theorem toBitVec_mask (pos : Nat) : (mask pos).toBitVec = BitVec.twoPow 64 (pos % 64) := by
  have h : pos % 64 < 64 := Nat.mod_lt _ (by decide)
  have h64 : (UInt64.ofNat (pos % 64)).toBitVec % 64 = BitVec.ofNat 64 (pos % 64) := by
    apply BitVec.eq_of_toNat_eq
    simp
    omega
  have hn : (BitVec.ofNat 64 (pos % 64)).toNat = pos % 64 := by simp; omega
  unfold mask
  rw [UInt64.toBitVec_shiftLeft, h64, BitVec.shiftLeft_eq', hn]
  rfl

theorem and_mask_ne_zero (block : UInt64) (pos : Nat) :
    (block &&& mask pos != 0) = block.toBitVec.getLsbD (pos % 64) := by
  have h : (block &&& mask pos).toBitVec =
      if block.toBitVec.getLsbD (pos % 64) then BitVec.twoPow 64 (pos % 64) else 0#64 := by
    rw [UInt64.toBitVec_and, toBitVec_mask, BitVec.and_twoPow]
  have hne : BitVec.twoPow 64 (pos % 64) ≠ 0#64 := by
    intro he
    have := congrArg (BitVec.getLsbD · (pos % 64)) he
    simp [Nat.mod_lt] at this
  cases hb : block.toBitVec.getLsbD (pos % 64) with
  | false =>
    rw [hb] at h
    simpa [bne_eq_false_iff_eq, ← UInt64.toBitVec_inj] using h
  | true =>
    rw [hb] at h
    rw [bne_iff_ne, ne_eq, ← UInt64.toBitVec_inj, h]
    exact hne

theorem getLsbD_or_mask (block : UInt64) (pos i : Nat) :
    (block ||| mask pos).toBitVec.getLsbD i =
      (block.toBitVec.getLsbD i || decide (pos % 64 = i)) := by
  have h : pos % 64 < 64 := Nat.mod_lt _ (by decide)
  rw [UInt64.toBitVec_or, toBitVec_mask, BitVec.getLsbD_or, BitVec.getLsbD_twoPow]
  simp [h]

theorem getLsbD_and_not_mask (block : UInt64) (pos i : Nat) :
    (block &&& ~~~mask pos).toBitVec.getLsbD i =
      (block.toBitVec.getLsbD i && !decide (pos % 64 = i)) := by
  have h : pos % 64 < 64 := Nat.mod_lt _ (by decide)
  rw [UInt64.toBitVec_and, UInt64.toBitVec_not, toBitVec_mask, BitVec.getLsbD_and,
    BitVec.getLsbD_not, BitVec.getLsbD_twoPow]
  by_cases hi : i < 64
  · simp [h, hi]
  · simp [BitVec.getLsbD_of_ge _ _ (Nat.not_lt.mp hi)]

theorem block_ext {a b : UInt64}
    (h : ∀ i < 64, a.toBitVec.getLsbD i = b.toBitVec.getLsbD i) : a = b := by
  rw [← UInt64.toBitVec_inj]
  exact BitVec.eq_of_getLsbD_eq fun i hi => h i hi

theorem or_mask_eq_iff (block : UInt64) (pos : Nat) :
    block ||| mask pos = block ↔ block.toBitVec.getLsbD (pos % 64) = true := by
  constructor
  · intro h
    rw [← h, getLsbD_or_mask]
    simp
  · intro h
    apply block_ext
    intro i _
    rw [getLsbD_or_mask]
    by_cases hi : pos % 64 = i
    · subst hi; simp [h]
    · simp [hi]

theorem and_not_mask_eq_iff (block : UInt64) (pos : Nat) :
    block &&& ~~~mask pos = block ↔ block.toBitVec.getLsbD (pos % 64) = false := by
  constructor
  · intro h
    rw [← h, getLsbD_and_not_mask]
    simp
  · intro h
    apply block_ext
    intro i _
    rw [getLsbD_and_not_mask]
    by_cases hi : pos % 64 = i
    · subst hi; simp [h]
    · simp [hi]

/-! ## The bits of a block -/

theorem blockPositions_eq (block : UInt64) :
    blockPositions block = (List.range 64).filter (block.toBitVec.getLsbD ·) := by
  have hmod : (List.range 64).filter (fun pos => block &&& mask pos != 0) =
      (List.range 64).filter (block.toBitVec.getLsbD ·) := by
    apply List.filter_congr
    intro i hi
    rw [and_mask_ne_zero, Nat.mod_eq_of_lt (List.mem_range.mp hi)]
  unfold blockPositions
  by_cases h : block = 0
  · subst h; simp
  · simp only [beq_iff_eq, h, if_false, hmod]

theorem blockCount_eq (block : UInt64) :
    blockCount block = (List.range 64).countP (block.toBitVec.getLsbD ·) := by
  rw [blockCount, blockPositions_eq, List.countP_eq_length_filter]

theorem blockCount_zero : blockCount 0 = 0 := by
  simp [blockCount, blockPositions]

/-- Two predicates that differ at one number of a range, where only the first one holds. -/
theorem countP_range_of_differ {p q : Nat → Bool} {a : Nat} (hp : p a = true) (hq : q a = false)
    (h : ∀ i, i ≠ a → p i = q i) (n : Nat) :
    (List.range n).countP p = (List.range n).countP q + if a < n then 1 else 0 := by
  induction n with
  | zero => simp
  | succ n ih =>
    rw [List.range_succ, List.countP_append, List.countP_append, ih]
    by_cases hn : n = a
    · subst hn; simp [hp, hq]
    · have hs : a < n + 1 ↔ a < n := by omega
      simp only [List.countP_singleton, h n hn, hs]
      omega

theorem blockCount_or_mask (block : UInt64) (pos : Nat) :
    blockCount (block ||| mask pos) = blockCount block + (block != (block ||| mask pos)).toNat := by
  by_cases h : block.toBitVec.getLsbD (pos % 64) = true
  · simp [(or_mask_eq_iff block pos).mpr h]
  · have hne : (block != (block ||| mask pos)) = true := by
      rw [bne_iff_ne]
      exact fun he => h ((or_mask_eq_iff block pos).mp he.symm)
    have hset : (block ||| mask pos).toBitVec.getLsbD (pos % 64) = true := by
      rw [getLsbD_or_mask]
      simp
    have hother : ∀ i, i ≠ pos % 64 →
        (block ||| mask pos).toBitVec.getLsbD i = block.toBitVec.getLsbD i := by
      intro i hi
      rw [getLsbD_or_mask]
      simp [Ne.symm hi]
    have hcount := countP_range_of_differ hset (Bool.eq_false_iff.mpr h) hother 64
    rw [if_pos (Nat.mod_lt _ (by decide))] at hcount
    rw [hne, blockCount_eq, blockCount_eq, hcount]
    rfl

theorem blockCount_and_not_mask (block : UInt64) (pos : Nat) :
    blockCount block =
      blockCount (block &&& ~~~mask pos) + (block != (block &&& ~~~mask pos)).toNat := by
  by_cases h : block.toBitVec.getLsbD (pos % 64) = true
  · have hne : (block != (block &&& ~~~mask pos)) = true := by
      rw [bne_iff_ne]
      intro he
      rw [(and_not_mask_eq_iff block pos).mp he.symm] at h
      cases h
    have hclear : (block &&& ~~~mask pos).toBitVec.getLsbD (pos % 64) = false := by
      rw [getLsbD_and_not_mask]
      simp
    have hother : ∀ i, i ≠ pos % 64 →
        block.toBitVec.getLsbD i = (block &&& ~~~mask pos).toBitVec.getLsbD i := by
      intro i hi
      rw [getLsbD_and_not_mask]
      simp [Ne.symm hi]
    have hcount := countP_range_of_differ h hclear hother 64
    rw [if_pos (Nat.mod_lt _ (by decide))] at hcount
    rw [hne, blockCount_eq, blockCount_eq, hcount]
    rfl
  · have he := (and_not_mask_eq_iff block pos).mpr (Bool.eq_false_iff.mpr h)
    simp [he]

/-! ## Many blocks -/

theorem hashOf_set {blocks : List UInt64} {i : Nat} {old : UInt64} (h : blocks[i]? = some old)
    (new : UInt64) : hashOf (blocks.set i new) = hashOf blocks ^^^ old ^^^ new := by
  induction blocks generalizing i with
  | nil => simp at h
  | cons block blocks ih =>
    cases i with
    | zero =>
      simp only [List.getElem?_cons_zero, Option.some.injEq] at h
      subst h
      simp only [List.set_cons_zero, hashOf, List.foldr_cons]
      generalize List.foldr (· ^^^ ·) (0 : UInt64) blocks = rest
      rw [UInt64.xor_comm block, UInt64.xor_assoc rest, UInt64.xor_self, UInt64.xor_zero,
        UInt64.xor_comm]
    | succ i =>
      simp only [List.getElem?_cons_succ] at h
      have ih := ih h
      simp only [hashOf, List.set_cons_succ, List.foldr_cons] at ih ⊢
      rw [ih, UInt64.xor_assoc, UInt64.xor_assoc, UInt64.xor_assoc]

theorem countOf_set {blocks : List UInt64} {i : Nat} {old : UInt64} (h : blocks[i]? = some old)
    (new : UInt64) : countOf (blocks.set i new) + blockCount old = countOf blocks + blockCount new := by
  induction blocks generalizing i with
  | nil => simp at h
  | cons block blocks ih =>
    cases i with
    | zero =>
      simp only [List.getElem?_cons_zero, Option.some.injEq] at h
      subst h
      simp only [countOf, List.set_cons_zero, List.foldr_cons]
      omega
    | succ i =>
      have ih := ih h
      simp only [countOf, List.set_cons_succ, List.foldr_cons] at ih ⊢
      omega

theorem hashOf_append_zeros (blocks : List UInt64) (n : Nat) :
    hashOf (blocks ++ List.replicate n 0) = hashOf blocks := by
  have h : List.foldr (· ^^^ ·) (0 : UInt64) (List.replicate n 0) = 0 := by
    induction n with
    | zero => rfl
    | succ n ih => simp [List.replicate_succ, ih]
  simp [hashOf, List.foldr_append, h]

theorem countOf_append_zeros (blocks : List UInt64) (n : Nat) :
    countOf (blocks ++ List.replicate n 0) = countOf blocks := by
  have h : List.foldr (blockCount · + ·) 0 (List.replicate n 0) = 0 := by
    induction n with
    | zero => rfl
    | succ n ih => simp [List.replicate_succ, blockCount_zero, ih]
  simp [countOf, List.foldr_append, h]

end Linearizability.Bitset
