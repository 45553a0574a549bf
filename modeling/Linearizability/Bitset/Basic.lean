import Linearizability.Bitset.Block
import Linearizability.Fault
import Linearizability.Text.Hex

/-!
# Sets of bit positions

A bitset is an array of 64-bit blocks. Its hash is the exclusive or of the
blocks and is kept up to date by every write: the old block is taken out
and the new one put in. The number of set bits is kept the same way.

Two bitsets are equal when they have the same blocks, so that the capacity
counts: bits beyond it read as unset, but a smaller bitset is never equal
to a larger one.
-/

namespace Linearizability

structure Bitset where
  blocks : Array UInt64
  hash : UInt64
  count : Nat
  hash_eq : hash = Bitset.hashOf blocks.toList
  count_eq : count = Bitset.countOf blocks.toList
  deriving Repr

namespace Bitset

def ofMaxPos (maxPos : Nat) : Bitset :=
  ⟨Array.replicate (blockIndex maxPos + 1) 0, 0, 0,
    by simpa [hashOf] using (hashOf_append_zeros [] (blockIndex maxPos + 1)).symm,
    by simpa [countOf] using (countOf_append_zeros [] (blockIndex maxPos + 1)).symm⟩

def isEmpty (b : Bitset) : Bool := b.count == 0

def capacity (b : Bitset) : Nat := b.blocks.size * 64

@[inline] def contains (b : Bitset) (pos : Nat) : Bool :=
  match b.blocks[blockIndex pos]? with
  | some block => block &&& mask pos != 0
  | none => false

def toList (b : Bitset) : List Nat :=
  b.blocks.toList.zipIdx.flatMap fun (block, i) => (blockPositions block).map (i * 64 + ·)

instance : BEq Bitset := ⟨fun a b => a.count == b.count && a.blocks == b.blocks⟩

instance : Hashable Bitset := ⟨hash⟩

/-! ## Writing -/

theorem hash_eq_of_set {blocks : Array UInt64} {hash : UInt64} (hash_eq : hash = hashOf blocks.toList)
    {i : Nat} (h : i < blocks.size) (new : UInt64) :
    hash ^^^ blocks[i] ^^^ new = hashOf (blocks.set i new).toList := by
  have hold : blocks.toList[i]? = some blocks[i] := by simp [h]
  rw [Array.toList_set, hashOf_set hold, hash_eq]

theorem count_eq_of_or {blocks : Array UInt64} {count : Nat} (count_eq : count = countOf blocks.toList)
    {i : Nat} (h : i < blocks.size) (pos : Nat) :
    count + (blocks[i] != (blocks[i] ||| mask pos)).toNat =
      countOf (blocks.set i (blocks[i] ||| mask pos)).toList := by
  have hold : blocks.toList[i]? = some blocks[i] := by simp [h]
  have hset := countOf_set hold (blocks[i] ||| mask pos)
  have hbit := blockCount_or_mask blocks[i] pos
  rw [Array.toList_set, count_eq]
  omega

theorem count_eq_of_and_not {blocks : Array UInt64} {count : Nat}
    (count_eq : count = countOf blocks.toList) {i : Nat} (h : i < blocks.size) (pos : Nat) :
    count - (blocks[i] != (blocks[i] &&& ~~~mask pos)).toNat =
      countOf (blocks.set i (blocks[i] &&& ~~~mask pos)).toList := by
  have hold : blocks.toList[i]? = some blocks[i] := by simp [h]
  have hset := countOf_set hold (blocks[i] &&& ~~~mask pos)
  have hbit := blockCount_and_not_mask blocks[i] pos
  rw [Array.toList_set, count_eq]
  omega

/-- Set the bit at an addressable position. The flag tells whether it was unset. -/
@[inline] def setAt : (b : Bitset) → (pos : Nat) → blockIndex pos < b.blocks.size → Bool × Bitset
  | ⟨blocks, hash, count, hash_eq, count_eq⟩, pos, h =>
    let old := blocks[blockIndex pos]
    let new := old ||| mask pos
    (old != new, ⟨blocks.set (blockIndex pos) new, hash ^^^ old ^^^ new, count + (old != new).toNat,
      hash_eq_of_set hash_eq h new, count_eq_of_or count_eq h pos⟩)

/-- Clear the bit at an addressable position. The flag tells whether it was set. -/
@[inline] def resetAt : (b : Bitset) → (pos : Nat) → blockIndex pos < b.blocks.size → Bool × Bitset
  | ⟨blocks, hash, count, hash_eq, count_eq⟩, pos, h =>
    let old := blocks[blockIndex pos]
    let new := old &&& ~~~mask pos
    (old != new, ⟨blocks.set (blockIndex pos) new, hash ^^^ old ^^^ new, count - (old != new).toNat,
      hash_eq_of_set hash_eq h new, count_eq_of_and_not count_eq h pos⟩)

@[inline] def set (b : Bitset) (pos : Nat) : Except Fault (Bool × Bitset) :=
  if h : blockIndex pos < b.blocks.size then .ok (b.setAt pos h)
  else .error (.bitOutOfRange pos b.capacity)

@[inline] def reset (b : Bitset) (pos : Nat) : Except Fault (Bool × Bitset) :=
  if h : blockIndex pos < b.blocks.size then .ok (b.resetAt pos h)
  else .error (.bitOutOfRange pos b.capacity)

def withSet (b : Bitset) (pos : Nat) : Except Fault Bitset := (b.set pos).map (·.2)

def withReset (b : Bitset) (pos : Nat) : Except Fault Bitset := (b.reset pos).map (·.2)

/-! ## Text -/

def debug (b : Bitset) : String :=
  let bits := ", ".intercalate (b.toList.map toString)
  s!"Bitset \x7b capacity: {b.capacity}, hash: 0x{Text.hex16 b.hash}, bits: [{bits}] \x7d"

end Bitset

end Linearizability
