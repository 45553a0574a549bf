import Linearizability.Bitset.Basic

/-!
# Bitsets that grow

A growing bitset allocates blocks whenever a position beyond its capacity is
written, be it to set or to clear. New blocks are zero, which leaves hash and
count alone. Growth shows in equality.
-/

namespace Linearizability

def Bitset.grow : Bitset → Nat → Bitset
  | ⟨blocks, hash, count, hash_eq, count_eq⟩, pos =>
    ⟨blocks ++ Array.replicate (blockIndex pos + 1 - blocks.size) 0, hash, count,
      by rw [Array.toList_append, Array.toList_replicate, hashOf_append_zeros, hash_eq],
      by rw [Array.toList_append, Array.toList_replicate, countOf_append_zeros, count_eq]⟩

theorem Bitset.blockIndex_lt_size_grow (b : Bitset) (pos : Nat) :
    blockIndex pos < (b.grow pos).blocks.size := by
  simp [grow]; omega

structure GrowingBitset where
  bits : Bitset
  deriving BEq, Repr

namespace GrowingBitset

def ofMaxPos (maxPos : Nat) : GrowingBitset := ⟨.ofMaxPos maxPos⟩

def empty : GrowingBitset := ofMaxPos 1

instance : Inhabited GrowingBitset := ⟨empty⟩

instance : Hashable GrowingBitset := ⟨fun b => b.bits.hash⟩

def isEmpty (b : GrowingBitset) : Bool := b.bits.isEmpty

def contains (b : GrowingBitset) (pos : Nat) : Bool := b.bits.contains pos

def toList (b : GrowingBitset) : List Nat := b.bits.toList

def insert (b : GrowingBitset) (pos : Nat) : Bool × GrowingBitset :=
  ((b.bits.grow pos).setAt pos (b.bits.blockIndex_lt_size_grow pos)).map id mk

def erase (b : GrowingBitset) (pos : Nat) : Bool × GrowingBitset :=
  ((b.bits.grow pos).resetAt pos (b.bits.blockIndex_lt_size_grow pos)).map id mk

def debug (b : GrowingBitset) : String := "\x7b" ++ ", ".intercalate (b.toList.map toString) ++ "\x7d"

end GrowingBitset

end Linearizability
