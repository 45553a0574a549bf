import Linearizability.Bitset.Growing
import Linearizability.Specification

/-!
# Sets of bytes

Operations on different values commute, so the value is the key of its
operation. The state is a growing bitset, whose growth shows in equality.
-/

namespace Linearizability

structure ByteSet where
  members : GrowingBitset
  deriving BEq, Repr

namespace ByteSet

def empty : ByteSet := ⟨.empty⟩

instance : Hashable ByteSet := ⟨fun s => hash s.members⟩

def isEmpty (s : ByteSet) : Bool := s.members.isEmpty

def contains (s : ByteSet) (value : UInt8) : Bool := s.members.contains value.toNat

def insert (s : ByteSet) (value : UInt8) : Bool × ByteSet :=
  (s.members.insert value.toNat).map id mk

def erase (s : ByteSet) (value : UInt8) : Bool × ByteSet :=
  (s.members.erase value.toNat).map id mk

def toList (s : ByteSet) : List Nat := s.members.toList

inductive Op where
  | empty
  | contains (value : UInt8)
  | insert (value : UInt8)
  | erase (value : UInt8)
  | ret (result : Bool)
  deriving DecidableEq, Repr

namespace Op

def label : Op → String
  | .empty => "empty()"
  | .contains v => s!"contains({v})"
  | .insert v => s!"insert({v})"
  | .erase v => s!"erase({v})"
  | .ret r => s!"ret: {r.toNat}"

def key : Op → Option Nat
  | .contains v | .insert v | .erase v => some v.toNat
  | .empty | .ret _ => none

end Op

instance : Operation Op := ⟨Op.label, Op.key⟩

def apply (s : ByteSet) : (call ret : Op) → Effect ByteSet
  | .empty, .ret r => ⟨s.isEmpty == r, s⟩
  | .contains v, .ret r => ⟨s.contains v == r, s⟩
  | .insert v, .ret r =>
    let (changed, next) := s.insert v
    ⟨changed == r, next⟩
  | .erase v, .ret r =>
    let (changed, next) := s.erase v
    ⟨changed == r, next⟩
  | _, _ => ⟨false, s⟩

instance : Specification ByteSet Op where
  init := empty
  apply := apply

end ByteSet

end Linearizability
