import Linearizability.Specification

/-!
# Register with compare-and-swap

A signed byte, at first -1. Besides completed returns there are pending
ones, for calls that were still in flight when the recording stopped.

    call           return             accepted          effect
    read()         read() : v         value = v         none
    read()         read() : pending   always            none
    write(v)       write() : ...      always            value := v
    cas(c, n)      cas() : ok/failed  (value = c) = ok  value := n if value = c
    cas(c, n)      cas() : pending    always            value := n if value = c
-/

namespace Linearizability

structure Register where
  value : Int8
  deriving DecidableEq, Repr

namespace Register

def init : Register := ⟨-1⟩

instance : Hashable Register := ⟨fun r => (r.value.toInt64 * 193).toUInt64⟩

def set (_ : Register) (value : Int8) : Register := ⟨value⟩

inductive Op where
  | read
  | readRet (value : Int8)
  | readPending
  | write (value : Int8)
  | writeRet
  | writePending
  | cas (current new : Int8)
  | casRet (swapped : Bool)
  | casPending
  deriving DecidableEq, Repr

namespace Op

def label : Op → String
  | .read => "read()"
  | .readRet v => s!"read() : {v}"
  | .readPending => "read() : pending"
  | .write v => s!"write({v})"
  | .writeRet => "write() : succeeded"
  | .writePending => "write() : pending"
  | .cas current new => s!"cas({current}, {new})"
  | .casRet true => "cas() : succeeded"
  | .casRet false => "cas() : failed"
  | .casPending => "cas() : pending"

end Op

/-- All operations meet at the one value, so none has a key. -/
instance : Operation Op := ⟨Op.label, fun _ => none⟩

def apply (r : Register) : (call ret : Op) → Effect Register
  | .read, .readPending => ⟨true, r⟩
  | .read, .readRet v => ⟨r.value == v, r⟩
  | .write v, .writeRet | .write v, .writePending => ⟨true, r.set v⟩
  | .cas current new, .casPending =>
    if r.value = current then ⟨true, r.set new⟩ else ⟨true, r⟩
  | .cas current new, .casRet swapped =>
    if r.value = current then ⟨swapped, r.set new⟩ else ⟨!swapped, r⟩
  | _, _ => ⟨false, r⟩

instance : Specification Register Op where
  init := init
  apply := apply

end Register

end Linearizability
