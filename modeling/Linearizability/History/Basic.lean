import Linearizability.Fault
import Linearizability.Specification

/-!
# Histories

An entry is one half of an operation, as it was recorded. Entries live in an
array and refer to each other by index: a call to its return and back, and
each to its neighbours in recording order. A history is the array together
with its first entry; it is read along the links.
-/

namespace Linearizability

structure Entry (Op : Type) where
  op : Op
  /-- Shared by a call and its return. -/
  id : Nat
  thread : Nat
  matched : Option Nat := none
  isCall : Bool
  /-- Of whichever half defines one. -/
  key : Option Nat
  prev : Option Nat := none
  next : Option Nat := none
  deriving Repr

namespace Entry

variable {Op : Type} [Operation Op]

def ofOp (op : Op) (id thread : Nat) (isCall : Bool) : Entry Op :=
  { op, id, thread, isCall, key := Operation.key op }

def display (e : Entry Op) : String :=
  let half := if e.isCall then "call" else "return"
  s!"entry id: {e.id}, thread id: {e.thread}, {half}: {Operation.label e.op}"

def debugRef : Option Nat → String
  | some ref => s!"Some(EntryRef({ref}))"
  | none => "None"

def debugKey : Option Nat → String
  | some key => s!"Some({key})"
  | none => "None"

def debug (e : Entry Op) : String :=
  s!"Entry \x7b entry_id: {e.id}, thread_id: ThreadId({e.thread}), is_call: {e.isCall}, " ++
  s!"op: {Operation.label e.op}, matched: {debugRef e.matched}, partition: {debugKey e.key} \x7d"

end Entry

structure History (Op : Type) where
  entries : Array (Entry Op)
  head : Option Nat
  size : Nat
  deriving Repr

namespace History

variable {Op : Type}

def empty : History Op := ⟨#[], none, 0⟩

def calls (h : History Op) : Nat := h.size / 2

def isEmpty (h : History Op) : Bool := h.head.isNone && h.size == 0

@[inline] def entry (h : History Op) (ref : Nat) : Except Fault (Entry Op) :=
  match h.entries[ref]? with
  | some e => .ok e
  | none => .error (.outOfBounds h.entries.size ref)

/-- Follow the links from `ref`, for at most `limit` entries. -/
def walk (entries : Array (Entry Op)) : (limit : Nat) → (ref : Option Nat) → List (Nat × Entry Op)
  | limit + 1, some ref =>
    match entries[ref]? with
    | some e => (ref, e) :: walk entries limit e.next
    | none => []
  | _, _ => []

def toList (h : History Op) : List (Nat × Entry Op) := walk h.entries h.entries.size h.head

variable [Operation Op]

def display (h : History Op) : String :=
  h.toList.foldl (fun text (_, e) => text ++ e.display ++ "\n")
    s!"log info, number of entries: {h.size}\n"

def debug (h : History Op) : String :=
  s!"LogInfo \x7b head: {Entry.debugRef h.head}, number_of_entries: {h.size} \x7d"

end History

end Linearizability
