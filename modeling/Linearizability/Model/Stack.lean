import Linearizability.Fault
import Linearizability.Specification

/-!
# Bounded stacks

A stack is a chain of nodes, top first. Versions share their tails: a push
adds one node, a pop moves to the node below. Every node carries the length
and the hash of the chain that it tops. The hash is the polynomial of the
values plus one, bottom first, at 31.
-/

namespace Linearizability

inductive Chain where
  | nil
  | node (value : UInt8) (size : Nat) (hash : UInt64) (below : Chain)
  deriving Repr

namespace Chain

def size : Chain → Nat
  | nil => 0
  | node _ size _ _ => size

def hash : Chain → UInt64
  | nil => 0
  | node _ _ hash _ => hash

def cons (value : UInt8) (c : Chain) : Chain :=
  node value (c.size + 1) (c.hash * 31 + (value.toUInt64 + 1)) c

def toList : Chain → List UInt8
  | nil => []
  | node value _ _ below => value :: below.toList

/-- Walk down two chains in step. The walk ends early with `true` at nodes that `shared` knows to
be one and the same, and with `false` at the first difference in size, hash or value. -/
def agree (shared : Chain → Chain → Bool) : Chain → Chain → Bool
  | nil, nil => true
  | node v m g c, node w n h d =>
    shared (node v m g c) (node w n h d) || (m == n && g == h && v == w && agree shared c d)
  | _, _ => false

end Chain

structure Stack (capacity : Nat) where
  top : Chain
  deriving Repr

namespace Stack

variable {capacity : Nat}

def empty : Stack capacity := ⟨.nil⟩

def size (s : Stack capacity) : Nat := s.top.size

def isEmpty (s : Stack capacity) : Bool :=
  match s.top with
  | .nil => true
  | .node .. => false

def isFull (s : Stack capacity) : Bool := s.size == capacity

def peek (s : Stack capacity) : Option UInt8 :=
  match s.top with
  | .nil => none
  | .node value .. => some value

def push (s : Stack capacity) (value : UInt8) : Except Fault (Stack capacity) :=
  if s.isFull then .error (.pushOntoFull capacity) else .ok ⟨s.top.cons value⟩

def pop (s : Stack capacity) : Except Fault (Stack capacity) :=
  match s.top with
  | .nil => .error .popFromEmpty
  | .node _ _ _ below => .ok ⟨below⟩

def toList (s : Stack capacity) : List UInt8 := s.top.toList

def debug (s : Stack capacity) : String := "[" ++ ", ".intercalate (s.toList.map toString) ++ "]"

instance : BEq (Stack capacity) := ⟨fun s t => s.top.agree (fun _ _ => false) t.top⟩

instance : Hashable (Stack capacity) := ⟨fun s => s.top.hash⟩

inductive Op where
  | push (value : UInt8)
  | pushRet (pushed : Bool)
  | pop
  | popRet (popped : Option UInt8)
  deriving DecidableEq, Repr

namespace Op

def label : Op → String
  | .push v => s!"try_push({v})"
  | .pushRet ok => s!"ret: {ok.toNat}"
  | .pop => "try_pop()"
  | .popRet (some v) => s!"ret: [ok: 1, value: {v}]"
  | .popRet none => "ret: [ok: 0, value: undefined]"

end Op

instance : Operation Op := ⟨Op.label, fun _ => none⟩

/-- A push onto a full stack and a pop from an empty one are refused and change nothing. -/
def apply (s : Stack capacity) : (call ret : Op) → Effect (Stack capacity)
  | .push v, .pushRet pushed =>
    match s.push v with
    | .error _ => ⟨!pushed, s⟩
    | .ok next => ⟨pushed, next⟩
  | .pop, .popRet popped =>
    match s.pop with
    | .error _ => ⟨popped.isNone, s⟩
    | .ok next => ⟨popped == s.peek, next⟩
  | _, _ => ⟨false, s⟩

instance : Specification (Stack capacity) Op where
  init := empty
  apply := apply

end Stack

end Linearizability
