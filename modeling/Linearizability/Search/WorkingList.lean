import Linearizability.History.Basic

/-!
# The working list

A search works on a circular doubly linked list of the entries that are not
linearized yet. Node `k` stands for the entry of number `k` in recording
order; one more node, the last of the array, is the head of the circle and
stands for no entry.

Lifting a call takes it and its return out of the circle. The two nodes keep
their links, and by these links unlifting puts them back. Unlifts in the
reverse order of the lifts restore every link.
-/

namespace Linearizability

structure Node where
  entry : Nat
  entryId : Nat
  isCall : Bool
  /-- The node of the other half. -/
  matched : Nat
  prev : Nat
  next : Nat
  deriving DecidableEq, Repr

structure WorkingList where
  nodes : Array Node
  deriving DecidableEq, Repr

namespace WorkingList

@[inline] def head (w : WorkingList) : Nat := w.nodes.size - 1

@[inline] def node (w : WorkingList) (i : Nat) : Except Fault Node :=
  match w.nodes[i]? with
  | some n => .ok n
  | none => .error (.outOfBounds w.nodes.size i)

/-! ## Construction -/

/-- Where an entry stands in an order. In the order of recording an entry stands at its own index. -/
def placeOf? (order : Array Nat) (ref : Nat) : Option Nat :=
  if order[ref]? = some ref then some ref else order.idxOf? ref

def entryNode {Op : Type} (order : Array Nat) (count : Nat) :
    (Nat × Entry Op) × Nat → Except Fault Node
  | ((ref, e), k) =>
    match e.matched with
    | none => .error (.unmatchedEntry e.id)
    | some other =>
      match placeOf? order other with
      | none => .error (.matchedOutside e.id)
      | some matched =>
        .ok { entry := ref, entryId := e.id, isCall := e.isCall, matched
              prev := if k = 0 then count else k - 1, next := k + 1 }

def headNode (entries count : Nat) : Node :=
  { entry := entries, entryId := 0, isCall := false, matched := count
    prev := if count = 0 then count else count - 1, next := 0 }

def ofHistory {Op : Type} (h : History Op) : Except Fault WorkingList := do
  let entries := h.toList
  if entries.length ≠ h.size then throw .brokenLinks
  let order := (entries.map (·.1)).toArray
  let nodes ← entries.zipIdx.mapM (entryNode order h.size)
  return ⟨nodes.toArray.push (headNode h.entries.size h.size)⟩

/-! ## Reading -/

@[inline] def first (w : WorkingList) : Except Fault Nat := (w.node w.head).map (·.next)

@[inline] def isEmpty (w : WorkingList) : Except Fault Bool := w.first.map (· == w.head)

/-- Follow the circle from `i` to its head, for at most `limit` nodes. -/
def walk (w : WorkingList) : (limit : Nat) → (i : Nat) → List Node
  | 0, _ => []
  | limit + 1, i =>
    if i = w.head then []
    else match w.nodes[i]? with
      | some n => n :: w.walk limit n.next
      | none => []

def toList (w : WorkingList) : List Node :=
  match w.nodes[w.head]? with
  | some n => w.walk w.nodes.size n.next
  | none => []

def remaining (w : WorkingList) : List Nat := w.toList.map (·.entry)

/-! ## Lifting -/

@[inline] def setNext (w : WorkingList) (i next : Nat) : Except Fault WorkingList :=
  if i < w.nodes.size then .ok ⟨w.nodes.modify i fun n => { n with next }⟩
  else .error (.outOfBounds w.nodes.size i)

@[inline] def setPrev (w : WorkingList) (i prev : Nat) : Except Fault WorkingList :=
  if i < w.nodes.size then .ok ⟨w.nodes.modify i fun n => { n with prev }⟩
  else .error (.outOfBounds w.nodes.size i)

/-- Take node `i` out of the circle. It keeps its links. -/
@[inline] def unlink (w : WorkingList) (i : Nat) : Except Fault WorkingList := do
  let n ← w.node i
  let w ← w.setNext n.prev n.next
  w.setPrev n.next n.prev

/-- Put node `i` back between the nodes it links to, which must be neighbours. -/
@[inline] def relink (w : WorkingList) (i : Nat) : Except Fault WorkingList := do
  let n ← w.node i
  let before ← w.node n.prev
  if before.next ≠ n.next then throw .searchOutOfStep
  let w ← w.setNext n.prev i
  w.setPrev n.next i

@[inline] def lift (w : WorkingList) (call : Nat) : Except Fault WorkingList := do
  let c ← w.node call
  if !c.isCall then throw .searchOutOfStep
  let w ← w.unlink call
  w.unlink c.matched

@[inline] def unlift (w : WorkingList) (call : Nat) : Except Fault WorkingList := do
  let c ← w.node call
  if !c.isCall then throw .searchOutOfStep
  let w ← w.relink c.matched
  w.relink call

end WorkingList

end Linearizability
