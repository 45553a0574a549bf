import Linearizability.Search.Memo
import Linearizability.Search.WorkingList

/-!
# The search

The search linearizes calls one after another. At its cursor it looks at an
entry that is not linearized yet.

* A call that the specification accepts in the current state, and that leads
  to a configuration not met before, is lifted: it is linearized next, and
  the cursor goes back to the first entry that is left.
* Any other call is skipped: the cursor moves to the entry after it.
* A return belongs to a call that was skipped, and nothing that follows it
  may come before. The last lift is undone and the cursor moves on from
  there; without a lift to undo there is no linearization.

The search ends when no entry is left, when no lift is left to undo, or when
the deadline expires.
-/

namespace Linearizability

/-- Counters over all searches of one tester. They are numbers of any size: what 64 bits hold of
them is the same as long as there are fewer than 2^64 iterations. -/
structure Stats where
  iterations : Nat := 0
  lifts : Nat := 0
  backtracks : Nat := 0
  /-- Accepted calls that were skipped because their configuration was met before. -/
  rejections : Nat := 0
  /-- The most calls linearized at a time. -/
  maxDepth : Nat := 0
  deriving DecidableEq, Repr

structure Frame (State : Type) where
  call : Nat
  before : State

structure Search (State : Type) [BEq State] [Hashable State] where
  list : WorkingList
  /-- The linearized calls, last first. -/
  stack : List (Frame State)
  /-- Their number. -/
  depth : Nat
  /-- Their ids. -/
  linearized : Bitset
  memo : Memo State
  state : State
  cursor : Nat
  /-- The largest id that followed a skipped call. -/
  cutoff : Nat
  stats : Stats

inductive Move (State : Type) [BEq State] [Hashable State] where
  | on (search : Search State)
  /-- No lift is left to undo. -/
  | exhausted (search : Search State)

inductive Ending where
  /-- No entry is left: every call is linearized. -/
  | complete
  | exhausted
  | expired
  deriving DecidableEq, Repr

namespace Search

variable {State Op : Type} [Specification State Op]

def start (h : History Op) (list : WorkingList) (config : Config) (stats : Stats) :
    Except Fault (Search State) := do
  return {
    list
    stack := []
    depth := 0
    linearized := .ofMaxPos h.calls
    memo := ← Memo.ofConfig config
    state := Specification.init
    cursor := ← list.first
    cutoff := 0
    stats }

/-! ## One iteration -/

@[inline] def skip (s : Search State) (n : Node) : Except Fault (Search State) := do
  let next ← s.list.node n.next
  return { s with cursor := n.next, cutoff := max s.cutoff next.entryId }

@[inline] def lift : Search State → (n : Node) → (next : State) → Except Fault (Search State)
  | ⟨list, stack, depth, linearized, memo, state, cursor, cutoff, stats⟩, n, next => do
    let (_, linearized) ← linearized.set n.entryId
    let list ← list.lift cursor
    let stack := ⟨cursor, state⟩ :: stack
    let depth := depth + 1
    let stats := { stats with
      lifts := stats.lifts + 1, maxDepth := max stats.maxDepth depth }
    let cursor ← list.first
    return ⟨list, stack, depth, linearized, memo, next, cursor, cutoff, stats⟩

@[inline] def tryCall (h : History Op) : Search State → (n : Node) → Except Fault (Search State)
  | ⟨list, stack, depth, linearized, memo, state, cursor, cutoff, stats⟩, n => do
    if linearized.contains n.entryId then throw .searchOutOfStep
    let call ← h.entry n.entry
    let ret ← h.entry (← list.node n.matched).entry
    let effect := Specification.apply state call.op ret.op
    if effect.accepted then
      let (novel, memo) ← memo.remember effect.next linearized n.entryId
      if novel then
        lift ⟨list, stack, depth, linearized, memo, state, cursor, cutoff, stats⟩ n effect.next
      else
        let stats := { stats with rejections := stats.rejections + 1 }
        skip ⟨list, stack, depth, linearized, memo, state, cursor, cutoff, stats⟩ n
    else skip ⟨list, stack, depth, linearized, memo, state, cursor, cutoff, stats⟩ n

@[inline] def backtrack : Search State → Except Fault (Move State)
  | ⟨list, stack, depth, linearized, memo, state, cursor, cutoff, stats⟩ =>
    match stack with
    | [] => .ok (.exhausted ⟨list, [], depth, linearized, memo, state, cursor, cutoff, stats⟩)
    | ⟨call, before⟩ :: stack => do
      let n ← list.node call
      let (_, linearized) ← linearized.reset n.entryId
      let list ← list.unlift call
      let stats := { stats with backtracks := stats.backtracks + 1 }
      let n ← list.node call
      return .on ⟨list, stack, depth - 1, linearized, memo, before, n.next, cutoff, stats⟩

@[inline] def step (h : History Op) (s : Search State) : Except Fault (Move State) := do
  let s := { s with stats.iterations := s.stats.iterations + 1 }
  let n ← s.list.node s.cursor
  if n.isCall then return .on (← s.tryCall h n) else s.backtrack

/-! ## The loop -/

/-- Iterate until the search ends, if it does within the limit. The deadline is looked at before
each iteration. -/
def run (h : History Op) (deadline : Deadline) : (limit : Nat) → (look : Nat) → Search State →
    Except Fault (Search State × Option Ending)
  | 0, _, s => .ok (s, none)
  | limit + 1, look, s => do
    if ← s.list.isEmpty then return (s, some .complete)
    else if deadline.isExpired look then return (s, some .expired)
    else match ← s.step h with
      | .exhausted s => return (s, some .exhausted)
      | .on s => run h deadline limit (look + 1) s

/-- More than the number of iterations that any search over so many calls can take: each call that
is left may be lifted, searched below and undone, and at last a return is met. -/
def bound : (calls : Nat) → Nat
  | 0 => 1
  | calls + 1 => (calls + 1) * bound calls + 2

def firstLimit : Nat := 1 <<< 62

/-- Iterate until the search ends. The bound is a large number, so it is made out only for a search
that outlasts the first iterations. -/
def runToEnd (h : History Op) (deadline : Deadline) (s : Search State) :
    Except Fault (Search State × Ending) := do
  match ← s.run h deadline firstLimit 0 with
  | (s, some e) => return (s, e)
  | (s, none) =>
    match ← s.run h deadline (bound h.calls) firstLimit with
    | (s, some e) => return (s, e)
    | (_, none) => throw .searchUnbounded

end Search

end Linearizability
