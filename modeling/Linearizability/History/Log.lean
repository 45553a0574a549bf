import Linearizability.History.Basic

/-!
# Logs

A log records a history from one thread, up to a capacity. Calls are
numbered in the order of recording. A return is appended first and paired
with its call after that, so that a return refused by the pairing stays
behind unmatched. Operations therefore give back the log also when they
fail.
-/

namespace Linearizability

structure Log (Op : Type) where
  entries : Array (Entry Op) := #[]
  capacity : Nat
  nextId : Nat := 0
  deriving Repr

namespace Log

variable {Op : Type}

def ofCapacity (capacity : Nat) : Log Op := { capacity }

def size (log : Log Op) : Nat := log.entries.size

def head (log : Log Op) : Option Nat := if log.entries.isEmpty then none else some 0

def entry (log : Log Op) (ref : Nat) : Except Fault (Entry Op) :=
  match log.entries[ref]? with
  | some e => .ok e
  | none => .error (.outOfBounds log.size ref)

/-- The recorded history. Every call needs a return. -/
def info (log : Log Op) : Except Fault (History Op) :=
  if log.entries.isEmpty then .ok .empty
  else if log.size % 2 = 0 then .ok ⟨log.entries, some 0, log.size⟩
  else .error (.missingReturn log.size)

/-! ## Recording -/

def push (log : Log Op) (e : Entry Op) : Except Fault Nat × Log Op :=
  if log.size < log.capacity then
    let ref := log.size
    let ⟨entries, capacity, nextId⟩ := log
    let prev := if ref = 0 then none else some (ref - 1)
    let linked := entries.modify (ref - 1) fun last => { last with next := some ref }
    (.ok ref, ⟨linked.push { e with prev }, capacity, nextId⟩)
  else (.error (.logFull log.capacity), log)

/-- The id and the key of an operation whose halves are `call` and `ret`. The id is that of the
call, and the key of the return counts first. -/
def pairing (entries : Array (Entry Op)) (call ret : Nat) : Except Fault (Nat × Option Nat) := do
  let some c := entries[call]? | throw (.outOfBounds entries.size call)
  if !c.isCall then throw (.notACall call)
  if c.matched.isSome then throw (.callAlreadyMatched call)
  let some r := entries[ret]? | throw (.outOfBounds entries.size ret)
  if r.matched.isSome then throw (.returnAlreadyMatched ret)
  if r.isCall then throw (.notAReturn ret)
  return (c.id, r.key.or c.key)

def pair (entries : Array (Entry Op)) (call ret id : Nat) (key : Option Nat) : Array (Entry Op) :=
  (entries.modify ret fun r => { r with matched := some call, id, key }).modify call fun c =>
    { c with matched := some ret, key }

variable [Operation Op]

def addCall (log : Log Op) (op : Op) (thread : Nat) : Except Fault Nat × Log Op :=
  { log with nextId := log.nextId + 1 }.push (.ofOp op log.nextId thread true)

def addRet (log : Log Op) (call : Nat) (op : Op) (thread : Nat) : Except Fault Nat × Log Op :=
  if call < log.size then
    match log.push (.ofOp op 0 thread false) with
    | (.error f, log) => (.error f, log)
    | (.ok ret, log) =>
      match pairing log.entries call ret with
      | .error f => (.error f, log)
      | .ok (id, key) =>
        let ⟨entries, capacity, nextId⟩ := log
        (.ok ret, ⟨pair entries call ret id key, capacity, nextId⟩)
  else (.error (.unknownCall call), log)

/-! ## Copying -/

/-- A copy in the making. `calls` leads from the id of a call to its place in the copy. -/
structure Copy (Op : Type) where
  log : Log Op
  calls : List (Nat × Nat) := []

def Copy.add : Copy Op → Entry Op → Except Fault (Copy Op)
  | ⟨log, calls⟩, e =>
    if e.isCall then
      match log.addCall e.op e.thread with
      | (.error f, _) => .error f
      | (.ok call, log) =>
        let ⟨entries, capacity, nextId⟩ := log
        let entries := entries.modify call fun c => { c with id := e.id }
        .ok ⟨⟨entries, capacity, max nextId (e.id + 1)⟩, (e.id, call) :: calls⟩
    else
      match calls.lookup e.id with
      | none => .error (.returnBeforeCall e.id)
      | some call =>
        match log.addRet call e.op e.thread with
        | (.error f, _) => .error f
        | (.ok _, log) => .ok ⟨log, calls⟩

/-- A copy of a history in a log of its own, just large enough. Ids are kept, links and pairs are
made anew. -/
def ofHistory (h : History Op) : Except Fault (Log Op) :=
  ((h.toList.map (·.2)).foldlM Copy.add ⟨.ofCapacity h.size, []⟩).map Copy.log

def debug (log : Log Op) : String :=
  let entries := ", ".intercalate (log.entries.toList.map (·.debug))
  s!"Log \x7b capacity: {log.capacity}, entries: [{entries}] \x7d"

end Log

end Linearizability
