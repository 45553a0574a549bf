import Linearizability.CheckError

/-!
# Broken preconditions

A fault is a mistake of the caller: an operation was asked for outside the
conditions under which it is defined. Each constructor names one condition.
-/

namespace Linearizability

inductive Fault where
  | bitOutOfRange (pos capacity : Nat)
  | emptyWindow
  | pushOntoFull (capacity : Nat)
  | popFromEmpty
  | enqueueOntoFull (capacity : Nat)
  | dequeueFromEmpty
  /-- An entry or a sub-history was asked for by a position that does not exist. -/
  | outOfBounds (size index : Nat)
  | logFull (capacity : Nat)
  | unknownCall (call : Nat)
  | notACall (entry : Nat)
  | callAlreadyMatched (call : Nat)
  | returnAlreadyMatched (ret : Nat)
  | notAReturn (entry : Nat)
  | missingReturn (entries : Nat)
  | recorderFull (capacity : Nat)
  | recorderFinalized
  | slotNotWritten (slot : Nat)
  | returnSlotBeforeCall (slot call : Nat)
  | returnBeforeCall (entryId : Nat)
  | brokenLinks
  | unmatchedEntry (entryId : Nat)
  | matchedOutside (entryId : Nat)
  | invalidConfig (error : CheckError)
  | noVerdict
  /-- A step of the search met a working list or a bitset out of step with its stack. -/
  | searchOutOfStep
  /-- The search went on for longer than any complete history allows. -/
  | searchUnbounded
  deriving DecidableEq, Repr

namespace Fault

def message : Fault → String
  | .bitOutOfRange pos capacity => s!"Bitset position {pos} out of bounds (capacity {capacity})"
  | .emptyWindow => "LruCache capacity must be positive"
  | .pushOntoFull capacity => s!"push onto a full stack (capacity {capacity})"
  | .popFromEmpty => "pop from an empty stack"
  | .enqueueOntoFull capacity => s!"enqueue onto a full queue (capacity {capacity})"
  | .dequeueFromEmpty => "dequeue from an empty queue"
  | .outOfBounds size index => s!"index out of bounds: the len is {size} but the index is {index}"
  | .logFull capacity => s!"Log capacity {capacity} exceeded"
  | .unknownCall call => s!"unknown call entry #{call}"
  | .notACall entry => s!"entry #{entry} is not a call"
  | .callAlreadyMatched call => s!"call #{call} is already matched"
  | .returnAlreadyMatched ret => s!"return #{ret} is already matched"
  | .notAReturn entry => s!"entry #{entry} is a call, not a return"
  | .missingReturn entries => s!"every call needs a return, got {entries} entries"
  | .recorderFull capacity => s!"ConcurrentLog capacity {capacity} exceeded"
  | .recorderFinalized => "ConcurrentLog is already finalized"
  | .slotNotWritten slot => s!"slot {slot} was claimed but never written"
  | .returnSlotBeforeCall slot call => s!"return at {slot} precedes its call #{call}"
  | .returnBeforeCall id => s!"return with entry id {id} precedes its call"
  | .brokenLinks => "history links disagree with its entry count"
  | .unmatchedEntry id => s!"entry {id} has no matching entry"
  | .matchedOutside id => s!"entry {id} is matched outside of the history"
  | .invalidConfig error => error.message
  | .noVerdict => "check timed out, no verdict available"
  | .searchOutOfStep => "the search state is out of step"
  | .searchUnbounded => "the search exceeded its bound"

end Fault

end Linearizability
