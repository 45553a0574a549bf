import Linearizability.Experiment.Container

/-!
# Random workloads

Requests are drawn one after another, and so are the turns of a schedule.
Every drawing gives back the generator for the next one.
-/

namespace Linearizability.Workload

variable {α : Type}

def drawUpTo (most : Nat) (g : StdGen) : Nat × StdGen := randNat g 0 most

def drawByte (most : UInt8) (g : StdGen) : UInt8 × StdGen :=
  (drawUpTo most.toNat g).map UInt8.ofNat id

def signedMost (most : UInt8) : Nat := min most.toNat 127

/-- A value from 0 to `most`, or to 127. -/
def drawSigned (most : UInt8) (g : StdGen) : Int8 × StdGen :=
  (drawUpTo (signedMost most) g).map Int8.ofNat id

/-- 30 in 100 requests insert, 20 erase and the rest ask. -/
def drawSet (most : UInt8) (g : StdGen) : SharedSet.Request × StdGen :=
  let (value, g) := drawByte most g
  let (die, g) := drawUpTo 99 g
  (if die < 30 then .insert value else if die < 50 then .erase value else .contains value, g)

def drawStack (most : UInt8) (g : StdGen) : BoundedStack.Request × StdGen :=
  let (die, g) := drawUpTo 1 g
  if die = 0 then (drawByte most g).map .push id else (.pop, g)

def drawQueue (most : UInt8) (g : StdGen) : BoundedQueue.Request × StdGen :=
  let (die, g) := drawUpTo 1 g
  if die = 0 then (drawByte most g).map .enqueue id else (.dequeue, g)

/-- 40 in 100 requests read, 30 write and 30 swap. The value to be swapped out may be -1. -/
def drawCell (most : UInt8) (g : StdGen) : SharedCell.Request × StdGen :=
  let (die, g) := drawUpTo 99 g
  if die < 40 then (.read, g)
  else if die < 70 then (drawSigned most g).map .write id
  else
    let (place, g) := drawUpTo (signedMost most + 1) g
    let (new, g) := drawSigned most g
    (.cas (Int8.ofInt (place - 1)) new, g)

def drawList (draw : StdGen → α × StdGen) : (count : Nat) → StdGen → List α × StdGen
  | 0, g => ([], g)
  | count + 1, g =>
    let (a, g) := draw g
    let (rest, g) := drawList draw count g
    (a :: rest, g)

def drawMix (one other : Nat) : (turns others : Nat) → StdGen → List Nat × StdGen
  | 0, others, g => (List.replicate others other, g)
  | turns, 0, g => (List.replicate turns one, g)
  | turns + 1, others + 1, g =>
    let (die, g) := drawUpTo 1 g
    if die = 0 then
      let (rest, g) := drawMix one other turns (others + 1) g
      (one :: rest, g)
    else
      let (rest, g) := drawMix one other (turns + 1) others g
      (other :: rest, g)

def turnsFor (requests : Nat) : Nat := 5 * requests

def turns (requests worker : Nat) : List Nat := List.replicate (turnsFor requests) worker

/-- A worker goes through some requests alone. One time in eight it shares its time with another. -/
def drawSlice (workers : Nat) (g : StdGen) : List Nat × StdGen :=
  let (one, g) := drawUpTo (workers - 1) g
  let (die, g) := drawUpTo 7 g
  if die = 0 then
    let (other, g) := drawUpTo (workers - 1) g
    drawMix one other (turnsFor 2) (turnsFor 2) g
  else
    let (requests, g) := drawUpTo 7 g
    (turns requests one, g)

/-- About as many turns as `workers` workers need for `requests` requests each: one worker may get
more than it needs, and another fewer. -/
def drawSchedule (workers requests : Nat) (g : StdGen) : List Nat × StdGen :=
  let (slices, g) := drawList (drawSlice workers) (workers * requests / 4) g
  (slices.flatten, g)

end Linearizability.Workload
