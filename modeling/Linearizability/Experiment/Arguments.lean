import Linearizability.Config.Basic

/-!
# Arguments of an experiment

The words of the command line are read from left to right. An option that
takes a value waits for the next word, unless its value is attached by an
equals sign. Its value is looked at when the next argument begins, or at the
end, so that an argument without a place is reported before a bad value
right in front of it. After two dashes every word is positional.
-/

namespace Linearizability

inductive ModelKind where
  | set
  | stack
  | queue
  | register
  deriving DecidableEq, Repr

def ModelKind.ofName? : String → Option ModelKind
  | "set" => some .set
  | "stack" => some .stack
  | "queue" => some .queue
  | "register" => some .register
  | _ => none

inductive UsageError where
  /-- A value that is not one of those listed, or an option without its value. -/
  | invalidValue
  | valueValidation
  | unknownArgument
  | missingRequiredArgument
  | argumentConflict
  | tooManyValues
  | displayHelp
  deriving DecidableEq, Repr

structure Arguments where
  model : ModelKind
  threads : UInt64 := 4
  ops : UInt64 := 1000
  maxValue : UInt8 := 20
  capacity : UInt64 := 64
  memo : Option MemoPolicy := none
  lruCapacity : Option UInt64 := none
  timeoutSecs : Option UInt64 := none
  partitions : Option UInt64 := none
  corrupt : Bool := false
  trace : Bool := false
  config : Option String := none
  deriving DecidableEq, Repr

namespace Arguments

inductive Field where
  | model
  | threads
  | ops
  | maxValue
  | capacity
  | memo
  | lruCapacity
  | timeoutSecs
  | partitions
  | config
  deriving DecidableEq, Repr

inductive Switch where
  | corrupt
  | trace
  | help
  deriving DecidableEq, Repr

inductive LongOption where
  | field (f : Field)
  | switch (s : Switch)

def ofName? : String → Option LongOption
  | "threads" => some (.field .threads)
  | "ops" => some (.field .ops)
  | "max-value" => some (.field .maxValue)
  | "capacity" => some (.field .capacity)
  | "cache" => some (.field .memo)
  | "lru-capacity" => some (.field .lruCapacity)
  | "timeout-secs" => some (.field .timeoutSecs)
  | "partitions" => some (.field .partitions)
  | "config" => some (.field .config)
  | "corrupt" => some (.switch .corrupt)
  | "trace" => some (.switch .trace)
  | "help" => some (.switch .help)
  | _ => none

/-! ## Values -/

def digits? (cs : List Char) : Option Nat :=
  if cs.isEmpty || !cs.all Char.isDigit then none
  else some (cs.foldl (fun n c => n * 10 + (c.toNat - '0'.toNat)) 0)

def unsigned? (text : String) : Option Nat :=
  match text.toList with
  | '+' :: cs => digits? cs
  | cs => digits? cs

def word (text : String) : Except UsageError UInt64 :=
  match unsigned? text with
  | some n => if n < UInt64.size then .ok (UInt64.ofNat n) else .error .valueValidation
  | none => .error .valueValidation

/-- A byte may be written with either sign, so that a negative zero is one. -/
def byte (text : String) : Except UsageError UInt8 :=
  match text.toList with
  | '-' :: cs => if digits? cs = some 0 then .ok 0 else .error .valueValidation
  | _ =>
    match unsigned? text with
    | some n => if n < 256 then .ok (UInt8.ofNat n) else .error .valueValidation
    | none => .error .valueValidation

def policy (text : String) : Except UsageError MemoPolicy :=
  (MemoPolicy.parse text).mapError fun _ => .valueValidation

def modelKind (text : String) : Except UsageError ModelKind :=
  match ModelKind.ofName? text with
  | some m => .ok m
  | none => .error .invalidValue

def path (text : String) : Except UsageError String :=
  if text.isEmpty then .error .invalidValue else .ok text

/-! ## Reading words -/

structure Draft where
  model : Option ModelKind := none
  threads : Option UInt64 := none
  ops : Option UInt64 := none
  maxValue : Option UInt8 := none
  capacity : Option UInt64 := none
  memo : Option MemoPolicy := none
  lruCapacity : Option UInt64 := none
  timeoutSecs : Option UInt64 := none
  partitions : Option UInt64 := none
  corrupt : Bool := false
  trace : Bool := false
  config : Option String := none
  pending : Option (Field × Option String) := none
  positional : Bool := false

namespace Draft

def fill {α : Type} (old : Option α) (read : String → Except UsageError α) (text : String) :
    Except UsageError (Option α) :=
  if old.isSome then .error .argumentConflict else (read text).map some

def assign (d : Draft) (f : Field) (text : String) : Except UsageError Draft := do
  match f with
  | .model => return { d with model := ← fill d.model modelKind text }
  | .threads => return { d with threads := ← fill d.threads word text }
  | .ops => return { d with ops := ← fill d.ops word text }
  | .maxValue => return { d with maxValue := ← fill d.maxValue byte text }
  | .capacity => return { d with capacity := ← fill d.capacity word text }
  | .memo => return { d with memo := ← fill d.memo policy text }
  | .lruCapacity => return { d with lruCapacity := ← fill d.lruCapacity word text }
  | .timeoutSecs => return { d with timeoutSecs := ← fill d.timeoutSecs word text }
  | .partitions => return { d with partitions := ← fill d.partitions word text }
  | .config => return { d with config := ← fill d.config path text }

def settle (d : Draft) : Except UsageError Draft :=
  match d.pending with
  | none => .ok d
  | some (_, none) => .error .invalidValue
  | some (f, some text) => { d with pending := none }.assign f text

def turnOn (d : Draft) : Switch → Except UsageError Draft
  | .corrupt => if d.corrupt then .error .argumentConflict else .ok { d with corrupt := true }
  | .trace => if d.trace then .error .argumentConflict else .ok { d with trace := true }
  | .help => .error .displayHelp

/-- A word that no option waits for. There is a place for one, the model. -/
def addWord (d : Draft) (text : String) : Except UsageError Draft :=
  if d.positional then .error .unknownArgument
  else do return { ← d.settle with pending := some (.model, some text), positional := true }

def addLong (d : Draft) (name : String) (attached : Option String) : Except UsageError Draft := do
  match ofName? name, attached with
  | none, _ => throw .unknownArgument
  | some (.field f), none =>
    let d ← d.settle
    return { d with pending := some (f, none) }
  | some (.field f), some text => (← d.settle).assign f text
  | some (.switch s), none => (← d.settle).turnOn s
  | some (.switch _), some _ => throw .tooManyValues

def addShort (d : Draft) : List Char → Except UsageError Draft
  | 'h' :: _ => do (← d.settle).turnOn .help
  | _ => .error .unknownArgument

def splitAttached (cs : List Char) : String × Option String :=
  let name := String.ofList (cs.takeWhile (· != '='))
  match cs.dropWhile (· != '=') with
  | [] => (name, none)
  | _ :: value => (name, some (String.ofList value))

def addPositionals (d : Draft) (words : List String) : Except UsageError Draft :=
  words.foldlM addWord d

def addWords (d : Draft) : List String → Except UsageError Draft
  | [] => .ok d
  | text :: rest => do
    match text.toList with
    | ['-', '-'] => d.addPositionals rest
    | '-' :: '-' :: cs =>
      let (name, attached) := splitAttached cs
      (← d.addLong name attached).addWords rest
    | '-' :: c :: cs => (← d.addShort (c :: cs)).addWords rest
    | _ =>
      match d.pending with
      | some (f, none) => addWords { d with pending := some (f, some text) } rest
      | _ => (← d.addWord text).addWords rest

def finish (d : Draft) : Except UsageError Arguments := do
  let d ← d.settle
  let some model := d.model | throw .missingRequiredArgument
  let defaults : Arguments := { model }
  return {
    model
    threads := d.threads.getD defaults.threads
    ops := d.ops.getD defaults.ops
    maxValue := d.maxValue.getD defaults.maxValue
    capacity := d.capacity.getD defaults.capacity
    memo := d.memo
    lruCapacity := d.lruCapacity
    timeoutSecs := d.timeoutSecs
    partitions := d.partitions
    corrupt := d.corrupt
    trace := d.trace
    config := d.config }

end Draft

def parse (words : List String) : Except UsageError Arguments := do
  (← ({} : Draft).addWords words).finish

end Arguments

end Linearizability
