import Linearizability.Config.Basic
import Linearizability.Json.Reader

/-!
# The JSON form of a configuration

Written, a configuration is an object of three fields without blanks. To be
read, it may leave fields out and carry fields of other names; or it is an
array of the three values, of which the last may be left out. A known field
counts once, and a policy goes by its exact name.
-/

namespace Linearizability

open Json (Value)

/-! ## Writing -/

def MemoPolicy.toJson (p : MemoPolicy) : String := "\"" ++ p.name ++ "\""

def Duration.toJson (d : Duration) : String :=
  "\x7b\"secs\":" ++ toString d.secs ++ ",\"nanos\":" ++ toString d.nanos.val ++ "\x7d"

def Config.toJson (c : Config) : String :=
  "\x7b\"cache\":" ++ c.memo.toJson ++ ",\"lru_capacity\":" ++ toString c.lruCapacity ++
    ",\"timeout\":" ++ c.timeout.elim "null" Duration.toJson ++ "\x7d"

/-! ## Reading -/

def MemoPolicy.ofName? (name : List Char) : Option MemoPolicy :=
  all.find? fun p => p.name.toList == name

/-- A name, or an object that leads from it to null. -/
def MemoPolicy.ofJson? : Value → Option MemoPolicy
  | .string (some name) => ofName? name
  | .object [(some name, .null)] => ofName? name
  | _ => none

/-- Seconds in 64 bits and nanoseconds in 32. Whole seconds among the nanoseconds are carried. -/
def Duration.ofParts (secs nanos : Value) : Option Duration := do
  ofParts? (← secs.toNat? UInt64.size) (← nanos.toNat? UInt32.size)

def Duration.ofJson? : Value → Option Duration
  | .array [secs, nanos] => ofParts secs nanos
  | .object [(some a, v), (some b, w)] =>
    if a = "secs".toList ∧ b = "nanos".toList then ofParts v w
    else if a = "nanos".toList ∧ b = "secs".toList then ofParts w v
    else none
  | _ => none

namespace Config

def ofLruJson? (v : Value) : Option UInt64 := (v.toNat? UInt64.size).map UInt64.ofNat

def ofTimeoutJson? : Value → Option (Option Duration)
  | .null => some none
  | v => (Duration.ofJson? v).map some

/-- The value of a field that may be missing, but not be there twice. -/
def field? {α : Type} (fields : List (Option (List Char) × Value)) (name : String) (default : α)
    (read : Value → Option α) : Option α :=
  match fields.filter fun f => f.1 == some name.toList with
  | [] => some default
  | [(_, v)] => read v
  | _ => none

def ofJson? : Value → Option Config
  | .object fields => do
    guard (fields.all fun f => f.1.isSome)
    let d : Config := {}
    let memo ← field? fields "cache" d.memo MemoPolicy.ofJson?
    let lruCapacity ← field? fields "lru_capacity" d.lruCapacity ofLruJson?
    let timeout ← field? fields "timeout" d.timeout ofTimeoutJson?
    return { memo, lruCapacity, timeout }
  | .array [] => some {}
  | .array [memo] => do return { memo := ← MemoPolicy.ofJson? memo }
  | .array [memo, lru] => do
    return { memo := ← MemoPolicy.ofJson? memo, lruCapacity := ← ofLruJson? lru }
  | .array [memo, lru, timeout] => do
    return {
      memo := ← MemoPolicy.ofJson? memo
      lruCapacity := ← ofLruJson? lru
      timeout := ← ofTimeoutJson? timeout }
  | _ => none

def parse? (text : String) : Option Config := (Json.parse? text.toList).bind ofJson?

end Config

end Linearizability
