import Linearizability.CheckError
import Linearizability.Time

/-!
# Configuration of a check

Which visited configurations the search remembers, how many of them a
bounded memo holds, and how long a check may take. None of the three
changes a verdict that is reached.
-/

namespace Linearizability

inductive MemoPolicy where
  | disabled
  | lru
  | always
  deriving DecidableEq, Repr

namespace MemoPolicy

instance : Inhabited MemoPolicy := ⟨always⟩

def all : List MemoPolicy := [disabled, lru, always]

def rank (p : MemoPolicy) : Nat := all.idxOf p

def name : MemoPolicy → String
  | disabled => "disabled"
  | lru => "lru"
  | always => "always"

/-- A policy by its name or by an alias, in upper or lower case of ASCII letters. -/
def parse (text : String) : Except CheckError MemoPolicy :=
  let word := text.map Char.toLower
  if word = "disabled" ∨ word = "never" ∨ word = "none" then .ok disabled
  else if word = "lru" then .ok lru
  else if word = "always" then .ok always
  else .error (.invalidConfig
    s!"unknown cache policy '{word}' (expected disabled, lru or always)")

end MemoPolicy

structure Config where
  memo : MemoPolicy := .always
  /-- The window of the memo under `MemoPolicy.lru`. -/
  lruCapacity : UInt64 := 4096
  timeout : Option Duration := none
  deriving DecidableEq, Repr

namespace Config

instance : Inhabited Config := ⟨{}⟩

def validate (c : Config) : Except CheckError Unit :=
  if c.lruCapacity = 0 then .error (.invalidConfig "lru_capacity must be positive") else .ok ()

end Config

end Linearizability
