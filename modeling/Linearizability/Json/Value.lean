/-!
# JSON values

A value as it was written: numbers keep their digits, and objects keep their
fields in order, repeated ones included. A string whose escapes leave half of
a surrogate pair alone is well-formed but has no text.
-/

namespace Linearizability.Json

inductive Value where
  | null
  | bool (value : Bool)
  | number (literal : List Char)
  | string (text : Option (List Char))
  | array (items : List Value)
  | object (fields : List (Option (List Char) × Value))

namespace Value

def isDigit (c : Char) : Bool := '0' ≤ c && c ≤ '9'

def digitValue (c : Char) : Nat := c.toNat - '0'.toNat

def ofDigits (digits : List Char) : Nat := digits.foldl (fun n c => n * 10 + digitValue c) 0

/-- A number without sign, fraction and exponent, below `bound`. -/
def toNat? (bound : Nat) : Value → Option Nat
  | number literal =>
    if literal.all isDigit && ofDigits literal < bound then some (ofDigits literal) else none
  | _ => none

end Value

end Linearizability.Json
