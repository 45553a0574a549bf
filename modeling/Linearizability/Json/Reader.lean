import Linearizability.Json.Value

/-!
# Reading JSON

The grammar is the strict one: no comments, no trailing commas, no leading
zeros, no control characters in strings, and nothing but blanks after the
value. Every reader answers what it read and the characters that are left.
-/

namespace Linearizability.Json

def isBlank (c : Char) : Bool := c == ' ' || c == '\n' || c == '\t' || c == '\r'

def skipBlanks (cs : List Char) : List Char := cs.dropWhile isBlank

/-! ## Strings -/

def hexValue? (c : Char) : Option Nat :=
  if '0' ≤ c ∧ c ≤ '9' then some (c.toNat - '0'.toNat)
  else if 'a' ≤ c ∧ c ≤ 'f' then some (c.toNat - 'a'.toNat + 10)
  else if 'A' ≤ c ∧ c ≤ 'F' then some (c.toNat - 'A'.toNat + 10)
  else none

def hex4? (a b c d : Char) : Option Nat := do
  return (((← hexValue? a) * 16 + (← hexValue? b)) * 16 + (← hexValue? c)) * 16 + (← hexValue? d)

def escaped? : Char → Option Char
  | '"' => some '"'
  | '\\' => some '\\'
  | '/' => some '/'
  | 'b' => some '\x08'
  | 'f' => some '\x0c'
  | 'n' => some '\n'
  | 'r' => some '\r'
  | 't' => some '\t'
  | _ => none

/-- The code units of a string, up to and without the quote that closes it. -/
def stringUnits : List Char → Option (List Nat × List Char)
  | [] => none
  | '"' :: rest => some ([], rest)
  | '\\' :: 'u' :: a :: b :: c :: d :: rest =>
    match hex4? a b c d, stringUnits rest with
    | some unit, some (units, rest) => some (unit :: units, rest)
    | _, _ => none
  | '\\' :: c :: rest =>
    match escaped? c, stringUnits rest with
    | some e, some (units, rest) => some (e.toNat :: units, rest)
    | _, _ => none
  | c :: rest =>
    if c.toNat < 32 then none
    else match stringUnits rest with
      | some (units, rest) => some (c.toNat :: units, rest)
      | none => none

def isHighSurrogate (unit : Nat) : Bool := 0xD800 ≤ unit && unit ≤ 0xDBFF

def isLowSurrogate (unit : Nat) : Bool := 0xDC00 ≤ unit && unit ≤ 0xDFFF

def decodeUnits? : List Nat → Option (List Char)
  | [] => some []
  | unit :: rest =>
    if isHighSurrogate unit then
      match rest with
      | low :: rest =>
        if isLowSurrogate low then
          (decodeUnits? rest).map
            (Char.ofNat (0x10000 + (unit - 0xD800) * 0x400 + (low - 0xDC00)) :: ·)
        else none
      | [] => none
    else if isLowSurrogate unit then none
    else (decodeUnits? rest).map (Char.ofNat unit :: ·)

def string (cs : List Char) : Option (Option (List Char) × List Char) :=
  (stringUnits cs).map fun (units, rest) => (decodeUnits? units, rest)

/-! ## Numbers -/

def digits (cs : List Char) : Option (List Char × List Char) :=
  match cs.takeWhile Value.isDigit with
  | [] => none
  | ds => some (ds, cs.dropWhile Value.isDigit)

def integerPart : List Char → Option (List Char × List Char)
  | '0' :: rest => some (['0'], rest)
  | cs => digits cs

def fraction : List Char → Option (List Char × List Char)
  | '.' :: rest => (digits rest).map fun (ds, rest) => ('.' :: ds, rest)
  | cs => some ([], cs)

def exponentDigits : List Char → Option (List Char × List Char)
  | '+' :: rest => (digits rest).map fun (ds, rest) => ('+' :: ds, rest)
  | '-' :: rest => (digits rest).map fun (ds, rest) => ('-' :: ds, rest)
  | cs => digits cs

def exponent : List Char → Option (List Char × List Char)
  | 'e' :: rest => (exponentDigits rest).map fun (ds, rest) => ('e' :: ds, rest)
  | 'E' :: rest => (exponentDigits rest).map fun (ds, rest) => ('E' :: ds, rest)
  | cs => some ([], cs)

def unsigned (cs : List Char) : Option (List Char × List Char) := do
  let (whole, cs) ← integerPart cs
  let (part, cs) ← fraction cs
  let (exp, cs) ← exponent cs
  return (whole ++ part ++ exp, cs)

def number : List Char → Option (List Char × List Char)
  | '-' :: rest => (unsigned rest).map fun (ds, rest) => ('-' :: ds, rest)
  | cs => unsigned cs

/-! ## Values -/

mutual

/-- A value, nested no deeper than `depth` allows. -/
def value : (depth : Nat) → List Char → Option (Value × List Char)
  | 0, _ => none
  | depth + 1, cs =>
    match skipBlanks cs with
    | 'n' :: 'u' :: 'l' :: 'l' :: rest => some (.null, rest)
    | 't' :: 'r' :: 'u' :: 'e' :: rest => some (.bool true, rest)
    | 'f' :: 'a' :: 'l' :: 's' :: 'e' :: rest => some (.bool false, rest)
    | '"' :: rest => (string rest).map fun (text, rest) => (.string text, rest)
    | '[' :: rest =>
      match skipBlanks rest with
      | ']' :: rest => some (.array [], rest)
      | rest => (items depth rest).map fun (vs, rest) => (.array vs, rest)
    | '{' :: rest =>
      match skipBlanks rest with
      | '}' :: rest => some (.object [], rest)
      | rest => (fields depth rest).map fun (fs, rest) => (.object fs, rest)
    | cs => (number cs).map fun (literal, rest) => (.number literal, rest)

def items : (depth : Nat) → List Char → Option (List Value × List Char)
  | 0, _ => none
  | depth + 1, cs =>
    match value depth cs with
    | none => none
    | some (v, rest) =>
      match skipBlanks rest with
      | ',' :: rest => (items depth rest).map fun (vs, rest) => (v :: vs, rest)
      | ']' :: rest => some ([v], rest)
      | _ => none

def fields : (depth : Nat) → List Char →
    Option (List (Option (List Char) × Value) × List Char)
  | 0, _ => none
  | depth + 1, cs =>
    match skipBlanks cs with
    | '"' :: rest =>
      match string rest with
      | none => none
      | some (name, rest) =>
        match skipBlanks rest with
        | ':' :: rest =>
          match value depth rest with
          | none => none
          | some (v, rest) =>
            match skipBlanks rest with
            | ',' :: rest => (fields depth rest).map fun (fs, rest) => ((name, v) :: fs, rest)
            | '}' :: rest => some ([(name, v)], rest)
            | _ => none
        | _ => none
    | _ => none

end

/-- The value that a whole text denotes. Each level and each item takes a character or more. -/
def parse? (cs : List Char) : Option Value :=
  match value (2 * cs.length + 2) cs with
  | some (v, rest) => if skipBlanks rest = [] then some v else none
  | none => none

end Linearizability.Json
