import Linearizability.Decimal.Shortest

/-!
# Floats as texts

Floats are written with their shortest digits. From 10⁻⁴ up to below 10¹⁶
the notation is positional and always has a fraction; elsewhere there is one
digit before the point, if a point is needed, and a power of ten.
-/

namespace Linearizability

namespace Decimal

def ofBits (bits : Nat) : Decimal :=
  let fraction := bits % (1 <<< 52)
  let biased : Nat := bits >>> 52
  if biased = 0 then (Interval.ofBinary fraction (-1074) false).shortest
  else (Interval.ofBinary ((1 <<< 52) + fraction) ((biased : Int) - 1075)
    (fraction == 0 && biased != 1)).shortest

def zeros (n : Nat) : String := String.ofList (List.replicate n '0')

/-- The digits without the zeros at their end, and how many these were. -/
def trimmed (digits : List Char) : List Char × Nat :=
  let kept := (digits.reverse.dropWhile (· == '0')).reverse
  (kept, digits.length - kept.length)

def positional (digits : List Char) (point : Int) : String :=
  let text := String.ofList digits
  let count := digits.length
  if point ≤ 0 then "0." ++ zeros (-point).toNat ++ text
  else if point.toNat ≥ count then text ++ zeros (point.toNat - count) ++ ".0"
  else String.ofList (digits.take point.toNat) ++ "." ++ String.ofList (digits.drop point.toNat)

def scientific (digits : List Char) (point : Int) : String :=
  let mantissa := match digits with
    | [] => "0"
    | [d] => d.toString
    | d :: ds => d.toString ++ "." ++ String.ofList ds
  mantissa ++ "e" ++ toString (point - 1)

def text (d : Decimal) : String :=
  let (digits, dropped) := trimmed (Nat.toDigits 10 d.digits)
  let point := d.exponent + dropped + digits.length
  if -3 ≤ point ∧ point ≤ 16 then positional digits point else scientific digits point

end Decimal

def floatText (x : Float) : String :=
  let bits := x.toBits.toNat
  let sign := if bits >>> 63 = 1 then "-" else ""
  let rest := bits % (1 <<< 63)
  if rest = 0 then sign ++ "0.0"
  else if rest = 0x7FF <<< 52 then sign ++ "inf"
  else if rest > 0x7FF <<< 52 then "NaN"
  else sign ++ (Decimal.ofBits rest).text

end Linearizability
