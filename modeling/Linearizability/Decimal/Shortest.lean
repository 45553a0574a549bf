/-!
# Shortest decimals

A binary number of finite precision stands for all reals that round to it.
Of these the shortest decimals have the fewest digits, and the nearest of
those is the decimal of the number. Of two that are equally near the larger
is taken.

The search goes over grids of one digit, two digits, and so on. On each grid
only the two neighbours of the number itself have to be tried: if any point
of the grid lies in the interval, one of them does.
-/

namespace Linearizability

structure Decimal where
  digits : Nat
  exponent : Int
  deriving DecidableEq, Repr

namespace Decimal

/-- The number `num / den`, with the ends of the interval of reals that round to it over the same
denominator. -/
structure Interval where
  low : Nat
  num : Nat
  high : Nat
  den : Nat
  /-- Whether the ends themselves round to the number. -/
  closed : Bool

namespace Interval

/-- Twice-scaled interval of `mantissa * 2 ^ exponent`. Below the mantissa of a power of two the
next number is only half as far. -/
def ofBinary (mantissa : Nat) (exponent : Int) (isPower : Bool) : Interval :=
  let up := 1 <<< exponent.toNat
  let down := 1 <<< (-exponent).toNat
  { low := (4 * mantissa - if isPower then 1 else 2) * up
    num := 4 * mantissa * up
    high := (4 * mantissa + 2) * up
    den := 4 * down
    closed := mantissa % 2 == 0 }

def contains (i : Interval) (point scale : Nat) : Bool :=
  if i.closed then i.low * scale ≤ point * i.den && point * i.den ≤ i.high * scale
  else i.low * scale < point * i.den && point * i.den < i.high * scale

/-- The decimal exponent of the number, its first digit's place: at most `fuel` places above
`place`. -/
def magnitude (i : Interval) : (fuel : Nat) → (place : Int) → Int
  | 0, place => place
  | fuel + 1, place =>
    let next := place + 1
    if Nat.pow 10 next.toNat * i.den ≤ i.num * Nat.pow 10 (-next).toNat then i.magnitude fuel next
    else place

/-- The nearer of the number's two neighbours on the grid of `10 ^ exponent`, among those that lie
in the interval. -/
def onGrid? (i : Interval) (exponent : Int) : Option Decimal :=
  let up := Nat.pow 10 exponent.toNat
  let down := Nat.pow 10 (-exponent).toNat
  let below := i.num * down / (i.den * up)
  let above := below + 1
  let hasBelow := below != 0 && i.contains (below * up) down
  let hasAbove := i.contains (above * up) down
  let belowNearer := 2 * (i.num * down) < (below + above) * (i.den * up)
  if hasBelow && (belowNearer || !hasAbove) then some ⟨below, exponent⟩
  else if hasAbove then some ⟨above, exponent⟩
  else none

def shortestFrom (i : Interval) : (fuel : Nat) → (exponent : Int) → Option Decimal
  | 0, _ => none
  | fuel + 1, exponent =>
    match i.onGrid? exponent with
    | some d => some d
    | none => i.shortestFrom fuel (exponent - 1)

/-- Seventeen digits tell every number of 53 binary places. -/
def shortest (i : Interval) : Decimal :=
  ((i.shortestFrom 18 (i.magnitude 650 (-330))).getD ⟨i.num / i.den, 0⟩)

end Interval

end Decimal

end Linearizability
