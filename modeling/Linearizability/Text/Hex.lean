/-!
# Hexadecimal words
-/

namespace Linearizability.Text

def hexDigit (n : Nat) : Char :=
  if n % 16 < 10 then Char.ofNat ('0'.toNat + n % 16) else Char.ofNat ('a'.toNat + (n % 16 - 10))

def hex16 (w : UInt64) : String :=
  String.ofList ((List.range 16).map fun i => hexDigit (w.toNat >>> (4 * (15 - i))))

def hex (n : Nat) : String := String.ofList (Nat.toDigits 16 n)

end Linearizability.Text
