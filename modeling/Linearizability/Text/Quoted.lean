import Linearizability.Text.Hex
import Linearizability.Text.Shows

/-!
# Quoted texts

A quoted text stands between double quotes. Quotes and backslashes in it are
escaped, and so is every character that does not show: a few by a letter, the
rest by their code.
-/

namespace Linearizability.Text

def escape (c : Char) : String :=
  match c with
  | '\x00' => "\\0"
  | '\t' => "\\t"
  | '\n' => "\\n"
  | '\r' => "\\r"
  | '"' => "\\\""
  | '\\' => "\\\\"
  | c => if shows c then c.toString else "\\u\x7b" ++ hex c.toNat ++ "\x7d"

def quoted (s : String) : String := "\"" ++ String.join (s.toList.map escape) ++ "\""

end Linearizability.Text
