/-!
This module contains quoted texts: a text between double quotes, in which quotes, backslashes and
control characters are written as escapes. It is meant for texts in ASCII.
-/

namespace Lookahead

namespace Quoted

def escape (c : Char) : String :=
  match c with
  | '"' => "\\\""
  | '\\' => "\\\\"
  | '\t' => "\\t"
  | '\n' => "\\n"
  | '\r' => "\\r"
  | '\x00' => "\\0"
  | c =>
    if c.val < 0x20 ∨ c.val = 0x7F then
      "\\u\x7b" ++ String.ofList (Nat.toDigits 16 c.toNat) ++ "\x7d"
    else
      c.toString

end Quoted

def quoted (s : String) : String := "\"" ++ String.join (s.toList.map Quoted.escape) ++ "\""

end Lookahead
