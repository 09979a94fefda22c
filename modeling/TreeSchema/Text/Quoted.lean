import TreeSchema.Text.Hidden

/-!
Quoted literals: a string between double quotes on one visible line. Quotes,
backslashes and the common controls take a backslash; any other character
that would not be seen is named by its code point.
-/

namespace TreeSchema.Text

/-- Hexadecimal digits in lower case, without padding. -/
def hexadecimal (n : Nat) : String :=
  String.ofList (Nat.toDigits 16 n)

def escaped (c : Char) : String :=
  match c with
  | '"' => "\\\""
  | '\\' => "\\\\"
  | '\n' => "\\n"
  | '\r' => "\\r"
  | '\t' => "\\t"
  | '\x00' => "\\0"
  | c => if isHidden c then "\\u\x7b" ++ hexadecimal c.toNat ++ "\x7d" else c.toString

def quoted (s : String) : String :=
  "\"" ++ String.join (s.toList.map escaped) ++ "\""

end TreeSchema.Text
