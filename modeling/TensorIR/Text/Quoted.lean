import TensorIR.Text.Visible

/-!
# Quoted text

A text in double quotes that shows every character: a quote and a backslash are escaped by a
backslash, tab, line feed, carriage return and the null character have a letter of their own, and
any other hidden character is written as the hexadecimal digits of its code point in `\u{…}`.
-/

namespace TensorIR.Text

/-- A character as it stands between quotes. -/
def escape (c : Char) : String :=
  if c = '"' then "\\\""
  else if c = '\\' then "\\\\"
  else if c = '\t' then "\\t"
  else if c = '\n' then "\\n"
  else if c = '\r' then "\\r"
  else if c.toNat = 0 then "\\0"
  else if isVisible c then c.toString
  else "\\u\x7b" ++ String.ofList (Nat.toDigits 16 c.toNat) ++ "\x7d"

/-- The text between quotation marks, with what cannot stand there escaped. -/
def quote (s : String) : String := "\"" ++ String.join (s.toList.map escape) ++ "\""

end TensorIR.Text
