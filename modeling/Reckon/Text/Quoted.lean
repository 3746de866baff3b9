import Reckon.Text.Hidden

/-!
A text between double quotes, for messages that show what was found in a source. Quote and
backslash take a backslash, the common controls have short names, and a character that would not
be seen is written by its number.
-/
namespace Reckon.Text.Quoted

/-- Lower-case hexadecimal number of a character between braces. -/
def numbered (c : Char) : String :=
  "\\u\x7b" ++ String.ofList (Nat.toDigits 16 c.toNat) ++ "\x7d"

def escape (c : Char) : String :=
  if c = '\x00' then "\\0"
  else if c = '\t' then "\\t"
  else if c = '\r' then "\\r"
  else if c = '\n' then "\\n"
  else if c = '"' then "\\\""
  else if c = '\\' then "\\\\"
  else if isHidden c then numbered c
  else c.toString

def encode (text : String) : String :=
  "\"" ++ String.join (text.toList.map escape) ++ "\""

end Reckon.Text.Quoted
