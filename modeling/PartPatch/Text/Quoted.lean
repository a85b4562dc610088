import PartPatch.Text.Hidden

/-!
# Characters in single quotes

Messages show a character in single quotes. The quote itself, the backslash and the common control
characters have escapes of two characters; others without a visible form are given by number.
-/

namespace PartPatch.Text

set_option autoImplicit false

/-- The number in hexadecimal with lower-case digits. -/
def hexadecimal (n : Nat) : String :=
  String.ofList (Nat.toDigits 16 n)

/-- How a character is written between single quotes. -/
def escaped (c : Char) : String :=
  if c = '\x00' then "\\0"
  else if c = '\t' then "\\t"
  else if c = '\n' then "\\n"
  else if c = '\r' then "\\r"
  else if c = '\x27' then "\\'"
  else if c = '\\' then "\\\\"
  else if isHidden c then "\\u\x7b" ++ hexadecimal c.toNat ++ "\x7d"
  else c.toString

def quoted (c : Char) : String :=
  "'" ++ escaped c ++ "'"

end PartPatch.Text
