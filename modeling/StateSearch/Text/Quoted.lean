import StateSearch.Text.Hidden

/-!
# Quoted text

Text in double quotes, for people to read. Quotes and backslashes get a backslash in front, the usual
blanks have letters of their own, and all other characters that do not show are written as their code.
-/

namespace StateSearch.Text

/-- A number in lower-case hexadecimal digits. -/
def hexadecimal (number : Nat) : String := String.ofList (Nat.toDigits 16 number)

/-- A character as it stands between quotes. -/
def quotedChar (c : Char) : String :=
  if c == '"' then "\\\""
  else if c == '\\' then "\\\\"
  else if c == '\n' then "\\n"
  else if c == '\t' then "\\t"
  else if c == '\r' then "\\r"
  else if c == '\x00' then "\\0"
  else if isHidden c then "\\u\x7b" ++ hexadecimal c.toNat ++ "\x7d"
  else c.toString

def quoted (text : String) : String :=
  "\"" ++ String.join (text.toList.map quotedChar) ++ "\""

end StateSearch.Text
