import ExprEngine.Text.GraphemeExtend

/-!
# Escaped text

* `Text.quoted`          a string in double quotes, every character shown unambiguously;
* `Text.escapedAscii`    a character as ASCII, the form error messages use.
-/

namespace ExprEngine.Text

/-- A number in lower-case hexadecimal. -/
def hex (n : Nat) : String := String.ofList (Nat.toDigits 16 n)

/-- A character by its code point, in braces. -/
def codePoint (c : Char) : String := "\\u\x7b" ++ hex c.toNat ++ "\x7d"

/-- One character of a quoted string. The single quote needs no escape there. -/
def quotedChar (c : Char) : String :=
  if c == '\x00' then "\\0"
  else if c == '\t' then "\\t"
  else if c == '\r' then "\\r"
  else if c == '\n' then "\\n"
  else if c == '"' then "\\\""
  else if c == '\\' then "\\\\"
  else if isGraphemeExtend c || !isPrintable c then codePoint c
  else String.singleton c

/-- A string in double quotes. -/
def quoted (s : String) : String :=
  "\"" ++ String.join (s.toList.map quotedChar) ++ "\""

/-- A character in ASCII: as itself when it prints, by a short escape or by its code point. -/
def escapedAscii (c : Char) : String :=
  if c == '\t' then "\\t"
  else if c == '\r' then "\\r"
  else if c == '\n' then "\\n"
  else if c == '\'' then "\\'"
  else if c == '"' then "\\\""
  else if c == '\\' then "\\\\"
  else if 0x20 ≤ c.toNat && c.toNat ≤ 0x7E then String.singleton c
  else codePoint c

end ExprEngine.Text
