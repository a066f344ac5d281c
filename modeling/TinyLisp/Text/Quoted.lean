import TinyLisp.Text.Visible

/-!
# Quoted names

How a name is shown inside a description of a function, module or scope: between double
quotes, with a backslash escape for the quote, the backslash and the common control
characters, and the code point in hexadecimal for every other hidden character. Unlike a
string literal this form is only shown, never read.
-/

namespace TinyLisp.Text

/-- A number in lower-case hexadecimal. -/
def hexadecimal (n : Nat) : String :=
  String.ofList (Nat.toDigits 16 n)

/-- One character of a quoted name. -/
def quotedChar (c : Char) : String :=
  if c = '\x00' then "\\0"
  else if c = '\t' then "\\t"
  else if c = '\r' then "\\r"
  else if c = '\n' then "\\n"
  else if c = '\x22' then "\\\""
  else if c = '\\' then "\\\\"
  else if isHidden c then "\\u\x7b" ++ hexadecimal c.toNat ++ "\x7d"
  else c.toString

/-- A name between double quotes. -/
def quoted (s : String) : String :=
  "\"" ++ String.join (s.toList.map quotedChar) ++ "\""

/-- A bracketed list of quoted names. -/
def quotedList (names : List String) : String :=
  "[" ++ ", ".intercalate (names.map quoted) ++ "]"

example : quoted "a\"b\\" = "\"a\\\"b\\\\\"" := by cbv
example : quoted "\r\x1b" = "\"\\r\\u\x7b1b\x7d\"" := by cbv
example : quotedList ["x", "y"] = "[\"x\", \"y\"]" := by cbv

end TinyLisp.Text
