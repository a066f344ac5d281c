import TinyLisp.Value.Basic
import TinyLisp.Text.Escape
import TinyLisp.Text.Quoted
import TinyLisp.Decimal.Notation

/-!
# The text of a value

A value is written in one of two styles. In the readable style a string is a literal, so that
data read back as what they were; in the plain style a string is its own text. The styles
differ in nothing else.

`write rest` writes a value, or, when `rest` holds, the rest of a list that is already open:
the remaining elements, perhaps a dot and a tail, and the closing parenthesis.
-/

namespace TinyLisp

/-- How strings are written. -/
inductive Style
  /-- As literals, which read back. -/
  | readable
  /-- As their own text. -/
  | plain
  deriving Repr, DecidableEq

/-- The text of a string in a style. -/
def Style.string : Style → String → String
  | readable, s => Text.quoteLiteral s
  | plain, s => s

namespace Value

/-- A datum in the place of a list's rest stands behind a dot and closes the list. -/
def asRest (rest : Bool) (t : List Char) : List Char :=
  if rest then ' ' :: '.' :: ' ' :: t ++ [')'] else t

/-- The decimal digits of an integer, with a minus if it is negative. -/
def intChars (n : Int64) : List Char :=
  (toString n.toInt).toList

mutual

/-- The text of a value, or of the rest of an open list. -/
def write (style : Style) (rest : Bool) : Value → List Char
  | nil => if rest then [')'] else ['(', ')']
  | pair _ a d =>
    (if rest then ' ' else '(') :: (write style false a ++ write style true d)
  | unspecified => asRest rest "#<unspecified>".toList
  | int n => asRest rest (intChars n)
  | float x => asRest rest (Decimal.floatText x).toList
  | bool b => asRest rest (if b then ['#', 't'] else ['#', 'f'])
  | symbol s => asRest rest s.toList
  | string s => asRest rest (style.string s).toList
  | record _ name fields =>
    asRest rest ("#<record ".toList ++ name.toList ++ writeFields style fields ++ ['>'])
  | primitive op => asRest rest ("#<primitive ".toList ++ op.name.toList ++ ['>'])
  | quote v => asRest rest ('\x27' :: write style false v)
  | quasiquote v => asRest rest ('\x60' :: write style false v)
  | unquote v => asRest rest (',' :: write style false v)
  | unquoteSplicing v => asRest rest (',' :: '@' :: write style false v)
  | closure c => asRest rest ("#<closure ".toList ++ c.label.toList ++ ['>'])
  | expander m => asRest rest ("#<macro ".toList ++ m.name.toList ++ ['>'])
  | module m => asRest rest ("#<module ".toList ++ m.name.toList ++ ['>'])
termination_by structural v => v

/-- The fields of a record, each after a space. -/
def writeFields (style : Style) : List (String × Value) → List Char
  | [] => []
  | (f, v) :: fs =>
    ' ' :: (f.toList ++ '=' :: write style false v) ++ writeFields style fs
termination_by structural fs => fs

end

/-- The text of a value in a style. -/
def print (style : Style) (v : Value) : String :=
  String.ofList (v.write style false)

/-- The readable text of a value. -/
def text (v : Value) : String :=
  v.print .readable

end Value

/-! ## Descriptions

What is shown of a function, an expander and a module besides their names. -/

/-- A function with its parameters and the names in its table of captured slots. -/
def Closure.describe (c : Closure) : String :=
  let name := match c.name with
    | none => "None"
    | some n => "Some(" ++ Text.quoted n ++ ")"
  "Closure\x7bname: " ++ name ++ ", params: " ++ c.params.text ++ ", captured: " ++
    Text.quotedList c.captures.names ++ "\x7d"

/-- An expander with its parameters. -/
def Expander.describe (m : Expander) : String :=
  "Macro\x7bname: " ++ m.name ++ ", params: " ++ m.params.text ++ "\x7d"

/-- A module with its export list. -/
def Module.describe (m : Module) : String :=
  "Module\x7bname: " ++ m.name ++ ", exports: " ++ Text.quotedList m.exports ++ "\x7d"

/-- The description of a value that has one. -/
def Value.describe? : Value → Option String
  | closure c => some c.describe
  | expander m => some m.describe
  | module m => some m.describe
  | _ => none

example : (Value.chain (.int 3) [.int 1, .string "a\"b"]).text = "(1 \"a\\\"b\" . 3)" := by cbv
example : (Value.ofList [.quote (.symbol "x"), .nil]).text = "('x ())" := by cbv

end TinyLisp
