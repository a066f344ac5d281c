import TinyLisp.Params

/-!
# Primitive operations

The operations that every session starts with, each with its name and its arity. What they
compute is in the modules beside this one.
-/

namespace TinyLisp

/-- An operation that is built in. -/
inductive Primitive
  -- arithmetic
  | add | sub | mul | div | mod
  -- comparison
  | equal | less | lessEq | greater | greaterEq | identical | not
  -- lists
  | cons | car | cdr | list | isList | isPair | isNull | length | append | reverse | nth
  | apply | map
  -- tests and conversions
  | isSymbol | isNumber | isString | isBool | isProcedure | isRecord | typeOf
  | symbolToString | stringToSymbol | stringAppend | stringLength | numberToString
  -- records
  | record | recordGet | recordSet | recordFields
  -- fresh symbols
  | gensym
  -- output and failure
  | print | println | display | newline | error
  deriving Repr, DecidableEq

namespace Primitive

/-- Every primitive operation, once. -/
def all : List Primitive :=
  [add, sub, mul, div, mod,
   equal, less, lessEq, greater, greaterEq, identical, not,
   cons, car, cdr, list, isList, isPair, isNull, length, append, reverse, nth, apply, map,
   isSymbol, isNumber, isString, isBool, isProcedure, isRecord, typeOf,
   symbolToString, stringToSymbol, stringAppend, stringLength, numberToString,
   record, recordGet, recordSet, recordFields,
   gensym,
   print, println, display, newline, error]

/-- The name that a session binds an operation to. -/
def name : Primitive → String
  | add => "+" | sub => "-" | mul => "*" | div => "/" | mod => "mod"
  | equal => "=" | less => "<" | lessEq => "<=" | greater => ">" | greaterEq => ">="
  | identical => "eq?" | not => "not"
  | cons => "cons" | car => "car" | cdr => "cdr" | list => "list" | isList => "list?"
  | isPair => "pair?" | isNull => "null?" | length => "length" | append => "append"
  | reverse => "reverse" | nth => "nth" | apply => "apply" | map => "map"
  | isSymbol => "symbol?" | isNumber => "number?" | isString => "string?" | isBool => "bool?"
  | isProcedure => "procedure?" | isRecord => "record?" | typeOf => "type-of"
  | symbolToString => "symbol->string" | stringToSymbol => "string->symbol"
  | stringAppend => "string-append" | stringLength => "string-length"
  | numberToString => "number->string"
  | record => "record" | recordGet => "record-get" | recordSet => "record-set"
  | recordFields => "record-fields"
  | gensym => "gensym"
  | print => "print" | println => "println" | display => "display" | newline => "newline"
  | error => "error"

/-- The numbers of arguments that an operation takes. -/
def arity : Primitive → Arity
  | add | mul | list | append | stringAppend | print | println | display => .atLeast 0
  | sub | record | error => .atLeast 1
  | apply => .atLeast 2
  | newline => .exactly 0
  | not | car | cdr | isList | isPair | isNull | length | reverse
  | isSymbol | isNumber | isString | isBool | isProcedure | isRecord | typeOf
  | symbolToString | stringToSymbol | stringLength | numberToString | recordFields => .exactly 1
  | div | mod | equal | less | lessEq | greater | greaterEq | identical
  | cons | nth | map | recordGet => .exactly 2
  | recordSet => .exactly 3
  | gensym => .between 0 1

theorem mem_all (p : Primitive) : p ∈ all := by cases p <;> decide

example : all.length = 47 := rfl

/-- Two operations never share a name. -/
theorem name_nodup : (all.map name).Nodup := by decide +kernel

/-- The arities there are, with the three operations whose arity is not shared. -/
theorem arity_cases (p : Primitive) :
    p.arity = .exactly 1 ∨ p.arity = .exactly 2 ∨ (∃ n, p.arity = .atLeast n) ∨
      p = newline ∨ p = recordSet ∨ p = gensym := by
  cases p <;> simp [arity, Arity.exactly]

end Primitive

end TinyLisp
