import TinyLisp.Expr.Basic
import TinyLisp.Reader
import TinyLisp.Disk

/-!
# Failures of evaluation

Each failure is recorded by its cause; its wording is in one place, beside its type.
-/

namespace TinyLisp

/-! ## §1. Causes -/

/-- How a value can be of a wrong type. -/
inductive TypeFault
  /-- Something else was expected; both are said in words. -/
  | mismatch (expected got : String)
  | notANumber (v : Value)
  | notApplicable (v : Value)
  /-- An expander in the place of a function. -/
  | expanderApplied (name : String)
  /-- An unquote or a splice, said by its type, with no template around it. -/
  | holeOutsideTemplate (typeName : String)
  | spliceOutsideList
  | spliceNotAList (v : Value)

/-- The wording of a type fault. -/
def TypeFault.message : TypeFault → String
  | mismatch expected got => "expected " ++ expected ++ ", got " ++ got
  | notANumber v => "expected a number, got " ++ v.text ++ " of type " ++ v.typeName
  | notApplicable v => "cannot apply " ++ v.text ++ " of type " ++ v.typeName
  | expanderApplied name => "macro " ++ name ++ " cannot be applied as a function"
  | holeOutsideTemplate t => t ++ " outside of quasiquote"
  | spliceOutsideList => "unquote-splicing outside of a list"
  | spliceNotAList v => "unquote-splicing expects a proper list, got " ++ v.text

/-- How a primitive operation can fail by itself. -/
inductive PrimitiveFault
  | divisionByZero
  | indexOutside (index : Int) (length : Nat)
  | fieldWithoutValue
  | fieldTwice (field : String)
  | noSuchField (record field : String)
  /-- The message of a program's own error. -/
  | raised (message : String)

/-- The wording of a primitive fault. -/
def PrimitiveFault.message : PrimitiveFault → String
  | divisionByZero => "division by zero"
  | indexOutside i n => "index " ++ toString i ++ " outside 0.." ++ Nat.repr n
  | fieldWithoutValue => "every field needs a value"
  | fieldTwice f => "field " ++ f ++ " given twice"
  | noSuchField r f => "record " ++ r ++ " has no field " ++ f
  | raised m => m

/-- Why a module cannot be had. -/
inductive LoadFault
  | missingExport (name : String)
  | notInSearchPath
  /-- The file is being loaded already. -/
  | circular
  | file (e : FileError)
  | read (e : ReadError)

/-- The wording of a load fault. -/
def LoadFault.message : LoadFault → String
  | missingExport name => "exported name " ++ name ++ " is not defined"
  | notInSearchPath => "not found in search path"
  | circular => "circular import"
  | file e => e.message
  | read e => e.message

/-! ## §2. Failures -/

/-- Why an evaluation fails. -/
inductive EvalError
  | unbound (name : String)
  /-- A name was read before its value was assigned. -/
  | unassigned (name : String)
  | arity (e : ArityError)
  | notAnExpander (shown : String)
  | notAModule (name : String)
  | unavailable (path : String) (fault : LoadFault)
  | type (fault : TypeFault)
  | expansionLimit (name : String) (limit : Nat)
  | form (e : FormError)
  | primitive (op : Primitive) (fault : PrimitiveFault)

/-- The wording of a failure. -/
def EvalError.message : EvalError → String
  | unbound name => "'" ++ name ++ "' not found"
  | unassigned name => "'" ++ name ++ "' was read before its value was assigned"
  | arity e => e.message
  | notAnExpander shown => "'" ++ shown ++ "' is not a macro"
  | notAModule name => "'" ++ name ++ "' is not a module"
  | unavailable path fault => "cannot load module " ++ path ++ ": " ++ fault.message
  | type fault => "type error: " ++ fault.message
  | expansionLimit name limit =>
    "expanding macro " ++ name ++ " did not settle after " ++ Nat.repr limit ++ " steps"
  | form e => "syntax error: " ++ e.message
  | primitive op fault => op.name ++ ": " ++ fault.message

end TinyLisp
