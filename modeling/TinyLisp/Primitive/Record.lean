import TinyLisp.Primitive.Argument
import TinyLisp.Table

/-!
# Fields of records

The fields of a record are a table by name: no name occurs twice, and fields keep the order in
which they were first given. A record is never changed; setting a field gives a new one.
-/

namespace TinyLisp

/-- The fields of a record. -/
abbrev Fields := Table String Value

namespace Fields

/-- Why fields cannot be had from arguments. -/
inductive Fault
  | type (fault : TypeFault)
  | twice (field : String)

/-- Adds the fields that names and values in turn spell to fields had so far. -/
def addAll (fields : Fields) : List Value → Except Fault Fields
  | name :: v :: rest =>
    match name.expectName with
    | .error fault => .error (.type fault)
    | .ok f =>
      if (fields.get? f).isSome then .error (.twice f) else addAll (fields.set f v) rest
  | _ => .ok fields

/-- The fields that names and values in turn spell. -/
def ofArguments (args : List Value) : Except Fault Fields :=
  addAll [] args

end Fields

end TinyLisp
