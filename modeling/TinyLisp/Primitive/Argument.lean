import TinyLisp.Error

/-!
# Arguments of primitive operations

Each accessor takes a value apart, or says what was expected and what was got.
-/

namespace TinyLisp.Value

/-- A value in a place where something else was expected. -/
def mismatch (expected : String) (v : Value) : TypeFault :=
  .mismatch expected v.typeName

/-- An integer. -/
def expectInt : Value → Except TypeFault Int64
  | int n => .ok n
  | v => .error (v.mismatch "an integer")

/-- The name of a symbol. -/
def expectSymbol : Value → Except TypeFault String
  | symbol s => .ok s
  | v => .error (v.mismatch "a symbol")

/-- The text of a string. -/
def expectString : Value → Except TypeFault String
  | string s => .ok s
  | v => .error (v.mismatch "a string")

/-- A name, given as a string or as a symbol. -/
def expectName : Value → Except TypeFault String
  | string s => .ok s
  | symbol s => .ok s
  | v => .error (v.mismatch "a string or symbol")

/-- The parts of a pair. -/
def expectPair : Value → Except TypeFault (Value × Value)
  | pair _ a d => .ok (a, d)
  | v => .error (v.mismatch "a pair")

/-- The elements of a proper list. -/
def expectList (v : Value) : Except TypeFault (List Value) :=
  match v.elements? with
  | some vs => .ok vs
  | none => .error (v.mismatch "a proper list")

/-- The name and the fields of a record. -/
def expectRecord : Value → Except TypeFault (String × List (String × Value))
  | record _ name fields => .ok (name, fields)
  | v => .error (v.mismatch "a record")

/-- The elements of several proper lists, in a row. -/
def expectLists : List Value → Except TypeFault (List Value)
  | [] => .ok []
  | v :: vs => do
    let here ← v.expectList
    let others ← expectLists vs
    pure (here ++ others)

/-- The texts of several strings, in a row. -/
def expectStrings : List Value → Except TypeFault (List String)
  | [] => .ok []
  | v :: vs => do
    let here ← v.expectString
    let others ← expectStrings vs
    pure (here :: others)

end TinyLisp.Value
