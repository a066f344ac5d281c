import TinyLisp.Primitive.Number
import TinyLisp.Primitive.Record
import TinyLisp.Value.Equality
import TinyLisp.Eval.Engine

/-!
# Running primitive operations

What each operation computes. `apply` and `map` hand their calls to the engine; every other
operation is complete in itself. The number of arguments is checked first, so that the cases
below are all that occur (`Primitive.run` fails with the same arity error otherwise).
-/

namespace TinyLisp

namespace Eval

/-- A result, or the type fault that prevents it. -/
def expect {α : Type} : Except TypeFault α → Eval α
  | .ok a => pure a
  | .error fault => typeError fault

/-- Writes the texts of values, separated by spaces, and gives `()`. -/
def print (style : Style) (vs : List Value) (end_ : String) : Eval Value := do
  write (" ".intercalate (vs.map (Value.print style)) ++ end_)
  pure .nil

/-- A new record. -/
def newRecord (name : String) (fields : Fields) : Eval Value := do
  pure (.record (← newTag) name fields)

/-- A fresh symbol with a stem. -/
def gensym (stem : String) : Eval Value :=
  modifyGet fun w =>
    let (name, gensym) := w.gensym.fresh stem
    (.symbol name, { w with gensym := gensym })

end Eval

/-- Applies a value to each of some values in turn. -/
def Engine.applyEach (en : Engine) (f : Value) : List Value → Eval (List Value)
  | [] => pure []
  | v :: vs => do
    let w ← en.apply f [v]
    let ws ← en.applyEach f vs
    pure (w :: ws)

namespace Primitive

/-- A failure of an operation. -/
def fault {α : Type} (p : Primitive) (f : PrimitiveFault) : Eval α :=
  Eval.fail (.primitive p f)

/-- Compares two numbers. -/
def compare (onInts : Int64 → Int64 → Bool) (onFloats : Float → Float → Bool) (a b : Value) :
    Eval Value := do
  match ← Eval.expect (Number.ofValues [a, b]) with
  | [x, y] => pure (.bool (x.compare onInts onFloats y))
  | _ => pure (.bool false)

/-- The quotient of two numbers. -/
def divide (a b : Value) : Eval Value := do
  match ← Eval.expect (Number.ofValues [a, b]) with
  | [x, y] =>
    match x.quotient? y with
    | some z => pure z.toValue
    | none => fault .div .divisionByZero
  | _ => fault .div .divisionByZero

/-- The remainder of two integers. -/
def modulo (a b : Value) : Eval Value := do
  let m ← Eval.expect a.expectInt
  let n ← Eval.expect b.expectInt
  match remainder? m n with
  | some r => pure (.int r)
  | none => fault .mod .divisionByZero

/-- The number of characters of a string, or of elements of a list. -/
def lengthOf : Value → Eval Value
  | .string s => pure (.int (Int64.ofNat s.length))
  | v => do
    let vs ← Eval.expect v.expectList
    pure (.int (Int64.ofNat vs.length))

/-- Lists in a row; the last argument becomes the tail as it is. -/
def appendAll (args : List Value) : Eval Value :=
  match args.getLast? with
  | none => pure .nil
  | some last => do
    let vs ← Eval.expect (Value.expectLists args.dropLast)
    Eval.newChain last vs

/-- The element of a list at an index from zero. -/
def elementAt (list index : Value) : Eval Value := do
  let vs ← Eval.expect list.expectList
  let i ← Eval.expect index.expectInt
  match if i < 0 then none else vs[i.toInt.toNat]? with
  | some v => pure v
  | none => fault .nth (.indexOutside i.toInt vs.length)

/-- Applies a function to arguments of which the last is a list of further ones. -/
def spread (en : Engine) (f : Value) (args : List Value) : Eval Value :=
  match args.getLast? with
  | none => en.apply f []
  | some last => do
    let vs ← Eval.expect last.expectList
    en.apply f (args.dropLast ++ vs)

/-- A record with a name and fields. -/
def makeRecord (name : Value) (args : List Value) : Eval Value := do
  let name ← Eval.expect name.expectName
  if args.length % 2 = 1 then fault .record .fieldWithoutValue
  else
    match Fields.ofArguments args with
    | .ok fields => Eval.newRecord name fields
    | .error (.type f) => Eval.typeError f
    | .error (.twice f) => fault .record (.fieldTwice f)

/-- The value of a record's field. -/
def getField (record field : Value) : Eval Value := do
  let (name, fields) ← Eval.expect record.expectRecord
  let f ← Eval.expect field.expectName
  match Table.get? f fields with
  | some v => pure v
  | none => fault .recordGet (.noSuchField name f)

/-- A record with one field set. -/
def setField (record field v : Value) : Eval Value := do
  let (name, fields) ← Eval.expect record.expectRecord
  let f ← Eval.expect field.expectName
  Eval.newRecord name (Table.set f v fields)

/-- What an operation computes. -/
def run (en : Engine) : Primitive → List Value → Eval Value
  -- arithmetic
  | add, args => do pure (Number.sum (← Eval.expect (Number.ofValues args))).toValue
  | sub, args => do pure (Number.difference (← Eval.expect (Number.ofValues args))).toValue
  | mul, args => do pure (Number.product (← Eval.expect (Number.ofValues args))).toValue
  | div, [a, b] => divide a b
  | mod, [a, b] => modulo a b
  -- comparison
  | equal, [a, b] => pure (.bool (a.equal b))
  | less, [a, b] => compare (fun m n => m < n) (fun x y => x < y) a b
  | lessEq, [a, b] => compare (fun m n => m ≤ n) (fun x y => x ≤ y) a b
  | greater, [a, b] => compare (fun m n => m > n) (fun x y => x > y) a b
  | greaterEq, [a, b] => compare (fun m n => m ≥ n) (fun x y => x ≥ y) a b
  | identical, [a, b] => pure (.bool (a.identical b))
  | not, [a] => pure (.bool (!a.isTrue))
  -- lists
  | cons, [a, d] => Eval.newPair a d
  | car, [p] => do pure (← Eval.expect p.expectPair).1
  | cdr, [p] => do pure (← Eval.expect p.expectPair).2
  | list, args => Eval.newList args
  | isList, [a] => pure (.bool a.elements?.isSome)
  | isPair, [a] => pure (.bool (a matches .pair ..))
  | isNull, [a] => pure (.bool (a matches .nil))
  | length, [a] => lengthOf a
  | append, args => appendAll args
  | reverse, [a] => do Eval.newList (← Eval.expect a.expectList).reverse
  | nth, [a, i] => elementAt a i
  | apply, f :: args => spread en f args
  | map, [f, a] => do Eval.newList (← en.applyEach f (← Eval.expect a.expectList))
  -- tests and conversions
  | isSymbol, [a] => pure (.bool (a matches .symbol _))
  | isNumber, [a] => pure (.bool (a matches .int _ | .float _))
  | isString, [a] => pure (.bool (a matches .string _))
  | isBool, [a] => pure (.bool (a matches .bool _))
  | isProcedure, [a] => pure (.bool a.isProcedure)
  | isRecord, [a] => pure (.bool (a matches .record ..))
  | typeOf, [a] => pure (.symbol a.typeName)
  | symbolToString, [a] => do pure (.string (← Eval.expect a.expectSymbol))
  | stringToSymbol, [a] => do pure (.symbol (← Eval.expect a.expectString))
  | stringAppend, args => do pure (.string (String.join (← Eval.expect (Value.expectStrings args))))
  | stringLength, [a] => do
    pure (.int (Int64.ofNat (← Eval.expect a.expectString).length))
  | numberToString, [a] => do
    let _ ← Eval.expect (Number.ofValue a)
    pure (.string a.text)
  -- records
  | record, name :: args => makeRecord name args
  | recordGet, [r, f] => getField r f
  | recordSet, [r, f, v] => setField r f v
  | recordFields, [r] => do
    Eval.newList ((← Eval.expect r.expectRecord).2.map fun f => .symbol f.1)
  -- fresh symbols
  | gensym, [] => Eval.gensym Gensym.defaultStem
  | gensym, [a] => do Eval.gensym (← Eval.expect a.expectName)
  -- output and failure
  | print, args => Eval.print .readable args "\n"
  | println, args => Eval.print .plain args "\n"
  | display, args => Eval.print .plain args ""
  | newline, [] => Eval.print .plain [] "\n"
  | error, args => fault .error (.raised (" ".intercalate (args.map (Value.print .plain))))
  | p, args => Eval.fail (.arity ⟨p.name, p.arity, args.length⟩)

/-- Applies an operation to arguments, if their number is right. -/
def call (en : Engine) (p : Primitive) (args : List Value) : Eval Value := do
  Eval.checkArity p.arity args.length p.name
  p.run en args

end Primitive

end TinyLisp
