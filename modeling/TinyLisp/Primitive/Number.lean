import TinyLisp.Primitive.Argument

/-!
# Arithmetic

Integers are 64-bit words: sums, differences and products wrap, a quotient is truncated toward
zero, a remainder is never negative. An operation on an integer and a float is carried out in
floats; a long sum or product is one in integers up to its first float.
-/

namespace TinyLisp

/-- A number of the language. -/
inductive Number
  | int (n : Int64)
  | float (x : Float)

namespace Number

/-- The number that a value is. -/
def ofValue : Value → Except TypeFault Number
  | .int n => .ok (int n)
  | .float x => .ok (float x)
  | v => .error (.notANumber v)

/-- The numbers that values are. -/
def ofValues : List Value → Except TypeFault (List Number)
  | [] => .ok []
  | v :: vs => do
    let x ← ofValue v
    let xs ← ofValues vs
    pure (x :: xs)

/-- A number as a value. -/
def toValue : Number → Value
  | int n => .int n
  | float x => .float x

/-- The float nearest to a number. -/
def toFloat : Number → Float
  | int n => n.toFloat
  | float x => x

/-- Applies an operation: in integers if both numbers are integers, otherwise in floats. -/
def combine (onInts : Int64 → Int64 → Int64) (onFloats : Float → Float → Float) :
    Number → Number → Number
  | int m, int n => int (onInts m n)
  | x, y => float (onFloats x.toFloat y.toFloat)

/-- Sum. -/
def add : Number → Number → Number := combine (· + ·) (· + ·)

/-- Difference. -/
def sub : Number → Number → Number := combine (· - ·) (· - ·)

/-- Product. -/
def mul : Number → Number → Number := combine (· * ·) (· * ·)

/-- The number with the other sign. -/
def neg : Number → Number
  | int n => int (-n)
  | float x => float (-x)

/-- Whether a number is zero. -/
def isZero : Number → Bool
  | int n => n == 0
  | float x => x == 0.0

/-- Compares: as integers if both numbers are integers, otherwise as floats. -/
def compare (onInts : Int64 → Int64 → Bool) (onFloats : Float → Float → Bool) :
    Number → Number → Bool
  | int m, int n => onInts m n
  | x, y => onFloats x.toFloat y.toFloat

/-- The sum of numbers, from left to right. -/
def sum (xs : List Number) : Number := xs.foldl add (int 0)

/-- The product of numbers, from left to right. -/
def product (xs : List Number) : Number := xs.foldl mul (int 1)

/-- The first number less all others; a single number with the other sign. -/
def difference : List Number → Number
  | [] => int 0
  | [x] => neg x
  | x :: xs => xs.foldl sub x

/-- The quotient: truncated toward zero for integers. There is none by zero. -/
def quotient? (x y : Number) : Option Number :=
  if y.isZero then none else some (combine (· / ·) (· / ·) x y)

end Number

/-- The remainder that is not negative; there is none by zero. -/
def remainder? (m n : Int64) : Option Int64 :=
  if n = 0 then none else some (Int64.ofInt (m.toInt.emod n.toInt))

example : remainder? (-7) 3 = some 2 := by decide
example : remainder? (-7) (-3) = some 2 := by decide
example : remainder? Int64.minValue (-1) = some 0 := by decide

end TinyLisp
