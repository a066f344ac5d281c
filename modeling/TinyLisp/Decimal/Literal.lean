/-!
# Number literals

A literal is an optional sign, digits, optionally a point with any number of further digits,
and optionally an exponent. Without point and exponent it is an integer, if it fits into 64
bits; in every other case it is a float, rounded to nearest. Only ASCII digits count.
-/

namespace TinyLisp.Decimal

/-- The number that a literal denotes. -/
inductive Literal
  | int (n : Int64)
  | float (x : Float)

/-- The number that digits denote, the most significant first. -/
def ofDigits (ds : List Char) : Nat :=
  ds.foldl (fun n d => 10 * n + (d.toNat - '0'.toNat)) 0

/-- Takes a sign off; says whether it was a minus. -/
def takeSign : List Char → Bool × List Char
  | '-' :: cs => (true, cs)
  | '+' :: cs => (false, cs)
  | cs => (false, cs)

/-- Whether a token starts like a number: with a digit, perhaps after a sign. -/
def startsLikeNumber (cs : List Char) : Bool :=
  ((takeSign cs).2.head?.map Char.isDigit).getD false

/-- Reads a sign and digits. -/
def readInteger? (cs : List Char) : Option Int :=
  let (negative, ds) := takeSign cs
  if ds.isEmpty || !ds.all Char.isDigit then none
  else some (if negative then -(ofDigits ds : Int) else ofDigits ds)

/-- The integer as a 64-bit word, if it fits. -/
def fit? (n : Int) : Option Int64 :=
  if -0x8000000000000000 ≤ n && n < 0x8000000000000000 then some (Int64.ofInt n) else none

/-- Reads an exponent mark with its digits; no exponent counts as zero. -/
def readExponent? : List Char → Option Int
  | [] => some 0
  | 'e' :: cs => readInteger? cs
  | 'E' :: cs => readInteger? cs
  | _ => none

/-- The float nearest to `m · 10^e`. Far outside the range of floats the answer is known
without computing the power: below `10^(-330)` it is zero and from `10^310` on infinite. -/
def nearest (m : Nat) (e : Int) : Float :=
  let magnitude := (Nat.toDigits 10 m).length + e
  if m == 0 || magnitude < -330 then 0.0
  else if magnitude > 310 then 1.0 / 0.0
  else match e with
    | .ofNat k => Float.ofScientific m false k
    | .negSucc k => Float.ofScientific m true (k + 1)

/-- Reads a float: digits, perhaps a point and more digits, perhaps an exponent. -/
def readFloat? (cs : List Char) : Option Float :=
  let (negative, cs) := takeSign cs
  let (whole, rest) := cs.span Char.isDigit
  let (fraction, rest) :=
    match rest with
    | '.' :: rest => rest.span Char.isDigit
    | rest => ([], rest)
  if whole.isEmpty && fraction.isEmpty then none
  else (readExponent? rest).map fun e =>
    let x := nearest (ofDigits (whole ++ fraction)) (e - fraction.length)
    if negative then -x else x

/-- Reads a number literal. -/
def Literal.read? (cs : List Char) : Option Literal :=
  match (readInteger? cs).bind fit? with
  | some n => some (.int n)
  | none => (readFloat? cs).map .float

example : readInteger? "-12".toList = some (-12) := by decide
example : readInteger? "+".toList = none := by decide
example : fit? 9223372036854775808 = none := by decide
example : readExponent? "e+05".toList = some 5 := by decide
example : readExponent? "e".toList = none := by decide

end TinyLisp.Decimal
