import TinyLisp.Decimal.Shortest

/-!
# Decimal notation of floats

A whole number is written with all its digits and `.0`; any other finite number with the
fewest digits that read back, always positionally. A negative zero keeps its sign.
-/

namespace TinyLisp.Decimal

/-- What the 64 bits of a float stand for. -/
inductive Decoded
  /-- The number `± mantissa · 2^exponent`; `lowest` holds when the next smaller mantissa
  belongs to a smaller exponent. -/
  | finite (negative : Bool) (mantissa : Nat) (exponent : Int) (lowest : Bool)
  | infinite (negative : Bool)
  | undefined
  deriving Repr, DecidableEq

/-- Splits the bits into sign, eleven bits of exponent and 52 bits of fraction. -/
def Decoded.ofBits (bits : Nat) : Decoded :=
  let negative := bits / Nat.pow 2 63 % 2 == 1
  let exponent : Nat := bits / Nat.pow 2 52 % Nat.pow 2 11
  let fraction := bits % Nat.pow 2 52
  if exponent == 2047 then
    if fraction == 0 then .infinite negative else .undefined
  else if exponent == 0 then .finite negative fraction (-1074) false
  else .finite negative (Nat.pow 2 52 + fraction) ((exponent : Int) - 1075) (fraction == 0)

/-- `digits / 10^places` with a point before the last `places` digits. -/
def DecimalFraction.text (x : DecimalFraction) : String :=
  let tail := Nat.repr (x.digits % Nat.pow 10 x.places)
  let zeros := String.ofList (List.replicate (x.places - tail.length) '0')
  Nat.repr (x.digits / Nat.pow 10 x.places) ++ "." ++ zeros ++ tail

/-- The text of a number that is not negative. -/
def magnitudeText (mantissa : Nat) (exponent : Int) (lowest : Bool) : String :=
  match exponent with
  | .ofNat e => Nat.repr (mantissa * Nat.pow 2 e) ++ ".0"
  | .negSucc e =>
    let step := Nat.pow 2 (e + 1)
    if mantissa % step == 0 then Nat.repr (mantissa / step) ++ ".0"
    else (BinaryFraction.shortest ⟨mantissa, e + 1, lowest⟩).text

/-- The text of a decoded float. -/
def Decoded.text : Decoded → String
  | .undefined => "NaN"
  | .infinite negative => if negative then "-inf" else "inf"
  | .finite negative m e lowest => (if negative then "-" else "") ++ magnitudeText m e lowest

/-- The text of a float. -/
def floatText (x : Float) : String :=
  (Decoded.ofBits x.toBits.toNat).text

-- 0.1, 2.5, 1e-7, -0.0, 1e22, 5e-324 by their bits
example : (Decoded.ofBits 0x3FB999999999999A).text = "0.1" := by decide +kernel
example : (Decoded.ofBits 0x4004000000000000).text = "2.5" := by decide +kernel
example : (Decoded.ofBits 0x3E7AD7F29ABCAF48).text = "0.0000001" := by decide +kernel
example : (Decoded.ofBits 0x8000000000000000).text = "-0.0" := by decide +kernel
example : (Decoded.ofBits 0x4480F0CF064DD592).text = "10000000000000000000000.0" := by decide +kernel

end TinyLisp.Decimal
