/-!
# Shortest decimal fractions

A binary fraction `m / 2^s` stands for every real number that rounds to it. `shortest`
gives the decimal fraction with the fewest places inside that interval and, of two such
fractions with equally many places, the nearer one.

With `f` places the value is `m · 10^f / 2^s` steps of the grid, so its two neighbours on the
grid are the quotient and its successor, at distances `r` and `2^s - r` (in units of
`10^(-f) / 2^s`), where `r` is the remainder. The interval reaches half a binary step to either
side, that is `10^f / 2` in the same units, and only a quarter step downwards where the binary
step halves. The ends belong to the interval when `m` is even.
-/

namespace TinyLisp.Decimal

/-- A binary fraction `mantissa / 2^scale`. -/
structure BinaryFraction where
  mantissa : Nat
  scale : Nat
  /-- Whether the next smaller number is only half a step away. -/
  narrowBelow : Bool
  deriving Repr, DecidableEq

/-- A decimal fraction `digits / 10^places`. -/
structure DecimalFraction where
  digits : Nat
  places : Nat
  deriving Repr, DecidableEq

namespace BinaryFraction

/-- Whether a distance `d` is within a reach `w`; the end counts for an even mantissa. -/
def reaches (x : BinaryFraction) (d w : Nat) : Bool :=
  d < w || (d == w && x.mantissa % 2 == 0)

/-- The decimal fraction with `f` places that rounds to `x`, if there is one: of two the
nearer, of two equally near ones the greater. -/
def withPlaces? (x : BinaryFraction) (f : Nat) : Option DecimalFraction :=
  let step := Nat.pow 2 x.scale
  let grid := Nat.pow 10 f
  let d := x.mantissa * grid / step
  let below := x.mantissa * grid % step
  let above := step - below
  let belowFits := x.reaches ((if x.narrowBelow then 4 else 2) * below) grid
  let aboveFits := x.reaches (2 * above) grid
  if belowFits && (below < above || !aboveFits) then some ⟨d, f⟩
  else if aboveFits then some ⟨d + 1, f⟩
  else none

/-- The first hit among the next `n` numbers of places from `f` on; the exact decimal
expansion, which has `scale` places, if there is none. -/
def searchPlaces (x : BinaryFraction) : Nat → Nat → DecimalFraction
  | _, 0 => ⟨x.mantissa * Nat.pow 10 x.scale / Nat.pow 2 x.scale, x.scale⟩
  | f, n + 1 => (x.withPlaces? f).getD (x.searchPlaces (f + 1) n)

/-- The decimal fraction with the fewest places that rounds to `x`. -/
def shortest (x : BinaryFraction) : DecimalFraction :=
  x.searchPlaces 0 x.scale

/-- The search answers the first number of places with a hit. -/
theorem searchPlaces_eq_of_first {x : BinaryFraction} {y : DecimalFraction} :
    ∀ {n f k : Nat}, k < n → (∀ j, j < k → x.withPlaces? (f + j) = none) →
      x.withPlaces? (f + k) = some y → x.searchPlaces f n = y := by
  intro n
  induction n with
  | zero => intro f k hk; omega
  | succ n ih =>
    intro f k hk none_before hit
    cases k with
    | zero => simp at hit; simp [searchPlaces, hit]
    | succ k =>
      have h0 := none_before 0 (by omega)
      simp only [Nat.add_zero] at h0
      simp only [searchPlaces, h0, Option.getD_none]
      refine ih (f := f + 1) (k := k) (by omega) (fun j hj => ?_) ?_
      · have := none_before (j + 1) (by omega)
        rwa [show f + 1 + j = f + (j + 1) by omega]
      · rwa [show f + 1 + k = f + (k + 1) by omega]

end BinaryFraction

end TinyLisp.Decimal
