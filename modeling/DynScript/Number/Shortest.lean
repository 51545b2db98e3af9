/-!
# Shortest decimals

A finite double is `mantissa · 2 ^ exponent`. `Dyadic.shortest` finds the decimal with the fewest digits
that reads back as the same double: the coarsest grid of multiples of a power of ten that has a point among
the reals which round to the double, and on it the point nearest to the double, the greater one when two are
equally near. Everything is exact arithmetic of natural numbers.
-/

namespace DynScript

/-- A power of two. -/
def pow2 (n : Nat) : Nat := Nat.pow 2 n

/-- A power of ten. -/
def pow10 (n : Nat) : Nat := Nat.pow 10 n

/-- The number `digits · 10 ^ exponent`. -/
structure Decimal where
  /-- The digits as one number. -/
  digits : Nat
  /-- The power of ten that they are multiplied by. -/
  exponent : Int
deriving DecidableEq, Repr

/-- The number `mantissa · 2 ^ exponent`, a positive finite double. -/
structure Dyadic where
  /-- The mantissa, of at most 53 bits. -/
  mantissa : Nat
  /-- The power of two that it is multiplied by. -/
  exponent : Int
deriving DecidableEq, Repr

namespace Dyadic

/-- The least exponent of a double. -/
def minExponent : Int := -1074

/-- The reals that round to a double, and the double itself, on one scale, where a grid step has the length
`step`. -/
structure Rounding where
  /-- The lower end of the interval. -/
  low : Nat
  /-- The double. -/
  value : Nat
  /-- The upper end of the interval. -/
  high : Nat
  /-- The distance between two points of the grid. -/
  step : Nat
  /-- Whether the two ends round to the double, too. -/
  closed : Bool

/-- The interval of a double over the grid of the multiples of `10 ^ k`. The ends lie half way to the
neighbouring doubles; below a power of two the neighbour is half as far away. -/
def rounding (x : Dyadic) (k : Int) : Rounding :=
  let atPower := x.mantissa == pow2 52 && x.exponent > minExponent
  let up := pow2 (x.exponent - 2).toNat * pow10 (-k).toNat
  let down := pow2 (2 - x.exponent).toNat * pow10 k.toNat
  { low := (4 * x.mantissa - if atPower then 1 else 2) * up
    value := 4 * x.mantissa * up
    high := (4 * x.mantissa + 2) * up
    step := down
    closed := x.mantissa % 2 == 0 }

/-- Whether the grid's point with number `d` rounds to the double. -/
def Rounding.admits (r : Rounding) (d : Nat) : Bool :=
  let p := d * r.step
  if r.closed then r.low ≤ p && p ≤ r.high else r.low < p && p < r.high

/-- The grid's point that rounds to the double and is nearest to it; the greater one of two. -/
def Rounding.nearest? (r : Rounding) : Option Nat :=
  let below := r.value / r.step
  let above := below + 1
  match r.admits below, r.admits above with
  | true, true =>
    if r.value - below * r.step < above * r.step - r.value then some below else some above
  | true, false => some below
  | false, true => some above
  | false, false => none

/-- Search the grids of the multiples of `10 ^ k`, `10 ^ (k - 1)`, and so on. -/
def search (x : Dyadic) : Nat → Int → Decimal
  | 0, k => ⟨(x.rounding k).value / (x.rounding k).step, k⟩
  | n + 1, k =>
    match (x.rounding k).nearest? with
    | some d => ⟨d, k⟩
    | none => x.search n (k - 1)

/-- A power of ten above the number, from its length in bits and an upper bound of the logarithm of two. -/
def startExponent (x : Dyadic) : Int :=
  let bits : Int := x.exponent + Nat.log2 x.mantissa + 1
  if bits ≥ 0 then bits * 30103 / 100000 + 1 else bits * 30102 / 100000 + 1

/-- The decimal with the fewest digits that reads back as the double. -/
def shortest (x : Dyadic) : Decimal := x.search 24 x.startExponent

end Dyadic

namespace Decimal

/-- The decimal in positional notation, without an exponent. -/
def positional (d : Decimal) : String :=
  let digits := toString d.digits
  let zeros (n : Nat) : String := "".pushn '0' n
  if d.exponent ≥ 0 then digits ++ zeros d.exponent.toNat
  else
    let places := (-d.exponent).toNat
    if digits.length > places then
      let whole := digits.toList.take (digits.length - places)
      let fraction := digits.toList.drop (digits.length - places)
      String.ofList whole ++ "." ++ String.ofList fraction
    else "0." ++ zeros (places - digits.length) ++ digits

end Decimal

end DynScript
