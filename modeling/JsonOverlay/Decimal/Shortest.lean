/-
This file finds the shortest decimal that reads back as a given double. The reals
that round to a double form an interval; the decimal is taken from the coarsest
decimal grid with a point in that interval, and of two such points it is the one
nearer to the double, the even one if they are equally near.
-/

import JsonOverlay.Double

namespace JsonOverlay

/-- The number `coefficient * 10 ^ exponent`. -/
structure Decimal where
  coefficient : Nat
  exponent : Int
deriving DecidableEq, Repr

/-- The reals that round to a positive double, in multiples of `numerator / denominator`.
The ends belong to the interval exactly if the significand is even. -/
structure RoundingInterval where
  low : Nat
  value : Nat
  high : Nat
  closed : Bool
  numerator : Nat
  denominator : Nat

namespace RoundingInterval

/-- Quarters of a unit in the last place are fine enough: the neighbour below the least
significand of an exponent lies only half a unit away, so that end is a quarter away. -/
def ofDouble (number : Double) : RoundingInterval :=
  let significand := number.significand.natAbs
  let quarter := number.exponent - 2
  let narrowBelow := significand = 2 ^ BinaryFormat.wide.fractionBits ∧
    0 < BinaryFormat.wide.doublings number.magnitude
  { low := 4 * significand - if narrowBelow then 1 else 2
    value := 4 * significand
    high := 4 * significand + 2
    closed := significand % 2 == 0
    numerator := if quarter < 0 then 1 else 2 ^ quarter.toNat
    denominator := if quarter < 0 then 2 ^ (-quarter).toNat else 1 }

/-- Whether `point * denominator` lies between the ends times `numerator`. -/
def contains (interval : RoundingInterval) (numerator denominator point : Nat) : Bool :=
  let low := interval.low * numerator
  let high := interval.high * numerator
  let position := point * denominator
  if interval.closed then decide (low ≤ position ∧ position ≤ high)
  else decide (low < position ∧ position < high)

/-- The multiple of `10 ^ power` in the interval that is nearest to its value. Only the
neighbours of the value below and above are looked at: when the interval holds any
multiple, it holds one of these two. -/
def nearestMultiple? (interval : RoundingInterval) (power : Int) : Option Nat :=
  let numerator := interval.numerator * if power < 0 then 10 ^ (-power).toNat else 1
  let denominator := interval.denominator * if power < 0 then 1 else 10 ^ power.toNat
  let value := interval.value * numerator
  let below := value / denominator
  match interval.contains numerator denominator below,
      interval.contains numerator denominator (below + 1) with
  | false, false => none
  | true, false => some below
  | false, true => some (below + 1)
  | true, true => some (nearestNat value denominator)

end RoundingInterval

namespace Decimal

/-- Moves the factors of ten from the coefficient into the exponent, at most as many as
the first argument says. -/
def normalize : Nat → Decimal → Decimal
  | 0, decimal => decimal
  | steps + 1, decimal =>
    if decimal.coefficient ≠ 0 ∧ decimal.coefficient % 10 = 0 then
      normalize steps ⟨decimal.coefficient / 10, decimal.exponent + 1⟩
    else decimal

/-- Walks from a coarse grid to finer ones. -/
def search (interval : RoundingInterval) : Nat → Int → Decimal
  | 0, power => ⟨0, power⟩
  | steps + 1, power =>
    match interval.nearestMultiple? power with
    | some coefficient => normalize 20 ⟨coefficient, power⟩
    | none => search interval steps (power - 1)

/-- The shortest decimal that reads back as a positive finite double. The walk starts
above the double, where no positive multiple is small enough, and seventeen digits are
always enough to tell two doubles apart. -/
def shortest (number : Double) : Decimal :=
  let bitLength := number.exponent + number.significand.natAbs.log2 + 1
  search (RoundingInterval.ofDouble number) 24 (bitLength * 30103 / 100000 + 2)

end Decimal

end JsonOverlay
