/-
This file represents binary floating-point numbers by their bits and gives every
finite one its exact value. A format is read off its two field widths; rounding a
ratio of natural numbers to the nearest number of a format, ties to the even
neighbour, is one definition, and the arithmetic of the library goes through it.
-/

-- A power means the same here and where powers of other structures are known as well.
attribute [instance (1100), default_instance 10001] instPowNat

namespace JsonOverlay

/-- The nearest natural number to a ratio; of two equally near ones the even one. -/
def nearestNat (numerator denominator : Nat) : Nat :=
  let quotient := numerator / denominator
  let doubled := 2 * (numerator % denominator)
  if denominator < doubled ∨ (doubled = denominator ∧ quotient % 2 = 1) then quotient + 1
  else quotient

/-- A binary interchange format: the bits below the sign are an exponent field
followed by a fraction field. -/
structure BinaryFormat where
  fractionBits : Nat
  exponentBits : Nat

namespace BinaryFormat

/-- The 64-bit format. -/
def wide : BinaryFormat := ⟨52, 11⟩

/-- The 32-bit format. -/
def narrow : BinaryFormat := ⟨23, 8⟩

variable (format : BinaryFormat)

/-- Every finite number of the format is a multiple of two to minus this power. -/
def unitPlaces : Nat := 2 ^ (format.exponentBits - 1) + format.fractionBits - 2

/-- The bits of infinity without its sign: the first magnitude that is not finite. -/
def infinity : Nat := (2 ^ format.exponentBits - 1) * 2 ^ format.fractionBits

/-- The integer significand of a finite magnitude; the leading bit of a normal
number is not stored. -/
def significand (magnitude : Nat) : Nat :=
  if magnitude < 2 ^ format.fractionBits then magnitude
  else magnitude % 2 ^ format.fractionBits + 2 ^ format.fractionBits

/-- How often the unit is doubled before it is multiplied by the significand. -/
def doublings (magnitude : Nat) : Nat := magnitude / 2 ^ format.fractionBits - 1

/-- The power of two that the significand of a finite magnitude is multiplied by. -/
def exponent (magnitude : Nat) : Int := (format.doublings magnitude : Int) - format.unitPlaces

/-- The magnitude nearest to a ratio. The ratio is counted in units; when the count
has more bits than a significand, the excess is shifted out and becomes the exponent
field. A count that rounds up to the next power of two carries into that field by
itself, which is why the two are added. -/
def nearest (numerator denominator : Nat) : Nat :=
  let units := numerator * 2 ^ format.unitPlaces
  let excess := (units / denominator).log2 - format.fractionBits
  min format.infinity
    (excess * 2 ^ format.fractionBits + nearestNat units (denominator * 2 ^ excess))

/-- The magnitude nearest to a ratio times a power of two. -/
def nearestScaled (numerator denominator : Nat) (exponent : Int) : Nat :=
  if exponent < 0 then format.nearest numerator (denominator * 2 ^ (-exponent).toNat)
  else format.nearest (numerator * 2 ^ exponent.toNat) denominator

end BinaryFormat

/-- A 64-bit floating-point number, held as its bits. -/
structure Double where
  bits : UInt64
deriving DecidableEq, Repr

namespace Double

/-- The number with a given sign and magnitude. -/
def ofMagnitude (negative : Bool) (magnitude : Nat) : Double :=
  ⟨UInt64.ofNat ((if negative then 2 ^ 63 else 0) + magnitude)⟩

/-- Whether the sign bit is set; negative zero has it too. -/
def negative (number : Double) : Bool := decide (2 ^ 63 ≤ number.bits.toNat)

/-- The bits below the sign. -/
def magnitude (number : Double) : Nat := number.bits.toNat % 2 ^ 63

def isFinite (number : Double) : Bool := decide (number.magnitude < BinaryFormat.wide.infinity)

def isInfinite (number : Double) : Bool := decide (number.magnitude = BinaryFormat.wide.infinity)

def isNaN (number : Double) : Bool := decide (BinaryFormat.wide.infinity < number.magnitude)

/-- Positive zero. -/
def zero : Double := ⟨0⟩

instance : Inhabited Double := ⟨zero⟩

/-- The signed integer significand of a finite number. -/
def significand (number : Double) : Int :=
  let size : Int := BinaryFormat.wide.significand number.magnitude
  if number.negative then -size else size

/-- The power of two that the significand of a finite number is multiplied by. -/
def exponent (number : Double) : Int := BinaryFormat.wide.exponent number.magnitude

/-- The exact value of a finite number. -/
def toRat (number : Double) : Rat :=
  if number.exponent < 0 then mkRat number.significand (2 ^ (-number.exponent).toNat)
  else ((number.significand * 2 ^ number.exponent.toNat : Int) : Rat)

/-- The exact value of a finite number if that value is an integer. -/
def integer? (number : Double) : Option Int :=
  if number.isFinite then
    if number.exponent < 0 then
      let scale : Int := 2 ^ (-number.exponent).toNat
      if number.significand % scale = 0 then some (number.significand / scale) else none
    else some (number.significand * 2 ^ number.exponent.toNat)
  else none

/-- The integer part of a finite number: what is left of its exact value when the
fraction is cut off, so that the result lies between zero and the value. -/
def truncate (number : Double) : Int :=
  if number.exponent < 0 then number.significand.tdiv (2 ^ (-number.exponent).toNat)
  else number.significand * 2 ^ number.exponent.toNat

/-- The integer part confined to an interval. An infinity goes to the end on its
side, and what is not a number goes to zero. -/
def clamp (low high : Int) (number : Double) : Int :=
  if number.isNaN then 0
  else if number.isInfinite then if number.negative then low else high
  else max low (min high number.truncate)

/-- Equality of values: the two zeros are equal, and what is not a number equals
nothing, itself included. -/
def equal (left right : Double) : Bool :=
  !left.isNaN && !right.isNaN &&
    (left == right || (left.magnitude == 0 && right.magnitude == 0))

/-- The nearest number to an integer. -/
def ofInt (value : Int) : Double :=
  ofMagnitude (decide (value < 0)) (BinaryFormat.wide.nearest value.natAbs 1)

def neg (number : Double) : Double := ofMagnitude (!number.negative) number.magnitude

/-- The nearest number to ten to a power. -/
def powerOfTen (power : Nat) : Double := ofMagnitude false (BinaryFormat.wide.nearest (10 ^ power) 1)

/-- The nearest number to the product of two finite numbers. -/
def mul (left right : Double) : Double :=
  ofMagnitude (left.negative != right.negative)
    (BinaryFormat.wide.nearestScaled (left.significand.natAbs * right.significand.natAbs) 1
      (left.exponent + right.exponent))

/-- The nearest number to the quotient of two finite numbers, the second not zero. -/
def div (left right : Double) : Double :=
  ofMagnitude (left.negative != right.negative)
    (BinaryFormat.wide.nearestScaled left.significand.natAbs right.significand.natAbs
      (left.exponent - right.exponent))

/-- The bits of the nearest 32-bit number. An infinity stays one, and what is not a
number becomes the quiet one. -/
def toNarrow (number : Double) : UInt32 :=
  let sign := if number.negative then 2 ^ 31 else 0
  let magnitude :=
    if number.isNaN then BinaryFormat.narrow.infinity + 2 ^ 22
    else if number.isInfinite then BinaryFormat.narrow.infinity
    else BinaryFormat.narrow.nearestScaled number.significand.natAbs 1 number.exponent
  UInt32.ofNat (sign + magnitude)

/-- The number with the value of a 32-bit one, given by its bits. -/
def ofNarrow (bits : UInt32) : Double :=
  let magnitude := bits.toNat % 2 ^ 31
  ofMagnitude (decide (2 ^ 31 ≤ bits.toNat))
    (if BinaryFormat.narrow.infinity < magnitude then BinaryFormat.wide.infinity + 2 ^ 51
    else if magnitude = BinaryFormat.narrow.infinity then BinaryFormat.wide.infinity
    else BinaryFormat.wide.nearestScaled (BinaryFormat.narrow.significand magnitude) 1
      (BinaryFormat.narrow.exponent magnitude))

end Double

end JsonOverlay
