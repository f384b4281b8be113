/-
This file compares numbers step by step, without exact values. Doubles compare by their bits and
integers as words. Before a double is compared with an integer, its fraction is cut off, and it
has to lie where integers lie; only then it is converted.
-/

import JsonOverlay.Number

namespace JsonOverlay

namespace Double

/-- Where a number that is none of the NaNs stands in the order of all of them: the bits below the
sign count up from the zeros, and down for negative numbers. -/
def rank (number : Double) : Int :=
  if number.negative then -(number.magnitude : Int) else number.magnitude

/-- Whether a number lies below another. What is not a number is in no order. -/
def less (left right : Double) : Bool :=
  !left.isNaN && !right.isNaN && decide (left.rank < right.rank)

/-- Whether a number lies below another or equals it. -/
def atMost (left right : Double) : Bool :=
  !left.isNaN && !right.isNaN && decide (left.rank ≤ right.rank)

/-- The exponent field of one, from which on a number has an integer part. -/
def oneField : Nat := 1023

/-- The exponent field from which on a number has no fraction. -/
def wholeField : Nat := oneField + BinaryFormat.wide.fractionBits

/-- A number without its fraction: the bits that stand for the fraction are cleared. The sign is
kept, and so is what is not finite. -/
def truncated (number : Double) : Double :=
  let field := number.magnitude / 2 ^ BinaryFormat.wide.fractionBits
  if field < oneField then ofMagnitude number.negative 0
  else if field < wholeField then
    let cleared := 2 ^ (wholeField - field)
    ofMagnitude number.negative (number.magnitude / cleared * cleared)
  else number

/-- The least integer of 64 bits. -/
def leastInt64 : Double := ⟨0xc3e0000000000000⟩

/-- The first number above all unsigned integers of 64 bits. -/
def aboveUInt64 : Double := ⟨0x43f0000000000000⟩

/-- The integer part as a signed integer of 128 bits, confined to these. -/
def toInt128 (number : Double) : Int := number.clamp (-2 ^ 127) (2 ^ 127 - 1)

/-- Whether a double is an integer: it has to be finite, without a fraction and in the range of
integers before it is converted. -/
def equalsInteger (number : Double) (value : Int) : Bool :=
  number.isFinite && number.truncated.equal number && leastInt64.atMost number &&
    number.less aboveUInt64 && number.toInt128 == value

end Double

namespace Number

/-- Compares two numbers as they are represented. -/
def compare : Number → Number → Bool
  | int left, int right => left == right
  | uint left, uint right => left == right
  | int left, uint right => decide (0 ≤ left.toInt) && UInt64.ofInt left.toInt == right
  | uint left, int right => decide (0 ≤ right.toInt) && UInt64.ofInt right.toInt == left
  | double left, double right => left.equal right
  | double left, int right => left.equalsInteger right.toInt
  | int left, double right => right.equalsInteger left.toInt
  | double left, uint right => left.equalsInteger right.toNat
  | uint left, double right => right.equalsInteger left.toNat

end Number

end JsonOverlay
