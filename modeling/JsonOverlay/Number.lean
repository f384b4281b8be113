/-
This file holds the numbers of a document in their three representations. The
predicates ask for the exact value, so no integer is ever rounded to a double on the
way to an answer, and the getters state what becomes of a value that does not fit.
-/

import JsonOverlay.Double

namespace JsonOverlay

/-- A number as it is stored. A reader stores negative integers as `int`, other
integers as `uint` and everything else as `double`. -/
inductive Number where
  | int (value : Int64)
  | uint (value : UInt64)
  | double (value : Double)
deriving DecidableEq, Repr, Inhabited

namespace Number

/-! ### Exact values -/

/-- The exact value if it is an integer. -/
def integer? : Number → Option Int
  | int value => some value.toInt
  | uint value => some value.toNat
  | double value => value.integer?

/-- Whether the exact value is an integer between two bounds, both included. -/
def isIntegerIn (low high : Int) (number : Number) : Bool :=
  match number.integer? with
  | some value => decide (low ≤ value ∧ value ≤ high)
  | none => false

def isInt32 (number : Number) : Bool := number.isIntegerIn (-2 ^ 31) (2 ^ 31 - 1)

def isUInt32 (number : Number) : Bool := number.isIntegerIn 0 (2 ^ 32 - 1)

def isInt64 (number : Number) : Bool := number.isIntegerIn (-2 ^ 63) (2 ^ 63 - 1)

def isUInt64 (number : Number) : Bool := number.isIntegerIn 0 (2 ^ 64 - 1)

/-- Whether the number is stored as a double. -/
def isDouble : Number → Bool
  | double _ => true
  | _ => false

/-- Equality of exact values. Two integers compare as integers and two doubles as
doubles; an integer equals a double when the double's exact value is that integer. -/
def equal : Number → Number → Bool
  | double left, double right => left.equal right
  | double left, right => right.integer? == left.integer?
  | left, right => left.integer? == right.integer?

/-! ### Getters

Where the value lies outside the range asked for, an integer keeps its low bits and a
double goes to the nearer end. -/

def toInt32 : Number → Int32
  | int value => Int32.ofInt value.toInt
  | uint value => Int32.ofInt value.toNat
  | double value => Int32.ofInt (value.clamp (-2 ^ 31) (2 ^ 31 - 1))

def toUInt32 : Number → UInt32
  | int value => UInt32.ofInt value.toInt
  | uint value => UInt32.ofInt value.toNat
  | double value => UInt32.ofInt (value.clamp 0 (2 ^ 32 - 1))

def toInt64 : Number → Int64
  | int value => value
  | uint value => Int64.ofInt value.toNat
  | double value => Int64.ofInt (value.clamp (-2 ^ 63) (2 ^ 63 - 1))

def toUInt64 : Number → UInt64
  | int value => UInt64.ofInt value.toInt
  | uint value => value
  | double value => UInt64.ofInt (value.clamp 0 (2 ^ 64 - 1))

/-- The nearest double. -/
def toDouble : Number → Double
  | int value => Double.ofInt value.toInt
  | uint value => Double.ofInt value.toNat
  | double value => value

/-- The representation a reader would have chosen for the same value: an integer that
is not negative is unsigned. -/
def canonical : Number → Number
  | int value => if value.toInt < 0 then int value else uint (UInt64.ofInt value.toInt)
  | number => number

end Number

end JsonOverlay
