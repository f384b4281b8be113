/-
This file asks step by step whether a number is an integer of some type, without its exact value.
Words compare with the ends of the type as words. Doubles compare with the ends as doubles; where
the greatest integer of the type is no double, the power of two above it is left out instead.
-/

import JsonOverlay.Number.Comparison

namespace JsonOverlay

namespace Double

/-- The ends of the integers of 32 bits, each of which is a double. -/
def leastInt32 : Double := .ofInt (-2 ^ 31)

def greatestInt32 : Double := .ofInt (2 ^ 31 - 1)

def greatestUInt32 : Double := .ofInt (2 ^ 32 - 1)

/-- The first number above all signed integers of 64 bits. -/
def aboveInt64 : Double := ⟨0x43e0000000000000⟩

/-- Whether nothing is lost when the fraction of a number is cut off. -/
def isWhole (number : Double) : Bool := number.truncated.equal number

/-- Whether a number has no fraction and lies between two others, both included. -/
def isWholeUpTo (number low high : Double) : Bool :=
  low.atMost number && number.atMost high && number.isWhole

/-- Whether a number has no fraction and lies between two others, the second left out. -/
def isWholeBelow (number low above : Double) : Bool :=
  low.atMost number && number.less above && number.isWhole

end Double

namespace Number

/-- Whether a number is a signed integer of 32 bits. Both ends of these are doubles. -/
def fitsInt32 : Number → Bool
  | int value => decide (-2 ^ 31 ≤ value.toInt ∧ value.toInt ≤ 2 ^ 31 - 1)
  | uint value => decide (value.toNat ≤ 2 ^ 31 - 1)
  | double value => value.isWholeUpTo .leastInt32 .greatestInt32

/-- Whether a number is an unsigned integer of 32 bits. The greatest of these is a double. -/
def fitsUInt32 : Number → Bool
  | int value => decide (0 ≤ value.toInt ∧ value.toInt ≤ 2 ^ 32 - 1)
  | uint value => decide (value.toNat ≤ 2 ^ 32 - 1)
  | double value => value.isWholeUpTo .zero .greatestUInt32

/-- Whether a number is a signed integer of 64 bits. The greatest of these is no double. -/
def fitsInt64 : Number → Bool
  | int _ => true
  | uint value => decide (value.toNat ≤ 2 ^ 63 - 1)
  | double value => value.isWholeBelow Double.aboveInt64.neg .aboveInt64

/-- Whether a number is an unsigned integer of 64 bits. The greatest of these is no double. -/
def fitsUInt64 : Number → Bool
  | int value => decide (0 ≤ value.toInt)
  | uint _ => true
  | double value => value.isWholeBelow .zero .aboveUInt64

end Number

/-! ### All types at once -/

/-- The types of integers that a number may be asked for. -/
inductive IntegerType where
  | int32
  | uint32
  | int64
  | uint64
deriving DecidableEq, Repr

namespace IntegerType

def bits : IntegerType → Nat
  | int32 | uint32 => 32
  | int64 | uint64 => 64

def least : IntegerType → Int
  | int32 => -2 ^ 31
  | int64 => -2 ^ 63
  | uint32 | uint64 => 0

def greatest : IntegerType → Int
  | int32 => 2 ^ 31 - 1
  | uint32 => 2 ^ 32 - 1
  | int64 => 2 ^ 63 - 1
  | uint64 => 2 ^ 64 - 1

/-- Whether a number is an integer of a type, found out step by step. -/
def fits : IntegerType → Number → Bool
  | int32 => Number.fitsInt32
  | uint32 => Number.fitsUInt32
  | int64 => Number.fitsInt64
  | uint64 => Number.fitsUInt64

/-- Whether the exact value of a number is an integer of a type. -/
def admits : IntegerType → Number → Bool
  | int32 => Number.isInt32
  | uint32 => Number.isUInt32
  | int64 => Number.isInt64
  | uint64 => Number.isUInt64

/-- The integer of a type that is got from a number, whether or not it is the number's value. -/
def get (number : Number) : IntegerType → Int
  | int32 => number.toInt32.toInt
  | uint32 => number.toUInt32.toNat
  | int64 => number.toInt64.toInt
  | uint64 => number.toUInt64.toNat

/-- The number that is made of what is got from one. -/
def remade (number : Number) : IntegerType → Number
  | int32 => .int number.toInt32.toInt64
  | uint32 => .uint number.toUInt32.toUInt64
  | int64 => .int number.toInt64
  | uint64 => .uint number.toUInt64

end IntegerType

end JsonOverlay
