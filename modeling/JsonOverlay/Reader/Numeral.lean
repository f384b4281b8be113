/-
This file reads numbers. The digits of a numeral are gathered into a 64-bit significand;
those that no longer fit only move the decimal point, or are lost. A numeral without
fraction and exponent whose digits all fit is an integer; any other is a double, computed
from the significand and a power of ten with a rounding at each of the two steps.
-/

import JsonOverlay.Number
import JsonOverlay.Reader.Scan

namespace JsonOverlay.Reader

/-! ### Gathering digits -/

/-- The value of a decimal digit. -/
def digitValue (digit : Char) : Nat := digit.toNat - '0'.toNat

/-- The greatest significand. -/
def greatestSignificand : Nat := 2 ^ 64 - 1

/-- The greatest exponent that can be written. -/
def greatestExponent : Nat := 2 ^ 31 - 1

/-- Digits gathered so far: the significand, and how often it is to be multiplied by ten. -/
structure Gathered where
  significand : Nat
  exponent : Int
deriving DecidableEq, Repr

/-- Whether a digit can be appended to a significand. -/
def fits (significand : Nat) (digit : Char) : Bool :=
  decide (significand * 10 + digitValue digit ≤ greatestSignificand)

/-- Gathers the digits before the point. From the first one on that does not fit, each
digit counts as a zero. -/
def gatherWhole (significand : Nat) : List Char → Gathered
  | [] => ⟨significand, 0⟩
  | digit :: rest =>
    if fits significand digit then gatherWhole (significand * 10 + digitValue digit) rest
    else ⟨significand, (digit :: rest).length⟩

/-- Gathers the digits after the point. From the first one on that does not fit, the
digits are lost. -/
def gatherFraction (gathered : Gathered) : List Char → Gathered
  | [] => gathered
  | digit :: rest =>
    if fits gathered.significand digit then
      gatherFraction
        ⟨gathered.significand * 10 + digitValue digit, gathered.exponent - 1⟩ rest
    else gathered

/-! ### From digits to doubles -/

/-- The greatest power of ten that is finite as a double. -/
def greatestPower : Nat := 308

/-- Divides by ten to the greatest power until what is left of a negative exponent is in
the range of powers. Zero is not divided any further. -/
def scaleDown (value : Double) (exponent : Int) : Double × Int :=
  if exponent < -greatestPower then
    if value.magnitude = 0 then (value, 0)
    else scaleDown (value.div (Double.powerOfTen greatestPower)) (exponent + greatestPower)
  else (value, exponent)
termination_by (-exponent).toNat
decreasing_by simp only [greatestPower] at *; omega

/-- The double with a significand and an exponent, unless it is too large. -/
def scaled? (gathered : Gathered) : Option Double :=
  let significand := Double.ofInt gathered.significand
  if (greatestPower : Int) < gathered.exponent then
    if gathered.significand = 0 then some significand else none
  else
    let (value, exponent) := scaleDown significand gathered.exponent
    if exponent < 0 then some (value.div (Double.powerOfTen exponent.natAbs))
    else
      let product := value.mul (Double.powerOfTen exponent.natAbs)
      if product.isInfinite then none else some product

/-- A number with its sign. -/
def signed (negative : Bool) (value : Double) : Number :=
  .double (if negative then value.neg else value)

/-- The number of a numeral that has only digits, all of which fit. A negative one that
is no signed 64-bit integer is a double, and so is minus zero. -/
def integral (negative : Bool) (significand : Nat) : Number :=
  if negative then
    if 0 < significand ∧ significand ≤ 2 ^ 63 then .int (Int64.ofInt (-significand))
    else signed true (Double.ofInt significand)
  else .uint (UInt64.ofNat significand)

/-- Answers with a double, or gives up if it is too large. -/
def finish (negative : Bool) (gathered : Gathered) (rest : List Char) : Reading Number :=
  match scaled? gathered with
  | some value => .ok (signed negative value, rest)
  | none => stop .numberOutOfRange rest

/-! ### Reading numerals -/

/-- The digits at the front of a text, and the rest. -/
def splitDigits (text : List Char) : List Char × List Char :=
  (text.takeWhile Char.isDigit, text.dropWhile Char.isDigit)

/-- Reads the digits of an exponent. One that cannot be written as a 32-bit number makes a
value zero or too large, whatever follows: the latter is told as soon as it is clear. -/
def readExponentDigits (negative : Bool) (gathered : Gathered) (down : Bool) (exponent : Nat) :
    List Char → Reading Number
  | [] => close exponent []
  | next :: rest =>
    if next.isDigit then
      let longer := exponent * 10 + digitValue next
      if greatestExponent < longer then
        if gathered.significand ≠ 0 ∧ down = false then stop .numberOutOfRange rest
        else .ok (signed negative Double.zero, (splitDigits rest).2)
      else readExponentDigits negative gathered down longer rest
    else close exponent (next :: rest)
where
  /-- The exponent of the digits and the written one add up, within 32 bits. -/
  close (exponent : Nat) (rest : List Char) : Reading Number :=
    let sum := if down then gathered.exponent - exponent else gathered.exponent + exponent
    finish negative ⟨gathered.significand, max (-2 ^ 31) (min (2 ^ 31 - 1) sum)⟩ rest

/-- Reads an exponent after its letter. -/
def readExponent (negative : Bool) (gathered : Gathered) (text : List Char) : Reading Number :=
  let (down, digits) := match text with
    | '+' :: rest => (false, rest)
    | '-' :: rest => (true, rest)
    | rest => (false, rest)
  match digits with
  | [] => blame .unfinishedValue []
  | first :: rest =>
    if first.isDigit then
      readExponentDigits negative gathered down (digitValue first) rest
    else blame .invalidNumber (first :: rest)

/-- Reads the exponent of a numeral that has a fraction or digits that did not fit, if
there is one. -/
def readScale (negative : Bool) (gathered : Gathered) : List Char → Reading Number
  | 'e' :: rest => readExponent negative gathered rest
  | 'E' :: rest => readExponent negative gathered rest
  | rest => finish negative gathered rest

/-- Reads a numeral from its first digit on. A zero in front stands alone. -/
def readDigits (negative : Bool) (digits rest : List Char) : Reading Number :=
  let gathered := gatherWhole 0 digits
  match rest with
  | '.' :: fraction =>
    match splitDigits fraction with
    | ([], after) => blameNext .unfinishedValue .invalidNumber after
    | (decimals, after) => readScale negative (gatherFraction gathered decimals) after
  | 'e' :: exponent => readExponent negative gathered exponent
  | 'E' :: exponent => readExponent negative gathered exponent
  | after =>
    if gathered.exponent = 0 then .ok (integral negative gathered.significand, after)
    else finish negative gathered after

/-- Reads a numeral after its sign. -/
def readNumeral (negative : Bool) : List Char → Reading Number
  | [] => blame .unfinishedValue []
  | '0' :: rest =>
    match rest with
    | next :: _ => if next.isDigit then blame .invalidNumber rest else readDigits negative ['0'] rest
    | [] => readDigits negative ['0'] []
  | first :: rest =>
    if first.isDigit then
      let (digits, after) := splitDigits (first :: rest)
      readDigits negative digits after
    else blame .invalidNumber (first :: rest)

end JsonOverlay.Reader
