/-
This file lays out numbers as text. Doubles are written with the shortest digits that
read back; a layout record says where positional notation ends and how an exponent is
signed.
-/

import JsonOverlay.Decimal.Shortest
import JsonOverlay.Number

namespace JsonOverlay

/-- How a decimal `0.d₁d₂… * 10 ^ point` is laid out: positionally while the point lies
between the two bounds, both included, and with an exponent outside. -/
structure DecimalLayout where
  leastPoint : Int
  greatestPoint : Int
  positiveExponentSign : String

namespace DecimalLayout

/-- The layout of the library's own text. -/
def plain : DecimalLayout := ⟨-4, 16, ""⟩

/-- The layout of exported text, which signs positive exponents. -/
def signed : DecimalLayout := ⟨-4, 16, "+"⟩

variable (layout : DecimalLayout)

/-- A positional text always has digits on both sides of the point. -/
def positional (digits : List Char) (point : Int) : List Char :=
  let whole := point.toNat
  if point ≤ 0 then '0' :: '.' :: (List.replicate (-point).toNat '0' ++ digits)
  else if whole < digits.length then digits.take whole ++ '.' :: digits.drop whole
  else digits ++ List.replicate (whole - digits.length) '0' ++ ['.', '0']

/-- One digit before the point; no point when there is only one digit. -/
def scientific (digits : List Char) (point : Int) : List Char :=
  let exponent := point - 1
  let sign := if exponent < 0 then ['-'] else layout.positiveExponentSign.toList
  let fraction := match digits.drop 1 with
    | [] => []
    | rest => '.' :: rest
  digits.take 1 ++ fraction ++ 'e' :: (sign ++ Nat.toDigits 10 exponent.natAbs)

/-- The text of a positive decimal. -/
def decimal (number : Decimal) : List Char :=
  let digits := Nat.toDigits 10 number.coefficient
  let point := number.exponent + digits.length
  if layout.leastPoint ≤ point ∧ point ≤ layout.greatestPoint then positional digits point
  else layout.scientific digits point

/-- The text of a double. What is neither finite nor a number has no numeral and is
written as `null`. -/
def double (number : Double) : String :=
  if number.isFinite then
    let sign := if number.negative then ['-'] else []
    let size := if number.magnitude = 0 then ['0', '.', '0']
      else layout.decimal (Decimal.shortest number)
    String.ofList (sign ++ size)
  else "null"

/-- The numeral of an integer. -/
def integer (value : Int) : String :=
  String.ofList ((if value < 0 then ['-'] else []) ++ Nat.toDigits 10 value.natAbs)

/-- The text of a number. -/
def number : Number → String
  | .int value => integer value.toInt
  | .uint value => integer value.toNat
  | .double value => layout.double value

end DecimalLayout

end JsonOverlay
