/-
This file turns byte counts into lines and columns. A location is that of the last byte
read; when that byte ended a line, the end of the line it closed is shown instead of the
empty start of the next.
-/

namespace JsonOverlay

/-- A line and a column. Lines count from one. -/
structure Location where
  line : Nat
  column : Nat
deriving DecidableEq, Repr, Inhabited

namespace Location

def lineFeed : UInt8 := 10

def carriageReturn : UInt8 := 13

/-- The location after some bytes: how many bytes were read since the last line feed. -/
def after (bytes : List UInt8) : Location :=
  ⟨bytes.count lineFeed + 1, (bytes.reverse.takeWhile (· != lineFeed)).length⟩

/-- The location of the byte that follows some bytes. -/
def next (bytes : List UInt8) : Location :=
  ⟨(after bytes).line, (after bytes).column + 1⟩

/-- The length of the line that the last of some bytes, a line feed, closes; a carriage
return before the line feed belongs to the line break. -/
def closedLineLength (bytes : List UInt8) : Nat :=
  let line := ((bytes.dropLast).reverse.takeWhile (· != lineFeed))
  if line.head? = some carriageReturn then line.length - 1 else line.length

/-- The location of the last of some bytes. -/
def ofLast (bytes : List UInt8) : Location :=
  let reached := after bytes
  if reached.column = 0 ∧ 1 < reached.line then ⟨reached.line - 1, closedLineLength bytes⟩
  else reached

end Location

end JsonOverlay
