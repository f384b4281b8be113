/-
This file computes with the positions of cursors as words. The bits of an offset are added to a
position, and a sum that comes around an end of the range is held there. To go back, the offset is
turned around first. How far one cursor is ahead of another is taken between signed words, and there
is no answer if that is none.
-/

import JsonOverlay.Value.Cursor

namespace JsonOverlay.ArrayCursor

variable {ρ : Type}

/-- Two words added, and whether the sum has come around the end of the range. -/
def carried (position amount : UInt64) : UInt64 × Bool :=
  (position + amount, decide (2 ^ 64 ≤ position.toNat + amount.toNat))

/-- A position moved by an offset. The bits of an offset below zero bring the sum around the end
unless it falls short of the first position; those of any other do so only behind the last one. -/
def shifted (position : UInt64) (offset : Int64) : UInt64 :=
  let (sum, around) := carried position offset.toUInt64
  if around = decide (offset < 0) then sum else if around then -1 else 0

/-- The cursor some places further on, by words. -/
def add (cursor : ArrayCursor ρ) (offset : Int64) : ArrayCursor ρ :=
  { cursor with index := shifted cursor.index offset }

/-- The cursor some places back, by words. -/
def sub (cursor : ArrayCursor ρ) (offset : Int64) : ArrayCursor ρ :=
  { cursor with index := shifted cursor.index (opposite offset) }

/-- How many places one cursor is ahead of another, if the difference of the two positions, each
read as a signed word, is a signed word. -/
def difference? (left right : ArrayCursor ρ) : Option Int64 :=
  let ahead := left.index.toInt64
  let behind := right.index.toInt64
  let exact := ahead.toInt - behind.toInt
  if Int64.minValue.toInt ≤ exact ∧ exact ≤ Int64.maxValue.toInt then some (ahead - behind) else none

end JsonOverlay.ArrayCursor
