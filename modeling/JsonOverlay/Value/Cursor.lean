/-
This file walks over the members of an object and the elements of an array. A walk fixes
names and indices when it starts and looks each child up when it gets there. A cursor over
an array moves from both ends, and its position can be computed with; positions are 64-bit
and stop at the ends of that range.
-/

import JsonOverlay.Value.Lookup

namespace JsonOverlay

/-! ### Members -/

/-- The members that a walk has still to visit, by name and key. The empty walk is the
one at its end. -/
structure MemberCursor where
  pending : List (String × ChildKey) := []
deriving DecidableEq, Repr, Inhabited

namespace MemberCursor

/-- A walk over all members of an object. -/
def start (value : Value) (heap : Heap) : MemberCursor :=
  let names := (value.backing heap).memberNames
  ⟨names.zip (memberKeys names)⟩

def hasNext (cursor : MemberCursor) : Bool := !cursor.pending.isEmpty

/-- The number of members left. -/
def remaining (cursor : MemberCursor) : Nat := cursor.pending.length

/-- Two walks compare equal if both or neither have members left. -/
def equal (left right : MemberCursor) : Bool := left.hasNext == right.hasNext

/-- Visits the next member: its name and key, the object after the lookup, and the walk
that is left. -/
def next? (cursor : MemberCursor) (value : Value) (heap : Heap) :
    Option ((String × ChildKey) × Value × MemberCursor) :=
  match cursor.pending with
  | [] => none
  | (name, key) :: rest => some ((name, key), value.look heap key, ⟨rest⟩)

/-- A member as a walk comes upon it, and how many were left before. -/
structure Visit where
  remaining : Nat
  name : String
  value : Value

/-- Visits at most some members. -/
def walk (heap : Heap) : Nat → MemberCursor → Value → List Visit × MemberCursor × Value
  | 0, cursor, value => ([], cursor, value)
  | count + 1, cursor, value =>
    match cursor.next? value heap with
    | none => ([], cursor, value)
    | some ((name, key), looked, rest) =>
      let (visits, last, final) := walk heap count rest looked
      (⟨cursor.remaining, name, (looked.child key).value⟩ :: visits, last, final)

end MemberCursor

/-! ### Elements -/

/-- A position in an array and the end of the walk over it. The array is named by
whatever tells arrays apart. -/
structure ArrayCursor (ρ : Type) where
  array : ρ
  index : UInt64
  finish : UInt64
deriving DecidableEq, Repr

/-- The end of the range in which positions lie. -/
def greatestPosition : Int := 2 ^ 64 - 1

namespace ArrayCursor

variable {ρ : Type}

/-- A cursor at the first element. -/
def start (array : ρ) (size : Nat) : ArrayCursor ρ := ⟨array, 0, UInt64.ofNat size⟩

/-- A cursor after the last element. -/
def afterLast (array : ρ) (size : Nat) : ArrayCursor ρ :=
  ⟨array, UInt64.ofNat size, UInt64.ofNat size⟩

/-- The number of elements left between both ends. -/
def length (cursor : ArrayCursor ρ) : Nat := cursor.finish.toNat - cursor.index.toNat

/-- The index of the next element, and the cursor behind it. -/
def next (cursor : ArrayCursor ρ) : Option UInt64 × ArrayCursor ρ :=
  if cursor.index < cursor.finish then
    (some cursor.index, { cursor with index := cursor.index + 1 })
  else (none, cursor)

/-- The index of the last element left, and the cursor before it. -/
def nextBack (cursor : ArrayCursor ρ) : Option UInt64 × ArrayCursor ρ :=
  if cursor.index < cursor.finish then
    (some (cursor.finish - 1), { cursor with finish := cursor.finish - 1 })
  else (none, cursor)

/-- A position moved by an offset, held at the ends of the range. -/
def moved (index : UInt64) (offset : Int) : UInt64 :=
  UInt64.ofInt (max 0 (min greatestPosition (index.toNat + offset)))

/-- Leaves out some elements and gives the one after them. Nothing is looked up for the
elements left out. -/
def nth (cursor : ArrayCursor ρ) (count : Nat) : Option UInt64 × ArrayCursor ρ :=
  { cursor with index := moved cursor.index count }.next

/-- The elements at some indices, each looked up in turn. -/
def lookAll (heap : Heap) (value : Value) (indices : List UInt64) : List Value × Value :=
  match indices with
  | [] => ([], value)
  | index :: rest =>
    let key := ChildKey.element index.toNat
    let looked := value.look heap key
    let (found, final) := lookAll heap looked rest
    ((looked.child key).value :: found, final)

/-- The indices that at most some steps from the front visit. -/
def visited (count : Nat) (cursor : ArrayCursor ρ) : List UInt64 × ArrayCursor ρ :=
  match count with
  | 0 => ([], cursor)
  | count + 1 =>
    match cursor.next with
    | (none, rest) => ([], rest)
    | (some index, rest) =>
      let (indices, last) := visited count rest
      (index :: indices, last)

/-- The indices that at most some steps from the back visit. -/
def visitedBack (count : Nat) (cursor : ArrayCursor ρ) : List UInt64 × ArrayCursor ρ :=
  match count with
  | 0 => ([], cursor)
  | count + 1 =>
    match cursor.nextBack with
    | (none, rest) => ([], rest)
    | (some index, rest) =>
      let (indices, last) := visitedBack count rest
      (index :: indices, last)

/-- Leaves out some elements at the back and gives the one before them. The elements left
out are visited: their indices come first in the answer. -/
def nthBack (cursor : ArrayCursor ρ) (count : Nat) :
    List UInt64 × Option UInt64 × ArrayCursor ρ :=
  let (passed, rest) := cursor.visitedBack (min count cursor.length)
  (passed, rest.nextBack)

/-- The cursor some places further on. -/
def advance (cursor : ArrayCursor ρ) (offset : Int64) : ArrayCursor ρ :=
  { cursor with index := moved cursor.index offset.toInt }

/-- An offset with its sign changed. The least one has no opposite and becomes the
greatest. -/
def opposite (offset : Int64) : Int64 :=
  if offset = Int64.minValue then Int64.maxValue else -offset

/-- The cursor some places back. -/
def retreat (cursor : ArrayCursor ρ) (offset : Int64) : ArrayCursor ρ :=
  cursor.advance (opposite offset)

/-- How many places one cursor is ahead of another. -/
def distance (left right : ArrayCursor ρ) : Int64 := (left.index - right.index).toInt64

/-- The order of two cursors, if they are over the same array. -/
def order? [DecidableEq ρ] (left right : ArrayCursor ρ) : Option Ordering :=
  if left.array = right.array then some (compare left.index right.index) else none

/-- Whether two cursors are at the same place of the same array. -/
def equal [DecidableEq ρ] (left right : ArrayCursor ρ) : Bool :=
  decide (left.array = right.array) && left.index == right.index

end ArrayCursor

end JsonOverlay
