/-
This file moves a cursor over the elements of an array in any order from both ends, one move after
the other. What is done by positions alone is also done step by step with the array at hand, where
elements are looked up as they are come to and there is no answer if a position would leave its
range. Beside both stands a queue that gives up items at its two ends.
-/

import JsonOverlay.Value.Cursor

namespace JsonOverlay

/-! ### Moves and answers -/

/-- What a cursor over an array may be asked for: the next element at either end, that behind some
others, and how many elements are left, as a number or as bounds on it. -/
inductive ArrayMove where
  | next
  | nextBack
  | nth (count : UInt64)
  | nthBack (count : UInt64)
  | length
  | bounds
deriving DecidableEq, Repr

/-- What a cursor answers. -/
inductive ArrayAnswer (α : Type) where
  | item (found : Option α)
  | length (count : Nat)
  | bounds (least : Nat) (greatest : Option Nat)
deriving DecidableEq, Repr

namespace ArrayAnswer

variable {α β : Type}

def map (change : α → β) : ArrayAnswer α → ArrayAnswer β
  | item found => item (found.map change)
  | length count => length count
  | bounds least greatest => bounds least greatest

/-- The item that is answered. -/
def item? : ArrayAnswer α → Option α
  | item found => found
  | _ => none

/-- The items among some answers. -/
def items (answers : List (ArrayAnswer α)) : List α := answers.filterMap item?

end ArrayAnswer

/-! ### A queue with two ends -/

/-- What a queue answers, and what is left of it. Items that are passed over are dropped. -/
def ArrayMove.answer {α : Type} (queue : List α) : ArrayMove → ArrayAnswer α × List α
  | next => (.item queue.head?, queue.tail)
  | nextBack => (.item queue.getLast?, queue.dropLast)
  | nth count =>
    let rest := queue.drop count.toNat
    (.item rest.head?, rest.tail)
  | nthBack count =>
    let rest := queue.take (queue.length - count.toNat)
    (.item rest.getLast?, rest.dropLast)
  | length => (.length queue.length, queue)
  | bounds => (.bounds queue.length (some queue.length), queue)

/-- What a queue answers to one move after the other. -/
def ArrayMove.answers {α : Type} (queue : List α) :
    List ArrayMove → List (ArrayAnswer α) × List α
  | [] => ([], queue)
  | move :: rest =>
    let (answer, left) := move.answer queue
    let (answers, last) := answers left rest
    (answer :: answers, last)

/-! ### Moves by positions -/

namespace ArrayCursor

variable {ρ : Type}

/-- What comes of a move: the indices of the elements that are looked up, the answer, and the
cursor that is left. -/
structure Moved (ρ : Type) where
  looked : List UInt64
  answer : ArrayAnswer UInt64
  cursor : ArrayCursor ρ

def move (cursor : ArrayCursor ρ) : ArrayMove → Moved ρ
  | .next =>
    let (found, rest) := cursor.next
    ⟨found.toList, .item found, rest⟩
  | .nextBack =>
    let (found, rest) := cursor.nextBack
    ⟨found.toList, .item found, rest⟩
  | .nth count =>
    let (found, rest) := cursor.nth count.toNat
    ⟨found.toList, .item found, rest⟩
  | .nthBack count =>
    let (passed, found, rest) := cursor.nthBack count.toNat
    ⟨passed ++ found.toList, .item found, rest⟩
  | .length => ⟨[], .length cursor.length, cursor⟩
  | .bounds => ⟨[], .bounds cursor.length (some cursor.length), cursor⟩

/-- What comes of one move after the other. -/
def moves (cursor : ArrayCursor ρ) :
    List ArrayMove → List UInt64 × List (ArrayAnswer UInt64) × ArrayCursor ρ
  | [] => ([], [], cursor)
  | move :: rest =>
    let moved := cursor.move move
    let (looked, answers, last) := moved.cursor.moves rest
    (moved.looked ++ looked, moved.answer :: answers, last)

end ArrayCursor

/-! ### Moves step by step -/

/-- An element as a cursor comes to it: its index, and the child that is looked up there. -/
structure ElementVisit where
  index : UInt64
  child : Version Value

/-- The child in the table at an index, as it is come to. -/
def ElementVisit.found (value : Value) (index : UInt64) : ElementVisit :=
  ⟨index, value.child (.element index.toNat)⟩

/-- A cursor and the array that it goes over. -/
structure ArrayWalk (ρ : Type) where
  cursor : ArrayCursor ρ
  value : Value

namespace ArrayWalk

variable {ρ : Type}

/-- A walk from the first element of a value to its last. What is no array has no elements. -/
def start (array : ρ) (value : Value) (heap : Heap) : ArrayWalk ρ :=
  ⟨.start array (value.size heap), value⟩

/-- The position behind another, if it is in range. -/
def behind? (position : UInt64) : Option UInt64 :=
  if position.toNat + 1 < 2 ^ 64 then some (position + 1) else none

/-- The position in front of another, if it is in range. -/
def before? (position : UInt64) : Option UInt64 :=
  if 0 < position.toNat then some (position - 1) else none

/-- The position some places further on, held at the end of the range. -/
def furtherOn (position count : UInt64) : UInt64 :=
  if position.toNat + count.toNat < 2 ^ 64 then position + count else -1

/-- Looks up the element at an index. -/
def get (heap : Heap) (value : Value) (index : UInt64) : ElementVisit × Value :=
  let looked := value.look heap (.element index.toNat)
  (.found looked index, looked)

/-- The next element from the front. -/
def next? (heap : Heap) (walk : ArrayWalk ρ) : Option (Option ElementVisit × ArrayWalk ρ) :=
  if walk.cursor.finish ≤ walk.cursor.index then some (none, walk)
  else
    let (visit, value) := get heap walk.value walk.cursor.index
    (behind? walk.cursor.index).map fun index =>
      (some visit, ⟨{ walk.cursor with index }, value⟩)

/-- The next element from the back. -/
def nextBack? (heap : Heap) (walk : ArrayWalk ρ) : Option (Option ElementVisit × ArrayWalk ρ) :=
  if walk.cursor.finish ≤ walk.cursor.index then some (none, walk)
  else
    (before? walk.cursor.finish).map fun finish =>
      let (visit, value) := get heap walk.value finish
      (some visit, ⟨{ walk.cursor with finish }, value⟩)

/-- Leaves out elements at the front without looking at them. -/
def nth? (heap : Heap) (walk : ArrayWalk ρ) (count : UInt64) :
    Option (Option ElementVisit × ArrayWalk ρ) :=
  let index := furtherOn walk.cursor.index count
  next? heap { walk with cursor := { walk.cursor with index } }

/-- Visits elements at the back, and tells whether there were enough. -/
def passBack? (heap : Heap) : Nat → ArrayWalk ρ → Option (Bool × ArrayWalk ρ)
  | 0, walk => some (true, walk)
  | count + 1, walk =>
    (nextBack? heap walk).bind fun (found, rest) =>
      match found with
      | none => some (false, rest)
      | some _ => passBack? heap count rest

/-- Leaves out elements at the back, one after the other. -/
def nthBack? (heap : Heap) (walk : ArrayWalk ρ) (count : UInt64) :
    Option (Option ElementVisit × ArrayWalk ρ) :=
  (passBack? heap count.toNat walk).bind fun (enough, rest) =>
    if enough then nextBack? heap rest else some (none, rest)

/-- Bounds on the number of elements left. -/
def bounds (walk : ArrayWalk ρ) : Nat × Option Nat :=
  (walk.cursor.length, some walk.cursor.length)

/-- The number of elements left, if the bounds on it agree. -/
def length? (walk : ArrayWalk ρ) : Option Nat :=
  let (least, greatest) := walk.bounds
  if greatest = some least then some least else none

/-- The answer to a move, and the walk that is left. -/
def move? (heap : Heap) (walk : ArrayWalk ρ) :
    ArrayMove → Option (ArrayAnswer ElementVisit × ArrayWalk ρ)
  | .next => (next? heap walk).map fun (found, rest) => (.item found, rest)
  | .nextBack => (nextBack? heap walk).map fun (found, rest) => (.item found, rest)
  | .nth count => (nth? heap walk count).map fun (found, rest) => (.item found, rest)
  | .nthBack count => (nthBack? heap walk count).map fun (found, rest) => (.item found, rest)
  | .length => walk.length?.map fun count => (.length count, walk)
  | .bounds => some (.bounds walk.bounds.1 walk.bounds.2, walk)

/-- The answers to one move after the other. -/
def moves? (heap : Heap) (walk : ArrayWalk ρ) :
    List ArrayMove → Option (List (ArrayAnswer ElementVisit) × ArrayWalk ρ)
  | [] => some ([], walk)
  | move :: rest =>
    (walk.move? heap move).bind fun (answer, next) =>
      (next.moves? heap rest).map fun (answers, last) => (answer :: answers, last)

end ArrayWalk

end JsonOverlay
