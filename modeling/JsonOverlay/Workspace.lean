/-
This file defines workspaces: the documents, values and allocators that a program holds
by name. Everything a program does to them is a lookup along a path from one of its
names, or a change at the end of such a path.
-/

import JsonOverlay.Document
import JsonOverlay.Value.Cursor
import JsonOverlay.Value.Write

namespace JsonOverlay

/-- What a name may hold. -/
inductive Holding where
  | document (held : Document)
  | value (held : Value)
  | allocator (held : Allocator)
deriving Repr

namespace Holding

/-- The value that paths start from, which is null for an allocator. -/
def root : Holding → Value
  | document held => held.root
  | value held => held
  | allocator _ => Value.null

def withRoot (root : Value) : Holding → Holding
  | document held => .document { held with root }
  | value _ => .value root
  | allocator held => .allocator held

end Holding

/-- The documents, values and allocators that a program holds, and the arenas of all
documents it has made. -/
structure Workspace where
  heap : Heap := {}
  holdings : List (String × Holding) := []
deriving Repr

/-- The start of a path and its steps. -/
structure Place where
  name : String
  path : List Step := []
deriving DecidableEq, Repr

namespace Workspace

/-- A workspace that holds nothing. -/
def empty : Workspace := {}

def holding? (workspace : Workspace) (name : String) : Option Holding :=
  workspace.holdings.lookup name

def document? (workspace : Workspace) (name : String) : Option Document :=
  match workspace.holding? name with
  | some (.document document) => some document
  | _ => none

/-- The value that paths from a name start from. A name that holds nothing stands for
null. -/
def root (workspace : Workspace) (name : String) : Value :=
  ((workspace.holding? name).map Holding.root).getD Value.null

/-! ### Names -/

/-- Takes what a name holds out of the workspace. -/
def withdraw (workspace : Workspace) (name : String) : Workspace :=
  { workspace with holdings := workspace.holdings.filter fun (other, _) => other != name }

/-- Releases what a name holds. -/
def drop (workspace : Workspace) (name : String) : Workspace :=
  let heap := match workspace.document? name with
    | some document => document.drop workspace.heap
    | none => workspace.heap
  { workspace.withdraw name with heap }

/-- Gives a name something to hold, which releases what it held. -/
def hold (workspace : Workspace) (name : String) (holding : Holding) : Workspace :=
  let dropped := workspace.drop name
  { dropped with holdings := (name, holding) :: dropped.holdings }

/-- Changes the root value of what a name holds. -/
def setRoot (workspace : Workspace) (name : String) (root : Value) : Workspace :=
  { workspace with
    holdings := workspace.holdings.map fun (other, holding) =>
      (other, if other = name then holding.withRoot root else holding) }

/-- The allocator of a document, or one that is held itself. Any other name stands for
the one that belongs to no document. -/
def allocator (workspace : Workspace) (name : String) : Allocator :=
  match workspace.holding? name with
  | some (.document document) => document.allocator
  | some (.allocator allocator) => allocator
  | _ => {}

/-! ### Documents -/

/-- Makes a new document. -/
def newDocument (workspace : Workspace) (name : String) : Workspace :=
  let (heap, document) := Document.new workspace.heap
  { workspace with heap }.hold name (.document document)

/-- Puts the outcome of a parse into a document, which is made first if need be. -/
def install (workspace : Workspace) (name : String) (parsed : Except Error Tree) : Workspace :=
  let ready := if (workspace.document? name).isSome then workspace else workspace.newDocument name
  match ready.document? name with
  | none => ready
  | some document =>
    let (heap, installed) := document.install ready.heap parsed
    { ready.withdraw name with heap }.hold name (.document installed)

/-- Moves the content of a document to another name. -/
def take (workspace : Workspace) (name target : String) : Workspace :=
  match workspace.document? name with
  | none => workspace
  | some document =>
    let (heap, taken, fresh) := document.take workspace.heap
    let left := { workspace.withdraw name with heap }.hold name (.document fresh)
    left.hold target (.document taken)

/-- Puts a copy of a document under another name. -/
def duplicate (workspace : Workspace) (name target : String) : Workspace :=
  match workspace.document? name with
  | none => workspace
  | some document =>
    let (heap, copy) := document.duplicate workspace.heap
    { workspace with heap }.hold target (.document copy)

/-! ### Places -/

/-- Looks up a place for reading and answers with a reference to what is there. -/
def refer (workspace : Workspace) (place : Place) : Workspace × Option Reference :=
  let (root, reference) := (workspace.root place.name).read workspace.heap place.path
  (workspace.setRoot place.name root, reference)

/-- Looks up one place for reading and then another. -/
def referBoth (workspace : Workspace) (left right : Place) :
    Workspace × Option Reference × Option Reference :=
  let (between, first) := workspace.refer left
  let (looked, second) := between.refer right
  (looked, first, second)

/-- The value that a reference from a name means. -/
def at? (workspace : Workspace) (name : String) (reference : Reference) : Option Value :=
  (workspace.root name).at? reference

/-- Looks up a place for reading and answers with the value there. -/
def read (workspace : Workspace) (place : Place) : Workspace × Value :=
  let (looked, reference) := workspace.refer place
  (looked, (reference.bind (looked.at? place.name)).getD Value.null)

/-- Looks up a place for reading and lets a function look further from the value there. -/
def visit {β : Type} (workspace : Workspace) (place : Place) (use : Value → Value × β) :
    Workspace × Option β :=
  let (looked, found) := workspace.refer place
  let root := looked.root place.name
  match found with
  | none => (looked, none)
  | some reference =>
    match root.at? reference with
    | none => (looked, none)
    | some value =>
      let (changed, answer) := use value
      (looked.setRoot place.name (root.writeAt (fun _ => changed) reference), some answer)

/-- Looks up a place for writing and edits the value there. -/
def edit {β : Type} (workspace : Workspace) (name : String) (keys : List ChildKey)
    (change : Heap → Value → Value.Edited β) : Workspace × β :=
  let edited := (workspace.root name).edit workspace.heap change keys
  ({ workspace with heap := edited.heap }.setRoot name edited.value, edited.result)

/-- Carries out an operation at a place. -/
def perform (workspace : Workspace) (name : String) (keys : List ChildKey)
    (operation : Operation) : Workspace × Outcome :=
  workspace.edit name keys operation.run

/-- Moves the value at a place out, with what was looked up through it, and leaves null. -/
def moveOut (workspace : Workspace) (name : String) (keys : List ChildKey) : Workspace × Value :=
  workspace.edit name keys fun heap value => ⟨heap, Value.null, value⟩

/-! ### Cursors -/

/-- A cursor over an array in the workspace. Two such arrays are the same if they are the
same version of the same child. -/
abbrev Cursor := ArrayCursor (String × Reference)

/-- The cursors at the first element of the array at a place and after its last. -/
def cursors (workspace : Workspace) (place : Place) : Workspace × Option (Cursor × Cursor) :=
  let (looked, found) := workspace.refer place
  let made := do
    let reference ← found
    let value ← looked.at? place.name reference
    let array := (place.name, reference)
    let size := value.size looked.heap
    return (ArrayCursor.start array size, ArrayCursor.afterLast array size)
  (looked, made)

/-- Looks up elements of the array of a cursor. -/
def lookElements (workspace : Workspace) (cursor : Cursor) (indices : List UInt64) :
    Workspace × List Value :=
  let (name, reference) := cursor.array
  let root := workspace.root name
  match root.at? reference with
  | none => (workspace, [])
  | some value =>
    let (found, changed) := ArrayCursor.lookAll workspace.heap value indices
    (workspace.setRoot name (root.writeAt (fun _ => changed) reference), found)

end Workspace

/-! ### Operands -/

/-- How a program comes by a value: it makes one, or gets one from a place. -/
inductive Operand where
  | tree (shown : Tree)
  | array (items : List Operand)
  | object (members : List (String × Operand))
  | duplicate (place : Place)
  | deepCopy (place : Place)
  | moveOut (name : String) (keys : List ChildKey)
deriving Repr

namespace Operand

mutual

/-- Comes by a value; the parts of an array or object are come by in order. -/
def evaluate (workspace : Workspace) : Operand → Workspace × Value
  | tree shown => (workspace, Value.ofTree shown)
  | array items =>
    let (after, values) := evaluateItems workspace items
    (after, Value.detached (.array values))
  | object members =>
    let (after, values) := evaluateMembers workspace members
    (after, Value.detached (.object values))
  | duplicate place =>
    let (looked, value) := workspace.read place
    (looked, value.duplicate)
  | deepCopy place =>
    let (looked, value) := workspace.read place
    (looked, value.deepCopy looked.heap)
  | moveOut name keys => workspace.moveOut name keys

/-- Comes by the elements of an array. -/
def evaluateItems (workspace : Workspace) : List Operand → Workspace × List Value
  | [] => (workspace, [])
  | item :: rest =>
    let (after, value) := evaluate workspace item
    let (last, values) := evaluateItems after rest
    (last, value :: values)

/-- Comes by the members of an object. -/
def evaluateMembers (workspace : Workspace) :
    List (String × Operand) → Workspace × List (String × Value)
  | [] => (workspace, [])
  | (name, child) :: rest =>
    let (after, value) := evaluate workspace child
    let (last, values) := evaluateMembers after rest
    (last, (name, value) :: values)

end

end Operand

end JsonOverlay
