/-
This file holds the arenas of all documents that a program has made. A dropped document
leaves its place empty for good, so a reference into it finds nothing ever after.
-/

import JsonOverlay.Arena.Tree

namespace JsonOverlay

/-- The place of an arena. -/
structure ArenaId where
  index : Nat
deriving DecidableEq, Repr, Inhabited

/-- A node of some arena. -/
structure NodeRef where
  arena : ArenaId
  node : NodeId
deriving DecidableEq, Repr, Inhabited

/-- The arenas of all documents, dropped ones included. -/
structure Heap where
  arenas : Array (Option Arena) := #[]
deriving DecidableEq, Repr, Inhabited

namespace Heap

/-- No document yet. -/
def empty : Heap := {}

/-- The arena at a place, unless its document was dropped. -/
def arena? (heap : Heap) (id : ArenaId) : Option Arena := heap.arenas[id.index]?.join

/-- Gives an arena a place of its own. -/
def add (heap : Heap) (arena : Arena) : ArenaId × Heap :=
  (⟨heap.arenas.size⟩, { arenas := heap.arenas.push (some arena) })

/-- Stores what an arena has become. -/
def put (heap : Heap) (id : ArenaId) (arena : Arena) : Heap :=
  { arenas := heap.arenas.setIfInBounds id.index (some arena) }

/-- Releases an arena with all its nodes. -/
def drop (heap : Heap) (id : ArenaId) : Heap :=
  { arenas := heap.arenas.setIfInBounds id.index none }

/-- The node a reference stands for, if both it and its document are still there. -/
def node? (heap : Heap) (reference : NodeRef) : Option Node :=
  (heap.arena? reference.arena).bind fun arena => arena.get? reference.node

/-- The tree under a reference; nothing reads as null. -/
def tree (heap : Heap) (reference : NodeRef) : Tree :=
  match heap.arena? reference.arena with
  | some arena => arena.tree reference.node
  | none => .null

end Heap

/-- Permission to add nodes to the arena of one document. The default one belongs to no
document. -/
structure Allocator where
  arena : Option ArenaId := none
deriving DecidableEq, Repr, Inhabited

namespace Allocator

/-- Whether the document is still there. -/
def isAlive (allocator : Allocator) (heap : Heap) : Bool :=
  (allocator.arena.bind heap.arena?).isSome

/-- The number of nodes in use, zero once the document is gone. -/
def nodeCount (allocator : Allocator) (heap : Heap) : Nat :=
  ((allocator.arena.bind heap.arena?).map Arena.live).getD 0

/-- Whether a node lies in the allocator's arena. -/
def owns (allocator : Allocator) (reference : NodeRef) : Bool :=
  allocator.arena == some reference.arena

end Allocator

end JsonOverlay
