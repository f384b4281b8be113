/-
This file moves plain trees into an arena and reads them out again. A tree is stored
from its leaves upwards, one node for each value.
-/

import JsonOverlay.Arena
import JsonOverlay.Tree

namespace JsonOverlay.Arena

mutual

/-- Stores a tree: the children from the first to the last, then the node above them. -/
def store (arena : Arena) : Tree → NodeId × Arena
  | .null => arena.alloc .null
  | .bool value => arena.alloc (.bool value)
  | .number value => arena.alloc (.number value)
  | .string value => arena.alloc (.string value)
  | .array items =>
    let (ids, filled) := storeItems arena items
    filled.alloc (.array ids)
  | .object members =>
    let (ids, filled) := storeMembers arena members
    filled.alloc (.object ids)

/-- Stores the elements of an array. -/
def storeItems (arena : Arena) : List Tree → List NodeId × Arena
  | [] => ([], arena)
  | item :: rest =>
    let (id, filled) := store arena item
    let (ids, complete) := storeItems filled rest
    (id :: ids, complete)

/-- Stores the members of an object. -/
def storeMembers (arena : Arena) : List (String × Tree) → List (String × NodeId) × Arena
  | [] => ([], arena)
  | (name, child) :: rest =>
    let (id, filled) := store arena child
    let (ids, complete) := storeMembers filled rest
    ((name, id) :: ids, complete)

end

/-- A new arena with a tree at its root. -/
def ofTree (tree : Tree) : Arena :=
  let (root, arena) := empty.store tree
  arena.setRoot root

/-- The tree under an identifier, down to a number of levels. -/
def treeWithin (arena : Arena) : Nat → NodeId → Tree
  | 0, _ => .null
  | levels + 1, id =>
    match arena.get? id with
    | none => .null
    | some node => Tree.ofContent (node.map (treeWithin arena levels))

/-- The tree under an identifier. Nodes that form a tree are nested no deeper than there
are slots. -/
def tree (arena : Arena) (id : NodeId) : Tree := arena.treeWithin arena.slots.size id

end JsonOverlay.Arena
