/-
This file stores the nodes of one document in slots that are used again after they were
freed. A node is known by its slot and the generation of that slot; freeing a slot moves
it to the next generation, so an identifier that was kept past that finds nothing rather
than the node that took its place.
-/

import JsonOverlay.Content

namespace JsonOverlay

/-- A slot and the generation it had when the node was stored. -/
structure NodeId where
  index : UInt32
  generation : UInt32
deriving DecidableEq, Repr, Inhabited

/-- One level of a document whose children are elsewhere in the arena. -/
abbrev Node := Content NodeId

/-- A place for a node. -/
structure Slot where
  generation : UInt32
  node : Option Node
deriving DecidableEq, Repr, Inhabited

/-- The nodes of one document. The vacant slots are listed with the one that was freed
last in front. -/
structure Arena where
  slots : Array Slot := #[]
  vacant : List UInt32 := []
  root : Option NodeId := none
  live : Nat := 0
deriving DecidableEq, Repr, Inhabited

namespace Arena

/-- An arena without nodes. -/
def empty : Arena := {}

def isEmpty (arena : Arena) : Bool := arena.live == 0

/-- The node an identifier stands for, if it has not been freed. -/
def get? (arena : Arena) (id : NodeId) : Option Node :=
  match arena.slots[id.index.toNat]? with
  | some slot => if slot.generation = id.generation then slot.node else none
  | none => none

def contains (arena : Arena) (id : NodeId) : Bool := (arena.get? id).isSome

def setRoot (arena : Arena) (root : NodeId) : Arena := { arena with root := some root }

/-- Overwrites the slot of an identifier, generation included. -/
def fill (arena : Arena) (id : NodeId) (slot : Slot) : Arena :=
  { arena with slots := arena.slots.setIfInBounds id.index.toNat slot }

/-- Stores a node in the slot that was freed last, or in a new slot if none is vacant. -/
def alloc (arena : Arena) (node : Node) : NodeId × Arena :=
  match arena.vacant with
  | index :: vacant =>
    let id : NodeId := ⟨index, (arena.slots[index.toNat]?.map Slot.generation).getD 0⟩
    (id, { arena.fill id ⟨id.generation, some node⟩ with vacant, live := arena.live + 1 })
  | [] =>
    (⟨UInt32.ofNat arena.slots.size, 0⟩,
      { arena with slots := arena.slots.push ⟨0, some node⟩, live := arena.live + 1 })

/-- Overwrites a node and leaves the old children as they are. -/
def assign (arena : Arena) (id : NodeId) (node : Node) : Arena :=
  if arena.contains id then arena.fill id ⟨id.generation, some node⟩ else arena

/-! ### Freeing -/

/-- Frees the slot of a live node alone: it becomes vacant and moves to the next
generation. -/
def vacate (arena : Arena) (id : NodeId) : Arena :=
  { arena.fill id ⟨id.generation + 1, none⟩ with
    vacant := id.index :: arena.vacant
    live := arena.live - 1 }

/-- The number of slots that hold a node. -/
def occupied (arena : Arena) : Nat := arena.slots.countP fun slot => slot.node.isSome

theorem get?_eq_some {arena : Arena} {id : NodeId} {node : Node} (found : arena.get? id = some node) :
    ∃ bound : id.index.toNat < arena.slots.size,
      arena.slots[id.index.toNat] = ⟨id.generation, some node⟩ := by
  unfold get? at found
  split at found
  · rename_i slot present
    split at found
    · rename_i same
      obtain ⟨bound, value⟩ := Array.getElem?_eq_some_iff.mp present
      refine ⟨bound, ?_⟩
      rw [value]
      cases slot
      simp_all
    · cases found
  · cases found

/-- Freeing a node leaves one slot less that holds one. -/
theorem occupied_vacate {arena : Arena} {id : NodeId} {node : Node}
    (found : arena.get? id = some node) :
    (arena.vacate id).occupied < arena.occupied := by
  obtain ⟨bound, value⟩ := get?_eq_some found
  have positive : 0 < arena.slots.countP fun slot => slot.node.isSome :=
    Array.countP_pos_iff.mpr ⟨_, Array.getElem_mem bound, by simp [value]⟩
  simp only [occupied, vacate, fill, Array.setIfInBounds, dif_pos bound]
  rw [Array.countP_set]
  simp only [value, Option.isSome_some, Option.isSome_none, if_true, Bool.false_eq_true, if_false]
  omega

/-- Frees what identifiers stand for, and the children of each freed node before the
identifiers that were waiting: the last child of a node is freed first. Identifiers that
find nothing are passed over, which also ends the walk on a cycle. -/
def freeAll (arena : Arena) : List NodeId → Arena
  | [] => arena
  | id :: waiting =>
    match _found : arena.get? id with
    | none => freeAll arena waiting
    | some node => freeAll (arena.vacate id) (node.children.reverse ++ waiting)
termination_by pending => (arena.occupied, pending.length)
decreasing_by
  · exact Prod.Lex.right _ (by simp)
  · exact Prod.Lex.left _ _ (occupied_vacate _found)

/-- Frees a node with everything below it. -/
def free (arena : Arena) (id : NodeId) : Arena := arena.freeAll [id]

/-- Overwrites a node and frees what its old children stood for. Answers whether there
was such a node. -/
def replace (arena : Arena) (id : NodeId) (node : Node) : Bool × Arena :=
  match arena.get? id with
  | none => (false, arena)
  | some old => (true, old.children.foldl free (arena.assign id node))

/-! ### Children -/

/-- The first member of an object with a name. -/
def member? (arena : Arena) (id : NodeId) (name : String) : Option NodeId :=
  (arena.get? id).bind fun node => node.member? name

/-- The element of an array at an index. -/
def element? (arena : Arena) (id : NodeId) (index : Nat) : Option NodeId :=
  (arena.get? id).bind fun node => node.element? index

end Arena

end JsonOverlay
