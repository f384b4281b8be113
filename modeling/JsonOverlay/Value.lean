/-
This file defines values. A value is attached to a node of some document or detached and
holds its content itself; either way it carries the children that were looked up through
it, and these are shown in place of the children behind it. Reading through a document
that was dropped, or at a node that was freed, reads null.
-/

import JsonOverlay.Children
import JsonOverlay.Heap
import JsonOverlay.Writer

namespace JsonOverlay

/-- Where the content of a value is. -/
inductive Storage (α : Type) where
  | attached (node : NodeRef)
  | detached (content : Content α)
deriving Repr, Inhabited

/-- A value with the children that were looked up through it. -/
structure Value where
  storage : Storage Value
  children : Children Value := {}
deriving Repr

namespace Value

/-- The value attached to a node, with nothing looked up. -/
def attached (node : NodeRef) : Value := { storage := .attached node }

/-- The detached value with some content, with nothing looked up. -/
def detached (content : Content Value) : Value := { storage := .detached content }

/-- The detached null. -/
def null : Value := detached .null

instance : Inhabited Value := ⟨null⟩

/-- The detached value of a type that says the least. -/
def new (kind : Kind) : Value := detached (Content.empty kind)

mutual

/-- The detached value that shows a tree, with nothing looked up at any depth. -/
def ofTree : Tree → Value
  | .null => detached .null
  | .bool value => detached (.bool value)
  | .number value => detached (.number value)
  | .string value => detached (.string value)
  | .array items => detached (.array (ofTrees items))
  | .object members => detached (.object (ofNamedTrees members))

/-- The elements of a detached array that shows trees. -/
def ofTrees : List Tree → List Value
  | [] => []
  | item :: rest => ofTree item :: ofTrees rest

/-- The members of a detached object that shows trees. -/
def ofNamedTrees : List (String × Tree) → List (String × Value)
  | [] => []
  | (name, child) :: rest => (name, ofTree child) :: ofNamedTrees rest

end

/-! ### What lies behind a value -/

def isAttached (value : Value) : Bool :=
  match value.storage with
  | .attached _ => true
  | .detached _ => false

/-- The content behind a value, without regard to the children that were looked up. -/
def backing (value : Value) (heap : Heap) : Content Value :=
  match value.storage with
  | .detached content => content
  | .attached reference =>
    match heap.node? reference with
    | some node => node.map fun child => attached ⟨reference.arena, child⟩
    | none => .null

/-- The type of a value. -/
def kind (value : Value) (heap : Heap) : Kind := (value.backing heap).kind

/-- Another handle for the same content. It shows what the value shows, and what is done
through one of them afterwards does not reach the children of the other. -/
def duplicate (value : Value) : Value := { value with children := value.children.latest }

/-! ### What a value shows -/

/-- Whether nothing was done to a value that was put in for a missing child. -/
def isBlank (value : Value) : Bool :=
  match value.storage with
  | .detached .null => value.children.isEmpty
  | _ => false

/-- Whether a child in the table is shown in place of the child behind it. A placeholder
that nothing was done to is not; the members known by position always are. -/
def isShown (key : ChildKey) (child : Value) (placeholder : Bool) : Bool :=
  match key with
  | .repeated _ => true
  | _ => !(placeholder && child.isBlank)

/-- The child in the table that is shown at a key. -/
def shownChild? (value : Value) (key : ChildKey) : Option Value :=
  match value.children.find? key with
  | some (child, placeholder) => if isShown key child placeholder then some child else none
  | none => none

/-- One level of a value with the looked-up children in place. -/
def shape (value : Value) (heap : Heap) : Content Value :=
  (value.backing heap).overlaid value.shownChild?

/-- A tree with some children in place of those at their keys. -/
def overlay (tree : Tree) (shown : List (ChildKey × Tree)) : Tree :=
  Tree.ofContent (tree.content.overlaid fun key => shown.lookup key)

mutual

/-- The tree that a value shows: the looked-up children in place of those behind it, at
every depth. -/
def visible (heap : Heap) : Value → Tree
  | ⟨storage, children⟩ => overlay (visibleStorage heap storage) (visibleChildren heap children)

/-- The tree behind a value, in which looked-up children are in place below the top. -/
def visibleStorage (heap : Heap) : Storage Value → Tree
  | .attached reference => heap.tree reference
  | .detached content => visibleContent heap content

/-- The tree of detached content. -/
def visibleContent (heap : Heap) : Content Value → Tree
  | .null => .null
  | .bool value => .bool value
  | .number value => .number value
  | .string value => .string value
  | .array items => .array (visibleItems heap items)
  | .object members => .object (visibleMembers heap members)

/-- The trees of the elements of an array. -/
def visibleItems (heap : Heap) : List Value → List Tree
  | [] => []
  | item :: rest => visible heap item :: visibleItems heap rest

/-- The trees of the members of an object. -/
def visibleMembers (heap : Heap) : List (String × Value) → List (String × Tree)
  | [] => []
  | (name, child) :: rest => (name, visible heap child) :: visibleMembers heap rest

/-- The trees of the children in a table that are shown. -/
def visibleChildren (heap : Heap) : Children Value → List (ChildKey × Tree)
  | ⟨entries, _⟩ => visibleEntries heap entries

/-- The trees of those entries that are shown. -/
def visibleEntries (heap : Heap) : List (ChildKey × Entry Value) → List (ChildKey × Tree)
  | [] => []
  | (key, ⟨placeholder, ⟨_, child⟩, _⟩) :: rest =>
    if isShown key child placeholder then (key, visible heap child) :: visibleEntries heap rest
    else visibleEntries heap rest

end

/-- A detached copy of what a value shows. -/
def deepCopy (value : Value) (heap : Heap) : Value := ofTree (value.visible heap)

/-! ### Text -/

/-- The text of what a value shows. -/
def text (value : Value) (heap : Heap) (options : WriteOptions) : String :=
  (value.visible heap).text options

/-- The text of a value for a programmer. -/
def debug (value : Value) (heap : Heap) : String :=
  (if value.isAttached then "Attached(" else "Detached(") ++ value.text heap .compact ++ ")"

/-! ### Getters

Each getter has a zero that it gives for values of other types. -/

def number? (value : Value) (heap : Heap) : Option Number := (value.backing heap).number?

def toBool (value : Value) (heap : Heap) : Bool := (value.backing heap).isTrue

def toInt32 (value : Value) (heap : Heap) : Int32 := ((value.number? heap).map Number.toInt32).getD 0

def toUInt32 (value : Value) (heap : Heap) : UInt32 :=
  ((value.number? heap).map Number.toUInt32).getD 0

def toInt64 (value : Value) (heap : Heap) : Int64 := ((value.number? heap).map Number.toInt64).getD 0

def toUInt64 (value : Value) (heap : Heap) : UInt64 :=
  ((value.number? heap).map Number.toUInt64).getD 0

def toDouble (value : Value) (heap : Heap) : Double :=
  ((value.number? heap).map Number.toDouble).getD Double.zero

/-- The bits of the nearest 32-bit floating-point number. -/
def toNarrow (value : Value) (heap : Heap) : UInt32 := (value.toDouble heap).toNarrow

def toText (value : Value) (heap : Heap) : String := (value.backing heap).text

/-- The number of bytes of a string. -/
def textLength (value : Value) (heap : Heap) : Nat := (value.toText heap).utf8ByteSize

/-- The number of elements of an array. -/
def size (value : Value) (heap : Heap) : Nat := (value.backing heap).size

/-- The number of members of an object. -/
def memberCount (value : Value) (heap : Heap) : Nat := (value.backing heap).memberCount

/-- Whether the object behind a value has a member; what was written to a missing child
does not count. -/
def hasMember (value : Value) (heap : Heap) (name : String) : Bool :=
  (value.backing heap).hasMember name

/-- Whether a value is a container without children. -/
def isEmpty (value : Value) (heap : Heap) : Bool :=
  match value.backing heap with
  | .array items => items.isEmpty
  | .object members => members.isEmpty
  | _ => false

/-- Whether the value is a number that a predicate holds of. -/
def isNumberWhere (value : Value) (heap : Heap) (predicate : Number → Bool) : Bool :=
  (value.number? heap).any predicate

end Value

end JsonOverlay
