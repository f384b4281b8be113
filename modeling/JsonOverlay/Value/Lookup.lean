/-
This file looks up children along paths. A lookup for reading answers for every path, as
it puts in a placeholder where a child is missing; it hands out a reference, which goes
on to mean the same version of the same child. A lookup for writing changes what it finds.
-/

import JsonOverlay.Value

namespace JsonOverlay

namespace Value

/-- What a lookup does: a child that is not in the table is taken from the content behind
the value. A placeholder that nothing was done to gives way once there is a child behind
it; a member known by its position stays what it is. -/
def plan (value : Value) (heap : Heap) (key : ChildKey) : Plan Value :=
  let found := (value.backing heap).child? key
  match value.children.find? key with
  | none =>
    match found with
    | some child => .insert child.duplicate false
    | none => .insert null true
  | some (child, placeholder) =>
    match isShown key child placeholder, found with
    | false, some fresh => .insert fresh.duplicate false
    | _, _ => .keep

/-- Looks up a child for reading. -/
def look (value : Value) (heap : Heap) (key : ChildKey) : Value :=
  { value with children := value.children.resolve key (value.plan heap key) }

/-- Looks up a child for writing. -/
def reach (value : Value) (heap : Heap) (key : ChildKey) : Value :=
  { value with children := value.children.resolveForWriting key (value.plan heap key) }

/-- The child in the table at a key, and the serial number of its version. -/
def child (value : Value) (key : ChildKey) : Version Value :=
  match value.children.get? key with
  | some entry => entry.current
  | none => ⟨0, null⟩

/-- Writes to the child in the table at a key. -/
def writeChild (value : Value) (key : ChildKey) (child : Value) : Value :=
  { value with children := value.children.write key child }

end Value

/-! ### Paths -/

/-- One step of a path: a member by its name, an element by its index, or a member by its
place in the order of members. -/
inductive Step where
  | member (name : String)
  | element (index : Nat)
  | nth (position : Nat)
deriving DecidableEq, Repr, Inhabited

namespace Step

/-- The children that a step looks up, the one it leads to last. A member by its place is
found by going through the members before it. -/
def keys? (step : Step) (content : Content Value) : Option (List ChildKey × ChildKey) :=
  match step with
  | .member name => some ([], .member name)
  | .element index => some ([], .element index)
  | .nth position =>
    let keys := memberKeys content.memberNames
    keys[position]?.map fun key => (keys.take position, key)

end Step

/-- A version of a child at each level, from the top down. -/
abbrev Reference := List (ChildKey × Nat)

namespace Value

/-- Follows a path for reading. There is no answer only if a member by its place is not
there. -/
def read (heap : Heap) (value : Value) : List Step → Value × Option Reference
  | [] => (value, some [])
  | step :: rest =>
    match step.keys? (value.backing heap) with
    | none => (value, none)
    | some (passed, key) =>
      let looked := (passed ++ [key]).foldl (fun value key => value.look heap key) value
      let found := looked.child key
      let (child, reference) := found.value.read heap rest
      (looked.writeChild key child, reference.map fun below => (key, found.serial) :: below)

/-- The value that a reference means. -/
def at? (value : Value) : Reference → Option Value
  | [] => some value
  | (key, serial) :: rest => (value.children.version? key serial).bind fun child => child.at? rest

/-- Changes the value that a reference means. -/
def writeAt (value : Value) (change : Value → Value) : Reference → Value
  | [] => change value
  | (key, serial) :: rest =>
    match value.children.version? key serial with
    | some child =>
      { value with
        children := value.children.writeVersion key serial (child.writeAt change rest) }
    | none => value

/-- What an edit leaves behind. -/
structure Edited (β : Type) where
  heap : Heap
  value : Value
  result : β

/-- Follows a path for writing and edits the value it leads to. -/
def edit {β : Type} (heap : Heap) (value : Value) (change : Heap → Value → Edited β) :
    List ChildKey → Edited β
  | [] => change heap value
  | key :: rest =>
    let reached := value.reach heap key
    let edited := (reached.child key).value.edit heap change rest
    { edited with value := reached.writeChild key edited.value }

end Value

end JsonOverlay
