/-
This file copies a value down to its last part. Content is copied, a node is shared, and the children
that were looked up come along at every depth, each as it was found last.
-/

import JsonOverlay.Value

namespace JsonOverlay.Value

mutual

/-- A copy of a value and of the children that were looked up through it. -/
def copied : Value → Value
  | ⟨storage, children⟩ => ⟨copiedStorage storage, copiedChildren children⟩

/-- The same node, or a copy of detached content. -/
def copiedStorage : Storage Value → Storage Value
  | .attached reference => .attached reference
  | .detached content => .detached (copiedContent content)

/-- A copy of content. -/
def copiedContent : Content Value → Content Value
  | .null => .null
  | .bool value => .bool value
  | .number value => .number value
  | .string value => .string value
  | .array items => .array (copiedItems items)
  | .object members => .object (copiedMembers members)

/-- Copies of the elements of an array. -/
def copiedItems : List Value → List Value
  | [] => []
  | item :: rest => copied item :: copiedItems rest

/-- Copies of the members of an object. -/
def copiedMembers : List (String × Value) → List (String × Value)
  | [] => []
  | (name, child) :: rest => (name, copied child) :: copiedMembers rest

/-- Copies of the children in a table, without older versions. -/
def copiedChildren : Children Value → Children Value
  | ⟨entries, nextSerial⟩ => ⟨copiedEntries entries, nextSerial⟩

/-- Copies of entries. -/
def copiedEntries : List (ChildKey × Entry Value) → List (ChildKey × Entry Value)
  | [] => []
  | (key, ⟨placeholder, ⟨serial, child⟩, _⟩) :: rest =>
    (key, { placeholder, current := ⟨serial, copied child⟩ }) :: copiedEntries rest

end

end JsonOverlay.Value
