/-
This file shows that a copy of a value is as good as the value: it shows the same, and it is blank if
the value is.
-/

import JsonOverlay.Proofs.Value.Visible
import JsonOverlay.Value.Copied

namespace JsonOverlay.Value

variable {heap : Heap}

theorem isBlank_copied (value : Value) : value.copied.isBlank = value.isBlank := by
  obtain ⟨storage, entries, nextSerial⟩ := value
  have empty : (copiedEntries entries).isEmpty = entries.isEmpty := by
    cases entries <;> rfl
  cases storage with
  | attached reference => rfl
  | detached content =>
    cases content with
    | null => exact empty
    | bool | number | string | array | object => rfl

theorem isShown_copied (key : ChildKey) (child : Value) (placeholder : Bool) :
    isShown key child.copied placeholder = isShown key child placeholder := by
  cases key with
  | member | element => exact congrArg (fun blank => !(placeholder && blank)) child.isBlank_copied
  | repeated => rfl

mutual

/-- A copy shows what the value shows. -/
theorem visible_copied : (value : Value) → visible heap value.copied = visible heap value
  | ⟨storage, children⟩ =>
    congrArg₂ overlay (visibleStorage_copied storage) (visibleChildren_copied children)

theorem visibleStorage_copied : (storage : Storage Value) →
    visibleStorage heap (copiedStorage storage) = visibleStorage heap storage
  | .attached _ => rfl
  | .detached content => visibleContent_copied content

theorem visibleContent_copied : (content : Content Value) →
    visibleContent heap (copiedContent content) = visibleContent heap content
  | .null | .bool _ | .number _ | .string _ => rfl
  | .array items => congrArg Tree.array (visibleItems_copied items)
  | .object members => congrArg Tree.object (visibleMembers_copied members)

theorem visibleItems_copied : (items : List Value) →
    visibleItems heap (copiedItems items) = visibleItems heap items
  | [] => rfl
  | item :: rest => congrArg₂ List.cons (visible_copied item) (visibleItems_copied rest)

theorem visibleMembers_copied : (members : List (String × Value)) →
    visibleMembers heap (copiedMembers members) = visibleMembers heap members
  | [] => rfl
  | (name, child) :: rest =>
    congrArg₂ (fun tree trees => (name, tree) :: trees) (visible_copied child)
      (visibleMembers_copied rest)

theorem visibleChildren_copied : (children : Children Value) →
    visibleChildren heap (copiedChildren children) = visibleChildren heap children
  | ⟨entries, _⟩ => visibleEntries_copied entries

theorem visibleEntries_copied : (entries : List (ChildKey × Entry Value)) →
    visibleEntries heap (copiedEntries entries) = visibleEntries heap entries
  | [] => rfl
  | (key, ⟨placeholder, ⟨_, child⟩, _⟩) :: rest => by
    have here := visible_copied child
    have others := visibleEntries_copied rest
    rw [copiedEntries, visibleEntries, visibleEntries, isShown_copied, here, others]

end

end JsonOverlay.Value
