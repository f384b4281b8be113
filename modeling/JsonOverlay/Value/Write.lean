/-
This file changes values. What is done to an attached value is done to its document; a
detached value changes itself. An operation that is refused changes nothing.
-/

import JsonOverlay.Value.Lookup

namespace JsonOverlay.Value

/-- Drops the placeholder at a key that has come to have a child behind it. -/
def forgetPlaceholder (value : Value) (key : ChildKey) : Value :=
  { value with children := value.children.forgetPlaceholder key isBlank }

/-- Gives a value new content, without children. The looked-up children are forgotten.
An attached value stays attached; if its node is gone, nothing else happens. -/
def set (value : Value) (heap : Heap) (content : Content Empty) : Heap × Value :=
  let cleared := { value with children := value.children.clear }
  match value.storage with
  | .detached _ => (heap, { cleared with storage := .detached content.ofLeaf })
  | .attached reference =>
    match heap.arena? reference.arena with
    | none => (heap, cleared)
    | some arena =>
      (heap.put reference.arena (arena.replace reference.node content.ofLeaf).2, cleared)

/-- The arena and the node of an attached value, provided that an allocator is for it. -/
def target (heap : Heap) (reference : NodeRef) (allocator : Allocator) :
    Except Error (Arena × Node) :=
  if allocator.owns reference then
    match heap.arena? reference.arena with
    | none => .error .dangling
    | some arena =>
      match arena.get? reference.node with
      | none => .error .dangling
      | some node => .ok (arena, node)
  else .error .foreignAllocator

/-- Appends a member to an object. A detached object takes the operand as it is, and the
allocator does not matter; into a document goes a copy of what the operand shows. -/
def addMember (value : Value) (heap : Heap) (name : String) (operand : Value)
    (allocator : Allocator) : Except Error (Heap × Value) :=
  match value.storage with
  | .detached (.object members) =>
    let storage := .detached (.object (members ++ [(name, operand)]))
    .ok (heap, { value with storage }.forgetPlaceholder (.member name))
  | .detached other => .error (.notAnObject other.kind)
  | .attached reference => do
    let (arena, node) ← target heap reference allocator
    match node with
    | .object members =>
      let (child, filled) := arena.store (operand.visible heap)
      let changed := filled.assign reference.node (.object (members ++ [(name, child)]))
      .ok (heap.put reference.arena changed, value.forgetPlaceholder (.member name))
    | other => .error (.notAnObject other.kind)

/-- Appends an element to an array, like a member to an object. -/
def pushBack (value : Value) (heap : Heap) (operand : Value) (allocator : Allocator) :
    Except Error (Heap × Value) :=
  match value.storage with
  | .detached (.array items) =>
    let storage := .detached (.array (items ++ [operand]))
    .ok (heap, { value with storage }.forgetPlaceholder (.element items.length))
  | .detached other => .error (.notAnArray other.kind)
  | .attached reference => do
    let (arena, node) ← target heap reference allocator
    match node with
    | .array items =>
      let (child, filled) := arena.store (operand.visible heap)
      let changed := filled.assign reference.node (.array (items ++ [child]))
      .ok (heap.put reference.arena changed, value.forgetPlaceholder (.element items.length))
    | other => .error (.notAnArray other.kind)

/-- Removes every member with a name and answers how many there were. Positions may have
shifted, so all members known by position are forgotten as well. -/
def removeMember (value : Value) (heap : Heap) (name : String) : Nat × Heap × Value :=
  let forgotten := { value with children := value.children.forgetMember name }
  match value.storage with
  | .detached (.object members) =>
    let kept := members.filter fun (other, _) => other != name
    (members.length - kept.length, heap, { forgotten with storage := .detached (.object kept) })
  | .detached _ => (0, heap, forgotten)
  | .attached reference =>
    match heap.arena? reference.arena with
    | none => (0, heap, forgotten)
    | some arena =>
      match arena.get? reference.node with
      | some (.object members) =>
        let kept := members.filter fun (other, _) => other != name
        let removed := members.filter fun (other, _) => other == name
        let changed := (removed.map Prod.snd).foldl Arena.free
          (arena.assign reference.node (.object kept))
        (removed.length, heap.put reference.arena changed, forgotten)
      | _ => (0, heap, forgotten)

end JsonOverlay.Value

namespace JsonOverlay

/-! ### Operations as data -/

/-- Something that is done to a value. -/
inductive Operation where
  | assign (operand : Value)
  | set (content : Content Empty)
  | addMember (name : String) (operand : Value) (allocator : Allocator)
  | pushBack (operand : Value) (allocator : Allocator)
  | removeMember (name : String)
deriving Repr

/-- What an operation answers. -/
inductive Outcome where
  | done
  | removed (count : Nat)
  | refused (error : Error)
deriving DecidableEq, Repr

namespace Operation

/-- The answer to an operation that may be refused. A refusal leaves all as it was. -/
def settle (heap : Heap) (value : Value) :
    Except Error (Heap × Value) → Value.Edited Outcome
  | .ok (newHeap, newValue) => ⟨newHeap, newValue, .done⟩
  | .error error => ⟨heap, value, .refused error⟩

/-- Carries out an operation on a value. -/
def run (operation : Operation) (heap : Heap) (value : Value) : Value.Edited Outcome :=
  match operation with
  | assign operand => ⟨heap, operand, .done⟩
  | set content =>
    let (newHeap, newValue) := value.set heap content
    ⟨newHeap, newValue, .done⟩
  | addMember name operand allocator =>
    settle heap value (value.addMember heap name operand allocator)
  | pushBack operand allocator => settle heap value (value.pushBack heap operand allocator)
  | removeMember name =>
    let (count, newHeap, newValue) := value.removeMember heap name
    ⟨newHeap, newValue, .removed count⟩

end Operation

end JsonOverlay
