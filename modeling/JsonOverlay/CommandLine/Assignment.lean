/-
This file carries out the assignments of the command. An assignment names a place by a
pointer; what is there is replaced, and what is not there yet is added to the object or
array above it.
-/

import JsonOverlay.Document
import JsonOverlay.Pointer
import JsonOverlay.Value.Write

namespace JsonOverlay.CommandLine

/-- What keeps the command from doing what it is asked. -/
inductive Problem where
  /-- The library refused something. -/
  | refused (error : Error)
  /-- A file could not be opened. -/
  | system (reason : String)
  /-- An assignment has no equals sign. -/
  | notAnAssignment (text : String)
  /-- A pointer leads nowhere. -/
  | nothingAt (pointer : Pointer)
  /-- The value above the place cannot take a child there. -/
  | noSlot (pointer : Pointer) (kind : Kind) (token : String)
deriving DecidableEq, Repr

/-- The wording of a problem. -/
def Problem.message : Problem → String
  | refused error => error.message
  | system reason => reason
  | notAnAssignment text => "--set expects PATH=JSON, got " ++ Text.quoteMessage text
  | nothingAt pointer => "no value at " ++ pointer.text
  | noSlot pointer kind token =>
    "cannot set " ++ pointer.text ++ ": " ++ kind.name ++ " has no slot " ++ Text.quoteMessage token

/-- A place and the tree to be put there. -/
structure Assignment where
  pointer : Pointer
  tree : Tree
deriving Repr

namespace Assignment

/-- The characters before and after the first equals sign. -/
def split? : List Char → Option (List Char × List Char)
  | [] => none
  | '=' :: rest => some ([], rest)
  | other :: rest => (split? rest).map fun (path, json) => (other :: path, json)

/-- Reads an assignment: a path, an equals sign, and the strict JSON to be put there. -/
def parse (text : String) : Except Problem Assignment :=
  match split? text.toList with
  | none => .error (.notAnAssignment text)
  | some (path, json) => do
    let pointer ← (Pointer.parse (String.ofList path)).mapError .refused
    let tree ← (Tree.parse .strict (String.ofList json)).mapError .refused
    return { pointer, tree }

/-- Adds a child to the value above a place: a member of any name to an object, and one
more element to an array if the token says so by a dash. -/
def addBelow (assignment : Assignment) (allocator : Allocator) (token : String) (heap : Heap)
    (parent : Value) : Value.Edited (Except Problem Unit) :=
  let operand := Value.ofTree assignment.tree
  let settle (added : Except Error (Heap × Value)) : Value.Edited (Except Problem Unit) :=
    match added with
    | .ok (newHeap, newParent) => ⟨newHeap, newParent, .ok ()⟩
    | .error error => ⟨heap, parent, .error (.refused error)⟩
  match parent.kind heap with
  | .object => settle (parent.addMember heap token operand allocator)
  | .array =>
    if token = "-" then settle (parent.pushBack heap operand allocator)
    else ⟨heap, parent, .error (.noSlot assignment.pointer .array token)⟩
  | kind => ⟨heap, parent, .error (.noSlot assignment.pointer kind token)⟩

/-- Replaces what is at the place of an assignment, or adds it. -/
def apply (assignment : Assignment) (heap : Heap) (document : Document) :
    Except Problem (Heap × Document) :=
  let replaced := assignment.pointer.modify document.root heap
    fun heap _ => ⟨heap, Value.ofTree assignment.tree, ()⟩
  match replaced.result with
  | some () => .ok (replaced.heap, { document with root := replaced.value })
  | none =>
    match assignment.pointer.splitLast? with
    | none => .error (.nothingAt assignment.pointer)
    | some (parent, token) =>
      let added := parent.modify replaced.value replaced.heap
        (assignment.addBelow document.allocator token)
      match added.result with
      | none => .error (.nothingAt parent)
      | some (.error problem) => .error problem
      | some (.ok ()) => .ok (added.heap, { document with root := added.value })

end Assignment

end JsonOverlay.CommandLine
