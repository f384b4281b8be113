/-
This file exports trees to a form in which a name stands only once in an object and
numbers are finite. Of several members with one name either the first is kept or the
last takes its place.
-/

import JsonOverlay.Tree

namespace JsonOverlay

/-- A number in the form that exported trees have it, if it is finite: integers are
signed only if they are negative. -/
def Number.exported? : Number → Option Number
  | .double value => if value.isFinite then some (.double value) else none
  | number => some number.canonical

namespace Tree

variable {α : Type}

/-- Keeps the first of several members with one name. -/
def keepFirst : List (String × α) → List (String × α)
  | [] => []
  | (name, child) :: rest =>
    (name, child) :: (keepFirst rest).filter fun (other, _) => other != name

/-- Puts a member in the place of the one with its name, or at the end if there is none. -/
def put (name : String) (child : α) : List (String × α) → List (String × α)
  | [] => [(name, child)]
  | (other, old) :: rest =>
    if other = name then (name, child) :: rest else (other, old) :: put name child rest

/-- Keeps the last of several members with one name, in the place of the first. -/
def keepLast (members : List (String × α)) : List (String × α) :=
  members.foldl (fun kept (name, child) => put name child kept) []

mutual

/-- Exports a tree, given what happens to members that repeat a name. -/
def exportWith (merge : List (String × Tree) → List (String × Tree)) : Tree → Tree
  | number value =>
    match value.exported? with
    | some exported => number exported
    | none => null
  | array items => array (exportItems merge items)
  | object members => object (merge (exportMembers merge members))
  | other => other

/-- Exports the elements of an array. -/
def exportItems (merge : List (String × Tree) → List (String × Tree)) : List Tree → List Tree
  | [] => []
  | item :: rest => exportWith merge item :: exportItems merge rest

/-- Exports the members of an object. -/
def exportMembers (merge : List (String × Tree) → List (String × Tree)) :
    List (String × Tree) → List (String × Tree)
  | [] => []
  | (name, child) :: rest => (name, exportWith merge child) :: exportMembers merge rest

end

/-- Exports a tree; of several members with one name the first is kept. -/
def toExport (tree : Tree) : Tree := tree.exportWith keepFirst

/-- Exports a tree member by member; a later member takes the place of an earlier one
with its name. -/
def streamExport (tree : Tree) : Tree := tree.exportWith keepLast

end Tree

end JsonOverlay
