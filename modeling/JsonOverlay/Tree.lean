/-
This file defines plain ordered trees: what a document shows, with every cached child in
its place. Members keep their order and may repeat a name.
-/

import JsonOverlay.Content

namespace JsonOverlay

/-- A plain tree. -/
inductive Tree where
  | null
  | bool (value : Bool)
  | number (value : Number)
  | string (value : String)
  | array (items : List Tree)
  | object (members : List (String × Tree))
deriving Repr, Inhabited

namespace Tree

/-- The top level of a tree. -/
def content : Tree → Content Tree
  | null => .null
  | bool value => .bool value
  | number value => .number value
  | string value => .string value
  | array items => .array items
  | object members => .object members

/-- The tree with a given top level. -/
def ofContent : Content Tree → Tree
  | .null => null
  | .bool value => bool value
  | .number value => number value
  | .string value => string value
  | .array items => array items
  | .object members => object members

@[simp]
theorem ofContent_content (tree : Tree) : ofContent tree.content = tree := by
  cases tree <;> rfl

@[simp]
theorem content_ofContent (content : Content Tree) : (ofContent content).content = content := by
  cases content <;> rfl

def kind (tree : Tree) : Kind := tree.content.kind

/-! ### Measures -/

mutual

/-- The number of values in a tree, containers included. -/
def count : Tree → Nat
  | array items => countItems items + 1
  | object members => countMembers members + 1
  | _ => 1

/-- The number of values in the elements of an array. -/
def countItems : List Tree → Nat
  | [] => 0
  | item :: rest => item.count + countItems rest

/-- The number of values in the members of an object. -/
def countMembers : List (String × Tree) → Nat
  | [] => 0
  | (_, child) :: rest => child.count + countMembers rest

end

mutual

/-- How many containers are nested in one another. -/
def depth : Tree → Nat
  | array items => depthItems items + 1
  | object members => depthMembers members + 1
  | _ => 0

/-- The depth of the deepest element. -/
def depthItems : List Tree → Nat
  | [] => 0
  | item :: rest => max item.depth (depthItems rest)

/-- The depth of the deepest member. -/
def depthMembers : List (String × Tree) → Nat
  | [] => 0
  | (_, child) :: rest => max child.depth (depthMembers rest)

end

/-! ### Equality -/

mutual

/-- Whether two trees are the same but for the representation of their numbers, which
compare by exact value. -/
def equal : Tree → Tree → Bool
  | null, null => true
  | bool left, bool right => left == right
  | number left, number right => left.equal right
  | string left, string right => left == right
  | array left, array right => equalItems left right
  | object left, object right => equalMembers left right
  | _, _ => false

/-- Whether two arrays have pairwise equal elements and the same length. -/
def equalItems : List Tree → List Tree → Bool
  | [], [] => true
  | left :: leftRest, right :: rightRest => left.equal right && equalItems leftRest rightRest
  | _, _ => false

/-- Whether two objects have the same names in the same order with pairwise equal values. -/
def equalMembers : List (String × Tree) → List (String × Tree) → Bool
  | [], [] => true
  | (leftName, left) :: leftRest, (rightName, right) :: rightRest =>
    leftName == rightName && left.equal right && equalMembers leftRest rightRest
  | _, _ => false

end

end Tree

end JsonOverlay
