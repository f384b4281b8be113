/-
This file describes one level of a document: a scalar, or a container of children of
some type. Nodes of an arena, payloads of detached values and plain trees all have this
form and differ only in what their children are.
-/

import JsonOverlay.Number

namespace JsonOverlay

/-- The six types of a value. -/
inductive Kind where
  | null | bool | number | string | array | object
deriving DecidableEq, Repr, Inhabited

/-- The name of a type in messages. -/
def Kind.name : Kind → String
  | null => "null"
  | bool => "bool"
  | number => "number"
  | string => "string"
  | array => "array"
  | object => "object"

/-- One level of a document. The members of an object are ordered and may repeat a name. -/
inductive Content (α : Type) where
  | null
  | bool (value : Bool)
  | number (value : Number)
  | string (value : String)
  | array (items : List α)
  | object (members : List (String × α))
deriving DecidableEq, Repr, Inhabited

namespace Content

variable {α β : Type}

def kind : Content α → Kind
  | null => .null
  | bool _ => .bool
  | number _ => .number
  | string _ => .string
  | array _ => .array
  | object _ => .object

/-- The content of a type that says the least: false, zero, or nothing at all. -/
def empty : Kind → Content α
  | .null => null
  | .bool => bool false
  | .number => number (.int 0)
  | .string => string ""
  | .array => array []
  | .object => object []

/-- The children in order. -/
def children : Content α → List α
  | array items => items
  | object members => members.map Prod.snd
  | _ => []

def map (change : α → β) : Content α → Content β
  | null => null
  | bool value => bool value
  | number value => number value
  | string value => string value
  | array items => array (items.map change)
  | object members => object (members.map fun (name, child) => (name, change child))

/-- Content that has no children seen as content of any type. -/
def ofLeaf (content : Content Empty) : Content α := content.map Empty.elim

/-! ### What can be asked of one level

Every question has an answer for every type; where it does not apply the answer is the
empty one. -/

/-- The number of elements of an array. -/
def size : Content α → Nat
  | array items => items.length
  | _ => 0

/-- The number of members of an object, repeated names counted. -/
def memberCount : Content α → Nat
  | object members => members.length
  | _ => 0

/-- The names of the members in order. -/
def memberNames : Content α → List String
  | object members => members.map Prod.fst
  | _ => []

/-- The first member with a name. -/
def member? (content : Content α) (name : String) : Option α :=
  match content with
  | object members => members.lookup name
  | _ => none

/-- The member at a position, whatever its name. -/
def memberAt? (content : Content α) (position : Nat) : Option α :=
  match content with
  | object members => members[position]?.map Prod.snd
  | _ => none

/-- The element at an index. -/
def element? (content : Content α) (index : Nat) : Option α :=
  match content with
  | array items => items[index]?
  | _ => none

def hasMember (content : Content α) (name : String) : Bool := (content.member? name).isSome

def number? : Content α → Option Number
  | number value => some value
  | _ => none

def isTrue : Content α → Bool
  | bool value => value
  | _ => false

def text : Content α → String
  | string value => value
  | _ => ""

/-- Whether two levels are the same but for the representation of a number. -/
def equal [DecidableEq α] : Content α → Content α → Bool
  | number left, number right => left.equal right
  | left, right => left == right

@[simp]
theorem kind_map (change : α → β) (content : Content α) : (content.map change).kind = content.kind := by
  cases content <;> rfl

@[simp]
theorem children_map (change : α → β) (content : Content α) :
    (content.map change).children = content.children.map change := by
  cases content <;> simp [map, children, Function.comp_def]

end Content

end JsonOverlay
