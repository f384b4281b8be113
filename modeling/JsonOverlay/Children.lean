/-
This file defines the table of looked-up children that a value carries. A lookup that
finds the table out of date stacks a newer version of the child on the older ones, so
that what was handed out before stays what it was; access for writing drops the older
versions. Every version has a serial number that is never given twice.
-/

import JsonOverlay.Content

namespace JsonOverlay

/-- How a child is known to the table. A member is known by its name if it is the first
with that name and by its position if not, an element by its index. -/
inductive ChildKey where
  | member (name : String)
  | repeated (position : Nat)
  | element (index : Nat)
deriving DecidableEq, Repr, Inhabited

/-! ### The keys of a level -/

/-- The keys of members from a position on, given the names before it. -/
def memberKeysFrom (position : Nat) (earlier : List String) : List String → List ChildKey
  | [] => []
  | name :: rest =>
    (if earlier.contains name then .repeated position else .member name) ::
      memberKeysFrom (position + 1) (name :: earlier) rest

/-- The keys of members with given names. -/
def memberKeys (names : List String) : List ChildKey := memberKeysFrom 0 [] names

/-- The keys of the elements of an array of some length. -/
def elementKeys (size : Nat) : List ChildKey := (List.range size).map .element

theorem length_memberKeysFrom (position : Nat) (earlier names : List String) :
    (memberKeysFrom position earlier names).length = names.length := by
  induction names generalizing position earlier with
  | nil => rfl
  | cons name rest inductionHypothesis => simp [memberKeysFrom, inductionHypothesis]

@[simp]
theorem length_memberKeys (names : List String) : (memberKeys names).length = names.length :=
  length_memberKeysFrom 0 [] names

@[simp]
theorem length_elementKeys (size : Nat) : (elementKeys size).length = size := by
  simp [elementKeys]

namespace Content

variable {α : Type}

/-- The keys of the children in order. -/
def keys : Content α → List ChildKey
  | array items => elementKeys items.length
  | object members => memberKeys (members.map Prod.fst)
  | _ => []

/-- The child that a key stands for. -/
def child? (content : Content α) : ChildKey → Option α
  | .member name => content.member? name
  | .repeated position => content.memberAt? position
  | .element index => content.element? index

/-- The same level with every child replaced for which there is a replacement. -/
def overlaid (replacement? : ChildKey → Option α) : Content α → Content α
  | array items =>
    array (items.zipWith (fun item key => (replacement? key).getD item) (elementKeys items.length))
  | object members =>
    object (members.zipWith (fun (name, child) key => (name, (replacement? key).getD child))
      (memberKeys (members.map Prod.fst)))
  | content => content

end Content

/-! ### The table -/

/-- A child as some lookup found it. -/
structure Version (α : Type) where
  serial : Nat
  value : α
deriving Repr, Inhabited

/-- What the table knows about one key. A placeholder stands for a child that was not
there when it was looked up. -/
structure Entry (α : Type) where
  placeholder : Bool
  current : Version α
  older : List (Version α) := []
deriving Repr, Inhabited

/-- The looked-up children in the order in which their keys were first looked up. -/
structure Children (α : Type) where
  entries : List (ChildKey × Entry α) := []
  nextSerial : Nat := 0
deriving Repr, Inhabited

/-- What a lookup does with the table: it keeps the child that is there, or it puts in a
child, perhaps as a placeholder. -/
inductive Plan (α : Type) where
  | keep
  | insert (value : α) (placeholder : Bool)
deriving Repr, Inhabited

namespace Children

variable {α : Type}

def isEmpty (children : Children α) : Bool := children.entries.isEmpty

/-- The number of keys in the table. -/
def size (children : Children α) : Nat := children.entries.length

/-- The keys in the table in the order in which they came. -/
def keys (children : Children α) : List ChildKey := children.entries.map Prod.fst

def get? (children : Children α) (key : ChildKey) : Option (Entry α) := children.entries.lookup key

/-- The child at a key, and whether it is a placeholder. -/
def find? (children : Children α) (key : ChildKey) : Option (α × Bool) :=
  (children.get? key).map fun entry => (entry.current.value, entry.placeholder)

/-- Changes the entry of a key. -/
def adjust (children : Children α) (key : ChildKey) (change : Entry α → Entry α) : Children α :=
  { children with
    entries := children.entries.map fun (other, entry) =>
      if other = key then (other, change entry) else (other, entry) }

/-- Adds an entry for a new key. -/
def append (children : Children α) (key : ChildKey) (value : α) (placeholder : Bool) : Children α :=
  ⟨children.entries ++ [(key, { placeholder, current := ⟨children.nextSerial, value⟩ })],
    children.nextSerial + 1⟩

/-- Carries out a plan for reading: an inserted child is stacked on the versions before
it. A plan to keep a child that is not there puts in a placeholder. -/
def resolve [Inhabited α] (children : Children α) (key : ChildKey) (plan : Plan α) : Children α :=
  match children.get? key, plan with
  | some _, .keep => children
  | some _, .insert value placeholder =>
    { children.adjust key fun entry =>
        ⟨placeholder, ⟨children.nextSerial, value⟩, entry.current :: entry.older⟩ with
      nextSerial := children.nextSerial + 1 }
  | none, .keep => children.append key default true
  | none, .insert value placeholder => children.append key value placeholder

/-- Carries out a plan for writing: afterwards the key has a single version. -/
def resolveForWriting [Inhabited α] (children : Children α) (key : ChildKey) (plan : Plan α) :
    Children α :=
  match children.get? key, plan with
  | some _, .keep => children.adjust key fun entry => { entry with older := [] }
  | some _, .insert value placeholder =>
    { children.adjust key fun _ => ⟨placeholder, ⟨children.nextSerial, value⟩, []⟩ with
      nextSerial := children.nextSerial + 1 }
  | none, .keep => children.append key default true
  | none, .insert value placeholder => children.append key value placeholder

/-- Writes to the child at a key. A placeholder that was written to still counts as one. -/
def write (children : Children α) (key : ChildKey) (value : α) : Children α :=
  children.adjust key fun entry => { entry with current := { entry.current with value } }

/-! ### Versions -/

/-- The version of a key's child that has a serial number. -/
def version? (children : Children α) (key : ChildKey) (serial : Nat) : Option α :=
  (children.get? key).bind fun entry =>
    ((entry.current :: entry.older).find? fun version => version.serial == serial).map Version.value

/-- Changes a version of a key's child, which may be an older one. -/
def writeVersion (children : Children α) (key : ChildKey) (serial : Nat) (value : α) : Children α :=
  let change (version : Version α) : Version α :=
    if version.serial = serial then { version with value } else version
  children.adjust key fun entry =>
    { entry with current := change entry.current, older := entry.older.map change }

/-- The same children without the older versions. -/
def latest (children : Children α) : Children α :=
  { children with
    entries := children.entries.map fun (key, entry) => (key, { entry with older := [] }) }

/-! ### Forgetting -/

def filterKeys (children : Children α) (keep : ChildKey → Bool) : Children α :=
  { children with entries := children.entries.filter fun (key, _) => keep key }

/-- Drops a key. -/
def forget (children : Children α) (key : ChildKey) : Children α :=
  children.filterKeys fun other => other != key

/-- Drops a key if its child is a placeholder that nothing was done to. -/
def forgetPlaceholder (children : Children α) (key : ChildKey) (isBlank : α → Bool) : Children α :=
  match children.find? key with
  | some (value, true) => if isBlank value then children.forget key else children
  | _ => children

/-- Drops a name, and every key that is a position: removing members shifts positions. -/
def forgetMember (children : Children α) (name : String) : Children α :=
  children.filterKeys fun
    | .member other => other != name
    | .repeated _ => false
    | .element _ => true

/-- Drops everything. Serial numbers go on. -/
def clear (children : Children α) : Children α := { children with entries := [] }

end Children

end JsonOverlay
