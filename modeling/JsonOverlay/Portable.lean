/-
This file defines the trees in which values are exchanged with other libraries. There the names of
an object are distinct, and integers that are not negative, negative integers and finite doubles
are kept apart. A value becomes such a tree level by level, where the first of several members
with one name is kept, or it describes itself in terms that every writer knows, and a writer that
builds a tree keeps the last.
-/

import JsonOverlay.Parse
import JsonOverlay.Tree.Export
import JsonOverlay.Tree.Fold
import JsonOverlay.Value

namespace JsonOverlay

/-! ### Numbers -/

/-- A number of an exchanged tree. -/
inductive PortableNumber where
  | unsigned (value : UInt64)
  | negative (value : Int64) (below : value.toInt < 0)
  | double (value : Double) (finite : value.isFinite = true)
deriving DecidableEq, Repr

namespace PortableNumber

/-- The number with the value of a signed integer. -/
def ofInt64 (value : Int64) : PortableNumber :=
  if below : value.toInt < 0 then negative value below else unsigned (UInt64.ofInt value.toInt)

/-- The number with the value of a double, if that is finite. -/
def ofDouble? (value : Double) : Option PortableNumber :=
  if finite : value.isFinite = true then some (double value finite) else none

/-- The value if it is kept as an integer that is not negative. -/
def toUInt64? : PortableNumber → Option UInt64
  | unsigned value => some value
  | _ => none

/-- The value if it is kept as an integer that has a sign bit to spare. -/
def toInt64? : PortableNumber → Option Int64
  | unsigned value => if value.toNat < 2 ^ 63 then some (Int64.ofInt value.toNat) else none
  | negative value _ => some value
  | double _ _ => none

/-- The nearest double. -/
def toDouble? : PortableNumber → Option Double
  | unsigned value => some (Double.ofInt value.toNat)
  | negative value _ => some (Double.ofInt value.toInt)
  | double value _ => some value

end PortableNumber

/-- The number that is stored for one of an exchanged tree. -/
def Number.ofPortable (number : PortableNumber) : Number :=
  match number.toUInt64? with
  | some value => .uint value
  | none =>
    match number.toInt64? with
    | some value => .int value
    | none => .double (number.toDouble?.getD Double.zero)

/-! ### Trees -/

/-- A tree as it is exchanged with other libraries. -/
inductive Portable where
  | null
  | bool (value : Bool)
  | number (value : PortableNumber)
  | string (value : String)
  | array (items : List Portable)
  | object (members : List (String × Portable))
deriving Repr, Inhabited

namespace Portable

mutual

/-- The tree that a value shows when it is made from an exchanged one. -/
def tree : Portable → Tree
  | null => .null
  | bool value => .bool value
  | number value => .number (.ofPortable value)
  | string value => .string value
  | array items => .array (treesOf items)
  | object members => .object (namedTreesOf members)

/-- The trees of the elements of an array. -/
def treesOf : List Portable → List Tree
  | [] => []
  | item :: rest => item.tree :: treesOf rest

/-- The trees of the members of an object. -/
def namedTreesOf : List (String × Portable) → List (String × Tree)
  | [] => []
  | (name, child) :: rest => (name, child.tree) :: namedTreesOf rest

end

/-- A stored number as it is exchanged. -/
def ofNumber : Number → Portable
  | .int value => number (.ofInt64 value)
  | .uint value => number (.unsigned value)
  | .double value =>
    match PortableNumber.ofDouble? value with
    | some kept => number kept
    | none => null

/-- Adds a member behind the others, unless there is one with its name. -/
def insertNew (kept : List (String × Portable)) (member : String × Portable) :
    List (String × Portable) :=
  if (kept.lookup member.1).isSome then kept else Tree.put member.1 member.2 kept

/-- Takes up members one after the other and passes over those whose name is there. -/
def gather (members : List (String × Portable)) : List (String × Portable) :=
  members.foldl insertNew []

/-- A level as it is exchanged, given what becomes of its members. -/
def ofLevelWith (merge : List (String × Portable) → List (String × Portable)) :
    Content Portable → Portable
  | .null => null
  | .bool value => bool value
  | .number value => ofNumber value
  | .string value => string value
  | .array items => array items
  | .object members => object (merge members)

end Portable

/-- A tree as it is exchanged; of several members with one name the first is kept. -/
def Tree.portable (tree : Tree) : Portable := tree.fold (Portable.ofLevelWith Portable.gather)

/-! ### Descriptions -/

/-- What a value says of itself, in terms that every writer knows. A container says first how many
children there are. -/
inductive Datum where
  | unit
  | bool (value : Bool)
  | signed (value : Int64)
  | unsigned (value : UInt64)
  | double (value : Double)
  | string (value : String)
  | sequence (length : Option Nat) (items : List Datum)
  | map (length : Option Nat) (entries : List (String × Datum))
deriving Repr, Inhabited

/-- What a level says of itself, given what its children say. -/
def Datum.ofLevel : Content Datum → Datum
  | .null => unit
  | .bool value => bool value
  | .number (.int value) => signed value
  | .number (.uint value) => unsigned value
  | .number (.double value) => double value
  | .string value => string value
  | .array items => sequence (some items.length) items
  | .object members => map (some members.length) members

/-- What a tree says of itself. -/
def Tree.datum (tree : Tree) : Datum := tree.fold Datum.ofLevel

namespace Portable

mutual

/-- The tree that a writer builds from a description. An entry takes the place of an earlier one
with its name. -/
def ofDatum : Datum → Portable
  | .unit => null
  | .bool value => bool value
  | .signed value => number (.ofInt64 value)
  | .unsigned value => number (.unsigned value)
  | .double value =>
    match PortableNumber.ofDouble? value with
    | some kept => number kept
    | none => null
  | .string value => string value
  | .sequence _ items => array (ofItems items)
  | .map _ entries => object (Tree.keepLast (ofEntries entries))

/-- The trees of the items of a sequence. -/
def ofItems : List Datum → List Portable
  | [] => []
  | item :: rest => ofDatum item :: ofItems rest

/-- The trees of the entries of a map. -/
def ofEntries : List (String × Datum) → List (String × Portable)
  | [] => []
  | (name, child) :: rest => (name, ofDatum child) :: ofEntries rest

end

/-- Reads a text. The reader describes what it reads in the same terms. -/
def ofText (text : String) : Except Error Portable :=
  (Tree.parseStrict text).map fun tree => ofDatum tree.datum

end Portable

namespace Value

/-- A detached value that shows an exchanged tree. -/
def ofPortable (portable : Portable) : Value := ofTree portable.tree

/-- What a value shows as it is exchanged. -/
def portable (value : Value) (heap : Heap) : Portable := (value.visible heap).portable

/-- What a value says of itself. -/
def datum (value : Value) (heap : Heap) : Datum := (value.visible heap).datum

end Value

end JsonOverlay
