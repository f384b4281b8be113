/-
This file keeps looked-up children in three tables: of members, of repeated members and of elements.
A table has the entries of its keys in a map, and beside it a list of the keys in the order in which
they came. An entry stacks what later lookups found on what the first one found. Both collections
grow while they are read, and are taken from only by who has them alone; what they are relied on for
is said by laws.
-/

import JsonOverlay.Children

namespace JsonOverlay

/-! ### Collections that grow while they are read -/

/-- A list that whoever reads it can add to at its end. -/
class GrowingList (ν : Type → Type) where
  empty {α : Type} : ν α
  toList {α : Type} : ν α → List α
  length {α : Type} : ν α → Nat
  get? {α : Type} : ν α → Nat → Option α
  push {α : Type} : ν α → α → ν α
  pop {α : Type} : ν α → Option α × ν α
  clear {α : Type} : ν α → ν α

class LawfulGrowingList (ν : Type → Type) [GrowingList ν] : Prop where
  toList_empty {α : Type} : GrowingList.toList (GrowingList.empty : ν α) = []
  length_eq {α : Type} (items : ν α) : GrowingList.length items = (GrowingList.toList items).length
  get?_eq {α : Type} (items : ν α) (index : Nat) :
    GrowingList.get? items index = (GrowingList.toList items)[index]?
  toList_push {α : Type} (items : ν α) (item : α) :
    GrowingList.toList (GrowingList.push items item) = GrowingList.toList items ++ [item]
  fst_pop {α : Type} (items : ν α) :
    (GrowingList.pop items).1 = (GrowingList.toList items).getLast?
  toList_clear {α : Type} (items : ν α) : GrowingList.toList (GrowingList.clear items) = []

/-- Entries by key. Whoever reads them can add one for a key that has none, and an entry can change
where it is. -/
class EntryMap (μ : Type → Type → Type) where
  empty {κ ε : Type} : μ κ ε
  get? {κ ε : Type} [DecidableEq κ] : μ κ ε → κ → Option ε
  insert {κ ε : Type} [DecidableEq κ] : μ κ ε → κ → ε → μ κ ε
  modify {κ ε : Type} [DecidableEq κ] : μ κ ε → κ → (ε → ε) → μ κ ε
  erase {κ ε : Type} [DecidableEq κ] : μ κ ε → κ → Option ε × μ κ ε
  clear {κ ε : Type} : μ κ ε → μ κ ε

class LawfulEntryMap (μ : Type → Type → Type) [EntryMap μ] : Prop where
  get?_empty {κ ε : Type} [DecidableEq κ] (key : κ) :
    EntryMap.get? (EntryMap.empty : μ κ ε) key = none
  get?_insert {κ ε : Type} [DecidableEq κ] (entries : μ κ ε) (key other : κ) (entry : ε) :
    EntryMap.get? entries key = none →
      EntryMap.get? (EntryMap.insert entries key entry) other =
        if other = key then some entry else EntryMap.get? entries other
  get?_modify {κ ε : Type} [DecidableEq κ] (entries : μ κ ε) (key other : κ) (change : ε → ε) :
    EntryMap.get? (EntryMap.modify entries key change) other =
      if other = key then (EntryMap.get? entries key).map change else EntryMap.get? entries other
  fst_erase {κ ε : Type} [DecidableEq κ] (entries : μ κ ε) (key : κ) :
    (EntryMap.erase entries key).1 = EntryMap.get? entries key
  get?_erase {κ ε : Type} [DecidableEq κ] (entries : μ κ ε) (key other : κ) :
    EntryMap.get? (EntryMap.erase entries key).2 other =
      if other = key then none else EntryMap.get? entries other
  get?_clear {κ ε : Type} [DecidableEq κ] (entries : μ κ ε) (key : κ) :
    EntryMap.get? (EntryMap.clear entries) key = none

/-! ### What is kept of a key -/

/-- The child that was found first, those that were found since, and whether the last of them is a
placeholder. -/
structure VersionStack (ν : Type → Type) (α : Type) where
  base : α
  newer : ν α
  placeholder : Bool

namespace VersionStack

open GrowingList

variable {ν : Type → Type} [GrowingList ν] {α : Type}

def new (value : α) (placeholder : Bool) : VersionStack ν α := ⟨value, empty, placeholder⟩

/-- A version by its height in the stack. -/
def version? (stack : VersionStack ν α) : Nat → Option α
  | 0 => some stack.base
  | height + 1 => get? stack.newer height

/-- The version on top. -/
def current (stack : VersionStack ν α) : α :=
  match length stack.newer with
  | 0 => stack.base
  | last + 1 => (get? stack.newer last).getD stack.base

/-- The height of the version on top, and what it holds. -/
def top (stack : VersionStack ν α) : Nat × α := (length stack.newer, stack.current)

/-- Stacks a version on the others, which stay what they are. -/
def refresh (stack : VersionStack ν α) (value : α) (placeholder : Bool) : VersionStack ν α :=
  { stack with newer := push stack.newer value, placeholder }

/-- Leaves the version on top alone. -/
def collapse (stack : VersionStack ν α) : VersionStack ν α :=
  match pop stack.newer with
  | (some latest, rest) => { stack with base := latest, newer := clear rest }
  | (none, _) => stack

/-- Puts a version in place of all. -/
def replace (stack : VersionStack ν α) (value : α) (placeholder : Bool) : VersionStack ν α :=
  { stack with base := value, newer := clear stack.newer, placeholder }

/-- Writes to the version at the bottom. -/
def write (stack : VersionStack ν α) (change : α → α) : VersionStack ν α :=
  { stack with base := change stack.base }

end VersionStack

/-! ### One table -/

/-- The entries of keys, and the keys in the order in which they came. -/
structure ChildTable (μ : Type → Type → Type) (ν : Type → Type) (κ α : Type) where
  entries : μ κ (VersionStack ν α)
  keys : List κ

namespace ChildTable

open EntryMap

variable {μ : Type → Type → Type} {ν : Type → Type} {κ α : Type} [EntryMap μ] [GrowingList ν]
  [DecidableEq κ]

def new : ChildTable μ ν κ α := ⟨empty, []⟩

/-- The child at a key, and whether it is a placeholder. -/
def lookup (table : ChildTable μ ν κ α) (key : κ) : Option (α × Bool) :=
  (get? table.entries key).map fun entry => (entry.current, entry.placeholder)

/-- The version of a key's child at a height. -/
def version? (table : ChildTable μ ν κ α) (key : κ) (height : Nat) : Option α :=
  (get? table.entries key).bind fun entry => entry.version? height

/-- Adds a key that is not there. -/
def insert (table : ChildTable μ ν κ α) (key : κ) (value : α) (placeholder : Bool) :
    ChildTable μ ν κ α :=
  ⟨EntryMap.insert table.entries key (.new value placeholder), table.keys ++ [key]⟩

/-- Carries out a plan for reading, and hands out the version on top. -/
def resolve [Inhabited α] (table : ChildTable μ ν κ α) (key : κ) (plan : Plan α) :
    (Nat × α) × ChildTable μ ν κ α :=
  match get? table.entries key, plan with
  | some entry, .keep => (entry.top, table)
  | some entry, .insert value placeholder =>
    ((entry.refresh value placeholder).top,
      { table with entries := modify table.entries key fun entry => entry.refresh value placeholder })
  | none, .keep => ((0, default), table.insert key default true)
  | none, .insert value placeholder => ((0, value), table.insert key value placeholder)

/-- Carries out a plan for writing, up to the entry that is written to. -/
def enter [Inhabited α] (table : ChildTable μ ν κ α) (key : κ) (plan : Plan α) :
    VersionStack ν α × ChildTable μ ν κ α :=
  match get? table.entries key, plan with
  | some entry, .keep => (entry, table)
  | some entry, .insert value placeholder =>
    (entry.replace value placeholder,
      { table with entries := modify table.entries key fun entry => entry.replace value placeholder })
  | none, .keep => (.new default true, table.insert key default true)
  | none, .insert value placeholder => (.new value placeholder, table.insert key value placeholder)

/-- Carries out a plan for writing, hands out the one version that is left, and writes to it. -/
def reach [Inhabited α] (table : ChildTable μ ν κ α) (key : κ) (plan : Plan α) (change : α → α) :
    α × ChildTable μ ν κ α :=
  let (entry, entered) := table.enter key plan
  (entry.collapse.base,
    { entered with
      entries := modify entered.entries key fun entry => entry.collapse.write change })

/-- Drops a key, and tells whether it was there. -/
def forget (table : ChildTable μ ν κ α) (key : κ) : Bool × ChildTable μ ν κ α :=
  match erase table.entries key with
  | (some _, entries) => (true, ⟨entries, table.keys.filter fun kept => kept ≠ key⟩)
  | (none, entries) => (false, { table with entries })

def clear (table : ChildTable μ ν κ α) : ChildTable μ ν κ α :=
  ⟨EntryMap.clear table.entries, []⟩

/-- Adds a copy of the child at a key to others. -/
def copyOf (copy : α → α) (table copies : ChildTable μ ν κ α) (key : κ) : ChildTable μ ν κ α :=
  match get? table.entries key with
  | some entry => copies.insert key (copy entry.current) entry.placeholder
  | none => copies

/-- A table of copies of the children, key after key. -/
def duplicate (copy : α → α) (table : ChildTable μ ν κ α) : ChildTable μ ν κ α :=
  table.keys.foldl (table.copyOf copy) new

end ChildTable

/-! ### Three tables -/

/-- Whether what was found is a placeholder that nothing was done to. -/
def isUntouched {α : Type} (isBlank : α → Bool) : Option (α × Bool) → Bool
  | some (child, true) => isBlank child
  | _ => false

/-- The three kinds of keys. -/
inductive ChildKind where
  | member
  | repeated
  | element
deriving DecidableEq, Repr

def ChildKey.kind : ChildKey → ChildKind
  | .member _ => .member
  | .repeated _ => .repeated
  | .element _ => .element

/-- First members by name, other members by position, and elements by index. -/
structure ChildTables (μ : Type → Type → Type) (ν : Type → Type) (α : Type) where
  members : ChildTable μ ν String α
  repeats : ChildTable μ ν Nat α
  elements : ChildTable μ ν Nat α

namespace ChildTables

variable {μ : Type → Type → Type} {ν : Type → Type} {α β : Type} [EntryMap μ] [GrowingList ν]

def new : ChildTables μ ν α := ⟨.new, .new, .new⟩

/-- Asks the table of a key. -/
def ask (tables : ChildTables μ ν α)
    (question : {κ : Type} → [DecidableEq κ] → ChildTable μ ν κ α → κ → β) : ChildKey → β
  | .member name => question tables.members name
  | .repeated position => question tables.repeats position
  | .element index => question tables.elements index

/-- Does something to the table of a key. -/
def use (tables : ChildTables μ ν α)
    (action : {κ : Type} → [DecidableEq κ] → ChildTable μ ν κ α → κ → β × ChildTable μ ν κ α) :
    ChildKey → β × ChildTables μ ν α
  | .member name =>
    let (answer, members) := action tables.members name
    (answer, { tables with members })
  | .repeated position =>
    let (answer, repeats) := action tables.repeats position
    (answer, { tables with repeats })
  | .element index =>
    let (answer, elements) := action tables.elements index
    (answer, { tables with elements })

def find? (tables : ChildTables μ ν α) (key : ChildKey) : Option (α × Bool) :=
  tables.ask (fun table key => table.lookup key) key

def version? (tables : ChildTables μ ν α) (key : ChildKey) (height : Nat) : Option α :=
  tables.ask (fun table key => table.version? key height) key

def resolve [Inhabited α] (tables : ChildTables μ ν α) (key : ChildKey) (plan : Plan α) :
    (Nat × α) × ChildTables μ ν α :=
  tables.use (fun table key => table.resolve key plan) key

def reach [Inhabited α] (tables : ChildTables μ ν α) (key : ChildKey) (plan : Plan α)
    (change : α → α) : α × ChildTables μ ν α :=
  tables.use (fun table key => table.reach key plan change) key

/-- Drops a name and every position, and tells whether the name was there. -/
def forgetMember (tables : ChildTables μ ν α) (name : String) : Bool × ChildTables μ ν α :=
  let (removed, members) := tables.members.forget name
  (removed, { tables with members, repeats := tables.repeats.clear })

/-- Drops a key if its child is a placeholder that nothing was done to, and tells whether it was. -/
def forgetPlaceholder (tables : ChildTables μ ν α) (isBlank : α → Bool) (key : ChildKey) :
    Bool × ChildTables μ ν α :=
  if isUntouched isBlank (tables.find? key) then
    tables.use (fun table key => table.forget key) key
  else (false, tables)

/-- The number of keys in the three tables. -/
def size (tables : ChildTables μ ν α) : Nat :=
  tables.members.keys.length + tables.repeats.keys.length + tables.elements.keys.length

def isEmpty (tables : ChildTables μ ν α) : Bool := tables.size == 0

/-- The keys in the table of a kind, in the order in which they came. -/
def keys (tables : ChildTables μ ν α) : ChildKind → List ChildKey
  | .member => tables.members.keys.map .member
  | .repeated => tables.repeats.keys.map .repeated
  | .element => tables.elements.keys.map .element

def duplicate (copy : α → α) (tables : ChildTables μ ν α) : ChildTables μ ν α :=
  ⟨tables.members.duplicate copy, tables.repeats.duplicate copy, tables.elements.duplicate copy⟩

end ChildTables

end JsonOverlay
