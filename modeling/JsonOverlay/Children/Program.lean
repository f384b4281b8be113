/-
This file uses caches of looked-up children step by step. There may come to be many, as any of them
can be duplicated. What a cache is to do is said by a map from keys to versions; the same programs run
on the table that values carry and on three tables with stacks.
-/

import JsonOverlay.Children.Tables

namespace JsonOverlay

/-! ### Programs -/

/-- What is done with a cache: children are looked up, planned for and handed out for reading, or
handed out for writing and written to, and keys are forgotten or counted. -/
inductive CacheUse (α : Type) where
  | find (key : ChildKey)
  | resolve (key : ChildKey) (plan : Plan α)
  | reach (key : ChildKey) (plan : Plan α) (change : α → α)
  | forgetMember (name : String)
  | forgetPlaceholder (key : ChildKey)
  | size
  | isEmpty

/-- Whether a use takes a cache only for reading. -/
def CacheUse.isReading {α : Type} : CacheUse α → Bool
  | .find _ | .resolve _ _ | .size | .isEmpty => true
  | .reach _ _ _ | .forgetMember _ | .forgetPlaceholder _ => false

/-- What a cache answers. A child is handed out with the height of its version among the versions of
its key. -/
inductive CacheAnswer (α : Type) where
  | found (child : Option (α × Bool))
  | handed (height : Nat) (child : α)
  | told (yes : Bool)
  | counted (number : Nat)
deriving Repr

/-- One of several caches is used, or duplicated: the copy comes after the others. -/
inductive CacheStep (α : Type) where
  | use (cache : Nat) (use : CacheUse α)
  | duplicate (cache : Nat)

/-- Something that is used as a cache. -/
structure CacheModel (σ α : Type) where
  empty : σ
  use : σ → CacheUse α → CacheAnswer α × σ
  duplicate : σ → σ

namespace CacheModel

variable {σ α : Type}

/-- The caches after a step, and the answer if one was asked for. -/
def step (model : CacheModel σ α) (caches : List σ) : CacheStep α → Option (CacheAnswer α) × List σ
  | .use cache use =>
    match caches[cache]? with
    | some state =>
      let (answer, after) := model.use state use
      (some answer, caches.set cache after)
    | none => (none, caches)
  | .duplicate cache =>
    match caches[cache]? with
    | some state => (none, caches ++ [model.duplicate state])
    | none => (none, caches)

def run (model : CacheModel σ α) (caches : List σ) :
    List (CacheStep α) → List (Option (CacheAnswer α)) × List σ
  | [] => ([], caches)
  | step :: rest =>
    let (answer, after) := model.step caches step
    let (answers, last) := model.run after rest
    (answer :: answers, last)

/-- The answers to a program that starts with one empty cache, and the caches at its end. -/
def fromEmpty (model : CacheModel σ α) (steps : List (CacheStep α)) :
    List (Option (CacheAnswer α)) × List σ :=
  model.run [model.empty] steps

end CacheModel

/-! ### A map from keys to versions -/

/-- What is known of a key: the versions of its child that were found before, the latest one, and
whether that is a placeholder. -/
structure Known (α : Type) where
  earlier : List α
  latest : α
  placeholder : Bool
deriving Repr

namespace Plan

variable {α : Type} [Inhabited α]

/-- What a plan for reading makes of what is known. No version is lost. -/
def read : Option (Known α) → Plan α → Known α
  | some known, keep => known
  | some known, insert value placeholder =>
    ⟨known.earlier ++ [known.latest], value, placeholder⟩
  | none, keep => ⟨[], default, true⟩
  | none, insert value placeholder => ⟨[], value, placeholder⟩

/-- What a plan for writing makes of what is known. One version is left. -/
def write : Option (Known α) → Plan α → Known α
  | some known, keep => { known with earlier := [] }
  | none, keep => ⟨[], default, true⟩
  | _, insert value placeholder => ⟨[], value, placeholder⟩

end Plan

/-- What is known of each key, and the keys of each kind of which something is known. -/
structure VersionMap (α : Type) where
  known? : ChildKey → Option (Known α)
  keys : ChildKind → List ChildKey

namespace VersionMap

variable {α : Type}

def empty : VersionMap α := ⟨fun _ => none, fun _ => []⟩

/-- Says what is known of a key. A new key comes last. -/
def set (map : VersionMap α) (key : ChildKey) (known : Known α) : VersionMap α :=
  ⟨fun other => if other = key then some known else map.known? other, fun kind =>
    if kind = key.kind ∧ (map.known? key).isNone then map.keys kind ++ [key] else map.keys kind⟩

/-- Drops some keys. -/
def restrict (map : VersionMap α) (kept : ChildKey → Bool) : VersionMap α :=
  ⟨fun key => if kept key then map.known? key else none, fun kind => (map.keys kind).filter kept⟩

/-- The child at a key, and whether it is a placeholder. -/
def find? (map : VersionMap α) (key : ChildKey) : Option (α × Bool) :=
  (map.known? key).map fun known => (known.latest, known.placeholder)

def size (map : VersionMap α) : Nat :=
  (map.keys .member).length + (map.keys .repeated).length + (map.keys .element).length

/-- The keys that a forgotten name leaves: other names, and elements. -/
def outlives (name : String) : ChildKey → Bool
  | .member other => other ≠ name
  | .repeated _ => false
  | .element _ => true

def use [Inhabited α] (isBlank : α → Bool) (map : VersionMap α) :
    CacheUse α → CacheAnswer α × VersionMap α
  | .find key => (.found (map.find? key), map)
  | .resolve key plan =>
    let known := plan.read (map.known? key)
    (.handed known.earlier.length known.latest, map.set key known)
  | .reach key plan change =>
    let known := plan.write (map.known? key)
    (.handed 0 known.latest, map.set key { known with latest := change known.latest })
  | .forgetMember name =>
    (.told (map.find? (.member name)).isSome, map.restrict (outlives name))
  | .forgetPlaceholder key =>
    let untouched := isUntouched isBlank (map.find? key)
    (.told untouched, if untouched then map.restrict fun other => other ≠ key else map)
  | .size => (.counted map.size, map)
  | .isEmpty => (.told (map.size == 0), map)

/-- The same keys with copies of their latest versions. -/
def duplicate (copy : α → α) (map : VersionMap α) : VersionMap α :=
  { map with known? := fun key => (map.known? key).map fun known =>
      ⟨[], copy known.latest, known.placeholder⟩ }

def model [Inhabited α] (copy : α → α) (isBlank : α → Bool) : CacheModel (VersionMap α) α :=
  ⟨empty, use isBlank, duplicate copy⟩

end VersionMap

/-! ### Three tables with stacks -/

namespace ChildTables

variable {μ : Type → Type → Type} {ν : Type → Type} {α : Type} [EntryMap μ] [GrowingList ν]

def apply [Inhabited α] (isBlank : α → Bool) (tables : ChildTables μ ν α) :
    CacheUse α → CacheAnswer α × ChildTables μ ν α
  | .find key => (.found (tables.find? key), tables)
  | .resolve key plan =>
    let ((height, child), after) := tables.resolve key plan
    (.handed height child, after)
  | .reach key plan change =>
    let (child, after) := tables.reach key plan change
    (.handed 0 child, after)
  | .forgetMember name =>
    let (removed, after) := tables.forgetMember name
    (.told removed, after)
  | .forgetPlaceholder key =>
    let (removed, after) := tables.forgetPlaceholder isBlank key
    (.told removed, after)
  | .size => (.counted tables.size, tables)
  | .isEmpty => (.told tables.isEmpty, tables)

def model [Inhabited α] (copy : α → α) (isBlank : α → Bool) : CacheModel (ChildTables μ ν α) α :=
  ⟨new, apply isBlank, duplicate copy⟩

end ChildTables

/-! ### The table that values carry -/

namespace Children

variable {α : Type}

/-- The version of a key's child that is current, and how many there are before it. -/
def top [Inhabited α] (children : Children α) (key : ChildKey) : Nat × α :=
  ((children.get? key).map fun entry => (entry.older.length, entry.current.value)).getD (0, default)

/-- The children without the older versions, each copied. -/
def copied (copy : α → α) (children : Children α) : Children α :=
  { children.latest with
    entries := children.latest.entries.map fun (key, entry) =>
      (key, { entry with current := { entry.current with value := copy entry.current.value } }) }

def apply [Inhabited α] (isBlank : α → Bool) (children : Children α) :
    CacheUse α → CacheAnswer α × Children α
  | .find key => (.found (children.find? key), children)
  | .resolve key plan =>
    let after := children.resolve key plan
    (.handed (after.top key).1 (after.top key).2, after)
  | .reach key plan change =>
    let entered := children.resolveForWriting key plan
    let child := (entered.top key).2
    (.handed 0 child, entered.write key (change child))
  | .forgetMember name =>
    (.told (children.find? (.member name)).isSome, children.forgetMember name)
  | .forgetPlaceholder key =>
    (.told (isUntouched isBlank (children.find? key)), children.forgetPlaceholder key isBlank)
  | .size => (.counted children.size, children)
  | .isEmpty => (.told children.isEmpty, children)

def model [Inhabited α] (copy : α → α) (isBlank : α → Bool) : CacheModel (Children α) α :=
  ⟨{}, apply isBlank, copied copy⟩

end Children

end JsonOverlay
