/-
This file describes programs that work on what one name holds: they look at values along
paths without changing them, and they change values along paths. A program may have extra
looks in it, about which it does not report. A look is careful if it does not go below a
gap, which is a child that is missing where there could be one.
-/

import JsonOverlay.Pointer
import JsonOverlay.Workspace

namespace JsonOverlay

/-! ### Looks -/

/-- A step to a child that a program names. -/
inductive Selector where
  | member (name : String)
  | element (index : Nat)
deriving DecidableEq, Repr

namespace Selector

def key : Selector → ChildKey
  | member name => .member name
  | element index => .element index

def step : Selector → Step
  | member name => .member name
  | element index => .element index

end Selector

/-- What a program learns about a value that it finds: where its content is, and the tree
that it shows. -/
structure Glimpse where
  storage : Storage Value
  shown : Tree
deriving Repr

def Value.glimpse (value : Value) (heap : Heap) : Glimpse := ⟨value.storage, value.visible heap⟩

/-- What a program does with a value that it reached without changing it: it takes a glance,
walks over some members or over elements that are there, or follows a pointer. -/
inductive Sight where
  | glance
  | members (count : Nat)
  | elements (indices : List UInt64)
  | pointer (pointer : Pointer)
deriving Repr

/-- What a program learns from one step. -/
inductive Report where
  | glance (found : Glimpse)
  | members (visits : List (Nat × String × Glimpse))
  | elements (found : List Glimpse)
  | pointer (found : Option Glimpse)
  | outcome (outcome : Outcome)
  | nothing
deriving Repr

namespace Sight

/-- The value after it was looked at, and the report. -/
def use (heap : Heap) (value : Value) : Sight → Value × Report
  | glance => (value, .glance (value.glimpse heap))
  | members count =>
    let (visits, _, final) := MemberCursor.walk heap count (MemberCursor.start value heap) value
    (final, .members (visits.map fun visit =>
      (visit.remaining, visit.name, visit.value.glimpse heap)))
  | elements indices =>
    let present := indices.filter fun index => index.toNat < value.size heap
    let (found, final) := ArrayCursor.lookAll heap value present
    (final, .elements (found.map fun value => value.glimpse heap))
  | .pointer target =>
    let (final, reference) := target.get? value heap
    (final, .pointer ((reference.bind final.at?).map fun value => value.glimpse heap))

end Sight

/-- A path and what is done at its end. -/
structure Look where
  path : List Selector
  sight : Sight
deriving Repr

/-! ### Programs -/

/-- A step of a program on what a name holds. -/
inductive Act where
  | look (look : Look)
  | change (path : List Selector) (operation : Operation)
deriving Repr

/-- A step of the program itself, or an extra look that was put in. -/
inductive Turn where
  | act (act : Act)
  | extra (look : Look)
deriving Repr

/-- Whether a turn is a step of the program itself. -/
def Turn.isAct : Turn → Bool
  | act _ => true
  | extra _ => false

namespace Workspace

def look (workspace : Workspace) (name : String) (look : Look) : Workspace × Report :=
  let (looked, report) := workspace.visit ⟨name, look.path.map Selector.step⟩ fun value =>
    look.sight.use workspace.heap value
  (looked, report.getD .nothing)

def act (workspace : Workspace) (name : String) : Act → Workspace × Report
  | .look look => workspace.look name look
  | .change path operation =>
    let (changed, outcome) := workspace.perform name (path.map Selector.key) operation
    (changed, .outcome outcome)

/-- The workspace after some turns. -/
def runTurns (workspace : Workspace) (name : String) : List Turn → Workspace
  | [] => workspace
  | .act act :: rest => (workspace.act name act).1.runTurns name rest
  | .extra look :: rest => (workspace.look name look).1.runTurns name rest

/-- What a program learns: the report of each of its own steps, with the tree that its value
shows then. -/
def reports (workspace : Workspace) (name : String) : List Turn → List (Report × Tree)
  | [] => []
  | .act act :: rest =>
    let (after, report) := workspace.act name act
    (report, (after.root name).visible after.heap) :: after.reports name rest
  | .extra look :: rest => (workspace.look name look).1.reports name rest

end Workspace

/-! ### Careful looks -/

/-- Whether a level could have a child at a key. -/
def Content.admits {α : Type} (content : Content α) (key : ChildKey) : Prop :=
  match content, key with
  | .object _, .member _ => True
  | .array _, .element _ => True
  | _, _ => False

/-- There is a gap at a key that was looked up: the level could have a child there, and what
stands in for one is null. -/
def Value.GapAt (value : Value) (heap : Heap) (key : ChildKey) : Prop :=
  (value.backing heap).admits key ∧
    ∃ child, value.children.find? key = some (child, true) ∧ child.storage = .detached .null

/-- No step of a path but the last leads to a gap. -/
def Value.Careful (heap : Heap) (value : Value) : List Selector → Prop
  | [] => True
  | selector :: rest =>
    (rest = [] ∨ ¬ (value.look heap selector.key).GapAt heap selector.key) ∧
      ((value.look heap selector.key).child selector.key).value.Careful heap rest

/-- All extra looks of a program are careful. -/
def Workspace.Careful (workspace : Workspace) (name : String) : List Turn → Prop
  | [] => True
  | .act act :: rest => (workspace.act name act).1.Careful name rest
  | .extra look :: rest =>
    (workspace.root name).Careful workspace.heap look.path ∧
      (workspace.look name look).1.Careful name rest

end JsonOverlay
