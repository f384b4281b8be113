/-
This file takes apart what a program does where it follows paths. To come by a value, places are
looked up and values moved out, one after the other, so what each of these steps keeps is kept. An
action comes by its operand first; then it carries out a single operation at the end of its path,
or looks up the path, or assigns through a pointer from there. What happens to the heap follows:
nothing, but for that operation.
-/

import JsonOverlay.Proofs.Value.Evolution
import JsonOverlay.Workspace.Command

namespace JsonOverlay

namespace Workspace

/-! ### Places -/

@[simp]
theorem heap_visit {β : Type} (workspace : Workspace) (place : Place) (use : Value → Value × β) :
    (workspace.visit place use).1.heap = workspace.heap := by
  unfold visit
  dsimp only
  split
  · rfl
  · split <;> rfl

/-- An edit does to the heap what is done at the end of its path. -/
theorem heap_edit {β : Type} (workspace : Workspace) (name : String) (keys : List ChildKey)
    (change : Heap → Value → Value.Edited β) :
    (workspace.edit name keys change).1.heap =
      (change workspace.heap ((workspace.root name).endpoint workspace.heap keys)).heap :=
  Value.heap_edit _ _ _ keys

end Workspace

/-! ### Operands -/

namespace Operand

/-- A condition on operands that arrays and objects hand down to the operands in them. -/
structure Inherited (condition : Operand → Prop) (onItems : List Operand → Prop)
    (onMembers : List (String × Operand) → Prop) : Prop where
  array {items : List Operand} : condition (.array items) → onItems items
  object {members : List (String × Operand)} : condition (.object members) → onMembers members
  item {item : Operand} {rest : List Operand} :
    onItems (item :: rest) → condition item ∧ onItems rest
  member {name : String} {child : Operand} {rest : List (String × Operand)} :
    onMembers ((name, child) :: rest) → condition child ∧ onMembers rest

theorem inherited_true : Inherited (fun _ => True) (fun _ => True) fun _ => True :=
  ⟨id, id, fun _ => ⟨trivial, trivial⟩, fun _ => ⟨trivial, trivial⟩⟩

/-- A property of workspaces is kept by what is done for operands under a condition: places are
looked up, and values are moved out. -/
structure Keeps (condition : Operand → Prop) (property : Workspace → Prop) : Prop where
  look {workspace : Workspace} {place : Place} :
    condition (.duplicate place) ∨ condition (.deepCopy place) → property workspace →
      property (workspace.refer place).1
  moveOut {workspace : Workspace} {name : String} {keys : List ChildKey} :
    condition (.moveOut name keys) → property workspace →
      property (workspace.moveOut name keys).1

section

variable {condition : Operand → Prop} {onItems : List Operand → Prop}
  {onMembers : List (String × Operand) → Prop} {property : Workspace → Prop}

mutual

/-- Coming by a value keeps what each step of it keeps. -/
theorem Keeps.evaluate (keeps : Keeps condition property)
    (inherited : Inherited condition onItems onMembers) {workspace : Workspace}
    (holds : property workspace) :
    (operand : Operand) → condition operand → property (operand.evaluate workspace).1
  | .tree _, _ => holds
  | .duplicate _, allowed => keeps.look (.inl allowed) holds
  | .deepCopy _, allowed => keeps.look (.inr allowed) holds
  | .moveOut _ _, allowed => keeps.moveOut allowed holds
  | .array items, allowed => keeps.evaluateItems inherited holds items (inherited.array allowed)
  | .object members, allowed =>
    keeps.evaluateMembers inherited holds members (inherited.object allowed)

theorem Keeps.evaluateItems (keeps : Keeps condition property)
    (inherited : Inherited condition onItems onMembers) {workspace : Workspace}
    (holds : property workspace) :
    (items : List Operand) → onItems items → property (Operand.evaluateItems workspace items).1
  | [], _ => holds
  | item :: rest, allowed =>
    have ⟨first, others⟩ := inherited.item allowed
    keeps.evaluateItems inherited (keeps.evaluate inherited holds item first) rest others

theorem Keeps.evaluateMembers (keeps : Keeps condition property)
    (inherited : Inherited condition onItems onMembers) {workspace : Workspace}
    (holds : property workspace) :
    (members : List (String × Operand)) → onMembers members →
      property (Operand.evaluateMembers workspace members).1
  | [], _ => holds
  | (_, child) :: rest, allowed =>
    have ⟨first, others⟩ := inherited.member allowed
    keeps.evaluateMembers inherited (keeps.evaluate inherited holds child first) rest others

end

end

/-- Coming by a value leaves the heap as it is. -/
theorem heap_evaluate (workspace : Workspace) (operand : Operand) :
    (operand.evaluate workspace).1.heap = workspace.heap := by
  have keeps : Keeps (fun _ => True) fun after => after.heap = workspace.heap :=
    { look := fun _ same => same
      moveOut := fun _ same => (Value.heap_edit _ _ _ _).trans same }
  exact keeps.evaluate inherited_true rfl operand trivial

end Operand

/-! ### Actions -/

namespace Action

/-- The operand of an action, if it has one. -/
def operand? : Action → Option Operand
  | touch | set _ | removeMember _ => none
  | assign operand | assignAt _ operand | addMember _ operand _ | pushBack operand _ =>
    some operand

/-- The workspace in which the path of an action is followed. -/
def ready (workspace : Workspace) (action : Action) : Workspace :=
  match action.operand? with
  | some operand => (operand.evaluate workspace).1
  | none => workspace

/-- The operation that an action carries out, if it is a single one. -/
def operation? (workspace : Workspace) : Action → Option Operation
  | touch | assignAt _ _ => none
  | assign operand => some (.assign (operand.evaluate workspace).2)
  | set content => some (.set content)
  | addMember name operand allocator =>
    some (.addMember name (operand.evaluate workspace).2
      ((operand.evaluate workspace).1.allocator allocator))
  | pushBack operand allocator =>
    some (.pushBack (operand.evaluate workspace).2
      ((operand.evaluate workspace).1.allocator allocator))
  | removeMember name => some (.removeMember name)

variable {workspace : Workspace} {name : String} {keys : List ChildKey} {operation : Operation}
  {action : Action}

/-- What holds of the workspace that an action is given and of that in which it has come by its
operand holds where its path is followed. -/
theorem ready_of_evaluate {motive : Workspace → Prop} (holds : motive workspace)
    (evaluated : ∀ operand, action.operand? = some operand →
      motive (operand.evaluate workspace).1) : motive (action.ready workspace) := by
  unfold ready
  split
  · rename_i operand given
    exact evaluated operand given
  · exact holds

theorem run_eq_perform (found : action.operation? workspace = some operation) :
    action.run workspace name keys = ((action.ready workspace).perform name keys operation).1 := by
  cases action <;> cases found <;> rfl

@[simp]
theorem heap_ready (workspace : Workspace) (action : Action) :
    (action.ready workspace).heap = workspace.heap :=
  ready_of_evaluate (motive := fun after => after.heap = workspace.heap) rfl
    fun operand _ => operand.heap_evaluate workspace

/-- An action is a single operation, or it looks up a path, or it assigns through a pointer. -/
theorem operation?_cases (workspace : Workspace) (action : Action) :
    (∃ operation, action.operation? workspace = some operation) ∨
      action = touch ∨ ∃ pointer operand, action = assignAt pointer operand := by
  cases action with
  | touch => exact .inr (.inl rfl)
  | assignAt pointer operand => exact .inr (.inr ⟨pointer, operand, rfl⟩)
  | assign | set | addMember | pushBack | removeMember => exact .inl ⟨_, rfl⟩

theorem heap_run_of_some (found : action.operation? workspace = some operation) :
    (action.run workspace name keys).heap =
      (operation.run workspace.heap
        (((action.ready workspace).root name).endpoint workspace.heap keys)).heap := by
  rw [run_eq_perform found, Workspace.perform, Workspace.heap_edit, heap_ready]

/-- An action that is not a single operation leaves the heap as it is. -/
theorem heap_run_of_none (nothing : action.operation? workspace = none) :
    (action.run workspace name keys).heap = workspace.heap := by
  rcases action.operation?_cases workspace with ⟨operation, found⟩ | rfl | ⟨pointer, operand, rfl⟩
  · rw [nothing] at found
    cases found
  · rw [run, Workspace.heap_edit]
  · rw [run, Workspace.heap_edit, Pointer.modify, Value.heap_pointer_edit fun _ => rfl]
    exact operand.heap_evaluate workspace

end Action

end JsonOverlay
