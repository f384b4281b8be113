/-
This file follows a property of values through the commands of a program, one name at a time.
What a name holds keeps a closed property as long as what the program puts there has it; and
if everything that is held has it, then so has whatever a program puts anywhere.
-/

import JsonOverlay.Proofs.Value.Closed
import JsonOverlay.Proofs.Workspace.Steps

namespace JsonOverlay

/-- The values that are held have a property, and documents are in certain places. -/
def Holding.Has (property : Value → Prop) (place : ArenaId → Prop) : Holding → Prop
  | document held => place held.arena ∧ property held.root
  | value held => property held
  | allocator _ => True

/-- What a name holds has a property. -/
def Workspace.Has (property : Value → Prop) (place : ArenaId → Prop) (workspace : Workspace)
    (name : String) : Prop :=
  ∀ holding, workspace.holding? name = some holding → holding.Has property place

section

variable {property : Value → Prop} {places : ArenaId → Prop} {workspace after : Workspace}
  {name : String} {document : Document} {heap later : Heap} {change : Value → Value → Prop}

theorem Holding.Has.root {holding : Holding} (null : property Value.null)
    (has : holding.Has property places) : property holding.root := by
  cases holding with
  | document held => exact has.2
  | value held => exact has
  | allocator held => exact null

theorem Holding.Has.evolves {holding next : Holding} (has : holding.Has property places)
    (keeps : ∀ value after, Value.Evolves heap change value after → property value → property after)
    (evolves : holding.Evolves heap change next) : next.Has property places := by
  cases evolves with
  | document evolves => exact ⟨has.1, keeps _ _ evolves has.2⟩
  | value evolves => exact keeps _ _ evolves has
  | allocator => trivial

/-- A new document has what values have that are attached to its arena. -/
theorem Document.Fresh.has (fresh : document.Fresh heap later) (place : places document.arena)
    (attached : ∀ node, property (.attached ⟨document.arena, node⟩)) :
    (Holding.document document).Has property places := by
  obtain ⟨tree, root, -⟩ := fresh.root
  exact ⟨place, root ▸ attached _⟩

namespace Workspace

theorem Has.root (has : workspace.Has property places name) (null : property Value.null) :
    property (workspace.root name) := by
  unfold Workspace.root
  cases held : workspace.holding? name with
  | none => exact null
  | some holding => exact (has holding held).root null

theorem Has.of_holding?_eq (has : workspace.Has property places name)
    (same : after.holding? name = workspace.holding? name) : after.Has property places name :=
  fun holding held => has holding (same ▸ held)

theorem Has.of_document? (has : workspace.Has property places name)
    (held : workspace.document? name = some document) :
    (Holding.document document).Has property places :=
  has _ (holding?_of_document? held)

/-- What becomes of what a name holds along paths has the property if that keeps it. -/
theorem Has.evolves (has : workspace.Has property places name)
    (keeps : ∀ value after, Value.Evolves heap change value after → property value → property after)
    (evolves : workspace.Evolves heap change name after) : after.Has property places name := by
  intro holding held
  rw [Evolves, held] at evolves
  revert evolves
  cases before : workspace.holding? name with
  | none =>
    intro evolves
    cases evolves
  | some old =>
    intro evolves
    cases evolves with
    | some evolved => exact (has old before).evolves keeps evolved

/-! ### Operands -/

/-- What is read at a place is null if there is nothing, and else a reference means it. -/
theorem read_cases (workspace : Workspace) (place : Place) :
    (workspace.read place).2 = Value.null ∨ ∃ reference,
      ((workspace.refer place).1.root place.name).at? reference = some (workspace.read place).2 := by
  unfold read
  dsimp only
  cases found : (workspace.refer place).2.bind ((workspace.refer place).1.at? place.name) with
  | none => exact .inl rfl
  | some value =>
    obtain ⟨reference, -, means⟩ := Option.bind_eq_some_iff.mp found
    exact .inr ⟨reference, means⟩

theorem Has.read_value (has : workspace.Has property places name)
    (closed : Value.Closed property) (path : List Step) :
    property (workspace.read ⟨name, path⟩).2 := by
  have looked : (workspace.refer ⟨name, path⟩).1.Has property places name :=
    has.evolves (fun _ _ => closed.looked) (workspace.evolves_refer ⟨name, path⟩)
  rcases workspace.read_cases ⟨name, path⟩ with null | ⟨reference, means⟩
  · rw [null]
    exact closed.null
  · exact closed.at? (looked.root closed.null) means

theorem Has.moveOut_value (has : workspace.Has property places name)
    (closed : Value.Closed property) (keys : List ChildKey) :
    property (workspace.moveOut name keys).2 := by
  have found := closed.endpoint (has.root closed.null) workspace.heap keys
  rwa [moveOut, Workspace.edit, Value.result_edit]

end Workspace

namespace Operand

theorem has_evaluate (closed : Value.Closed property)
    (has : workspace.Has property places name) (operand : Operand) :
    (operand.evaluate workspace).1.Has property places name := by
  have evolves : workspace.Evolves workspace.heap (fun _ after => after = Value.null) name
      (operand.evaluate workspace).1 := operand.evolves_evaluate workspace fun _ _ => rfl
  refine has.evolves (fun value after evolves => closed.evolves (fun _ _ moved _ => ?_) evolves)
    evolves
  rw [moved]
  exact closed.null

mutual

/-- An operand has a closed property if everything has it that is held. -/
theorem property_evaluate (closed : Value.Closed property) {workspace : Workspace}
    (all : ∀ name, workspace.Has property places name) : (operand : Operand) →
      property (operand.evaluate workspace).2
  | tree shown => closed.ofTree shown
  | duplicate ⟨name, path⟩ => closed.duplicate ((all name).read_value closed path)
  | deepCopy _ => closed.ofTree _
  | moveOut name keys => (all name).moveOut_value closed keys
  | array items => closed.detached (property_evaluateItems closed all items)
  | object members => closed.detached (property_evaluateMembers closed all members)

theorem property_evaluateItems (closed : Value.Closed property) {workspace : Workspace}
    (all : ∀ name, workspace.Has property places name) : (items : List Operand) →
      ∀ value ∈ (evaluateItems workspace items).2, property value
  | [] => fun _ absurd => by cases absurd
  | item :: rest =>
    List.forall_mem_cons.mpr ⟨property_evaluate closed all item,
      property_evaluateItems closed (fun name => has_evaluate closed (all name) item) rest⟩

theorem property_evaluateMembers (closed : Value.Closed property) {workspace : Workspace}
    (all : ∀ name, workspace.Has property places name) : (members : List (String × Operand)) →
      ∀ value ∈ (evaluateMembers workspace members).2.map Prod.snd, property value
  | [] => fun _ absurd => by cases absurd
  | (_, child) :: rest =>
    List.forall_mem_cons.mpr ⟨property_evaluate closed all child,
      property_evaluateMembers closed (fun name => has_evaluate closed (all name) child) rest⟩

end

end Operand

/-! ### Commands -/

/-- What a command does to a value keeps a closed property that what it puts there has. -/
theorem Command.Changes.keeps {command : Command} {value next : Value}
    (changes : command.Changes workspace name value next) (closed : Value.Closed property)
    (given : ∀ holding, command.gift? workspace name = some holding → holding.Has property places)
    (holds : property value) : property next := by
  cases command with
  | keep target operand =>
    rw [changes.2]
    exact closed.null
  | write target keys action =>
    rcases changes with ⟨-, rfl⟩ | ⟨same, ⟨operation, found, -, rfl⟩ | ⟨pointer, operand, rfl, rfl⟩⟩
    · exact closed.null
    · refine (operation.effect_run _ _).closed closed ?_ holds
      have taken (operand : Operand) (present : action.operand? = some operand) :
          property (operand.evaluate workspace).2 := by
        refine given (.value _) ?_
        rw [Command.gift?, if_pos same, present]
        rfl
      cases action <;> cases found
      · exact taken _ rfl
      · trivial
      · exact taken _ rfl
      · exact taken _ rfl
      · trivial
    · refine given (.value _) ?_
      rw [Command.gift?, if_pos same]
      rfl
  | _ => exact changes.elim

namespace Workspace

/-- What a name holds keeps a closed property if what a command puts there has it, and a new
document there has it. -/
theorem Has.step {command : Command} (has : workspace.Has property places name)
    (closed : Value.Closed property)
    (given : ∀ holding, command.gift? workspace name = some holding → holding.Has property places)
    (new : ∀ document, (workspace.step command).document? name = some document →
      document.Fresh workspace.heap (workspace.step command).heap →
        (Holding.document document).Has property places) :
    (workspace.step command).Has property places name := by
  intro holding held
  cases comes_step held with
  | kept before evolves =>
    exact (has _ before).evolves (fun _ _ evolves =>
      closed.evolves (fun _ _ changes => changes.keeps closed given) evolves) evolves
  | given gift => exact given _ gift
  | fresh fresh =>
    refine new _ ?_ fresh
    rw [document?, held]
  | allocator => trivial

/-- If everything that is held has a closed property, then so has what a command puts under a
name. -/
theorem has_gift? {command : Command} {holding : Holding} (closed : Value.Closed property)
    (all : ∀ name, workspace.Has property places name)
    (gift : command.gift? workspace name = some holding) : holding.Has property places := by
  cases command with
  | take source target =>
    rw [Command.gift?] at gift
    split at gift
    · obtain ⟨document, held, rfl⟩ := Option.map_eq_some_iff.mp gift
      exact (all source).of_document? held
    · cases gift
  | keep target operand =>
    rw [Command.gift?] at gift
    split at gift
    · cases gift
      exact operand.property_evaluate closed all
    · cases gift
  | write target keys action =>
    rw [Command.gift?] at gift
    split at gift
    · obtain ⟨operand, -, rfl⟩ := Option.map_eq_some_iff.mp gift
      exact operand.property_evaluate closed all
    · cases gift
  | _ => cases gift

end Workspace

end

end JsonOverlay
