/-
This file says which names a command has to do with. What any other name holds stays exactly
as it is, whatever the command does to the documents that are held.
-/

import JsonOverlay.Proofs.Workspace.Holdings

namespace JsonOverlay

/-! ### What names hold -/

namespace Workspace

variable {workspace : Workspace} {name other : String}

theorem holding?_withdraw (workspace : Workspace) (name other : String) :
    (workspace.withdraw name).holding? other =
      if other = name then none else workspace.holding? other := by
  rw [holding?, withdraw, lookup_filter_fst fun other => other != name]
  by_cases same : other = name
  · rw [if_neg (by simpa using same), if_pos same]
  · rw [if_pos (by simpa using same), if_neg same]
    rfl

theorem holding?_drop (workspace : Workspace) (name other : String) :
    (workspace.drop name).holding? other =
      if other = name then none else workspace.holding? other :=
  workspace.holding?_withdraw name other

theorem holding?_hold (workspace : Workspace) (name : String) (holding : Holding)
    (other : String) :
    (workspace.hold name holding).holding? other =
      if other = name then some holding else workspace.holding? other := by
  have dropped := workspace.holding?_drop name other
  by_cases same : other = name
  · rw [if_pos same, same, holding?, hold, List.lookup_cons_self]
  · rw [if_neg same] at dropped ⊢
    rw [holding?, hold, List.lookup_cons, beq_false_of_ne same]
    exact dropped

theorem holding?_setRoot_of_ne (different : other ≠ name) (root : Value) :
    (workspace.setRoot name root).holding? other = workspace.holding? other := by
  refine (lookup_map_snd (fun other (holding : Holding) =>
    if other = name then holding.withRoot root else holding) workspace.holdings other).trans ?_
  simp only [if_neg different]
  exact Option.map_id'

/-- What is held and what arenas there are is all that the arenas of documents depend on. -/
theorem document?_eq_of_holding?_eq {after : Workspace}
    (same : after.holding? name = workspace.holding? name) :
    after.document? name = workspace.document? name := by
  rw [document?, same]
  rfl

theorem root_eq_of_holding?_eq {after : Workspace}
    (same : after.holding? name = workspace.holding? name) :
    after.root name = workspace.root name := by
  rw [root, same]
  rfl

end Workspace

/-! ### Names that are used -/

namespace Operand

mutual

/-- The names whose values an operand is come by from. -/
def uses : Operand → List String
  | tree _ => []
  | array items => usesOfItems items
  | object members => usesOfMembers members
  | duplicate place | deepCopy place => [place.name]
  | moveOut name _ => [name]

def usesOfItems : List Operand → List String
  | [] => []
  | item :: rest => uses item ++ usesOfItems rest

def usesOfMembers : List (String × Operand) → List String
  | [] => []
  | (_, child) :: rest => uses child ++ usesOfMembers rest

end

end Operand

/-- The names that a command looks up a value from, writes to or gives something to hold.
Allocators and the source of a new document are only asked for. -/
def Command.uses : Command → List String
  | newDocument name | parse name _ _ | parseStream name _ _ | drop name => [name]
  | take name target => [name, target]
  | duplicate _ target | keepAllocator _ target => [target]
  | keep name operand => name :: operand.uses
  | read place | follow place _ => [place.name]
  | look name _ _ => [name]
  | write name _ action => name :: (action.operand?.map Operand.uses).getD []

namespace Workspace

variable {workspace : Workspace} {name other : String}

theorem holding?_newDocument (different : other ≠ name) :
    (workspace.newDocument name).holding? other = workspace.holding? other := by
  unfold newDocument
  exact (holding?_hold _ name _ other).trans (if_neg different)

theorem holding?_install (different : other ≠ name) (parsed : Except Error Tree) :
    (workspace.install name parsed).holding? other = workspace.holding? other := by
  unfold install
  generalize made : (if (workspace.document? name).isSome then workspace
    else workspace.newDocument name) = ready
  have early : ready.holding? other = workspace.holding? other := by
    rw [← made]
    split
    · rfl
    · exact holding?_newDocument different
  dsimp only
  split
  · exact early
  · rw [holding?_hold, if_neg different, ← early]
    exact (ready.holding?_withdraw name other).trans (if_neg different)

theorem holding?_take {target : String} (different : other ≠ name) (elsewhere : other ≠ target) :
    (workspace.take name target).holding? other = workspace.holding? other := by
  unfold take
  split
  · rfl
  · dsimp only
    rw [holding?_hold, if_neg elsewhere, holding?_hold, if_neg different]
    exact (workspace.holding?_withdraw name other).trans (if_neg different)

theorem holding?_duplicate {target : String} (elsewhere : other ≠ target) :
    (workspace.duplicate name target).holding? other = workspace.holding? other := by
  unfold duplicate
  split
  · rfl
  · exact (holding?_hold _ target _ other).trans (if_neg elsewhere)

theorem holding?_refer {place : Place} (different : other ≠ place.name) :
    (workspace.refer place).1.holding? other = workspace.holding? other :=
  holding?_setRoot_of_ne different _

theorem holding?_visit {β : Type} {place : Place} (different : other ≠ place.name)
    (use : Value → Value × β) :
    (workspace.visit place use).1.holding? other = workspace.holding? other := by
  have looked : (workspace.refer place).1.holding? other = workspace.holding? other :=
    holding?_refer different
  unfold visit
  dsimp only
  split
  · exact looked
  · split
    · exact looked
    · exact (holding?_setRoot_of_ne different _).trans looked

theorem holding?_edit {β : Type} (different : other ≠ name) (keys : List ChildKey)
    (change : Heap → Value → Value.Edited β) :
    (workspace.edit name keys change).1.holding? other = workspace.holding? other :=
  holding?_setRoot_of_ne different _

end Workspace

namespace Operand

variable {name : String}

/-- Where an operand does not use a name, no operand in it does. -/
theorem inherited_unused (name : String) : Inherited (fun operand => name ∉ operand.uses)
    (fun items => name ∉ usesOfItems items) fun members => name ∉ usesOfMembers members where
  array := id
  object := id
  item unused := not_or.mp (mt List.mem_append.mpr unused)
  member unused := not_or.mp (mt List.mem_append.mpr unused)

theorem holding?_evaluate (workspace : Workspace) (operand : Operand)
    (unused : name ∉ operand.uses) :
    (operand.evaluate workspace).1.holding? name = workspace.holding? name := by
  have keeps : Keeps (fun operand => name ∉ operand.uses) fun after =>
      after.holding? name = workspace.holding? name :=
    { look := fun unused same => (Workspace.holding?_refer
        (unused.elim List.ne_of_not_mem_cons List.ne_of_not_mem_cons)).trans same
      moveOut := fun unused same =>
        (Workspace.holding?_edit (List.ne_of_not_mem_cons unused) _ _).trans same }
  exact keeps.evaluate (inherited_unused name) rfl operand unused

end Operand

namespace Workspace

variable {workspace : Workspace} {name : String}

theorem holding?_act {target : String} {action : Action} (different : name ≠ target)
    (unused : name ∉ (action.operand?.map Operand.uses).getD []) (keys : List ChildKey) :
    (action.run workspace target keys).holding? name = workspace.holding? name := by
  cases action with
  | touch | set | removeMember => exact holding?_edit different keys _
  | assign operand | assignAt _ operand | addMember _ operand _ | pushBack operand _ =>
    exact (holding?_edit different keys _).trans (operand.holding?_evaluate workspace unused)

/-- A command leaves what a name holds as it is unless it uses the name. -/
theorem holding?_step {command : Command} (unused : name ∉ command.uses) :
    (workspace.step command).holding? name = workspace.holding? name := by
  have different {first : String} {rest : List String} (absent : name ∉ first :: rest) :
      name ≠ first := List.ne_of_not_mem_cons absent
  cases command with
  | newDocument target => exact holding?_newDocument (different unused)
  | parse target | parseStream target => exact holding?_install (different unused) _
  | take source target =>
    exact holding?_take (different unused) (different (List.not_mem_of_not_mem_cons unused))
  | duplicate source target => exact holding?_duplicate (different unused)
  | drop target => exact (workspace.holding?_drop target name).trans (if_neg (different unused))
  | keepAllocator source target =>
    exact (holding?_hold _ target _ name).trans (if_neg (different unused))
  | keep target operand =>
    refine (holding?_hold _ target _ name).trans ((if_neg (different unused)).trans ?_)
    exact operand.holding?_evaluate workspace (List.not_mem_of_not_mem_cons unused)
  | read place => exact holding?_refer (different unused)
  | look target reference keys => exact holding?_setRoot_of_ne (different unused) _
  | follow place pointer => exact holding?_visit (different unused) _
  | write target keys action =>
    exact holding?_act (different unused) (List.not_mem_of_not_mem_cons unused) keys

end Workspace

end JsonOverlay
