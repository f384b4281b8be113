/-
This file says which arena a command changes or releases, if any. An operation works on the
arena that the value at the end of its path is attached to, and a document is released when
its name gets something else to hold. All other arenas stay what they are.
-/

import JsonOverlay.Proofs.Workspace.Evolution

namespace JsonOverlay

/-! ### Work on one arena -/

/-- All arenas that were there are what they were, but for at most one. -/
structure Heap.SameBut (place : Option ArenaId) (before after : Heap) : Prop where
  size_le : before.arenas.size ≤ after.arenas.size
  arena?_eq : ∀ id : ArenaId, id.index < before.arenas.size → place ≠ some id →
    after.arena? id = before.arena? id

namespace Heap

variable {before after heap : Heap} {place : Option ArenaId} {id : ArenaId}

theorem SameBut.refl (place : Option ArenaId) (heap : Heap) : heap.SameBut place heap :=
  ⟨Nat.le_refl _, fun _ _ _ => rfl⟩

theorem sameBut_put (heap : Heap) {old : Arena} (found : heap.arena? id = some old)
    (arena : Arena) : heap.SameBut (some id) (heap.put id arena) := by
  refine ⟨by simp [put], fun other _ different => ?_⟩
  rw [arena?_put found, if_neg fun same => different (congrArg some same.symm)]

/-- New documents were given arenas, and at most one arena that was there was released. -/
structure Renews (lost : Option ArenaId) (before after : Heap) : Prop
    extends SameBut lost before after where
  origin : ∀ id arena, after.arena? id = some arena → before.arena? id = some arena ∨
    before.arenas.size ≤ id.index ∧ ∃ tree, arena = Arena.ofTree tree

theorem Renews.refl (lost : Option ArenaId) (heap : Heap) : heap.Renews lost heap :=
  ⟨.refl lost heap, fun _ _ => .inl⟩

/-- Releasing the arena that may be, or one that is new. -/
theorem Renews.drop (renews : before.Renews place after)
    (able : place = some id ∨ before.arenas.size ≤ id.index) :
    before.Renews place (after.drop id) := by
  refine ⟨⟨renews.size_le.trans_eq (size_drop after id).symm, fun other bound different => ?_⟩,
    fun other arena found => ?_⟩
  · rw [arena?_drop, if_neg, renews.arena?_eq other bound different]
    rintro rfl
    rcases able with equal | new
    · exact different equal
    · exact Nat.not_lt_of_le new bound
  · rw [arena?_drop] at found
    split at found
    · cases found
    · exact renews.origin other arena found

/-- A new document has an arena of its own. -/
theorem Renews.add (renews : before.Renews place after) (tree : Tree) :
    before.Renews place (after.add (.ofTree tree)).2 := by
  refine ⟨⟨renews.size_le.trans ((Nat.le_succ _).trans_eq (size_add after _).symm),
    fun other bound different => ?_⟩, fun other arena found => ?_⟩
  · rw [arena?_add, if_neg, renews.arena?_eq other bound different]
    rintro rfl
    exact Nat.not_lt_of_le renews.size_le bound
  · rw [arena?_add] at found
    split at found
    · rename_i same
      subst same
      exact .inr ⟨renews.size_le, tree, (Option.some.inj found).symm⟩
    · exact renews.origin other arena found

end Heap

/-! ### Operations -/

/-- The arena that a value is attached to. -/
def Value.arena? (value : Value) : Option ArenaId :=
  match value.storage with
  | .attached node => some node.arena
  | .detached _ => none

theorem Value.arena?_attached {value : Value} {reference : NodeRef}
    (storage : value.storage = .attached reference) : value.arena? = some reference.arena := by
  rw [arena?, storage]

theorem Operation.Effect.sameBut {heap after : Heap} {value changed : Value} {operation : Operation}
    (effect : operation.Effect heap value after changed) : heap.SameBut value.arena? after := by
  have put {reference : NodeRef} {old : Arena} (attached : value.storage = .attached reference)
      (found : heap.arena? reference.arena = some old) (arena : Arena) :
      heap.SameBut value.arena? (heap.put reference.arena arena) := by
    rw [Value.arena?_attached attached]
    exact heap.sameBut_put found arena
  cases effect with
  | setAttached attached found | memberAttached attached found | elementAttached attached found
  | removedAttached attached found => exact put attached found _
  | _ => exact .refl _ heap

/-- An operation works on the arena that a value is attached to. -/
theorem Operation.sameBut_run (operation : Operation) (heap : Heap) (value : Value) :
    heap.SameBut value.arena? (operation.run heap value).heap :=
  (operation.effect_run heap value).sameBut

/-! ### Commands -/

namespace Workspace

/-- The arena of the document that a name holds. -/
def documentArena? (workspace : Workspace) (name : String) : Option ArenaId :=
  (workspace.document? name).map Document.arena

/-- The arena that the value at the end of a path is attached to. -/
def endArena? (workspace : Workspace) (name : String) (keys : List ChildKey) : Option ArenaId :=
  ((workspace.root name).endpoint workspace.heap keys).arena?

end Workspace

/-- The arena that an action changes. Assigning to a place changes only what is looked up
through the value above it. -/
def Action.arena? (workspace : Workspace) (name : String) (keys : List ChildKey) :
    Action → Option ArenaId
  | touch | assign _ | assignAt _ _ => none
  | set _ | removeMember _ => workspace.endArena? name keys
  | addMember _ operand _ | pushBack operand _ =>
    (operand.evaluate workspace).1.endArena? name keys

/-- The arena that a command changes or releases. A document that is taken is not released,
even if it is put back under its own name. -/
def Command.arena? (workspace : Workspace) : Command → Option ArenaId
  | newDocument name | parse name _ _ | parseStream name _ _ | drop name =>
    workspace.documentArena? name
  | take source target => if source = target then none else workspace.documentArena? target
  | duplicate _ target | keepAllocator _ target => workspace.documentArena? target
  | keep name operand => (operand.evaluate workspace).1.documentArena? name
  | read _ | look _ _ _ | follow _ _ => none
  | write name keys action => action.arena? workspace name keys

namespace Workspace

variable {workspace after : Workspace} {name target : String} {place : Option ArenaId}

theorem documentArena?_eq_of_holding?_eq (same : after.holding? name = workspace.holding? name) :
    after.documentArena? name = workspace.documentArena? name := by
  rw [documentArena?, document?_eq_of_holding?_eq same, documentArena?]

theorem document?_withdraw (workspace : Workspace) (name : String) :
    (workspace.withdraw name).document? name = none := by
  rw [document?, holding?_withdraw, if_pos rfl]

theorem documentArena?_withdraw (workspace : Workspace) (name : String) :
    (workspace.withdraw name).documentArena? name = none := by
  rw [documentArena?, document?_withdraw]
  rfl

end Workspace

namespace Heap

variable {before : Heap} {place : Option ArenaId} {workspace : Workspace} {name : String}

/-- Releasing what a name holds. -/
theorem Renews.release (renews : before.Renews place workspace.heap)
    (able : ∀ id, workspace.documentArena? name = some id →
      place = some id ∨ before.arenas.size ≤ id.index) :
    before.Renews place (workspace.drop name).heap := by
  rw [Workspace.heap_drop]
  cases held : workspace.document? name with
  | none => exact renews
  | some document =>
    exact renews.drop (able document.arena (by rw [Workspace.documentArena?, held]; rfl))

/-- Giving a name something to hold releases what it held. -/
theorem Renews.hold (renews : before.Renews place workspace.heap)
    (able : ∀ id, workspace.documentArena? name = some id →
      place = some id ∨ before.arenas.size ≤ id.index) (holding : Holding) :
    before.Renews place (workspace.hold name holding).heap :=
  renews.release able

end Heap

namespace Workspace

variable {workspace : Workspace} {name : String}

/-- Holding something in a heap with the arena of one more document. -/
theorem renews_hold_new (workspace : Workspace) (name : String) (holding : Holding)
    (tree : Tree) :
    workspace.heap.Renews (workspace.documentArena? name)
      (({ workspace with heap := (workspace.heap.add (.ofTree tree)).2 } : Workspace).hold name
        holding).heap := by
  have grown : workspace.heap.Renews (workspace.documentArena? name)
      ({ workspace with heap := (workspace.heap.add (.ofTree tree)).2 } : Workspace).heap :=
    (Heap.Renews.refl _ _).add tree
  exact grown.hold (fun _ held => .inl held) holding

theorem renews_newDocument (workspace : Workspace) (name : String) :
    workspace.heap.Renews (workspace.documentArena? name) (workspace.newDocument name).heap :=
  workspace.renews_hold_new name _ .null

theorem renews_duplicate (workspace : Workspace) (name target : String) :
    workspace.heap.Renews (workspace.documentArena? target)
      (workspace.duplicate name target).heap := by
  unfold duplicate
  split
  · exact .refl _ _
  · exact workspace.renews_hold_new target _ _

/-- A parse releases the arena that the document had. -/
theorem renews_install (workspace : Workspace) (name : String) (parsed : Except Error Tree) :
    workspace.heap.Renews (workspace.documentArena? name)
      (workspace.install name parsed).heap := by
  have replaced {ready : Workspace} {document : Document}
      (renews : workspace.heap.Renews (workspace.documentArena? name) ready.heap)
      (able : workspace.documentArena? name = some document.arena ∨
        workspace.heap.arenas.size ≤ document.arena.index) :
      workspace.heap.Renews (workspace.documentArena? name)
        (({ ready.withdraw name with heap := (document.install ready.heap parsed).1 } :
          Workspace).hold name (.document (document.install ready.heap parsed).2)).heap := by
    refine Heap.Renews.hold ?_ (fun id held => ?_) _
    · cases parsed with
      | error error => exact (renews.add .null).drop able
      | ok tree => exact (renews.add tree).drop able
    · have nothing := ready.documentArena?_withdraw name
      exact absurd (nothing.symm.trans held) (by simp)
  unfold install
  cases held : workspace.document? name with
  | some document =>
    simp only [Option.isSome_some, if_true, held]
    refine replaced (.refl _ _) (.inl ?_)
    rw [documentArena?, held]
    rfl
  | none =>
    have made : (workspace.newDocument name).document? name =
        some (Document.new workspace.heap).2 := document?_hold _ name _
    simp only [Option.isSome_none, Bool.false_eq_true, if_false, made]
    exact replaced (workspace.renews_newDocument name) (.inr (Nat.le_refl _))

theorem renews_take (workspace : Workspace) (source target : String) :
    workspace.heap.Renews (if source = target then none else workspace.documentArena? target)
      (workspace.take source target).heap := by
  unfold take
  cases held : workspace.document? source with
  | none => exact .refl _ _
  | some document =>
    have left (place : Option ArenaId) : workspace.heap.Renews place
        (({ workspace.withdraw source with heap := (document.take workspace.heap).1 } :
          Workspace).hold source (.document (document.take workspace.heap).2.2)).heap := by
      have grown : workspace.heap.Renews place ({ workspace.withdraw source with
          heap := (document.take workspace.heap).1 } : Workspace).heap :=
        (Heap.Renews.refl _ _).add .null
      refine grown.hold (fun id held => ?_) _
      have nothing := workspace.documentArena?_withdraw source
      exact absurd (nothing.symm.trans held) (by simp)
    refine (left _).hold (fun id held => ?_) _
    by_cases same : source = target
    · subst same
      rw [documentArena?, document?_hold] at held
      cases held
      exact .inr (Nat.le_refl _)
    · have elsewhere := documentArena?_eq_of_holding?_eq
        ((holding?_hold { workspace.withdraw source with heap := (document.take workspace.heap).1 }
          source (.document (document.take workspace.heap).2.2) target).trans
            (if_neg (Ne.symm same)))
      have before := documentArena?_eq_of_holding?_eq
        ((workspace.holding?_withdraw source target).trans (if_neg (Ne.symm same)))
      rw [if_neg same]
      exact .inl (before.symm.trans (elsewhere.symm.trans held))

theorem sameBut_act (workspace : Workspace) (name : String) (keys : List ChildKey)
    (action : Action) :
    workspace.heap.SameBut (action.arena? workspace name keys)
      (action.run workspace name keys).heap := by
  cases found : action.operation? workspace with
  | none =>
    rw [Action.heap_run_of_none found]
    exact .refl _ _
  | some operation =>
    have work := operation.sameBut_run workspace.heap
      (((action.ready workspace).root name).endpoint workspace.heap keys)
    rw [Action.heap_run_of_some found]
    cases action with
    | touch | assignAt => cases found
    | assign =>
      cases found
      exact .refl _ _
    | set | removeMember => exact work
    | addMember _ operand | pushBack operand =>
      rw [Action.arena?, endArena?, operand.heap_evaluate]
      exact work

/-- A command that writes to no place works on no arena. -/
theorem renews_step (workspace : Workspace) {command : Command}
    (still : ∀ name keys action, command ≠ .write name keys action) :
    workspace.heap.Renews (command.arena? workspace) (workspace.step command).heap := by
  cases command with
  | newDocument name => exact workspace.renews_newDocument name
  | parse name options text => exact workspace.renews_install name _
  | parseStream name options stream => exact workspace.renews_install name _
  | take source target => exact workspace.renews_take source target
  | duplicate source target => exact workspace.renews_duplicate source target
  | drop name => exact (Heap.Renews.refl _ _).release fun _ held => .inl held
  | keepAllocator source target =>
    exact (Heap.Renews.refl _ _).hold (fun _ held => .inl held) _
  | keep name operand =>
    refine Heap.Renews.hold ?_ (fun _ held => .inl held) _
    rw [operand.heap_evaluate]
    exact .refl _ _
  | read place => exact .refl _ _
  | look name reference keys => exact .refl _ _
  | follow place pointer =>
    rw [step, heap_visit]
    exact .refl _ _
  | write name keys action => exact absurd rfl (still name keys action)

/-- A command leaves all arenas as they are but the one it changes or releases. -/
theorem sameBut_step (workspace : Workspace) (command : Command) :
    workspace.heap.SameBut (command.arena? workspace) (workspace.step command).heap := by
  cases command with
  | write name keys action => exact workspace.sameBut_act name keys action
  | _ => exact (workspace.renews_step fun _ _ _ absurd => by cases absurd).toSameBut

/-- Whatever a command does to the heap, it does an operation to the value at the end of a path, or
it makes and releases documents. -/
theorem step_cases (workspace : Workspace) (command : Command) :
    (∃ name keys action operation changed, command = .write name keys action ∧
        action.operation? workspace = some operation ∧
        Operation.Effect workspace.heap
          (((action.ready workspace).root name).endpoint workspace.heap keys) operation
          (workspace.step command).heap changed) ∨
      workspace.heap.Renews (command.arena? workspace) (workspace.step command).heap := by
  cases command with
  | write name keys action =>
    rw [step]
    cases found : action.operation? workspace with
    | some operation =>
      rw [Action.heap_run_of_some found]
      exact .inl ⟨name, keys, action, operation, _, rfl, found, operation.effect_run _ _⟩
    | none =>
      rw [Action.heap_run_of_none found]
      exact .inr (.refl _ _)
  | _ => exact .inr (workspace.renews_step fun _ _ _ absurd => by cases absurd)

end Workspace

end JsonOverlay
