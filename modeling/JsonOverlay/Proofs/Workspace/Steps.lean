/-
This file says where what a name holds after a command comes from. It was held under the name
before, and its root value has evolved; or the command was given it, as an operand or as a
document that is taken; or it is a document that was made just now.
-/

import JsonOverlay.Proofs.Workspace.Evolution

namespace JsonOverlay

/-! ### New documents -/

namespace Document

/-- A document that was made just now is attached to the root of an arena of its own, if that
is still there. -/
structure Fresh (before after : Heap) (document : Document) : Prop where
  new : before.arenas.size ≤ document.arena.index
  made : document.arena.index < after.arenas.size
  root : ∃ tree, document.root = .attached ⟨document.arena, (Arena.empty.store tree).1⟩ ∧
    ∀ arena, after.arena? document.arena = some arena → arena = .ofTree tree

variable {before between after heap : Heap} {document : Document}

theorem fresh_ofTree (size : before.arenas.size ≤ heap.arenas.size) (tree : Tree) :
    (ofTree heap tree).2.Fresh before (ofTree heap tree).1 := by
  refine ⟨size, (Nat.lt_succ_self _).trans_eq (size_ofTree heap tree).symm, tree, rfl,
    fun arena found => ?_⟩
  have added := (Heap.arena?_add heap (.ofTree tree) (ofTree heap tree).2.arena).trans (if_pos rfl)
  exact (Option.some.inj (added.symm.trans found)).symm

theorem Fresh.drop (fresh : document.Fresh before after) (id : ArenaId) :
    document.Fresh before (after.drop id) := by
  obtain ⟨tree, root, arenas⟩ := fresh.root
  refine ⟨fresh.new, fresh.made.trans_eq (Heap.size_drop after id).symm, tree, root,
    fun arena found => arenas arena ?_⟩
  rw [Heap.arena?_drop] at found
  split at found
  · cases found
  · exact found

theorem Fresh.hold {workspace : Workspace} (fresh : document.Fresh before workspace.heap)
    (name : String) (holding : Holding) :
    document.Fresh before (workspace.hold name holding).heap := by
  show document.Fresh before (workspace.drop name).heap
  rw [Workspace.heap_drop]
  cases workspace.document? name with
  | none => exact fresh
  | some other => exact fresh.drop other.arena

theorem fresh_install (size : before.arenas.size ≤ heap.arenas.size) (document : Document)
    (parsed : Except Error Tree) :
    (document.install heap parsed).2.Fresh before (document.install heap parsed).1 := by
  cases parsed with
  | ok tree => exact (fresh_ofTree size tree).drop document.arena
  | error error =>
    have fresh := (fresh_ofTree size .null).drop document.arena
    exact ⟨fresh.new, fresh.made, fresh.root⟩

end Document

/-! ### What a command puts there -/

/-- What a command puts under a name: an operand, or a document that is taken. -/
def Command.gift? (workspace : Workspace) (name : String) : Command → Option Holding
  | take source target =>
    if name = target then (workspace.document? source).map Holding.document else none
  | keep target operand =>
    if name = target then some (.value (operand.evaluate workspace).2) else none
  | write target _ action =>
    if name = target then
      action.operand?.map fun operand => .value (operand.evaluate workspace).2
    else none
  | _ => none

namespace Action

/-- What an action does at the end of a path. Where it assigns along a pointer, that may be done
further down. -/
def Changes (workspace : Workspace) (name : String) (keys : List ChildKey) (action : Action)
    (value after : Value) : Prop :=
  (∃ operation, action.operation? workspace = some operation ∧
    value = ((action.ready workspace).root name).endpoint workspace.heap keys ∧
    after = (operation.run workspace.heap value).value) ∨
  ∃ pointer operand, action = assignAt pointer operand ∧ after = (operand.evaluate workspace).2

variable {workspace : Workspace} {name target : String} {keys : List ChildKey}

theorem evolves_ready {change : Value → Value → Prop} (workspace : Workspace) (action : Action)
    (moved : action.operand?.any Operand.moves = true → ∀ value, change value Value.null) :
    workspace.Evolves workspace.heap change name (action.ready workspace) := by
  refine ready_of_evaluate (Workspace.evolves_of_holding?_eq rfl) fun operand given => ?_
  rw [given] at moved
  exact operand.evolves_evaluate workspace moved

theorem evolves_run {change : Value → Value → Prop} (action : Action)
    (moved : action.operand?.any Operand.moves = true → ∀ value, change value Value.null)
    (changes : name = target → ∀ value after, action.Changes workspace target keys value after →
      change value after) :
    workspace.Evolves workspace.heap change name (action.run workspace target keys) := by
  rcases action.operation?_cases workspace with ⟨operation, found⟩ | rfl | ⟨pointer, operand, rfl⟩
  · rw [run_eq_perform found]
    have same := action.heap_ready workspace
    have edited : (action.ready workspace).Evolves (action.ready workspace).heap change name
        ((action.ready workspace).perform target keys operation).1 :=
      Workspace.evolves_edit fun equal => .change (changes equal _ _
        (.inl ⟨operation, found, by rw [same], by rw [same]⟩))
    rw [same] at edited
    exact (action.evolves_ready workspace moved).trans edited
  · exact Workspace.evolves_edit fun _ => .refl
  · have same := operand.heap_evaluate workspace
    have edited : (operand.evaluate workspace).1.Evolves (operand.evaluate workspace).1.heap
        change name ((assignAt pointer operand).run workspace target keys) :=
      Workspace.evolves_edit fun equal => Value.evolves_pointer_edit
        (fun value => .change (changes equal value _ (.inr ⟨pointer, operand, rfl, rfl⟩))) _ _
    rw [same] at edited
    exact (operand.evolves_evaluate workspace moved).trans edited

end Action

/-! ### Commands -/

/-- What a command does to the values below a name, but for lookups. -/
def Command.Changes (workspace : Workspace) (name : String) (command : Command)
    (value after : Value) : Prop :=
  match command with
  | keep _ operand => operand.moves = true ∧ after = Value.null
  | write target keys action =>
    (action.operand?.any Operand.moves = true ∧ after = Value.null) ∨
      (name = target ∧ action.Changes workspace target keys value after)
  | _ => False

/-- Where what a name holds after a command comes from. -/
inductive Holding.Comes (workspace : Workspace) (command : Command) (name : String) :
    Holding → Prop where
  | kept {old holding : Holding} (held : workspace.holding? name = some old)
      (evolves : old.Evolves workspace.heap (command.Changes workspace name) holding) :
      Comes workspace command name holding
  | given {holding : Holding} (gift : command.gift? workspace name = some holding)
      (still : ∀ target keys action, command ≠ .write target keys action) :
      Comes workspace command name holding
  | fresh {document : Document}
      (fresh : document.Fresh workspace.heap (workspace.step command).heap) :
      Comes workspace command name (.document document)
  | allocator {allocator : Allocator} : Comes workspace command name (.allocator allocator)

namespace Workspace

variable {workspace after : Workspace} {name : String} {command : Command} {holding : Holding}

theorem Evolves.comes
    (evolves : workspace.Evolves workspace.heap (command.Changes workspace name) name after)
    (held : after.holding? name = some holding) : holding.Comes workspace command name := by
  rw [Evolves, held] at evolves
  revert evolves
  cases before : workspace.holding? name with
  | none =>
    intro evolves
    cases evolves
  | some old =>
    intro evolves
    cases evolves with
    | some evolved => exact .kept before evolved

theorem comes_of_holding? (held : workspace.holding? name = some holding) :
    holding.Comes workspace command name :=
  .kept held (.refl holding)

theorem comes_install {target : String} {parsed : Except Error Tree}
    (same : workspace.step command = workspace.install target parsed)
    (held : (workspace.step command).holding? name = some holding) :
    holding.Comes workspace command name := by
  by_cases here : name = target
  · subst here
    rw [same] at held
    have fresh (document : Document) (equal : holding = .document document)
        (fresh : document.Fresh workspace.heap (workspace.install name parsed).heap) :
        holding.Comes workspace command name := by
      rw [← same] at fresh
      exact equal ▸ .fresh fresh
    unfold install at held fresh
    generalize made : (if (workspace.document? name).isSome then workspace
      else workspace.newDocument name) = ready at held fresh
    have grown : workspace.heap.arenas.size ≤ ready.heap.arenas.size := by
      rw [← made]
      split
      · exact Nat.le_refl _
      · unfold newDocument
        rw [size_hold]
        exact (Nat.le_succ _).trans_eq (Document.size_ofTree workspace.heap .null).symm
    have ready : ∃ document, ready.document? name = some document := by
      rw [← made]
      split
      · exact Option.isSome_iff_exists.mp (by assumption)
      · unfold newDocument
        exact ⟨_, document?_hold _ name _⟩
    obtain ⟨document, found⟩ := ready
    simp only [found] at held fresh
    rw [holding?_hold, if_pos rfl] at held
    exact fresh _ (Option.some.inj held).symm ((Document.fresh_install grown document parsed).hold _ _)
  · rw [same, holding?_install here] at held
    exact comes_of_holding? held

theorem comes_take {source target : String}
    (held : (workspace.step (.take source target)).holding? name = some holding) :
    holding.Comes workspace (.take source target) name := by
  cases given : workspace.document? source with
  | none =>
    have same : workspace.step (.take source target) = workspace := by
      rw [step, take, given]
    exact comes_of_holding? (same ▸ held)
  | some document =>
    have taken : workspace.step (.take source target) =
        (({ workspace.withdraw source with heap := (document.take workspace.heap).1 } :
          Workspace).hold source (.document (document.take workspace.heap).2.2)).hold target
            (.document document) := by
      rw [step, take, given]
      rfl
    by_cases here : name = target
    · rw [taken, holding?_hold, if_pos here] at held
      refine .given ?_ fun _ _ _ absurd => by cases absurd
      rw [Command.gift?, if_pos here, given]
      exact held
    · by_cases left : name = source
      · rw [taken, holding?_hold, if_neg here, holding?_hold, if_pos left] at held
        cases held
        refine .fresh ?_
        rw [taken]
        have fresh : (document.take workspace.heap).2.2.Fresh workspace.heap
            ({ workspace.withdraw source with heap := (document.take workspace.heap).1 } :
              Workspace).heap := Document.fresh_ofTree (Nat.le_refl _) .null
        exact (fresh.hold _ _).hold _ _
      · exact comes_of_holding? ((holding?_take left here).symm.trans held)

theorem comes_duplicate {source target : String}
    (held : (workspace.step (.duplicate source target)).holding? name = some holding) :
    holding.Comes workspace (.duplicate source target) name := by
  by_cases here : name = target
  · subst here
    cases given : workspace.document? source with
    | none =>
      have same : workspace.step (.duplicate source name) = workspace := by
        rw [step, duplicate, given]
      exact comes_of_holding? (same ▸ held)
    | some document =>
      have copied : workspace.step (.duplicate source name) =
          ({ workspace with heap := (document.duplicate workspace.heap).1 } : Workspace).hold name
            (.document (document.duplicate workspace.heap).2) := by
        rw [step, duplicate, given]
      rw [copied, holding?_hold, if_pos rfl] at held
      cases held
      refine .fresh ?_
      rw [copied]
      have fresh := Document.fresh_ofTree (Nat.le_refl workspace.heap.arenas.size)
        (document.root.visible workspace.heap)
      have copy : (document.duplicate workspace.heap).2.Fresh workspace.heap
          ({ workspace with heap := (document.duplicate workspace.heap).1 } : Workspace).heap :=
        ⟨fresh.new, fresh.made, fresh.root⟩
      exact copy.hold _ _
  · exact comes_of_holding? ((holding?_duplicate here).symm.trans held)

/-- What a name holds after a command was held before, was given, or is new. -/
theorem comes_step (held : (workspace.step command).holding? name = some holding) :
    holding.Comes workspace command name := by
  cases command with
  | newDocument target =>
    by_cases here : name = target
    · subst here
      have found := (holding?_hold _ name _ name).symm.trans held
      rw [if_pos rfl] at found
      cases found
      exact .fresh ((Document.fresh_ofTree (Nat.le_refl _) .null).hold name _)
    · exact comes_of_holding? ((holding?_newDocument here).symm.trans held)
  | parse target options text => exact comes_install rfl held
  | parseStream target options stream => exact comes_install rfl held
  | take source target => exact comes_take held
  | duplicate source target => exact comes_duplicate held
  | drop target =>
    rw [step, holding?_drop] at held
    split at held
    · cases held
    · exact comes_of_holding? held
  | keepAllocator source target =>
    rw [step, holding?_hold] at held
    split at held
    · cases held
      exact .allocator
    · exact comes_of_holding? held
  | keep target operand =>
    have before := (holding?_hold (operand.evaluate workspace).1 target
      (.value (operand.evaluate workspace).2) name).symm.trans held
    split at before
    · rename_i same
      exact .given ((if_pos same).trans before) fun _ _ _ absurd => by cases absurd
    · exact (operand.evolves_evaluate workspace fun moved _ => ⟨moved, rfl⟩).comes before
  | read place => exact (workspace.evolves_refer place).comes held
  | look target reference keys =>
    exact (evolves_setRoot fun _ => Value.evolves_writeAt fun found _ =>
      Value.evolves_foldl_look found keys).comes held
  | follow place pointer =>
    exact (workspace.evolves_visit place fun value => Value.evolves_pointer_read value _).comes held
  | write target keys action =>
    exact (action.evolves_run (fun moved _ => .inl ⟨moved, rfl⟩)
      fun same value after changes => .inr ⟨same, changes⟩).comes held

end Workspace

end JsonOverlay
