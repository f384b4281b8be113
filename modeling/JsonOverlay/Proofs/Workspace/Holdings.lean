/-
This file follows the documents that a program holds by name. A new root value under a
name leaves the document its arena, and in every workspace that a program leads to, the
arenas of all held documents have a place in the heap. A document that was just made is
therefore not released by what its name held before.
-/

import JsonOverlay.Proofs.Content
import JsonOverlay.Proofs.Workspace.OneTree

namespace JsonOverlay

/-! ### The size of the heap -/

namespace Heap

variable {before after : Heap}

theorem Touched.size_eq (touched : Touched before after) :
    after.arenas.size = before.arenas.size := by
  cases touched with
  | nothing => rfl
  | arena => simp [put]

@[simp]
theorem size_drop (heap : Heap) (id : ArenaId) : (heap.drop id).arenas.size = heap.arenas.size := by
  simp [drop]

@[simp]
theorem size_add (heap : Heap) (arena : Arena) :
    (heap.add arena).2.arenas.size = heap.arenas.size + 1 := by
  simp [add]

end Heap

namespace Document

theorem size_ofTree (heap : Heap) (tree : Tree) :
    (ofTree heap tree).1.arenas.size = heap.arenas.size + 1 := by
  simp [ofTree]

theorem size_install (document : Document) (heap : Heap) (parsed : Except Error Tree) :
    (document.install heap parsed).1.arenas.size = heap.arenas.size + 1 := by
  cases parsed <;> simp [install, new, size_ofTree]

end Document

theorem Holding.arena_withRoot {holding : Holding} {document : Document} {root : Value}
    (same : holding.withRoot root = .document document) :
    ∃ old, holding = .document old ∧ document = { old with root } := by
  cases holding with
  | document old => exact ⟨old, rfl, (Holding.document.inj same).symm⟩
  | _ => cases same

namespace Workspace

variable {workspace : Workspace} {name : String} {document : Document}

/-! ### One document -/

theorem holding?_of_document? (held : workspace.document? name = some document) :
    workspace.holding? name = some (.document document) := by
  unfold document? at held
  split at held
  · rename_i found
    rw [found, Option.some.inj held]
  · cases held

theorem root_of_document? (held : workspace.document? name = some document) :
    workspace.root name = document.root := by
  rw [root, holding?_of_document? held]
  rfl

theorem allocator_of_document? (held : workspace.document? name = some document) :
    workspace.allocator name = ⟨some document.arena⟩ := by
  rw [allocator, holding?_of_document? held]
  rfl

theorem holding?_setRoot (workspace : Workspace) (name : String) (root : Value) :
    (workspace.setRoot name root).holding? name =
      (workspace.holding? name).map (Holding.withRoot root) := by
  have looked := lookup_map_snd (fun other (holding : Holding) =>
    if other = name then holding.withRoot root else holding) workspace.holdings name
  simp only [if_true] at looked
  exact looked

/-- A new root leaves the document its arena. -/
theorem document?_setRoot (held : workspace.document? name = some document) (root : Value) :
    (workspace.setRoot name root).document? name = some { document with root } := by
  rw [document?, holding?_setRoot, holding?_of_document? held]
  rfl

theorem document?_hold (workspace : Workspace) (name : String) (document : Document) :
    (workspace.hold name (.document document)).document? name = some document := by
  rw [document?, holding?, hold, List.lookup_cons_self]

/-! ### Names that hold values -/

/-- A name holds a value or a document, which has a root that can be changed. -/
def HoldsRoot (workspace : Workspace) (name : String) : Prop :=
  ∃ holding, workspace.holding? name = some holding ∧
    ∀ root, (holding.withRoot root).root = root

theorem HoldsRoot.root_setRoot (holds : workspace.HoldsRoot name) (root : Value) :
    (workspace.setRoot name root).root name = root := by
  obtain ⟨holding, held, changes⟩ := holds
  rw [Workspace.root, holding?_setRoot, held]
  exact changes root

theorem HoldsRoot.setRoot (holds : workspace.HoldsRoot name) (root : Value) :
    (workspace.setRoot name root).HoldsRoot name := by
  obtain ⟨holding, held, changes⟩ := holds
  refine ⟨holding.withRoot root, by rw [holding?_setRoot, held, Option.map_some], fun other => ?_⟩
  cases holding with
  | document document => rfl
  | value value => rfl
  | allocator allocator => exact changes other

/-- A name that does not hold anything, or holds an allocator, stands for null. -/
theorem holdsRoot_of_ne (solid : workspace.root name ≠ Value.null) : workspace.HoldsRoot name := by
  rw [root] at solid
  cases held : workspace.holding? name with
  | none =>
    rw [held] at solid
    exact absurd rfl solid
  | some holding =>
    refine ⟨holding, held, fun root => ?_⟩
    cases holding with
    | document document => rfl
    | value value => rfl
    | allocator allocator =>
      rw [held] at solid
      exact absurd rfl solid

/-! ### Places of documents -/

/-- Every document that is held has a place in the heap. -/
def Placed (workspace : Workspace) : Prop :=
  ∀ name document, (name, .document document) ∈ workspace.holdings →
    document.arena.index < workspace.heap.arenas.size

theorem Placed.of_document? (placed : workspace.Placed)
    (held : workspace.document? name = some document) :
    document.arena.index < workspace.heap.arenas.size :=
by
  obtain ⟨earlier, later, parts, -⟩ := List.lookup_eq_some_iff.mp (holding?_of_document? held)
  refine placed name document ?_
  rw [parts]
  exact List.mem_append_right _ List.mem_cons_self

/-! ### Programs -/

theorem Placed.of_holdings {after : Workspace} (placed : workspace.Placed)
    (holdings : after.holdings ⊆ workspace.holdings)
    (size : workspace.heap.arenas.size ≤ after.heap.arenas.size) : after.Placed :=
  fun name document held => (placed name document (holdings held)).trans_le size

theorem Placed.setRoot (placed : workspace.Placed) (name : String) (root : Value) :
    (workspace.setRoot name root).Placed := by
  intro other document held
  obtain ⟨⟨name', holding⟩, member, same⟩ := List.mem_map.mp held
  obtain ⟨rfl, changed⟩ := Prod.mk.inj same
  split at changed
  · obtain ⟨old, rfl, rfl⟩ := Holding.arena_withRoot changed
    exact placed _ old member
  · exact placed _ document (changed ▸ member)

theorem Placed.drop (placed : workspace.Placed) (name : String) : (workspace.drop name).Placed := by
  refine placed.of_holdings (fun _ member => List.mem_of_mem_filter member) ?_
  rw [heap_drop]
  cases workspace.document? name with
  | none => exact Nat.le_refl _
  | some document => exact Nat.le_of_eq (Heap.size_drop _ _).symm

theorem size_hold (workspace : Workspace) (name : String) (holding : Holding) :
    (workspace.hold name holding).heap.arenas.size = workspace.heap.arenas.size := by
  rw [hold, heap_drop]
  cases workspace.document? name with
  | none => rfl
  | some document => exact Heap.size_drop _ _

theorem Placed.hold (placed : workspace.Placed) (name : String) {holding : Holding}
    (inside : ∀ document, holding = .document document →
      document.arena.index < workspace.heap.arenas.size) :
    (workspace.hold name holding).Placed := by
  intro other document held
  rw [size_hold]
  rcases List.mem_cons.mp held with same | before
  · exact inside document (Prod.mk.inj same).2.symm
  · have bound := placed.drop name other document before
    rwa [← size_hold workspace name holding]

/-- Holding a document in an arena that the heap got just now. -/
theorem Placed.hold_new (placed : workspace.Placed) (name : String) {heap : Heap}
    (size : heap.arenas.size = workspace.heap.arenas.size + 1)
    (place : document.arena.index = workspace.heap.arenas.size) :
    (({ workspace with heap } : Workspace).hold name (.document document)).Placed := by
  have wider : ({ workspace with heap } : Workspace).Placed :=
    placed.of_holdings (fun _ member => member) (by simp only [size]; omega)
  refine wider.hold name fun other same => ?_
  cases same
  simp only [size, place]
  omega

theorem Placed.withdraw (placed : workspace.Placed) (name : String) :
    (workspace.withdraw name).Placed :=
  placed.of_holdings (fun _ member => List.mem_of_mem_filter member) (Nat.le_refl _)

theorem Placed.newDocument (placed : workspace.Placed) (name : String) :
    (workspace.newDocument name).Placed := by
  unfold Workspace.newDocument
  exact placed.hold_new name (Document.size_ofTree workspace.heap .null) rfl

theorem Placed.install (placed : workspace.Placed) (name : String) (parsed : Except Error Tree) :
    (workspace.install name parsed).Placed := by
  unfold Workspace.install
  generalize made : (if (workspace.document? name).isSome then workspace
    else workspace.newDocument name) = ready
  have early : ready.Placed := by
    rw [← made]
    split
    · exact placed
    · exact placed.newDocument name
  cases held : ready.document? name with
  | none =>
    simp only [held]
    exact early
  | some document =>
    simp only [held]
    refine (early.withdraw name).hold_new name (document.size_install ready.heap parsed) ?_
    cases parsed <;> rfl

theorem Placed.take (placed : workspace.Placed) (name target : String) :
    (workspace.take name target).Placed := by
  unfold Workspace.take
  cases held : workspace.document? name with
  | none => exact placed
  | some document =>
    have left : (({ workspace.withdraw name with
        heap := (document.take workspace.heap).1 } : Workspace).hold name
          (.document (document.take workspace.heap).2.2)).Placed :=
      (placed.withdraw name).hold_new name (Document.size_ofTree workspace.heap .null) rfl
    refine left.hold target fun other same => ?_
    cases same
    rw [size_hold]
    show document.arena.index < (Document.ofTree workspace.heap .null).1.arenas.size
    rw [Document.size_ofTree]
    exact (placed.of_document? held).trans (Nat.lt_succ_self _)

theorem Placed.duplicate (placed : workspace.Placed) (name target : String) :
    (workspace.duplicate name target).Placed := by
  unfold Workspace.duplicate
  split
  · exact placed
  · exact placed.hold_new target (Document.size_ofTree _ _) rfl

theorem Placed.edit {β : Type} {change : Heap → Value → Value.Edited β} (placed : workspace.Placed)
    (touched : ∀ value, workspace.heap.Touched (change workspace.heap value).heap) (name : String)
    (keys : List ChildKey) : (workspace.edit name keys change).1.Placed := by
  have size : ((workspace.root name).edit workspace.heap change keys).heap.arenas.size =
      workspace.heap.arenas.size := by
    rw [Value.heap_edit]
    exact (touched _).size_eq
  have kept : ({ workspace with
      heap := ((workspace.root name).edit workspace.heap change keys).heap } : Workspace).Placed :=
    placed.of_holdings (fun _ member => member) size.ge
  exact kept.setRoot name _

theorem Placed.perform (placed : workspace.Placed) (name : String) (keys : List ChildKey)
    (operation : Operation) : (workspace.perform name keys operation).1.Placed :=
  placed.edit (operation.touched_run workspace.heap) name keys

theorem Placed.refer (placed : workspace.Placed) (place : Place) :
    (workspace.refer place).1.Placed :=
  placed.setRoot place.name _

theorem Placed.visit {β : Type} (placed : workspace.Placed) (place : Place)
    (use : Value → Value × β) : (workspace.visit place use).1.Placed := by
  have looked := placed.refer place
  unfold Workspace.visit
  dsimp only
  split
  · exact looked
  · split
    · exact looked
    · exact looked.setRoot place.name _

end Workspace

namespace Operand

theorem placed_evaluate {workspace : Workspace} (placed : workspace.Placed) (operand : Operand) :
    (operand.evaluate workspace).1.Placed := by
  have keeps : Keeps (fun _ => True) Workspace.Placed :=
    { look := fun _ placed => placed.refer _
      moveOut := fun _ placed => placed.edit (fun _ => Heap.Touched.nothing) _ _ }
  exact keeps.evaluate inherited_true placed operand trivial

end Operand

namespace Workspace

variable {workspace : Workspace}

theorem Placed.ready (placed : workspace.Placed) (action : Action) :
    (action.ready workspace).Placed :=
  Action.ready_of_evaluate placed fun operand _ => operand.placed_evaluate placed

theorem Placed.act (placed : workspace.Placed) (name : String) (keys : List ChildKey)
    (action : Action) : (action.run workspace name keys).Placed := by
  rcases action.operation?_cases workspace with ⟨operation, found⟩ | rfl | ⟨pointer, operand, rfl⟩
  · rw [Action.run_eq_perform found]
    exact (placed.ready action).perform name keys operation
  · exact placed.edit (fun _ => .nothing) name keys
  · refine (operand.placed_evaluate placed).edit (fun target => ?_) name keys
    rw [Pointer.modify, Value.heap_pointer_edit fun _ => rfl]
    exact .nothing

theorem Placed.step (placed : workspace.Placed) (command : Command) :
    (workspace.step command).Placed := by
  cases command with
  | newDocument name => exact placed.newDocument name
  | parse name options text => exact placed.install name _
  | parseStream name options stream => exact placed.install name _
  | take name target => exact placed.take name target
  | duplicate name target => exact placed.duplicate name target
  | drop name => exact placed.drop name
  | keepAllocator name target => exact placed.hold target fun _ absurd => by cases absurd
  | keep name operand =>
    exact (operand.placed_evaluate placed).hold name fun _ absurd => by cases absurd
  | read place => exact placed.refer place
  | look name reference keys => exact placed.setRoot name _
  | follow place pointer => exact placed.visit place _
  | write name keys action => exact placed.act name keys action

/-- In every workspace that a program leads to, documents have places. -/
theorem Reachable.placed (reachable : workspace.Reachable) : workspace.Placed := by
  obtain ⟨program, rfl⟩ := reachable
  have run : ∀ start : Workspace, start.Placed → (start.run program).Placed := by
    induction program with
    | nil => exact fun _ placed => placed
    | cons command rest inductionHypothesis =>
      exact fun start placed => inductionHypothesis _ (placed.step command)
  exact run empty fun _ _ held => by cases held

end Workspace

end JsonOverlay
