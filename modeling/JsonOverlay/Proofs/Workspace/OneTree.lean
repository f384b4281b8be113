/-
This file shows that the arena of every document is exactly one tree, whatever a program
does. New documents are made from trees, and everything else that a program does to the heap
it does through operations on values, after which every arena goes on from the one before.
-/

import JsonOverlay.Proofs.Value.Attached
import JsonOverlay.Proofs.Workspace.Actions

namespace JsonOverlay

/-! ### Documents -/

namespace Document

theorem follows_ofTree (heap : Heap) (tree : Tree) : heap.Follows (ofTree heap tree).1 := by
  refine Heap.follows_add heap fun room => ?_
  obtain ⟨layout, -, -, rooted⟩ := Arena.rooted_store_empty tree room
  exact ⟨layout, rooted⟩

theorem follows_install (document : Document) (heap : Heap) (parsed : Except Error Tree) :
    heap.Follows (document.install heap parsed).1 := by
  refine Heap.Follows.trans ?_ (Heap.follows_drop _ document.arena)
  cases parsed with
  | error error => exact follows_ofTree heap .null
  | ok tree => exact follows_ofTree heap tree

end Document

namespace Workspace

variable {workspace : Workspace}

/-! ### Names -/

theorem heap_drop (workspace : Workspace) (name : String) :
    (workspace.drop name).heap = match workspace.document? name with
      | some document => document.drop workspace.heap
      | none => workspace.heap := rfl

theorem follows_drop (workspace : Workspace) (name : String) :
    workspace.heap.Follows (workspace.drop name).heap := by
  rw [heap_drop]
  cases workspace.document? name with
  | none => exact Heap.Follows.refl _
  | some document => exact Heap.follows_drop _ document.arena

theorem follows_hold (workspace : Workspace) (name : String) (holding : Holding) :
    workspace.heap.Follows (workspace.hold name holding).heap :=
  workspace.follows_drop name

theorem follows_newDocument (workspace : Workspace) (name : String) :
    workspace.heap.Follows (workspace.newDocument name).heap :=
  (Document.follows_ofTree workspace.heap .null).trans (follows_hold _ name _)

theorem follows_install (workspace : Workspace) (name : String) (parsed : Except Error Tree) :
    workspace.heap.Follows (workspace.install name parsed).heap := by
  unfold install
  generalize made : (if (workspace.document? name).isSome then workspace
    else workspace.newDocument name) = ready
  have early : workspace.heap.Follows ready.heap := by
    rw [← made]
    split
    · exact Heap.Follows.refl _
    · exact workspace.follows_newDocument name
  refine early.trans ?_
  cases held : ready.document? name with
  | none =>
    simp only [held]
    exact Heap.Follows.refl _
  | some document =>
    simp only [held]
    exact (document.follows_install _ parsed).trans (follows_hold _ name _)

theorem follows_take (workspace : Workspace) (name target : String) :
    workspace.heap.Follows (workspace.take name target).heap := by
  unfold take
  split
  · exact Heap.Follows.refl _
  · refine (Document.follows_ofTree workspace.heap .null).trans ?_
    exact (follows_hold _ name _).trans (follows_hold _ target _)

theorem follows_duplicate (workspace : Workspace) (name target : String) :
    workspace.heap.Follows (workspace.duplicate name target).heap := by
  unfold duplicate
  split
  · exact Heap.Follows.refl _
  · exact (Document.follows_ofTree workspace.heap _).trans (follows_hold _ target _)

/-! ### Operations -/

theorem touched_perform (workspace : Workspace) (name : String) (keys : List ChildKey)
    (operation : Operation) :
    workspace.heap.Touched (workspace.perform name keys operation).1.heap := by
  rw [perform, heap_edit]
  exact operation.touched_run _ _

end Workspace

theorem Action.touched_run (workspace : Workspace) (name : String) (keys : List ChildKey)
    (action : Action) : workspace.heap.Touched (action.run workspace name keys).heap := by
  cases found : action.operation? workspace with
  | some operation =>
    rw [heap_run_of_some found]
    exact operation.touched_run _ _
  | none =>
    rw [heap_run_of_none found]
    exact .nothing

/-! ### Programs -/

namespace Workspace

variable {workspace : Workspace}

theorem follows_step (workspace : Workspace) (command : Command) :
    workspace.heap.Follows (workspace.step command).heap := by
  cases command with
  | newDocument name => exact workspace.follows_newDocument name
  | parse name options text => exact workspace.follows_install name _
  | parseStream name options stream => exact workspace.follows_install name _
  | take name target => exact workspace.follows_take name target
  | duplicate name target => exact workspace.follows_duplicate name target
  | drop name => exact workspace.follows_drop name
  | keepAllocator name target => exact workspace.follows_hold target _
  | keep name operand =>
    have kept := (operand.evaluate workspace).1.follows_hold name
      (.value (operand.evaluate workspace).2)
    rwa [operand.heap_evaluate] at kept
  | read place => exact Heap.Follows.refl _
  | look name reference keys => exact Heap.Follows.refl _
  | follow place pointer =>
    rw [step, heap_visit]
    exact Heap.Follows.refl _
  | write name keys action => exact (action.touched_run workspace name keys).follows

theorem follows_run (workspace : Workspace) (program : List Command) :
    workspace.heap.Follows (workspace.run program).heap := by
  induction program generalizing workspace with
  | nil => exact Heap.Follows.refl _
  | cons command rest inductionHypothesis =>
    exact (workspace.follows_step command).trans (inductionHypothesis _)

/-- A program goes on from a workspace that a program led to. -/
theorem Reachable.run (reachable : workspace.Reachable) (program : List Command) :
    (workspace.run program).Reachable := by
  obtain ⟨before, rfl⟩ := reachable
  exact ⟨before ++ program, List.foldl_append.symm⟩

/-- In every workspace that a program leads to, every arena whose slots can be told apart has
one layout. -/
theorem Reachable.exists_rooted (reachable : workspace.Reachable) {id : ArenaId} {arena : Arena}
    (found : workspace.heap.arena? id = some arena) (room : arena.slots.size ≤ Arena.slotLimit) :
    ∃ layout, arena.Rooted layout := by
  obtain ⟨program, rfl⟩ := reachable
  rcases follows_run empty program id arena found with ⟨old, present, -⟩ | oneTree
  · have none : (empty : Workspace).heap.arena? id = none := rfl
    rw [none] at present
    cases present
  · exact oneTree room

/-- In every workspace that a program leads to, every arena whose slots can be told apart is
exactly one tree, and the nodes that a document counts are the values of that tree. -/
theorem Reachable.exists_isTree (reachable : workspace.Reachable) {id : ArenaId} {arena : Arena}
    (found : workspace.heap.arena? id = some arena)
    (room : arena.slots.size ≤ Arena.slotLimit) :
    ∃ root, arena.IsTree root ∧
      Allocator.nodeCount ⟨some id⟩ workspace.heap = (workspace.heap.tree ⟨id, root⟩).count := by
  obtain ⟨layout, rooted⟩ := reachable.exists_rooted found room
  refine ⟨layout.id, rooted.isTree, ?_⟩
  rw [Allocator.nodeCount, Option.bind_some, found, Heap.tree, found]
  exact rooted.isTree.live_eq

/-- In every workspace that a program leads to, there is a layout under every live node. -/
theorem Reachable.exists_layout (reachable : workspace.Reachable) {reference : NodeRef}
    (live : workspace.heap.node? reference ≠ none) (room : workspace.heap.HasRoom reference.arena) :
    ∃ layout, layout.id = reference.node ∧ workspace.heap.Holds reference.arena layout := by
  obtain ⟨node, found⟩ := Option.ne_none_iff_exists'.mp live
  obtain ⟨arena, present, there⟩ := Option.bind_eq_some_iff.mp found
  obtain ⟨whole, rooted⟩ := reachable.exists_rooted present (room arena present)
  obtain ⟨layout, within, same⟩ := Layout.exists_within_of_mem_ids
    (rooted.complete reference.node (Arena.contains_iff.mpr ⟨node, there⟩))
  exact ⟨layout, same, arena, present, rooted.sound, within.holds rooted.holds,
    within.nodup rooted.distinct⟩

/-- A copied handle adds to a document, and the document then takes in a copy of itself. -/
def handleProgram : List Command :=
  [.newDocument "d", .write "d" [] (.set (.object [])), .keep "h" (.duplicate ⟨"d", []⟩),
    .write "h" [] (.addMember "a" (.tree (.array [.null])) "d"),
    .write "d" [.member "a"] (.pushBack (.deepCopy ⟨"d", []⟩) "d")]

theorem exists_isTree_handleProgram :
    ∃ arena, (empty.run handleProgram).heap.arena? ⟨0⟩ = some arena ∧ arena.slots.size = 6 ∧
      ∃ root, arena.IsTree root ∧ Allocator.nodeCount ⟨some ⟨0⟩⟩ (empty.run handleProgram).heap =
        ((empty.run handleProgram).heap.tree ⟨⟨0⟩, root⟩).count := by
  have size : ((empty.run handleProgram).heap.arena? ⟨0⟩).map (fun arena => arena.slots.size) =
      some 6 := by decide
  obtain ⟨arena, found, slots⟩ := Option.map_eq_some_iff.mp size
  exact ⟨arena, found, slots, Reachable.exists_isTree ⟨_, rfl⟩ found (by rw [slots]; decide)⟩

end Workspace

end JsonOverlay
