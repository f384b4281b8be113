/-
This file shows that copies are faithful and that they last. A detached copy has no handles,
so nothing that is done elsewhere reaches it. A copy of a document has an arena of its own:
work on that arena goes unnoticed by everything else, and work elsewhere by the copy, until a
handle that leads from the one into the other is put in.
-/

import JsonOverlay.Proofs.Document
import JsonOverlay.Proofs.Value.Handles
import JsonOverlay.Proofs.Workspace.Closed
import JsonOverlay.Proofs.Workspace.Effects

namespace JsonOverlay.Workspace

variable {workspace after : Workspace} {name target : String} {id : ArenaId}
  {into : ArenaId → Prop} {document : Document} {command : Command} {program : List Command}

/-! ### What names show -/

/-- The tree that a name shows. -/
def shown (workspace : Workspace) (name : String) : Tree :=
  (workspace.root name).visible workspace.heap

/-- The number of nodes of the document that a name holds. -/
def nodeCount? (workspace : Workspace) (name : String) : Option Nat :=
  (workspace.document? name).map fun document => document.nodeCount workspace.heap

/-- Two workspaces show the same under a name, with the same number of nodes. -/
def ShowsSame (before after : Workspace) (name : String) : Prop :=
  after.shown name = before.shown name ∧ after.nodeCount? name = before.nodeCount? name

/-- What a name shows depends only on the arenas that its handles lead into. -/
theorem Has.showsSame (has : workspace.Has (Value.Leads into) into name)
    (same : after.holding? name = workspace.holding? name)
    (arenas : ∀ id, into id → after.heap.arena? id = workspace.heap.arena? id) :
    workspace.ShowsSame after name := by
  refine ⟨?_, ?_⟩
  · rw [shown, shown, root_eq_of_holding?_eq same]
    exact (has.root (Value.closed_leads into).null).visible_congr arenas
  · rw [nodeCount?, nodeCount?, document?_eq_of_holding?_eq same]
    refine Option.map_congr fun document held => ?_
    have inside : into document.arena := (has.of_document? held).1
    simp only [Document.nodeCount, Allocator.nodeCount, Document.allocator, Option.bind_some,
      arenas _ inside]

/-! ### Arenas that were made -/

/-- Handles lead into arenas that were made, and documents have such arenas. -/
def Made (workspace : Workspace) : Prop :=
  ∀ name, workspace.Has (Value.Leads fun id => id.index < workspace.heap.arenas.size)
    (fun id => id.index < workspace.heap.arenas.size) name

theorem Has.mono {wider : ArenaId → Prop} (has : workspace.Has (Value.Leads into) into name)
    (inside : ∀ id, into id → wider id) : workspace.Has (Value.Leads wider) wider name := by
  intro holding held
  have known := has holding held
  cases holding with
  | document held => exact ⟨inside _ known.1, known.2.mono inside⟩
  | value held => exact Value.Leads.mono known inside
  | allocator held => trivial

theorem Has.and {wider : ArenaId → Prop} (first : workspace.Has (Value.Leads into) into name)
    (second : workspace.Has (Value.Leads wider) wider name) :
    workspace.Has (Value.Leads fun id => into id ∧ wider id) (fun id => into id ∧ wider id)
      name := by
  intro holding held
  have left := first holding held
  have right := second holding held
  cases holding with
  | document held => exact ⟨⟨left.1, right.1⟩, left.2.and right.2⟩
  | value held => exact Value.Leads.and left right
  | allocator held => trivial

theorem Made.step (made : workspace.Made) (command : Command) :
    (workspace.step command).Made := by
  intro name
  have grown := (workspace.sameBut_step command).size_le
  have wider (name : String) : workspace.Has
      (Value.Leads fun id => id.index < (workspace.step command).heap.arenas.size)
      (fun id => id.index < (workspace.step command).heap.arenas.size) name :=
    (made name).mono fun _ bound => bound.trans_le grown
  refine (wider name).step (Value.closed_leads _) (fun _ => has_gift? (Value.closed_leads _) wider)
    fun _ _ fresh => fresh.has fresh.made fun _ => Value.leads_attached fresh.made

theorem Reachable.made (reachable : workspace.Reachable) : workspace.Made := by
  obtain ⟨program, rfl⟩ := reachable
  have run (start : Workspace) (made : start.Made) : (start.run program).Made := by
    induction program generalizing start with
    | nil => exact made
    | cons command rest inductionHypothesis => exact inductionHypothesis _ (made.step command)
  exact run empty fun _ _ held => by cases held

/-! ### Work elsewhere -/

/-- A name holds no document in an arena and no handle into it. -/
def Avoids (workspace : Workspace) (id : ArenaId) (name : String) : Prop :=
  workspace.Has (Value.Avoids · id) (· ≠ id) name

/-- A program brings nothing of an arena to a name: nothing that is put there has a handle
into the arena, and no document there comes to have it. -/
def Spares (id : ArenaId) (name : String) (workspace : Workspace) : List Command → Prop
  | [] => True
  | command :: rest =>
    (∀ holding, command.gift? workspace name = some holding →
      holding.Has (Value.Avoids · id) (· ≠ id)) ∧
    (workspace.step command).documentArena? name ≠ some id ∧
    Spares id name (workspace.step command) rest

theorem Avoids.step (avoids : workspace.Avoids id name)
    (given : ∀ holding, command.gift? workspace name = some holding →
      holding.Has (Value.Avoids · id) (· ≠ id))
    (other : (workspace.step command).documentArena? name ≠ some id) :
    (workspace.step command).Avoids id name := by
  refine Has.step avoids (Value.closed_leads _) given fun document held fresh => ?_
  have different : document.arena ≠ id := by
    rintro rfl
    exact other (by rw [documentArena?, held]; rfl)
  exact fresh.has different fun _ => Value.leads_attached different

theorem Avoids.run (avoids : workspace.Avoids id name) (spares : Spares id name workspace program) :
    (workspace.run program).Avoids id name := by
  induction program generalizing workspace with
  | nil => exact avoids
  | cons command rest inductionHypothesis =>
    obtain ⟨given, other, later⟩ := spares
    exact inductionHypothesis (avoids.step given other) later

/-- A command that does not use a name goes unnoticed there unless it changes or releases an
arena into which there is a handle. -/
theorem Reachable.showsSame_step (reachable : workspace.Reachable) (unused : name ∉ command.uses)
    (avoids : ∀ id, command.arena? workspace = some id → workspace.Avoids id name) :
    workspace.ShowsSame (workspace.step command) name := by
  have elsewhere := (workspace.sameBut_step command).arena?_eq
  have same : (workspace.step command).holding? name = workspace.holding? name :=
    holding?_step unused
  have made := reachable.made name
  cases place : command.arena? workspace with
  | none =>
    refine made.showsSame same fun id bound => elsewhere id bound ?_
    rw [place]
    exact (Option.some_ne_none id).symm
  | some changed =>
    refine (made.and (avoids changed place)).showsSame same fun id inside => ?_
    refine elsewhere id inside.1 fun equal => inside.2 ?_
    rw [place] at equal
    exact (Option.some.inj equal).symm

/-- Whatever a program does that brings nothing of an arena to a name, afterwards any command
that does not use the name and changes or releases no other arena goes unnoticed there. -/
def Shielded (workspace : Workspace) (id : ArenaId) (name : String) : Prop :=
  ∀ program, Spares id name workspace program → ∀ command, name ∉ command.uses →
    (∀ place, command.arena? (workspace.run program) = some place → place = id) →
      (workspace.run program).ShowsSame ((workspace.run program).step command) name

theorem Reachable.shielded (reachable : workspace.Reachable) (avoids : workspace.Avoids id name) :
    workspace.Shielded id name := by
  intro program spares command unused only
  refine (reachable.run program).showsSame_step unused fun place changed => ?_
  rw [only place changed]
  exact avoids.run spares

/-! ### Copies of documents -/

/-- What it means that a document was copied and a name holds the copy. -/
structure Copied (workspace : Workspace) (name target : String) (document copy : Document)
    (heap : Heap) : Prop where
  /-- The copy is made first and then held. -/
  step_eq : workspace.step (.duplicate name target) =
    ({ workspace with heap } : Workspace).hold target (.document copy)
  /-- Making it goes unnoticed. -/
  showsSame : ∀ other, workspace.ShowsSame { workspace with heap } other
  /-- The copy is attached to an arena that was not there before. -/
  attached : ∃ node, copy.root = .attached ⟨copy.arena, node⟩
  new : copy.arena = ⟨workspace.heap.arenas.size⟩
  document? : (workspace.step (.duplicate name target)).document? target = some copy
  /-- It shows what the document shows and has one node for each value. -/
  shown : (workspace.shown name).count ≤ Arena.slotLimit →
    (workspace.step (.duplicate name target)).shown target = workspace.shown name
  nodeCount? : (workspace.step (.duplicate name target)).nodeCount? target =
    some (workspace.shown name).count
  parseError : copy.parseError = document.parseError
  /-- Work on other arenas goes unnoticed by the copy. -/
  shielded : ∀ id, id ≠ copy.arena →
    (workspace.step (.duplicate name target)).Shielded id target
  /-- Work on the arena of the copy goes unnoticed by everything else. -/
  others : ∀ other, other ≠ target →
    (workspace.step (.duplicate name target)).Shielded copy.arena other

/-- An arena that was made is not the next one. -/
theorem ne_of_made (bound : id.index < workspace.heap.arenas.size) :
    id ≠ ⟨workspace.heap.arenas.size⟩ := by
  rintro rfl
  exact Nat.lt_irrefl _ bound

/-- A copy of a document that was just put under a name shows what the document shows. -/
theorem Made.showsSame_copy (made : workspace.Made) (document : Document) (target : String) :
    ((document.root.visible workspace.heap).count ≤ Arena.slotLimit →
      (({ workspace with heap := (document.duplicate workspace.heap).1 } : Workspace).hold target
        (.document (document.duplicate workspace.heap).2)).shown target =
      document.root.visible workspace.heap) ∧
    (({ workspace with heap := (document.duplicate workspace.heap).1 } : Workspace).hold target
        (.document (document.duplicate workspace.heap).2)).nodeCount? target =
      some (document.root.visible workspace.heap).count := by
  generalize extended : (document.duplicate workspace.heap).1 = heap
  generalize made' : (document.duplicate workspace.heap).2 = copy
  have place : copy.arena = ⟨workspace.heap.arenas.size⟩ := by
    rw [← made']
    rfl
  -- The copy under the name, before what the name held is released.
  generalize later : ({ workspace with heap } : Workspace).hold target (.document copy) = after
  have held : after.document? target = some copy := by
    rw [← later, document?_hold]
  have early : ({ after with heap } : Workspace).document? target = some copy := held
  have between : ({ after with heap } : Workspace).Has (Value.Leads (· = copy.arena))
      (· = copy.arena) target := by
    intro holding found
    rw [holding?_of_document? early] at found
    cases found
    exact ⟨rfl, by rw [← made']; exact Value.leads_attached rfl⟩
  have same : ({ after with heap } : Workspace).ShowsSame after target := by
    refine between.showsSame rfl fun id equal => ?_
    have released : heap.Renews (workspace.documentArena? target) after.heap := by
      have start : heap.Renews (workspace.documentArena? target)
        ({ workspace with heap } : Workspace).heap := .refl _ _
      rw [← later]
      exact start.hold (fun _ held => .inl held) _
    refine released.arena?_eq id ?_ fun old => ?_
    · rw [equal, place, ← extended]
      exact (Nat.lt_succ_self _).trans_eq (Document.size_ofTree _ _).symm
    · obtain ⟨before, found, arena⟩ := Option.map_eq_some_iff.mp old
      have bound := ((made target).of_document? found).1
      rw [arena, equal] at bound
      exact ne_of_made bound place
  refine ⟨fun room => same.1.trans ?_, same.2.trans ?_⟩
  · rw [shown, root_of_document? early, ← made', ← extended]
    exact Document.visible_root_ofTree workspace.heap room
  · rw [nodeCount?, early, Option.map_some, ← made', ← extended]
    exact congrArg some (Document.nodeCount_ofTree workspace.heap _)

theorem Reachable.copied (reachable : workspace.Reachable)
    (held : workspace.document? name = some document) (target : String) :
    workspace.Copied name target document (document.duplicate workspace.heap).2
      (document.duplicate workspace.heap).1 := by
  have made := reachable.made
  have root : workspace.shown name = document.root.visible workspace.heap := by
    rw [shown, root_of_document? held]
  have step_eq : workspace.step (.duplicate name target) =
      ({ workspace with heap := (document.duplicate workspace.heap).1 } : Workspace).hold target
        (.document (document.duplicate workspace.heap).2) := by
    simp only [step, duplicate, held]
  have copied := made.showsSame_copy document target
  have after : (workspace.step (.duplicate name target)).Reachable :=
    reachable.run [.duplicate name target]
  rw [step_eq] at after
  rw [← root] at copied
  refine ⟨step_eq, fun other => ?_, ⟨_, rfl⟩, rfl, ?_, ?_, ?_, rfl, fun id different => ?_,
    fun other different => ?_⟩
  · have added := (Heap.Renews.refl none workspace.heap).add
    exact (made other).showsSame rfl fun id bound =>
      (added _).arena?_eq id bound (Option.some_ne_none id).symm
  · rw [step_eq, document?_hold]
  · rw [step_eq]
    exact copied.1
  · rw [step_eq]
    exact copied.2
  · rw [step_eq]
    refine after.shielded fun holding found => ?_
    rw [holding?_hold, if_pos rfl] at found
    cases found
    exact ⟨different.symm, Value.leads_attached different.symm⟩
  · rw [step_eq]
    refine after.shielded ?_
    refine ((made other).mono fun id bound => ne_of_made bound).of_holding?_eq ?_
    exact (holding?_hold _ target _ other).trans (if_neg different)

/-! ### Copies -/

end JsonOverlay.Workspace
