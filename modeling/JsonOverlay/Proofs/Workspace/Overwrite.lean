/-
This file follows a child that a program wrote over through everything that the program does
afterwards. As long as nothing is written to it, above it or below it, and the documents do not
change what it shows, it is what is found and shown.
-/

import JsonOverlay.Proofs.Value.Overwrite
import JsonOverlay.Proofs.Workspace.Lookups
import JsonOverlay.Proofs.Workspace.Traced

namespace JsonOverlay

/-! ### What leaves a child alone -/

namespace Operand

mutual

/-- Coming by a value moves nothing out from the end of a path, from above it or from below. -/
def Leaves (name : String) (path : List ChildKey) : Operand → Prop
  | tree _ | duplicate _ | deepCopy _ => True
  | array items => LeavesItems name path items
  | object members => LeavesMembers name path members
  | moveOut target keys => target = name → Value.Parts (fun _ => False) keys path

def LeavesItems (name : String) (path : List ChildKey) : List Operand → Prop
  | [] => True
  | item :: rest => item.Leaves name path ∧ LeavesItems name path rest

def LeavesMembers (name : String) (path : List ChildKey) : List (String × Operand) → Prop
  | [] => True
  | (_, child) :: rest => child.Leaves name path ∧ LeavesMembers name path rest

end

end Operand

/-- An action at the end of a path for writing leaves alone what is at the end of another. -/
def Action.Leaves (workspace : Workspace) (keys path : List ChildKey) : Action → Prop
  | touch => True
  | assignAt pointer _ => Value.Parts (Value.Misses pointer.tokens) keys path
  | action => ∀ operation, action.operation? workspace = some operation →
      Value.Parts (fun path => ∃ key ∈ path.head?, operation.Spares key) keys path

/-- A command leaves alone what is at the end of a path. -/
def Command.Leaves (workspace : Workspace) (name : String) (path : List ChildKey) : Command → Prop
  | keep target operand => target ≠ name ∧ operand.Leaves name path
  | read _ | follow _ _ => True
  | look target reference _ => target = name → ∀ key rest, reference.map Prod.fst ≠ path ++ key :: rest
  | write target keys action =>
    (∀ operand, action.operand? = some operand → operand.Leaves name path) ∧
      (target = name → action.Leaves workspace keys path)
  | command => name ∉ command.uses

/-- A command goes around what is at the end of a path from a name: it leaves that alone, and the
documents go on to show the same for it. -/
structure Command.Skirts (name : String) (path : List ChildKey) (workspace : Workspace)
    (command : Command) : Prop where
  leaves : command.Leaves workspace name path
  same : ∀ child, ((workspace.step command).root name).standing? path = some child →
    child.visible (workspace.step command).heap = child.visible workspace.heap

namespace Workspace

variable {workspace : Workspace} {heap : Heap} {name target : String} {key : ChildKey}
  {path keys : List ChildKey} {shown : Tree} {root : Value}

theorem holdsRoot_of_bears (bears : (workspace.root name).Bears heap shown (key :: path)) :
    workspace.HoldsRoot name := by
  refine holdsRoot_of_ne fun null => ?_
  rw [null] at bears
  cases bears.isBlank_eq_false

theorem bears_setRoot (bears : (workspace.root name).Bears heap shown (key :: path))
    (kept : target = name → root.Bears heap shown (key :: path)) :
    ((workspace.setRoot target root).root name).Bears heap shown (key :: path) := by
  by_cases same : target = name
  · rw [same, (holdsRoot_of_bears bears).root_setRoot]
    exact kept same
  · rw [root_eq_of_holding?_eq (holding?_setRoot_of_ne (Ne.symm same) root)]
    exact bears

/-! ### Reading -/

theorem bears_refer (levelled : workspace.heap.Levelled) (keyed : (workspace.root name).Keyed)
    (bears : (workspace.root name).Bears workspace.heap shown (key :: path)) (place : Place) :
    ((workspace.refer place).1.root name).Bears workspace.heap shown (key :: path) := by
  refine bears_setRoot bears fun same => ?_
  rw [same]
  exact ((Value.lookups_read _ _ _).retains levelled keyed).bears _ _ bears

theorem bears_visit {β : Type} {use : Value → Value × β} (levelled : workspace.heap.Levelled)
    (keyed : (workspace.root name).Keyed)
    (reads : ∀ value : Value, value.Keyed → Value.Retains workspace.heap value (use value).1)
    (bears : (workspace.root name).Bears workspace.heap shown (key :: path)) (place : Place) :
    ((workspace.visit place use).1.root name).Bears workspace.heap shown (key :: path) := by
  have looked := bears_refer levelled keyed bears place
  obtain ⟨target, steps⟩ := place
  unfold visit
  dsimp only
  split
  · exact looked
  · rename_i reference answer
    split
    · exact looked
    · rename_i value means
      refine bears_setRoot looked fun same => ?_
      subst same
      have read : (workspace.refer ⟨target, steps⟩).1.root target =
          ((workspace.root target).read workspace.heap steps).1 :=
        (holdsRoot_of_bears bears).root_setRoot _
      rw [read] at means ⊢
      have keyedValue := Value.closed_keyed.at?
        (Value.closed_keyed.looked (Value.evolves_read _ steps) keyed) means
      exact (Value.retains_writeAt_read levelled keyed answer means (reads value keyedValue)).bears
        _ _ bears

/-! ### Writing -/

theorem bears_edit {β : Type} {change : Heap → Value → Value.Edited β}
    (bears : (workspace.root name).Bears heap shown (key :: path))
    (kept : target = name →
      ((workspace.root name).edit workspace.heap change keys).value.Bears heap shown (key :: path)) :
    ((workspace.edit target keys change).1.root name).Bears heap shown (key :: path) := by
  have same : ({ workspace with
      heap := ((workspace.root target).edit workspace.heap change keys).heap } : Workspace).root name =
        workspace.root name := rfl
  refine bears_setRoot (same ▸ bears) fun equal => ?_
  rw [equal]
  exact kept equal

end Workspace

namespace Operand

variable {heap : Heap} {name : String} {key : ChildKey} {path : List ChildKey} {shown : Tree}

theorem inherited_leaves (name : String) (path : List ChildKey) :
    Inherited (Leaves name path) (LeavesItems name path) (LeavesMembers name path) :=
  ⟨id, id, id, id⟩

theorem bears_evaluate (levelled : heap.Levelled) {workspace : Workspace}
    (same : workspace.heap = heap) (keyed : workspace.Has Value.Keyed (fun _ => True) name)
    (bears : (workspace.root name).Bears heap shown (key :: path)) (operand : Operand)
    (leaves : operand.Leaves name (key :: path)) :
    ((operand.evaluate workspace).1.root name).Bears heap shown (key :: path) := by
  have keeps : Keeps (Leaves name (key :: path)) fun after => after.heap = heap ∧
      after.Has Value.Keyed (fun _ => True) name ∧
        (after.root name).Bears heap shown (key :: path) := by
    constructor
    · rintro between place - ⟨rfl, keyed, bears⟩
      exact ⟨rfl, has_evaluate Value.closed_keyed keyed (.duplicate place),
        Workspace.bears_refer levelled (keyed.root Value.closed_keyed.null) bears place⟩
    · rintro between target keys leaves ⟨rfl, keyed, bears⟩
      refine ⟨Workspace.heap_edit _ _ _ _,
        has_evaluate Value.closed_keyed keyed (.moveOut target keys),
        Workspace.bears_edit bears fun equal => ?_⟩
      exact bears.edit id (leaves equal) fun _ _ absurd => absurd.elim
  exact (keeps.evaluate (inherited_leaves name _) ⟨same, keyed, bears⟩ operand leaves).2.2

end Operand

namespace Workspace

variable {workspace : Workspace} {heap : Heap} {name target : String} {key : ChildKey}
  {path keys : List ChildKey} {shown : Tree} {root : Value} {action : Action} {command : Command}

theorem bears_act (levelled : workspace.heap.Levelled)
    (keyed : workspace.Has Value.Keyed (fun _ => True) name)
    (bears : (workspace.root name).Bears workspace.heap shown (key :: path))
    (operands : ∀ operand, action.operand? = some operand → operand.Leaves name (key :: path))
    (leaves : target = name → action.Leaves workspace keys (key :: path)) :
    ((action.run workspace target keys).root name).Bears workspace.heap shown (key :: path) := by
  have ready : ((action.ready workspace).root name).Bears workspace.heap shown (key :: path) :=
    Action.ready_of_evaluate (motive := fun after =>
        (after.root name).Bears workspace.heap shown (key :: path)) bears
      fun operand given => operand.bears_evaluate levelled rfl keyed bears (operands operand given)
  rcases action.operation?_cases workspace with ⟨operation, found⟩ | rfl | ⟨pointer, operand, rfl⟩
  · rw [Action.run_eq_perform found]
    refine bears_edit ready fun same => ?_
    have parts : Value.Parts (fun path => ∃ key ∈ path.head?, operation.Spares key) keys
        (key :: path) := by
      cases action with
      | touch | assignAt => cases found
      | _ => exact leaves same operation found
    refine ready.edit ?_ parts fun value path spared inside => ?_
    · rintro ⟨_, absurd, -⟩
      cases absurd
    · obtain ⟨first, present, spares⟩ := spared
      obtain ⟨rest, rfl⟩ : ∃ rest, path = first :: rest := by
        cases path with
        | nil => cases present
        | cons other rest => exact ⟨rest, by cases present; rfl⟩
      exact inside.spared (operation.effect_run _ value) spares
  · refine bears_edit bears fun _ => ?_
    obtain ⟨after, edited, lookups⟩ :=
      Value.lookups_edit workspace.heap (workspace.root name) keys
    rw [edited]
    exact (lookups.retains levelled (keyed.root Value.closed_keyed.null)).bears _ _ bears
  · exact bears_edit ready fun same => ready.edit (fun misses => Value.Misses.ne_nil misses rfl)
      (leaves same) fun value path misses inside => inside.pointer_edit misses

/-- A command that leaves a child alone leaves it where it is. -/
theorem bears_step (levelled : workspace.heap.Levelled)
    (keyed : workspace.Has Value.Keyed (fun _ => True) name)
    (bears : (workspace.root name).Bears workspace.heap shown (key :: path))
    (leaves : command.Leaves workspace name (key :: path)) :
    ((workspace.step command).root name).Bears workspace.heap shown (key :: path) := by
  have unused (unused : name ∉ command.uses) :
      ((workspace.step command).root name).Bears workspace.heap shown (key :: path) := by
    rw [root_eq_of_holding?_eq (holding?_step unused)]
    exact bears
  have keyedRoot := keyed.root Value.closed_keyed.null
  cases command with
  | keep target operand =>
    have held : (workspace.step (.keep target operand)).holding? name =
        (operand.evaluate workspace).1.holding? name :=
      (holding?_hold _ target _ name).trans (if_neg (Ne.symm leaves.1))
    rw [root_eq_of_holding?_eq held]
    exact operand.bears_evaluate levelled rfl keyed bears leaves.2
  | read place => exact bears_refer levelled keyedRoot bears place
  | look target reference keys =>
    refine bears_setRoot bears fun same => ?_
    rw [same]
    refine bears.writeAt keyedRoot (fun value keyed => ?_) (leaves same)
    exact (Value.lookups_foldl .nothing).retains levelled keyed
  | follow place pointer =>
    exact bears_visit levelled keyedRoot
      (fun value keyed => (Value.lookups_pointer _ value _).retains levelled keyed) bears place
  | write target keys action => exact bears_act levelled keyed bears leaves.1 leaves.2
  | _ => exact unused leaves

/-- What a program goes around stays where it is and shows what it showed. -/
theorem Reachable.bears_run {program : List Command} (reachable : workspace.Reachable)
    (room : ∀ count place, (workspace.run (program.take count)).heap.HasRoom place)
    (skirts : workspace.Throughout (Command.Skirts name (key :: path)) program)
    (bears : (workspace.root name).Bears workspace.heap shown (key :: path)) :
    ((workspace.run program).root name).Bears (workspace.run program).heap shown (key :: path) := by
  induction program generalizing workspace with
  | nil => exact bears
  | cons command rest inductionHypothesis =>
    have next := bears_step (reachable.levelled (room 0)) (reachable.keyed name) bears skirts.1.leaves
    obtain ⟨child, stands, shows⟩ := Value.bears_iff.mp next
    have later := Value.bears_iff.mpr ⟨child, stands, (skirts.1.same child stands).trans shows⟩
    exact inductionHypothesis (reachable.run [command]) (fun count => room (count + 1)) skirts.2 later

/-! ### Writing over a child -/

/-- The value at the end of a path that is followed for writing from a name. -/
def endpoint (workspace : Workspace) (name : String) (keys : List ChildKey) : Value :=
  (workspace.root name).endpoint workspace.heap keys

/-- Writes over the child at a key of the value at the end of a path. -/
def overwrite (workspace : Workspace) (name : String) (keys : List ChildKey) (key : ChildKey)
    (operand : Operand) : Workspace :=
  workspace.step (.write name (keys ++ [key]) (.assign operand))

theorem heap_overwrite (workspace : Workspace) (name : String) (keys : List ChildKey)
    (key : ChildKey) (operand : Operand) :
    (workspace.overwrite name keys key operand).heap = workspace.heap := by
  have found : (Action.assign operand).operation? workspace =
      some (.assign (operand.evaluate workspace).2) := rfl
  exact Action.heap_run_of_some found

section

variable {operand : Operand} {ready : Workspace} {new : Value}

theorem endpoint_ready (given : operand.evaluate workspace = (ready, new)) (name : String)
    (keys : List ChildKey) :
    ready.endpoint name keys = (ready.root name).endpoint workspace.heap keys := by
  have same := operand.heap_evaluate workspace
  rw [given] at same
  rw [endpoint, same]

variable (given : operand.evaluate workspace = (ready, new))
  (has : (ready.endpoint name keys).HasChild workspace.heap key)
include given has

theorem root_overwrite :
    (workspace.overwrite name keys key operand).root name =
      ((ready.root name).edit workspace.heap
        (fun heap value => ⟨heap, value.overwrite heap key new, Outcome.done⟩) keys).value := by
  have heap := operand.heap_evaluate workspace
  rw [given] at heap
  have written : workspace.overwrite name keys key operand =
      (ready.perform name (keys ++ [key]) (.assign new)).1 := by
    show (Action.assign operand).run workspace name (keys ++ [key]) = _
    rw [Action.run, given]
  rw [endpoint_ready given] at has
  have root := (holdsRoot_of_ne has.ne_null).root_setRoot
    ((ready.root name).edit ready.heap (Operation.assign new).run (keys ++ [key])).value
  rw [written, ← heap]
  refine Eq.trans ?_ (root.trans (congrArg Value.Edited.value (Value.edit_append _ _ _ keys [key])))
  rfl

/-- A path for writing leads back to the value after it was written to. -/
theorem endpoint_overwrite :
    (workspace.overwrite name keys key operand).endpoint name keys =
      (ready.endpoint name keys).overwrite workspace.heap key new := by
  rw [endpoint, root_overwrite given has, endpoint_ready given]
  exact Value.endpoint_edit keys (Value.isBlank_overwrite _ _ _ _)

theorem bears_overwrite (kept : ¬ (ready.endpoint name keys).Lost key new) :
    ((workspace.overwrite name keys key operand).root name).Bears workspace.heap
      (new.visible workspace.heap) (keys ++ [key]) := by
  rw [root_overwrite given has]
  rw [endpoint_ready given] at has kept
  obtain ⟨fresh, named⟩ := has.exists_named?
  exact Value.bears_edit (Value.bears_overwrite named kept)

end

/-- Writing over a child that is there. What is written is found and shown in its place, with
everything else as it was, and that stays so while a program goes around it. The exception is a
null to which nothing was done that is written over a placeholder to which something was done
before the child was there: then the child behind is found and shown as if nothing was written. -/
theorem Reachable.overwrite_shows {operand : Operand} {ready : Workspace} {new : Value}
    (reachable : workspace.Reachable) (room : ∀ place, workspace.heap.HasRoom place)
    (given : operand.evaluate workspace = (ready, new))
    (has : (ready.endpoint name keys).HasChild workspace.heap key) :
    (¬ (ready.endpoint name keys).Lost key new →
      Value.Overwrites workspace.heap key (new.visible workspace.heap) (ready.endpoint name keys)
          ((workspace.overwrite name keys key operand).endpoint name keys) ∧
        ∀ later : List Command,
          (workspace.overwrite name keys key operand).Throughout
              (Command.Skirts name (keys ++ [key])) later →
            (∀ count place,
              ((workspace.overwrite name keys key operand).run (later.take count)).heap.HasRoom
                place) →
              (((workspace.overwrite name keys key operand).run later).endpoint name keys).Yields
                ((workspace.overwrite name keys key operand).run later).heap key
                (new.visible workspace.heap)) ∧
      ((ready.endpoint name keys).Lost key new →
        ∃ fresh, ((ready.endpoint name keys).backing workspace.heap).named? key = some fresh ∧
          Value.Overwrites workspace.heap key (fresh.visible workspace.heap)
            (ready.endpoint name keys)
            ((workspace.overwrite name keys key operand).endpoint name keys)) := by
  have keyed : (ready.endpoint name keys).Keyed ∧ new.Keyed := by
    have root := (operand.has_evaluate Value.closed_keyed (reachable.keyed name)).root
      Value.closed_keyed.null
    have new := operand.property_evaluate Value.closed_keyed reachable.keyed
    rw [given] at root new
    exact ⟨Value.closed_keyed.endpoint root ready.heap keys, new⟩
  obtain ⟨fresh, named⟩ := has.exists_named?
  have overwrites := Value.overwrites_of_named? (reachable.levelled room) keyed.1 keyed.2 named
  rw [endpoint_overwrite given has]
  constructor
  · intro kept
    rw [(Value.shownChild?_overwrite named new).2 kept] at overwrites
    refine ⟨overwrites, fun later skirts room => ?_⟩
    have bears := bears_overwrite given has kept
    rw [← heap_overwrite workspace name keys key operand] at bears
    have written : (workspace.overwrite name keys key operand).Reachable :=
      reachable.run [.write name (keys ++ [key]) (.assign operand)]
    obtain ⟨first, rest, path⟩ : ∃ first rest, keys ++ [key] = first :: rest :=
      List.exists_cons_of_ne_nil (by simp)
    rw [path] at bears skirts
    have last := written.bears_run room skirts bears
    rw [← path, heap_overwrite] at last
    have ended := written.run later
    exact last.endpoint.yields (ended.levelled (by simpa using room later.length))
      (Value.closed_keyed.endpoint ((ended.keyed name).root Value.closed_keyed.null) _ keys)
  · intro lost
    rw [(Value.shownChild?_overwrite named new).1 lost] at overwrites
    exact ⟨fresh, named, overwrites⟩

/-- An object that is made with a member. -/
def earlyMember : List Command := [.keep "v" (.tree (.object [("x", .number (.int 5))]))]

/-- An object to which a member is added after the same name was looked up and written to. -/
def lateMember : List Command :=
  [.keep "v" (.tree (.object [])), .write "v" [.member "x"] (.assign (.tree (.number (.int 5)))),
    .write "v" [] (.addMember "x" (.tree (.number (.int 7))) "v")]

/-- A null that is written over the one member stays, also when another one is added. Over the
other member it has no effect. -/
theorem overwrite_shows_lateMember :
    ((((empty.run earlyMember).overwrite "v" [] (.member "x") (.tree .null)).run
        [.write "v" [] (.addMember "y" (.tree .null) "v")]).endpoint "v" []).Yields
      (empty.run earlyMember).heap (.member "x") .null ∧
    ((((empty.run lateMember).overwrite "v" [] (.member "x") (.tree .null)).endpoint "v" []).visible
        (empty.run lateMember).heap).content = .object [("x", .number (.int 7))] := by
  have room (workspace : Workspace) (nothing : workspace.heap = {}) (place : ArenaId) :
      workspace.heap.HasRoom place := by
    rw [nothing]
    intro arena found
    cases found
  constructor
  · have given : (Operand.tree .null).evaluate (empty.run earlyMember) =
        (empty.run earlyMember, Value.null) := rfl
    have kept : ¬ ((empty.run earlyMember).endpoint "v" []).Lost (.member "x") Value.null := by
      rintro ⟨⟨child, found, -⟩, -⟩
      cases found
    have has : ((empty.run earlyMember).endpoint "v" []).HasChild (empty.run earlyMember).heap
        (.member "x") := rfl
    have shows := (Reachable.overwrite_shows ⟨earlyMember, rfl⟩ (room _ rfl) given has).1 kept
    refine shows.2 [.write "v" [] (.addMember "y" (.tree .null) "v")] ⟨⟨⟨?_, ?_⟩, ?_⟩, trivial⟩ ?_
    · rintro operand same
      cases same
      trivial
    · rintro - operation same
      cases same
      exact ⟨.member "x", rfl, trivial⟩
    · intro child _
      rfl
    · rintro (_ | _ | count) place
      all_goals exact room _ rfl place
  · have given : (Operand.tree .null).evaluate (empty.run lateMember) =
        (empty.run lateMember, Value.null) := rfl
    have lost : ((empty.run lateMember).endpoint "v" []).Lost (.member "x") Value.null :=
      ⟨⟨_, rfl, rfl⟩, rfl⟩
    have has : ((empty.run lateMember).endpoint "v" []).HasChild (empty.run lateMember).heap
        (.member "x") := rfl
    obtain ⟨fresh, named, overwrites⟩ :=
      (Reachable.overwrite_shows ⟨lateMember, rfl⟩ (room _ rfl) given has).2 lost
    cases named
    exact overwrites.shows.trans rfl

end Workspace

end JsonOverlay
