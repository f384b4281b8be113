/-
This file shows what the handles of a document show while its structure is edited through any of
them. A child that a handle shows at a key is null, or its node is gone, or it is attached to a
child of the node of the handle: to the one that the key stands for, unless the key is a position
and members were removed through another handle since.
-/

import JsonOverlay.Proofs.Value.Traced
import JsonOverlay.Proofs.Workspace.Closed
import JsonOverlay.Proofs.Workspace.Effects

namespace JsonOverlay

/-! ### Structural programs -/

/-- What an action does, it does to the document at the end of its path, or it is refused. Only
copies go into a document, and nothing is moved out of a place. -/
def Action.Structural (workspace : Workspace) (name : String) (keys : List ChildKey) :
    Action → Prop
  | touch | removeMember _ => True
  | assign _ | assignAt _ _ => False
  | set _ => ((workspace.root name).endpoint workspace.heap keys).isAttached = true
  | addMember _ operand _ | pushBack operand _ => operand.moves = false

/-- A command makes, releases or reads values, keeps a copy of a handle, or edits the structure
of a document. No value is assigned. -/
def Command.Structural (workspace : Workspace) : Command → Prop
  | keep _ operand => ∃ place, operand = .duplicate place
  | write name keys action => action.Structural workspace name keys
  | _ => True

/-- A value attached to a node knows no member of it by position. -/
def Value.KnowsByName (node : NodeRef) (value : Value) : Prop :=
  value.storage = .attached node → ∀ key ∈ value.children.keys, key.isPositional = false

/-- If a command removes members from an object, no value that is attached to it knows a member
by position afterwards. -/
def Command.Tidy (workspace : Workspace) (command : Command) : Prop :=
  ∀ name keys member node, command = .write name keys (.removeMember member) →
    ((workspace.root name).endpoint workspace.heap keys).storage = .attached node →
      (workspace.step command).heap.node? node ≠ workspace.heap.node? node →
        ∀ other, ((workspace.step command).root other).Everywhere (Value.KnowsByName node)

/-- The keys that a command moves: those of members by their positions in an object from which it
removes members. -/
def Command.Moves (workspace : Workspace) (command : Command) (node : NodeRef)
    (key : ChildKey) : Prop :=
  ∃ name keys member, command = .write name keys (.removeMember member) ∧
    ((workspace.root name).endpoint workspace.heap keys).storage = .attached node ∧
    key.isPositional = true

/-- No slot comes around to an earlier generation by a command. -/
def Command.Rising (workspace : Workspace) (command : Command) : Prop :=
  workspace.heap.Rises (workspace.step command).heap

/-- A condition holds of each command of a program where it is carried out. -/
def Workspace.Throughout (condition : Workspace → Command → Prop) (workspace : Workspace) :
    List Command → Prop
  | [] => True
  | command :: rest =>
    condition workspace command ∧ (workspace.step command).Throughout condition rest

/-! ### One command -/

/-- New documents are looked after, and those that are released do no harm. -/
theorem Heap.Renews.worked {lost : Option ArenaId} {before after : Heap}
    (renews : before.Renews lost after) (tended : before.Tended)
    (moved : NodeRef → ChildKey → Prop) : before.Worked moved after := by
  refine ⟨fun id arena found => ?_, renews.size_le, fun id arena bound found => ?_⟩
  · rcases renews.origin id arena found with old | ⟨-, tree, rfl⟩
    · exact tended id arena old
    · exact Arena.tended_ofTree tree
  · rcases renews.origin id arena found with old | ⟨new, -⟩
    · exact ⟨arena, old, .refl _ arena⟩
    · exact absurd bound (Nat.not_lt_of_le new)

namespace Workspace

variable {workspace : Workspace} {sure : ChildKey → Prop} {command : Command}
  {name : String} {holding : Holding} {value next : Value}

/-- All arenas were looked after, and what is held is attached to nodes as their children are. -/
structure Tracked (sure : ChildKey → Prop) (workspace : Workspace) : Prop where
  tended : workspace.heap.Tended
  traced : ∀ name, workspace.Has (Value.Traced workspace.heap sure) (fun _ => True) name

/-- What a structural command does to a value makes it forget something at most. -/
theorem Tracked.forgets (tracked : workspace.Tracked sure)
    (structural : command.Structural workspace)
    (changes : command.Changes workspace name value next) : value.Forgets next := by
  cases command with
  | keep target operand =>
    obtain ⟨place, rfl⟩ := structural
    cases changes.1
  | write target keys action =>
    have moves : action.operand?.any Operand.moves = false := by
      cases action with
      | assign | assignAt => exact structural.elim
      | addMember | pushBack => exact structural
      | _ => rfl
    rcases changes with ⟨moved, -⟩ | ⟨rfl, ⟨operation, found, rfl, rfl⟩ | ⟨pointer, operand, rfl, -⟩⟩
    · rw [moves] at moved
      cases moved
    · have root : ((action.ready workspace).root name).Traced workspace.heap sure := by
        have evolves : workspace.Evolves workspace.heap (fun _ _ => False) name
            (action.ready workspace) := action.evolves_ready workspace fun moved => by
          rw [moves] at moved
          cases moved
        exact ((tracked.traced name).evolves (fun _ _ evolves traced =>
          traced.looked tracked.tended evolves) evolves).root Value.traced_null
      refine (operation.effect_run _ _).forgets ?_ (root.endpoint tracked.tended keys).top.null
      cases action with
      | assign | assignAt => exact structural.elim
      | touch => cases found
      | set content =>
        cases found
        exact structural
      | addMember | pushBack | removeMember =>
        cases found
        trivial
    · exact structural.elim
  | _ => exact changes.elim

/-- A command keeps the heap looked after. -/
theorem worked_step (tended : workspace.heap.Tended) (rising : command.Rising workspace) :
    workspace.heap.Worked (command.Moves workspace) (workspace.step command).heap := by
  rcases workspace.step_cases command with
    ⟨name, keys, action, operation, _, rfl, found, effect⟩ | renews
  · refine effect.worked tended rising fun member node key same attached positional => ?_
    subst same
    cases action with
    | removeMember =>
      cases found
      exact ⟨name, keys, _, rfl, attached, positional⟩
    | _ => cases found
  · exact renews.worked tended _

/-- No value knows a member by a position that has moved, if that should be sure. -/
theorem settled_step (tidy : (∃ key, sure key ∧ key.isPositional = true) → command.Tidy workspace)
    (traced : ((workspace.step command).root name).Traced workspace.heap sure) :
    ((workspace.step command).root name).Everywhere (Value.Settled fun node key =>
      sure key ∧ command.Moves workspace node key ∧
        (workspace.step command).heap.node? node ≠ workspace.heap.node? node) := by
  -- Where nothing is removed, or nothing is sure, no key that is sure has moved.
  by_cases removal : ∃ name keys member node, command = .write name keys (.removeMember member) ∧
    ((workspace.root name).endpoint workspace.heap keys).storage = .attached node ∧
      (workspace.step command).heap.node? node ≠ workspace.heap.node? node ∧
        ∃ key, sure key ∧ key.isPositional = true
  · obtain ⟨target, keys, member, node, same, endpoint, changed, certain⟩ := removal
    refine (tidy certain target keys member node same endpoint changed name).mono
      fun value knows other key attached inTable moves => ?_
    obtain ⟨target', keys', member', same', endpoint', positional⟩ := moves.2.1
    cases same.symm.trans same'
    cases endpoint.symm.trans endpoint'
    rw [knows attached key inTable] at positional
    cases positional
  · refine traced.mono fun value _ node key _ _ moves => removal ?_
    obtain ⟨certain, ⟨target, keys, member, same, endpoint, positional⟩, changed⟩ := moves
    exact ⟨target, keys, member, node, same, endpoint, changed, key, certain, positional⟩

/-- What a structural command is given is attached to nodes as what is held. -/
theorem Tracked.has_gift? (tracked : workspace.Tracked sure)
    (structural : command.Structural workspace)
    (still : ∀ target keys action, command ≠ .write target keys action)
    (gift : command.gift? workspace name = some holding) :
    holding.Has (Value.Traced workspace.heap sure) fun _ => True := by
  cases command with
  | take source target =>
    rw [Command.gift?] at gift
    split at gift
    · obtain ⟨document, held, rfl⟩ := Option.map_eq_some_iff.mp gift
      exact (tracked.traced source).of_document? held
    · cases gift
  | keep target operand =>
    obtain ⟨place, rfl⟩ := structural
    rw [Command.gift?] at gift
    split at gift
    · cases gift
      have looked : (workspace.refer place).1.Has (Value.Traced workspace.heap sure)
          (fun _ => True) place.name :=
        (tracked.traced place.name).evolves
          (fun _ _ evolves traced => traced.looked tracked.tended evolves)
          (workspace.evolves_refer place)
      have read : (workspace.read place).2.Traced workspace.heap sure := by
        rcases workspace.read_cases place with null | ⟨reference, means⟩
        · rw [null]
          exact Value.traced_null
        · exact (looked.root Value.traced_null).at? means
      exact read.duplicate
    · cases gift
  | write target keys action => exact absurd rfl (still target keys action)
  | _ => cases gift

theorem Tracked.step (tracked : workspace.Tracked sure) (rising : command.Rising workspace)
    (structural : command.Structural workspace)
    (tidy : (∃ key, sure key ∧ key.isPositional = true) → command.Tidy workspace) :
    (workspace.step command).Tracked sure := by
  have worked := worked_step tracked.tended rising
  refine ⟨worked.tended, fun name holding held => ?_⟩
  -- What was held before is followed in the heap as it was, and ages with the heap after that.
  have root : (workspace.step command).root name = holding.root := by
    rw [Workspace.root, held]
    rfl
  have aged (has : holding.Has (Value.Traced workspace.heap sure) fun _ => True) :
      holding.Has (Value.Traced (workspace.step command).heap sure) fun _ => True := by
    have traced := has.root Value.traced_null
    rw [← root] at traced
    have later := traced.aged worked.ages.of_changed (settled_step tidy traced)
    rw [root] at later
    cases holding with
    | document held => exact ⟨trivial, later⟩
    | value held => exact later
    | allocator held => trivial
  cases comes_step held with
  | kept before evolves =>
    exact aged (((tracked.traced name) _ before).evolves (fun _ _ evolves traced =>
      traced.evolves tracked.tended (fun _ _ => tracked.forgets structural) evolves) evolves)
  | given gift still => exact aged (tracked.has_gift? structural still gift)
  | fresh fresh =>
    obtain ⟨tree, attached, arenas⟩ := fresh.root
    refine ⟨trivial, attached ▸ Value.traced_attached ⟨fresh.made, fun arena found => ?_⟩⟩
    rw [arenas arena found]
    exact Arena.known_root_ofTree tree
  | allocator => trivial

/-! ### Programs -/

theorem throughout_append {condition : Workspace → Command → Prop} {program later : List Command} :
    workspace.Throughout condition (program ++ later) ↔
      workspace.Throughout condition program ∧
        (workspace.run program).Throughout condition later := by
  induction program generalizing workspace with
  | nil => exact (iff_of_eq (true_and _)).symm
  | cons command rest inductionHypothesis =>
    rw [List.cons_append, Throughout, Throughout, inductionHypothesis, and_assoc]
    rfl

theorem tended_empty : empty.heap.Tended := fun _ _ found => by cases found

theorem tracked_empty : empty.Tracked sure where
  tended := tended_empty
  traced name holding held := by cases held

theorem Tracked.run {program : List Command} (tracked : workspace.Tracked sure)
    (rising : workspace.Throughout Command.Rising program)
    (structural : workspace.Throughout Command.Structural program)
    (tidy : (∃ key, sure key ∧ key.isPositional = true) →
      workspace.Throughout Command.Tidy program) : (workspace.run program).Tracked sure := by
  induction program generalizing workspace with
  | nil => exact tracked
  | cons command rest inductionHypothesis =>
    have next := tracked.step rising.1 structural.1 fun certain => (tidy certain).1
    exact inductionHypothesis next rising.2 structural.2 fun certain => (tidy certain).2

/-- Handles are read in any way, and the structure of documents is edited through them, but no
value is assigned, and no slot comes around to an earlier generation. Whenever a handle attached
to a live node shows a child, by its shape or by a lookup, the child is null, or its node is gone,
or it is attached to a child of the node. That is the one that the key stands for, at every
position at which the key is; but if the key is a position itself, this takes that no handle goes
on knowing members of an object by position when members are removed from it through another. -/
theorem shows_children {program : List Command} {name : String} {reference : Reference}
    {between child : Value} {node : NodeRef} {content : Content NodeId} {key : ChildKey}
    (structural : empty.Throughout Command.Structural program)
    (rising : empty.Throughout Command.Rising program)
    (means : (empty.run program).at? name reference = some value)
    (lookups : Value.Lookups (empty.run program).heap value between)
    (attached : between.storage = .attached node)
    (live : (empty.run program).heap.node? node = some content)
    (shows : between.Shows (empty.run program).heap key child) :
    child.Stands (empty.run program).heap node.arena fun id => id ∈ content.children ∧
      ((key.isPositional = true → empty.Throughout Command.Tidy program) →
        content.child? key = some id ∧
          ∀ position : Nat, content.keys[position]? = some key →
            content.children[position]? = some id) := by
  have tracked : (empty.run program).Tracked (fun key => key.isPositional = true →
      empty.Throughout Command.Tidy program) :=
    tracked_empty.run rising structural fun ⟨_, certain, positional⟩ => certain positional
  have traced : value.Traced (empty.run program).heap _ :=
    ((tracked.traced name).root Value.traced_null).at? means
  have stands := (traced.looked tracked.tended lookups.evolves).stands tracked.tended attached
    live shows
  refine stands.mono fun id right => ⟨right.1, fun certain => ?_⟩
  exact ⟨right.2 certain, fun position atKey =>
    (Content.getElem?_children atKey).trans (right.2 certain)⟩

/-- A handle knows a member by name and the document knows another by position when one before
them is removed. -/
def removalProgram : List Command :=
  [.newDocument "d", .write "d" [] (.set (.object [])),
    .write "d" [] (.addMember "a" (.tree .null) "d"),
    .write "d" [] (.addMember "b" (.tree .null) "d"),
    .write "d" [] (.addMember "b" (.tree .null) "d"),
    .keep "h" (.duplicate ⟨"d", []⟩), .look "h" [] [.member "b"], .look "d" [] [.repeated 2],
    .write "d" [] (.removeMember "a")]

theorem structural_removalProgram : empty.Throughout Command.Structural removalProgram :=
  ⟨trivial, rfl, rfl, rfl, rfl, ⟨_, rfl⟩, trivial, trivial, trivial, trivial⟩

/-- The document forgets what it knows by position, and the handle knows nothing so. -/
theorem holdings_removalProgram :
    (empty.run removalProgram).holdings =
      [("h", .value ⟨.attached ⟨⟨0⟩, ⟨0, 0⟩⟩,
          ⟨[(.member "b", ⟨false, ⟨0, .attached ⟨⟨0⟩, ⟨2, 0⟩⟩⟩, []⟩)], 1⟩⟩),
        ("d", .document ⟨⟨0⟩, ⟨.attached ⟨⟨0⟩, ⟨0, 0⟩⟩, ⟨[], 1⟩⟩, none⟩)] :=
  rfl

theorem knowsByName_removalProgram (node : NodeRef) (name : String) :
    ((empty.run removalProgram).root name).Everywhere (Value.KnowsByName node) := by
  have bare {place : NodeRef} {children : Children Value} (nothing : children.entries = []) :
      Value.Everywhere (Value.KnowsByName node) ⟨.attached place, children⟩ := by
    refine Value.everywhere_attached (fun _ key present => ?_) nothing
    rw [Children.keys, nothing] at present
    cases present
  rw [root, holding?, holdings_removalProgram, List.lookup_cons]
  split
  · refine .level (fun _ key present => ?_) (fun _ absurd => ?_)
      fun member present version inside => ?_
    · cases List.mem_singleton.mp present
      rfl
    · cases absurd
    · cases List.mem_singleton.mp present
      cases List.mem_singleton.mp inside
      exact bare rfl
  · rw [List.lookup_cons]
    split
    · exact bare rfl
    · refine .level (fun absurd => ?_) (fun _ same child member => ?_) fun _ absurd => ?_
      · cases absurd
      · cases same
        cases member
      · cases absurd

/-- As long as nothing was freed, no slot can come around. -/
theorem rising_of_first {workspace : Workspace} {command : Command}
    (first : (workspace.heap.arenas.toList.all fun place => place.all fun arena =>
      arena.slots.toList.all fun slot => slot.generation == 0) = true) :
    command.Rising workspace := by
  intro id old arena found _ index
  have zero : old.generationAt index = 0 := by
    have present := Array.mem_of_getElem? (Option.join_eq_some_iff.mp found)
    have slots := List.all_eq_true.mp first (some old) present.val
    rw [Option.all_some] at slots
    rw [Arena.generationAt]
    cases held : old.slots[index.toNat]? with
    | none => rfl
    | some slot =>
      have generation := List.all_eq_true.mp slots slot (Array.mem_of_getElem? held).val
      rw [Option.map_some, Option.getD_some, beq_iff_eq.mp generation]
      rfl
  rw [zero]
  exact Nat.zero_le _

theorem rising_removalProgram : empty.Throughout Command.Rising removalProgram :=
  ⟨rising_of_first rfl, rising_of_first rfl, rising_of_first rfl, rising_of_first rfl,
    rising_of_first rfl, rising_of_first rfl, rising_of_first rfl, rising_of_first rfl,
    rising_of_first rfl, trivial⟩

theorem tidy_removalProgram : empty.Throughout Command.Tidy removalProgram := by
  have still {workspace : Workspace} {command : Command}
      (other : ∀ name keys member, command ≠ .write name keys (.removeMember member)) :
      command.Tidy workspace := fun name keys member _ same => absurd same (other name keys member)
  refine ⟨still ?_, still ?_, still ?_, still ?_, still ?_, still ?_, still ?_, still ?_,
    fun _ _ _ node _ _ _ => knowsByName_removalProgram node, trivial⟩
  all_goals exact fun _ _ _ same => by cases same

theorem node?_removalProgram :
    (empty.run removalProgram).heap.node? ⟨⟨0⟩, ⟨0, 0⟩⟩ =
      some (.object [("b", ⟨2, 0⟩), ("b", ⟨3, 0⟩)]) := by
  have found : (empty.run removalProgram).heap.arena? ⟨0⟩ = some (Arena.freeAll _ [⟨1, 0⟩]) := rfl
  rw [Arena.freeAll_of_found rfl []] at found
  have freed : (empty.run removalProgram).heap.arena? ⟨0⟩ = some (Arena.vacate _ _) :=
    found.trans (congrArg some (Arena.freeAll.eq_1 _))
  exact (congrArg (Option.bind · (Arena.get? · ⟨0, 0⟩)) freed).trans rfl

theorem shows_children_removalProgram :
    ∃ handle document, (empty.run removalProgram).at? "h" [] = some handle ∧
      (empty.run removalProgram).at? "d" [] = some document ∧
      ((handle.look (empty.run removalProgram).heap (.member "b")).child (.member "b")).value.Stands
        (empty.run removalProgram).heap ⟨0⟩ (fun id => id = ⟨2, 0⟩) ∧
      ((document.look (empty.run removalProgram).heap (.repeated 1)).child (.repeated 1)).value.Stands
        (empty.run removalProgram).heap ⟨0⟩ fun id => id = ⟨3, 0⟩ := by
  have looked (value : Value) (key : ChildKey) : value.Shows (empty.run removalProgram).heap key
      ((value.look (empty.run removalProgram).heap key).child key).value := .lookup .look
  have handle : (empty.run removalProgram).at? "h" [] = some _ := rfl
  have document : (empty.run removalProgram).at? "d" [] = some _ := rfl
  have first := shows_children structural_removalProgram rising_removalProgram handle .nothing
    rfl node?_removalProgram (looked _ (.member "b"))
  have second := shows_children structural_removalProgram rising_removalProgram document .nothing
    rfl node?_removalProgram (looked _ (.repeated 1))
  refine ⟨_, _, handle, document, first.mono fun id right => ?_, second.mono fun id right => ?_⟩
  · exact (Option.some.inj (right.2 fun absurd => by cases absurd).1).symm
  · exact (Option.some.inj (right.2 fun _ => tidy_removalProgram).1).symm

end Workspace

end JsonOverlay
