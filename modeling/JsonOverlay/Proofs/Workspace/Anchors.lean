/-
This file follows a child that a program looked up through everything that the program does
afterwards. What is done to the value that it was looked up in, to other children, to the child
itself and to the documents leaves the child where it is, the same version of it, unless the value
is written over or set, or the child is removed from it by name.
-/

import JsonOverlay.Proofs.Value.Anchors
import JsonOverlay.Proofs.Workspace.Actions
import JsonOverlay.Proofs.Workspace.Evolution

namespace JsonOverlay

/-! ### What leaves a child where it is -/

namespace Operand

mutual

/-- Coming by a value moves nothing out from above the end of a path, nor from its end unless what
is there may change. -/
def Clears (name : String) (path : List ChildKey) (changes : Prop) : Operand → Prop
  | tree _ | duplicate _ | deepCopy _ => True
  | array items => ClearsItems name path changes items
  | object members => ClearsMembers name path changes members
  | moveOut target keys =>
    target = name → Value.Clears (fun rest => rest = [] ∧ changes) keys path

def ClearsItems (name : String) (path : List ChildKey) (changes : Prop) : List Operand → Prop
  | [] => True
  | item :: rest => item.Clears name path changes ∧ ClearsItems name path changes rest

def ClearsMembers (name : String) (path : List ChildKey) (changes : Prop) :
    List (String × Operand) → Prop
  | [] => True
  | (_, child) :: rest => child.Clears name path changes ∧ ClearsMembers name path changes rest

end

end Operand

namespace Action

/-- An action on a value leaves the child at a key in its table. -/
def Spares (key : ChildKey) : Action → Prop
  | touch | addMember _ _ _ | pushBack _ _ => True
  | removeMember name => (Operation.removeMember name).Spares key
  | assign _ | assignAt _ _ | set _ => False

/-- An action at the end of a path for writing leaves the children on another path where they are.
At the end of that path it may do anything if what is there may change. -/
def Clears (keys path : List ChildKey) (changes : Prop) : Action → Prop
  | touch => True
  | assignAt pointer _ =>
    Value.Clears (fun rest => ∀ spelled, List.Forall₂ Value.Names pointer.tokens spelled →
      Value.Clears (fun rest => rest = [] ∧ changes) spelled rest) keys path
  | action =>
    Value.Clears (fun rest => (rest = [] → changes) ∧ ∀ key ∈ rest.head?, action.Spares key) keys path

theorem operation?_spares {action : Action} {workspace : Workspace} {operation : Operation}
    {key : ChildKey} (found : action.operation? workspace = some operation)
    (spares : action.Spares key) : operation.Spares key := by
  cases action with
  | touch | assignAt => cases found
  | assign | set => exact spares.elim
  | addMember | pushBack =>
    cases found
    trivial
  | removeMember =>
    cases found
    exact spares

end Action

/-- A command leaves the children on a path from a name where they are. What is at its end changes
only if it may. -/
def Command.Clears (name : String) (path : List ChildKey) (changes : Prop) : Command → Prop
  | keep target operand => target ≠ name ∧ operand.Clears name path changes
  | read _ | look _ _ _ | follow _ _ => True
  | write target keys action =>
    (∀ operand, action.operand? = some operand → operand.Clears name path changes) ∧
      (target = name → action.Clears keys path changes)
  | command => name ∉ command.uses

namespace Workspace

variable {workspace after : Workspace} {heap : Heap} {name target : String} {key : ChildKey}
  {serial : Nat} {reference rest : Reference} {keys : List ChildKey}
  {holds : Storage Value → Prop} {changes : Prop} {action : Action} {command : Command}

/-- The versions along a reference from a name are present ones, and what they lead to has a
storage of some kind. -/
def Anchors (holds : Storage Value → Prop) (name : String) (reference : Reference)
    (workspace : Workspace) : Prop :=
  (workspace.root name).Anchors holds reference

theorem Evolves.evolves_root {change : Value → Value → Prop}
    (evolves : workspace.Evolves heap change name after) :
    (workspace.root name).Evolves heap change (after.root name) := by
  unfold Evolves at evolves
  unfold Workspace.root
  revert evolves
  generalize workspace.holding? name = before, after.holding? name = later
  intro evolves
  cases evolves with
  | none => exact .refl
  | some held =>
    cases held with
    | document evolved => exact evolved
    | value evolved => exact evolved
    | allocator => exact .refl

/-- Reading leaves what is anchored. -/
theorem Anchors.evolves (anchors : workspace.Anchors holds name reference)
    (evolves : workspace.Evolves heap (fun _ _ => False) name after) :
    after.Anchors holds name reference :=
  Value.Anchors.evolves anchors evolves.evolves_root

/-! ### Writing -/

section

variable (anchors : workspace.Anchors holds name ((key, serial) :: rest))
include anchors

theorem Anchors.holdsRoot : workspace.HoldsRoot name := by
  refine holdsRoot_of_ne fun null => ?_
  obtain ⟨entry, found, -⟩ := anchors
  rw [null] at found
  cases found

theorem Anchors.setRoot {root : Value}
    (kept : target = name → root.Anchors holds ((key, serial) :: rest)) :
    (workspace.setRoot target root).Anchors holds name ((key, serial) :: rest) := by
  unfold Anchors
  by_cases same : target = name
  · rw [same, anchors.holdsRoot.root_setRoot]
    exact kept same
  · rw [root_eq_of_holding?_eq (holding?_setRoot_of_ne (Ne.symm same) root)]
    exact anchors

theorem Anchors.edit {β : Type} {change : Heap → Value → Value.Edited β}
    {ends : List ChildKey → Prop}
    (clears : target = name → Value.Clears ends keys (key :: rest.map Prod.fst))
    (leaves : ∀ value reference, ends (reference.map Prod.fst) →
      Value.Anchors holds reference value →
        Value.Anchors holds reference (change workspace.heap value).value) :
    (workspace.edit target keys change).1.Anchors holds name ((key, serial) :: rest) := by
  have same : ({ workspace with
      heap := ((workspace.root target).edit workspace.heap change keys).heap } : Workspace).Anchors
        holds name ((key, serial) :: rest) := anchors
  refine same.setRoot fun equal => ?_
  subst equal
  exact Value.Anchors.edit leaves (clears rfl) anchors

end

end Workspace

namespace Operand

variable {name : String} {key : ChildKey} {serial : Nat} {rest : Reference}
  {holds : Storage Value → Prop} {changes : Prop}

/-- Null in the place of a value leaves what is anchored there if it is that value itself. -/
theorem anchors_of_changes {reference : Reference} (free : changes → ∀ storage, holds storage)
    (ends : reference.map Prod.fst = [] ∧ changes) (value : Value) :
    value.Anchors holds reference := by
  rw [List.map_eq_nil_iff.mp ends.1]
  exact free ends.2 value.storage

theorem inherited_clears (name : String) (path : List ChildKey) (changes : Prop) :
    Inherited (Clears name path changes) (ClearsItems name path changes)
      (ClearsMembers name path changes) :=
  ⟨id, id, id, id⟩

theorem anchors_evaluate {workspace : Workspace} (free : changes → ∀ storage, holds storage)
    (anchors : workspace.Anchors holds name ((key, serial) :: rest)) (operand : Operand)
    (clears : operand.Clears name (key :: rest.map Prod.fst) changes) :
    (operand.evaluate workspace).1.Anchors holds name ((key, serial) :: rest) := by
  have keeps : Keeps (Clears name (key :: rest.map Prod.fst) changes) fun after =>
      after.Anchors holds name ((key, serial) :: rest) :=
    { look := fun _ anchors => anchors.evolves (Workspace.evolves_refer _ _)
      moveOut := fun clears anchors =>
        anchors.edit clears fun _ _ ends _ => anchors_of_changes free ends _ }
  exact keeps.evaluate (inherited_clears _ _ _) anchors operand clears

end Operand

namespace Workspace

variable {workspace : Workspace} {name target : String} {key : ChildKey} {serial : Nat}
  {rest : Reference} {keys : List ChildKey} {holds : Storage Value → Prop} {changes : Prop}
  {action : Action} {command : Command}

section

variable (free : changes → ∀ storage, holds storage)
  (anchors : workspace.Anchors holds name ((key, serial) :: rest))
include free anchors

theorem anchors_ready (operands : ∀ operand, action.operand? = some operand →
      operand.Clears name (key :: rest.map Prod.fst) changes) :
    (action.ready workspace).Anchors holds name ((key, serial) :: rest) :=
  Action.ready_of_evaluate (motive := fun after =>
      after.Anchors holds name ((key, serial) :: rest)) anchors
    fun operand given => operand.anchors_evaluate free anchors (operands operand given)

theorem anchors_act (operands : ∀ operand, action.operand? = some operand →
      operand.Clears name (key :: rest.map Prod.fst) changes)
    (clears : target = name → action.Clears keys (key :: rest.map Prod.fst) changes) :
    (action.run workspace target keys).Anchors holds name ((key, serial) :: rest) := by
  have ready := anchors_ready free anchors operands
  rcases action.operation?_cases workspace with ⟨operation, found⟩ | rfl | ⟨pointer, operand, rfl⟩
  · have path : target = name → Value.Clears
        (fun rest => (rest = [] → changes) ∧ ∀ key ∈ rest.head?, action.Spares key) keys
        (key :: rest.map Prod.fst) := by
      intro same
      cases action with
      | touch | assignAt => cases found
      | _ => exact clears same
    rw [Action.run_eq_perform found]
    refine ready.edit path fun value reference ends anchored => anchored.operate ?_ fun nothing => ?_
    · exact fun key first => Action.operation?_spares found (ends.2 key first)
    · exact free (ends.1 (List.map_eq_nil_iff.mpr nothing))
  · exact anchors.evolves (evolves_edit fun _ => .refl)
  · refine Anchors.edit ready clears fun value reference ends anchored => ?_
    exact anchored.pointer_edit (fun _ _ ends _ => Operand.anchors_of_changes free ends _) ends

/-- A command that clears a path leaves the children on it where they are. -/
theorem anchors_step (clears : command.Clears name (key :: rest.map Prod.fst) changes) :
    (workspace.step command).Anchors holds name ((key, serial) :: rest) := by
  have unused (unused : name ∉ command.uses) :
      (workspace.step command).Anchors holds name ((key, serial) :: rest) := by
    unfold Anchors
    rw [root_eq_of_holding?_eq (holding?_step unused)]
    exact anchors
  cases command with
  | keep target operand =>
    have held : (workspace.step (.keep target operand)).holding? name =
        (operand.evaluate workspace).1.holding? name :=
      (holding?_hold _ target _ name).trans (if_neg (Ne.symm clears.1))
    unfold Anchors
    rw [root_eq_of_holding?_eq held]
    exact operand.anchors_evaluate free anchors clears.2
  | read place => exact anchors.evolves (workspace.evolves_refer place)
  | look target reference keys =>
    have looked : workspace.Evolves workspace.heap (fun _ _ => False) name
        (workspace.step (.look target reference keys)) :=
      evolves_setRoot fun _ => Value.evolves_writeAt fun found _ => found.evolves_foldl_look keys
    exact anchors.evolves looked
  | follow place pointer =>
    exact anchors.evolves (workspace.evolves_visit place fun value => value.evolves_pointer_read _)
  | write target keys action => exact anchors_act free anchors clears.1 clears.2
  | _ => exact unused clears

/-- A program whose commands clear a path leaves the children on it where they are. -/
theorem anchors_run {program : List Command}
    (clears : ∀ command ∈ program, command.Clears name (key :: rest.map Prod.fst) changes) :
    (workspace.run program).Anchors holds name ((key, serial) :: rest) := by
  induction program generalizing workspace with
  | nil => exact anchors
  | cons command later inductionHypothesis =>
    obtain ⟨first, others⟩ := List.forall_mem_cons.mp clears
    exact inductionHypothesis (anchors_step free anchors first) others

end

/-- What was looked up along a path, of children that were there, is found again by the same path
after a program that clears it, for reading and for writing. It has the storage that it had unless
the program may change it. -/
theorem refer_run {place : Place} {reference : Reference} {child : Value} {program : List Command}
    (anchors : workspace.Anchors (fun _ => True) place.name reference) (further : reference ≠ [])
    (means : workspace.at? place.name reference = some child)
    (leads : place.path.map Step.key? = reference.map fun version => some version.1)
    (clears : ∀ command ∈ program, command.Clears place.name (reference.map Prod.fst) changes) :
    ((workspace.run program).refer place).2 = some reference ∧
      ∃ after, (workspace.run program).at? place.name reference = some after ∧
        ((workspace.run program).root place.name).endpoint (workspace.run program).heap
          (reference.map Prod.fst) = after ∧
        (¬ changes → after.storage = child.storage) := by
  obtain ⟨⟨key, serial⟩, rest, rfl⟩ := List.exists_cons_of_ne_nil further
  have before : workspace.Anchors (fun storage => ¬ changes → storage = child.storage) place.name
      ((key, serial) :: rest) := Value.anchors_of_at? anchors means fun _ => rfl
  have later := anchors_run (fun may _ firm => absurd may firm) before clears
  obtain ⟨after, found, same⟩ := Value.Anchors.at? later
  refine ⟨Value.Anchors.read later leads, after, found, ?_, same⟩
  exact Option.some.inj ((Value.Anchors.endpoint later).symm.trans found)

/-- Whatever is looked up has an entry in the table, made by the lookup if nothing was shown there;
it is a placeholder if the child was missing. As long as the value is not written over or set and
the child not removed from it by name, every later lookup comes to the same version, with what was
last written to it, whatever else was done with the value and became of the documents. Of a
placeholder this holds while it is shown, or the child still missing. Walks are sequences of
lookups. In a program, a path that led to children that were there leads to them again. -/
theorem looked_up_children_stay :
    (∀ (heap : Heap) (key : ChildKey) (value looked : Value), Value.LooksUp heap key value looked →
      value.shownChild? key = none →
        ∃ entry, looked.children.get? key = some entry ∧
          (entry.placeholder = true ↔ (value.backing heap).child? key = none) ∧
          ∀ fresh, (value.backing heap).child? key = some fresh →
            entry.current = ⟨value.children.nextSerial, fresh.duplicate⟩) ∧
    (∀ (value : Value) (key : ChildKey) (entry : Entry Value) (uses : List (Heap × Value.Use)),
      value.children.get? key = some entry →
      value.Whenever (Value.Use.Leaves key entry.placeholder) uses →
        ∀ (now : Heap) (later : Value), Value.LooksUp now key (value.used uses) later →
          (entry.placeholder = false ∨ (value.used uses).shownChild? key ≠ none ∨
            ((value.used uses).backing now).child? key = none) →
          later.child key = ⟨entry.current.serial,
            Value.held key entry.current.serial entry.current.value uses⟩ ∧
          ∀ before time assigned rest, uses = before ++ (time, .write key assigned) :: rest →
            (∀ use ∈ rest, ∀ written, use.2.written? key entry.current.serial = some written →
              written.storage = assigned.storage) →
            (later.child key).value.storage = assigned.storage) ∧
    (∀ (heap : Heap) (value : Value),
      (∀ count cursor, (MemberCursor.walk heap count cursor value).2.2 =
        value.used (((cursor.pending.take count).map Prod.snd).map fun key => (heap, .look key))) ∧
      ∀ indices, (ArrayCursor.lookAll heap value indices).2 =
        value.used (indices.map fun index => (heap, .look (.element index.toNat)))) ∧
    (∀ (workspace : Workspace) (place : Place) (reference : Reference) (child : Value)
      (program : List Command) (changes : Prop),
      workspace.Anchors (fun _ => True) place.name reference → reference ≠ [] →
      workspace.at? place.name reference = some child →
      place.path.map Step.key? = (reference.map fun version => some version.1) →
      (∀ command ∈ program, command.Clears place.name (reference.map Prod.fst) changes) →
        ((workspace.run program).refer place).2 = some reference ∧
          ∃ after, (workspace.run program).at? place.name reference = some after ∧
            ((workspace.run program).root place.name).endpoint (workspace.run program).heap
              (reference.map Prod.fst) = after ∧
            (¬ changes → after.storage = child.storage)) := by
  refine ⟨fun _ _ _ _ looks hidden => looks.exists_entry hidden, ?_,
    fun heap value => ⟨fun count cursor => Value.used_walk heap count cursor value,
      Value.used_lookAll heap value⟩,
    fun _ _ _ _ _ _ anchors further means leads clears => refer_run anchors further means leads clears⟩
  intro value key entry uses found leaves now later looks stands
  have same := (Value.stays_used found leaves).child_eq stands looks
  refine ⟨same, ?_⟩
  rintro before time assigned rest rfl kept
  rw [same]
  exact Value.storage_held_assigned before kept

/-- An element that was looked up for reading is written over with null. -/
def lookupProgram : List Command :=
  [.newDocument "d", .write "d" [] (.set (.object [])), .keep "h" (.duplicate ⟨"d", []⟩),
    .write "d" [] (.addMember "a" (.tree (.array [.bool true])) "d"),
    .read ⟨"d", [.member "a", .element 0]⟩,
    .write "d" [.member "a", .element 0] (.assign (.tree .null))]

/-- Its array gets another element and its name is given again, and then taken from the document
through another handle. -/
def aroundProgram : List Command :=
  [.write "d" [.member "a"] (.pushBack (.tree .null) "d"),
    .write "d" [] (.addMember "a" (.tree .null) "d"), .write "h" [] (.removeMember "a"),
    .write "d" [] (.removeMember "b"), .look "d" [] [.member "b"]]

theorem clears_aroundProgram : ∀ command ∈ aroundProgram,
    command.Clears "d" [.member "a", .element 0] False := by
  simp [aroundProgram, Command.Clears, Action.operand?, Operand.Clears, Action.Clears, Value.Clears,
    Action.Spares, Operation.Spares]

/-- Null stays where it was assigned, though its array is no longer in the document. What was written
to a missing member stays when the member comes. -/
theorem looked_up_children_stay_aroundProgram :
    (∃ after, (((empty.run lookupProgram).run aroundProgram).refer
        ⟨"d", [.member "a", .element 0]⟩).2 = some [(.member "a", 0), (.element 0, 0)] ∧
      ((empty.run lookupProgram).run aroundProgram).at? "d" [(.member "a", 0), (.element 0, 0)] =
        some after ∧
      after.storage = .detached .null) ∧
    ((((Value.new .object).look {} (.member "n")).used
      [({}, .write (.member "n") (Value.ofTree (.bool true))),
        ({}, .operate (.addMember "n" Value.null {}))]).look {} (.member "n")).child (.member "n") =
      ⟨0, Value.ofTree (.bool true)⟩ := by
  obtain ⟨-, kept, -, every⟩ := looked_up_children_stay
  constructor
  · have anchors : (empty.run lookupProgram).Anchors (fun _ => True) "d"
        [(.member "a", 0), (.element 0, 0)] :=
      ⟨_, rfl, rfl, rfl, _, rfl, rfl, rfl, trivial⟩
    obtain ⟨again, after, found, -, same⟩ := every _ ⟨"d", [.member "a", .element 0]⟩ _ Value.null
      aroundProgram False anchors nofun rfl rfl clears_aroundProgram
    exact ⟨after, again, found, same id⟩
  · have missing : Value.Use.Misses {} ((Value.new .object).look {} (.member "n")) (.member "n")
        (.write (.member "n") (Value.ofTree (.bool true))) :=
      ⟨fun _ _ found => (nomatch found), rfl, rfl⟩
    have leaves : ((Value.new .object).look {} (.member "n")).Whenever
        (Value.Use.Leaves (.member "n") true)
        [({}, .write (.member "n") (Value.ofTree (.bool true))),
          ({}, .operate (.addMember "n" Value.null {}))] :=
      ⟨⟨trivial, .inr (.inr missing)⟩, ⟨trivial, .inr (.inl (Option.some_ne_none _))⟩, trivial⟩
    exact (kept _ (.member "n") ⟨true, ⟨0, Value.null⟩, []⟩ _ rfl leaves {} _ .look
      (.inr (.inl (Option.some_ne_none _)))).1

end Workspace

end JsonOverlay
