/-
This file says what the command does in terms of plain trees. The tree of the input goes
through the assignments from the first to the last, each of which replaces the tree at its
place or adds one below the place above. The value of a document shows the same tree at
every step, whether the children on the way have nodes or were assigned, so the command
answers with the text of the selected tree, or does nothing but report a problem.
-/

import JsonOverlay.CommandLine.FileSystem
import JsonOverlay.Proofs.Document
import JsonOverlay.Proofs.Editing.Change
import JsonOverlay.Proofs.Editing.Pointer
import JsonOverlay.Proofs.Value.Evolution
import JsonOverlay.Proofs.Writer

namespace JsonOverlay

/-! ### Assignments on plain trees -/

namespace Tree

/-- The tree with another one at the end of a path. -/
def replaceAt (tree : Tree) (path : List ChildKey) (new : Tree) : Option Tree :=
  (tree.editAt (fun _ => (new, ())) path).map Prod.fst

/-- The tree with one more child: a member of an object with a token for its name, or an
element of an array if the token is a dash. -/
def grown? (tree : Tree) (token : String) (operand : Tree) : Option Tree :=
  match tree with
  | .object members => some (.object (members ++ [(token, operand)]))
  | .array items => if token = "-" then some (.array (items ++ [operand])) else none
  | _ => none

/-- The tree after an assignment: another tree at the place of the pointer if there is such a
place, or one more child at the place above it. -/
def assigned? (tree : Tree) (assignment : CommandLine.Assignment) : Option Tree :=
  match tree.place? assignment.pointer.tokens with
  | some path => tree.replaceAt path assignment.tree
  | none =>
    assignment.pointer.tokens.getLast?.bind fun last =>
      (tree.place? assignment.pointer.tokens.dropLast).bind fun above =>
        (tree.at? above).bind fun parent =>
          (parent.grown? last assignment.tree).bind fun grown => tree.replaceAt above grown

end Tree

namespace CommandLine

/-- The assignment that a text stands for: a pointer before the first equals sign, and strict
JSON after it. -/
def assignment? (text : String) : Option Assignment :=
  if '=' ∈ text.toList then
    (Pointer.parse (String.ofList (text.toList.takeWhile (· != '=')))).toOption.bind fun pointer =>
      (Tree.parse .strict (String.ofList (text.toList.dropWhile (· != '=')).tail)).toOption.map
        fun tree => ⟨pointer, tree⟩
  else none

/-- The tree after some assignments, from the first to the last. -/
def assignedAll? (tree : Tree) (texts : List String) : Option Tree :=
  texts.foldlM (fun tree text => (assignment? text).bind tree.assigned?) tree

/-- The tree that a pointer selects, or the whole one without a pointer. -/
def selected? (tree : Tree) : Option String → Option Tree
  | none => some tree
  | some path =>
    (Pointer.parse path).toOption.bind fun pointer =>
      (tree.place? pointer.tokens).bind tree.at?

/-- The answer of the command to an input, in terms of plain trees. -/
def answer? (arguments : Arguments) (input : Stream) : Option String :=
  (Tree.parseStream ⟨arguments.comments, arguments.trailingCommas⟩ input).toOption.bind fun tree =>
    (assignedAll? tree arguments.assignments).bind fun edited =>
      (selected? edited arguments.pointer).map fun selected => selected.render (layout arguments) 0

/-- The number of values in the trees that are to be assigned. -/
def assignedCount (texts : List String) : Nat :=
  (texts.map fun text => ((assignment? text).map fun assignment => assignment.tree.count).getD 0).sum

/-- The values in the tree of an input and in the trees that are to be assigned. -/
def valueCount (arguments : Arguments) (input : Stream) : Nat :=
  ((Tree.parseStream ⟨arguments.comments, arguments.trailingCommas⟩ input).toOption.elim 0
    Tree.count) + assignedCount arguments.assignments

/-- Opens what the command reads. -/
def opening {m : Type → Type} [Monad m] (surroundings : Surroundings m) (arguments : Arguments) :
    m (Except String Stream) :=
  match file? arguments.input with
  | some path => surroundings.openFile path
  | none => Except.ok <$> surroundings.standardInput

end CommandLine

/-! ### Replacing along a path -/

namespace Tree

/-- Editing a tree at a place is putting there what the edit makes of the tree there. -/
theorem editAt_eq {β : Type} {change : Tree → Tree × β} {tree found : Tree} {path : List ChildKey}
    (reached : tree.at? path = some found) :
    tree.editAt change path =
      (tree.replaceAt path (change found).1).map fun changed => (changed, (change found).2) := by
  induction path generalizing tree with
  | nil =>
    cases reached
    rfl
  | cons key rest inductionHypothesis =>
    obtain ⟨child, named, below⟩ := Option.bind_eq_some_iff.mp reached
    have inner := inductionHypothesis below
    rw [replaceAt] at inner ⊢
    rw [editAt, editAt, named, Option.bind_some, Option.bind_some, inner]
    simp only [Option.map_map, Function.comp_def]

/-- There is always something to replace at the end of a path. -/
theorem exists_replaceAt {tree found : Tree} {path : List ChildKey}
    (reached : tree.at? path = some found) (new : Tree) :
    ∃ changed, tree.replaceAt path new = some changed := by
  induction path generalizing tree with
  | nil => exact ⟨new, rfl⟩
  | cons key rest inductionHypothesis =>
    obtain ⟨child, named, below⟩ := Option.bind_eq_some_iff.mp reached
    obtain ⟨changed, inner⟩ := inductionHypothesis below
    rw [replaceAt] at inner ⊢
    obtain ⟨edited, same, -⟩ := Option.map_eq_some_iff.mp inner
    rw [editAt, named, Option.bind_some, same]
    exact ⟨_, rfl⟩

end Tree

/-! ### Room -/

/-- The arena at a place has at most some number of slots. -/
def Heap.Fits (heap : Heap) (place : ArenaId) (size : Nat) : Prop :=
  ∀ arena, heap.arena? place = some arena → arena.slots.size ≤ size

namespace Heap

variable {heap : Heap} {place : ArenaId} {size more : Nat}

theorem Fits.hasRoom (fits : heap.Fits place size) (small : size ≤ Arena.slotLimit) :
    heap.HasRoom place :=
  fun arena found => (fits arena found).trans small

theorem Fits.add (fits : heap.Fits place size) (more : Nat) : heap.Fits place (size + more) :=
  fun arena found => (fits arena found).trans (Nat.le_add_right _ _)

/-- An arena in place of another that was not much smaller. -/
theorem Fits.put {id : ArenaId} {arena changed : Arena} (fits : heap.Fits place size)
    (found : heap.arena? id = some arena)
    (grown : changed.slots.size ≤ arena.slots.size + more) :
    (heap.put id changed).Fits place (size + more) := by
  intro other present
  rw [arena?_put found] at present
  split at present
  · rename_i same
    subst same
    cases present
    exact grown.trans (Nat.add_le_add_right (fits arena found) more)
  · exact fits.add more other present

end Heap

/-- Appending takes no more slots than the operand shows values. -/
theorem Appending.fits_run {heap : Heap} {place : ArenaId} {size : Nat} (appending : Appending)
    (value operand : Value) (allocator : Allocator) (fits : heap.Fits place size) :
    (appending.run heap value operand allocator).heap.Fits place
      (size + (operand.visible heap).count) := by
  obtain ⟨reference | content, children⟩ := value
  · rw [run_attached]
    cases able : Value.target heap reference allocator with
    | error error => exact fits.add _
    | ok found =>
      obtain ⟨arena, node⟩ := found
      obtain ⟨-, present, -⟩ := Value.target_eq_ok.mp able
      dsimp only
      split
      · exact fits.put present ((Arena.size_slots_assign _ _ _).le.trans
          (Arena.allocates_store arena _).size_slots_le_add)
      · exact fits.add _
  · rw [run_detached]
    split <;> exact fits.add _

namespace CommandLine

/-! ### What may be refused -/

/-- Something succeeds exactly if what it mirrors has a result, and the results are related. -/
inductive Mirrors {α β : Type} (related : α → β → Prop) : Option α → Except Problem β → Prop where
  | done {plain : α} {result : β} (same : related plain result) :
      Mirrors related (some plain) (.ok result)
  | refused (problem : Problem) : Mirrors related none (.error problem)

namespace Mirrors

variable {α β γ δ : Type} {related : α → β → Prop} {further : γ → δ → Prop} {plain : Option α}
  {result : Except Problem β}

theorem bind {next : α → Option γ} {step : β → Except Problem δ}
    (mirrors : Mirrors related plain result)
    (more : ∀ first second, plain = some first → related first second →
      Mirrors further (next first) (step second)) :
    Mirrors further (plain.bind next) (result >>= step) := by
  cases mirrors with
  | done same => exact more _ _ rfl same
  | refused problem => exact .refused problem

/-- What the library refuses is refused. -/
theorem mapError (result : Except Error α) :
    Mirrors Eq result.toOption (result.mapError Problem.refused) := by
  cases result with
  | error error => exact .refused _
  | ok value => exact .done rfl

end Mirrors

/-! ### One assignment -/

namespace Assignment

variable {assignment : Assignment} {heap : Heap} {place : ArenaId} {size : Nat}

/-- What becomes of a tree below which an assignment adds a child, and the outcome. -/
def grow (assignment : Assignment) (token : String) (tree : Tree) : Tree × Except Problem Unit :=
  match tree.grown? token assignment.tree with
  | some grown => (grown, .ok ())
  | none => (tree, .error (.noSlot assignment.pointer tree.kind token))

/-- The outcome of an operation as that of an assignment. -/
def answered : Outcome → Except Problem Unit
  | .refused error => .error (.refused error)
  | _ => .ok ()

/-- Adding below an object is adding a member. -/
theorem addBelow_of_object {parent : Value} {allocator : Allocator} {token : String}
    (object : parent.kind heap = .object) :
    assignment.addBelow allocator token heap parent =
      let added := (Operation.addMember token (Value.ofTree assignment.tree) allocator).run heap parent
      ⟨added.heap, added.value, answered added.result⟩ := by
  simp only [addBelow, object, Operation.run]
  cases parent.addMember heap token (Value.ofTree assignment.tree) allocator <;> rfl

/-- Adding below an array by a dash is appending an element. -/
theorem addBelow_of_array {parent : Value} {allocator : Allocator}
    (array : parent.kind heap = .array) :
    assignment.addBelow allocator "-" heap parent =
      let added := (Operation.pushBack (Value.ofTree assignment.tree) allocator).run heap parent
      ⟨added.heap, added.value, answered added.result⟩ := by
  simp only [addBelow, array, Operation.run, if_true]
  cases parent.pushBack heap (Value.ofTree assignment.tree) allocator <;> rfl

/-- Nothing is added below anything else. -/
theorem addBelow_of_other {parent : Value} {allocator : Allocator} {token : String}
    (object : parent.kind heap ≠ .object) (array : parent.kind heap ≠ .array ∨ token ≠ "-") :
    assignment.addBelow allocator token heap parent =
      ⟨heap, parent, .error (.noSlot assignment.pointer (parent.kind heap) token)⟩ := by
  cases kind : parent.kind heap with
  | object => exact absurd kind object
  | array =>
    have other : token ≠ "-" := array.resolve_left fun different => different kind
    simp only [addBelow, kind, if_neg other]
  | _ => simp only [addBelow, kind]

theorem fits_addBelow (assignment : Assignment) (allocator : Allocator) (token : String)
    (parent : Value) (fits : heap.Fits place size) :
    (assignment.addBelow allocator token heap parent).heap.Fits place
      (size + assignment.tree.count) := by
  rw [← congrArg Tree.count (Value.visible_ofTree heap assignment.tree)]
  by_cases object : parent.kind heap = .object
  · rw [addBelow_of_object object]
    exact (Appending.member token).fits_run parent _ allocator fits
  · by_cases array : parent.kind heap = .array ∧ token = "-"
    · obtain ⟨array, rfl⟩ := array
      rw [addBelow_of_array array]
      exact Appending.element.fits_run parent _ allocator fits
    · rw [addBelow_of_other object (not_and_or.mp array)]
      exact fits.add _

/-- Adding below a value does to the tree that it shows what adding below a tree does. -/
theorem simulates_addBelow (assignment : Assignment) (token : String) :
    Simulates heap place (assignment.addBelow ⟨some place⟩ token) (assignment.grow token) := by
  intro origin value tree related held room
  have kind : value.kind heap = tree.kind := by
    rw [Value.kind, related.backing_eq held, Content.kind_map, related.kind_eq]
  by_cases object : tree.kind = .object
  · rw [addBelow_of_object (kind.trans object)] at room ⊢
    obtain ⟨done, origin', moves, shows⟩ :=
      simulates_append (.member token) assignment.tree related held room
    cases tree <;> cases object
    exact ⟨congrArg answered done, origin', moves, shows⟩
  · by_cases array : tree.kind = .array ∧ token = "-"
    · obtain ⟨array, rfl⟩ := array
      rw [addBelow_of_array (kind.trans array)] at room ⊢
      obtain ⟨done, origin', moves, shows⟩ :=
        simulates_append .element assignment.tree related held room
      cases tree <;> cases array
      exact ⟨congrArg answered done, origin', moves, shows⟩
    · rw [← kind] at object array
      rw [addBelow_of_other object (not_and_or.mp array)]
      rw [kind] at object array ⊢
      have nothing : tree.grown? token assignment.tree = none := by
        cases tree with
        | object members => exact absurd rfl object
        | array items => exact if_neg fun dash => array ⟨rfl, dash⟩
        | _ => rfl
      rw [grow, nothing]
      exact ⟨rfl, origin, .stays held, related⟩

end Assignment

/-! ### Documents -/

/-- A document shows a tree, and its arena has at most some number of slots. -/
structure Carries (heap : Heap) (document : Document) (tree : Tree) (size : Nat) : Prop where
  shows : ∃ origin : Origin, origin.Held heap document.arena ∧
    Shows document.arena origin document.root tree
  fits : heap.Fits document.arena size

namespace Carries

variable {heap : Heap} {document : Document} {tree changed : Tree} {size : Nat}
  {assignment : Assignment} {path : List ChildKey}

/-- What is at a place is replaced. -/
theorem replace (carries : Carries heap document tree size) (small : size ≤ Arena.slotLimit)
    (placed : tree.place? assignment.pointer.tokens = some path)
    (replaced : tree.replaceAt path assignment.tree = some changed) :
    ∃ root, assignment.apply heap document = .ok (heap, { document with root }) ∧
      Carries heap { document with root } changed size := by
  obtain ⟨⟨origin, held, shows⟩, fits⟩ := carries
  have same : (document.root.edit heap
      (fun heap _ => (⟨heap, Value.ofTree assignment.tree, ()⟩ : Value.Edited Unit)) path).heap =
      heap := Value.heap_edit _ _ _ path
  have simulates : Simulates heap document.arena
      (fun heap _ => ⟨heap, Value.ofTree assignment.tree, ()⟩) fun _ => (assignment.tree, ()) :=
    fun related held room => ⟨rfl, (simulates_assign assignment.tree related held room).2⟩
  obtain ⟨⟨_, _⟩, edited, rfl⟩ := Option.map_eq_some_iff.mp replaced
  obtain ⟨-, origin', moves, after⟩ :=
    shows.edit simulates path held edited (same.symm ▸ fits.hasRoom small)
  refine ⟨(document.root.edit heap _ path).value, ?_, ⟨origin', same ▸ moves.held, after⟩, fits⟩
  simp only [Assignment.apply, Pointer.modify, shows.pointer_edit_eq held placed, same]

/-- Where there is no place, something is added below the place above it, or that is refused. -/
theorem add (carries : Carries heap document tree size)
    (room : size + assignment.tree.count ≤ Arena.slotLimit) {last : String} {parent : Tree}
    (missing : tree.place? assignment.pointer.tokens = none)
    (split : assignment.pointer.tokens.getLast? = some last)
    (placed : tree.place? assignment.pointer.tokens.dropLast = some path)
    (reached : tree.at? path = some parent)
    (replaced : tree.replaceAt path (assignment.grow last parent).1 = some changed) :
    ∃ after root, Carries after { document with root } changed (size + assignment.tree.count) ∧
      assignment.apply heap document =
        (assignment.grow last parent).2.map fun _ => (after, { document with root }) := by
  obtain ⟨⟨origin, held, shows⟩, fits⟩ := carries
  obtain ⟨nothing, same, shows⟩ := shows.pointer_edit_none held missing
    fun heap _ => ⟨heap, Value.ofTree assignment.tree, ()⟩
  have fits (value : Value) : (value.edit heap
      (assignment.addBelow document.allocator last) path).heap.Fits document.arena
        (size + assignment.tree.count) := by
    rw [Value.heap_edit]
    exact assignment.fits_addBelow document.allocator last _ fits
  have edited : tree.editAt (assignment.grow last) path =
      some (changed, (assignment.grow last parent).2) := by
    rw [Tree.editAt_eq reached, replaced, Option.map_some]
  obtain ⟨done, origin', moves, after⟩ := shows.edit (assignment.simulates_addBelow last) path held
    edited ((fits _).hasRoom room)
  refine ⟨_, (Value.edit heap _ _ path).value, ⟨⟨origin', moves.held, after⟩, fits _⟩, ?_⟩
  simp only [Assignment.apply, Pointer.modify, nothing, same, Pointer.splitLast?, split,
    Option.map_some, shows.pointer_edit_eq held placed, Document.allocator, done]
  cases (assignment.grow last parent).2 <;> rfl

/-- Without a place above there is nothing to add to. -/
theorem refuse (carries : Carries heap document tree size)
    (missing : tree.place? assignment.pointer.tokens = none)
    (alone : ∀ last, assignment.pointer.tokens.getLast? = some last →
      tree.place? assignment.pointer.tokens.dropLast = none) :
    ∃ problem, assignment.apply heap document = .error problem := by
  obtain ⟨⟨origin, held, shows⟩, -⟩ := carries
  obtain ⟨nothing, same, shows⟩ := shows.pointer_edit_none held missing
    fun heap _ => ⟨heap, Value.ofTree assignment.tree, ()⟩
  cases split : assignment.pointer.tokens.getLast? with
  | none =>
    simp only [Assignment.apply, Pointer.modify, nothing, Pointer.splitLast?, split,
      Option.map_none]
    exact ⟨_, rfl⟩
  | some last =>
    obtain ⟨none, -, -⟩ := shows.pointer_edit_none held (alone last split)
      (assignment.addBelow document.allocator last)
    simp only [Assignment.apply, Pointer.modify, nothing, same, Pointer.splitLast?, split,
      Option.map_some, none]
    exact ⟨_, rfl⟩

/-- An assignment succeeds on a document if it does on the tree, and then the document shows
what the tree becomes. -/
theorem apply (carries : Carries heap document tree size)
    (room : size + assignment.tree.count ≤ Arena.slotLimit) :
    Mirrors (fun changed result =>
        Carries result.1 result.2 changed (size + assignment.tree.count))
      (tree.assigned? assignment) (assignment.apply heap document) := by
  unfold Tree.assigned?
  cases placed : tree.place? assignment.pointer.tokens with
  | some path =>
    obtain ⟨found, reached⟩ := Tree.exists_at?_of_place? placed
    obtain ⟨changed, replaced⟩ := Tree.exists_replaceAt reached assignment.tree
    obtain ⟨root, applied, carries⟩ :=
      carries.replace ((Nat.le_add_right _ _).trans room) placed replaced
    simp only [replaced, applied]
    exact .done ⟨carries.shows, carries.fits.add _⟩
  | none =>
    cases split : assignment.pointer.tokens.getLast? with
    | none =>
      obtain ⟨problem, refused⟩ := carries.refuse placed fun last again => by
        cases split.symm.trans again
      rw [refused]
      exact .refused problem
    | some last =>
      cases above : tree.place? assignment.pointer.tokens.dropLast with
      | none =>
        obtain ⟨problem, refused⟩ := carries.refuse placed fun _ _ => above
        rw [refused]
        exact .refused problem
      | some path =>
        obtain ⟨parent, reached⟩ := Tree.exists_at?_of_place? above
        obtain ⟨changed, replaced⟩ :=
          Tree.exists_replaceAt reached (assignment.grow last parent).1
        obtain ⟨after, root, carries, applied⟩ :=
          carries.add room placed split above reached replaced
        simp only [Option.bind_some, reached]
        rw [applied]
        rw [Assignment.grow] at replaced ⊢
        cases grown : parent.grown? last assignment.tree with
        | none => exact .refused _
        | some more =>
          rw [grown] at replaced
          rw [Option.bind_some, replaced]
          exact .done carries

end Carries

/-! ### From an input to an answer -/

theorem split?_eq (characters : List Char) :
    Assignment.split? characters =
      if '=' ∈ characters then
        some (characters.takeWhile (· != '='), (characters.dropWhile (· != '=')).tail)
      else none := by
  induction characters with
  | nil => rfl
  | cons first rest inductionHypothesis =>
    by_cases sign : first = '='
    · subst sign
      simp [Assignment.split?]
    · rw [Assignment.split?, inductionHypothesis]
      · by_cases later : '=' ∈ rest <;> simp [sign, later, Ne.symm sign]
      · exact sign

/-- A text is read as the assignment that it stands for. -/
theorem mirrors_parse (text : String) : Mirrors Eq (assignment? text) (Assignment.parse text) := by
  rw [Assignment.parse, split?_eq, assignment?]
  by_cases sign : '=' ∈ text.toList
  · rw [if_pos sign, if_pos sign]
    refine (Mirrors.mapError _).bind fun pointer _ _ same => ?_
    subst same
    rw [Option.map_eq_bind]
    refine (Mirrors.mapError _).bind fun tree _ _ same => ?_
    subst same
    exact .done rfl
  · rw [if_neg sign, if_neg sign]
    exact .refused _

/-- All assignments succeed on a document if they do on the tree. -/
theorem Carries.assignAll {heap : Heap} {document : Document} {tree : Tree} {size : Nat}
    {texts : List String} (carries : Carries heap document tree size)
    (room : size + assignedCount texts ≤ Arena.slotLimit) :
    Mirrors (fun changed result => ∃ size, Carries result.1 result.2 changed size)
      (assignedAll? tree texts) (CommandLine.assignAll heap document texts) := by
  induction texts generalizing heap document tree size with
  | nil => exact .done ⟨size, carries⟩
  | cons text rest inductionHypothesis =>
    rw [assignedCount, List.map_cons, List.sum_cons, ← Nat.add_assoc] at room
    have unrolled : assignedAll? tree (text :: rest) =
        (assignment? text).bind fun assignment =>
          (tree.assigned? assignment).bind fun changed => assignedAll? changed rest := by
      rw [assignedAll?, List.foldlM_cons]
      exact Option.bind_assoc _ _ _
    rw [unrolled, CommandLine.assignAll]
    refine (mirrors_parse text).bind fun assignment _ parsed same => ?_
    subst same
    rw [parsed] at room
    refine (carries.apply ((Nat.le_add_right _ _).trans room)).bind fun changed result _ after => ?_
    exact inductionHypothesis after room

/-- What a pointer selects in a document shows what it selects in the tree. -/
theorem Carries.select {heap : Heap} {document : Document} {tree : Tree} {size : Nat}
    (carries : Carries heap document tree size) (path : Option String) :
    Mirrors Eq (selected? tree path) (CommandLine.select heap document path) := by
  obtain ⟨⟨origin, held, shows⟩, -⟩ := carries
  cases path with
  | none => exact .done (shows.visible_eq held).symm
  | some path =>
    refine (Mirrors.mapError _).bind fun pointer _ _ same => ?_
    subst same
    simp only [Pointer.get?]
    cases placed : tree.place? pointer.tokens with
    | none =>
      rw [shows.pointer_read_eq_none held placed]
      exact .refused _
    | some keys =>
      obtain ⟨found, reached⟩ := Tree.exists_at?_of_place? placed
      obtain ⟨reference, answer, refers⟩ := shows.pointer_read held placed reached
      obtain ⟨child, source, means, heldBelow, below, -⟩ := refers.target
      rw [answer, Option.bind_some, Option.bind_some, reached, means]
      exact .done (below.visible_eq heldBelow).symm

/-- A new document shows the tree that it was made from. -/
theorem carries_ofTree {tree : Tree} (room : tree.count ≤ Arena.slotLimit) :
    Carries (Document.ofTree .empty tree).1 (Document.ofTree .empty tree).2 tree tree.count := by
  have found := Document.arena?_ofTree .empty tree
  have size : ((Arena.empty.store tree).2.setRoot (Arena.empty.store tree).1).slots.size ≤
      tree.count := (Arena.allocates_store .empty tree).size_slots_le_add.trans (Nat.zero_add _).le
  obtain ⟨layout, id, rfl, rooted⟩ := Arena.rooted_store_empty tree (size.trans room)
  refine ⟨⟨.stored layout, ⟨_, found, rooted.sound, rooted.holds, rooted.distinct⟩, ?_⟩, ?_⟩
  · have shows := Shows.fresh (Document.ofTree .empty layout.tree).2.arena (.stored layout)
    rw [Origin.fresh, Origin.storage, id] at shows
    exact shows
  · intro arena present
    rw [found, Option.some.injEq] at present
    exact present ▸ size

/-- The command answers what plain trees answer. -/
theorem mirrors_evaluate {arguments : Arguments} {input : Stream}
    (room : valueCount arguments input ≤ Arena.slotLimit) :
    Mirrors Eq (answer? arguments input) (evaluate arguments input) := by
  refine (Mirrors.mapError _).bind fun tree _ parsed same => ?_
  subst same
  rw [valueCount, parsed] at room
  have carries := carries_ofTree ((Nat.le_add_right _ _).trans room)
  refine (carries.assignAll room).bind fun edited result _ after => ?_
  obtain ⟨size, after⟩ := after
  rw [Option.map_eq_bind]
  refine (after.select arguments.pointer).bind fun selected _ _ same => ?_
  subst same
  rw [Tree.write_eq, Tree.text_eq]
  exact .done rfl

/-! ### Files -/

section

variable {σ : Type} {surroundings : Surroundings (StateM σ)} {arguments : Arguments} {input : Stream}
  {state opened : σ}

/-- Puts the text of an answer where the arguments say. -/
def deliver {m : Type → Type} [Monad m] (surroundings : Surroundings m) (arguments : Arguments)
    (text : String) : m (Except Problem Unit) := do
  match file? arguments.output with
  | none =>
    surroundings.print text
    return .ok ()
  | some target =>
    match ← surroundings.createFile target text with
    | .error reason => return .error (.system reason)
    | .ok () =>
      surroundings.print (report surroundings.workingDirectory (file? arguments.input) target)
      return .ok ()

/-- Once the input is read there is a problem, or a text to put where it belongs. -/
theorem run_eq_deliver (read : (opening surroundings arguments).run state = (.ok input, opened)) :
    (run surroundings arguments).run state =
      match evaluate arguments input with
      | .error problem => (.error problem, opened)
      | .ok text => (deliver surroundings arguments text).run opened := by
  unfold opening at read
  unfold run deliver
  cases source : file? arguments.input
  all_goals
    simp only [source] at read
    simp only [StateT.run_bind, read]
    dsimp only [bind, Id.instMonad]
    cases evaluate arguments input <;> rfl

end

/-- The command does to its surroundings what becomes of the answer of plain trees. Without an
answer there is a problem, and after reading nothing is touched; an answer is printed or goes
to a file, and that is reported. -/
theorem run_eq_answer {σ : Type} (surroundings : Surroundings (StateM σ)) (arguments : Arguments)
    {input : Stream} {state opened : σ}
    (read : (opening surroundings arguments).run state = (.ok input, opened))
    (room : valueCount arguments input ≤ Arena.slotLimit) :
    (answer? arguments input = none →
      ∃ problem, (run surroundings arguments).run state = (.error problem, opened)) ∧
    ∀ text, answer? arguments input = some text →
      (file? arguments.output = none → (run surroundings arguments).run state =
        (.ok (), ((surroundings.print text).run opened).2)) ∧
      ∀ target, file? arguments.output = some target →
        (∀ reason written, (surroundings.createFile target text).run opened =
            (.error reason, written) →
          (run surroundings arguments).run state = (.error (.system reason), written)) ∧
        ∀ written, (surroundings.createFile target text).run opened = (.ok (), written) →
          (run surroundings arguments).run state = (.ok (), ((surroundings.print
            (report surroundings.workingDirectory (file? arguments.input) target)).run written).2) := by
  have mirrors := mirrors_evaluate room
  generalize evaluated : evaluate arguments input = result at mirrors
  refine ⟨fun nothing => ?_, fun text answered => ?_⟩
  · rw [nothing] at mirrors
    cases mirrors with
    | refused problem => exact ⟨problem, by rw [run_eq_deliver read, evaluated]⟩
  · rw [answered] at mirrors
    cases mirrors with
    | done same =>
      subst same
      rw [run_eq_deliver read, evaluated]
      dsimp only [deliver]
      refine ⟨fun standard => ?_, fun target named => ⟨fun reason written failed => ?_,
        fun written created => ?_⟩⟩
      · rw [standard]
        rfl
      · rw [named]
        simp only [StateT.run_bind, failed]
        rfl
      · rw [named]
        simp only [StateT.run_bind, created]
        rfl

/-- An element is added to the first of two arrays with one name, and what was assigned is
assigned and added to in its turn. -/
def requested : Arguments where
  pointer := some "/a"
  assignments := ["/a/-=\x7b\"x\":1\x7d", "/a/1/x=[true]", "/a/1/y/=null", "/a/1/x/-=\"=\""]

/-- The bytes of the two arrays. -/
def twoArrays : ByteArray := "\x7b\"a\":[2],\"a\":[]\x7d".toUTF8

/-- A home directory without files. -/
def home : FileSystem := { home := ["home"], files := [] }

theorem run_eq_answer_requested :
    (opening (FileSystem.surroundings "/home" twoArrays) requested).run home =
        (.ok { bytes := twoArrays }, home) ∧
      valueCount requested { bytes := twoArrays } ≤ Arena.slotLimit ∧
      (run (FileSystem.surroundings "/home" twoArrays) requested).run home =
        (.ok (), { home with printed := "[2,\x7b\"x\":[true,\"=\"],\"y\":null\x7d]" }) := by
  have answered : answer? requested { bytes := twoArrays } =
      some "[2,\x7b\"x\":[true,\"=\"],\"y\":null\x7d]" := by decide +kernel
  have room : valueCount requested { bytes := twoArrays } ≤ Arena.slotLimit := by decide +kernel
  obtain ⟨-, answers⟩ := run_eq_answer (FileSystem.surroundings "/home" twoArrays) requested rfl room
  exact ⟨rfl, room, (answers _ answered).1 rfl⟩

end CommandLine

end JsonOverlay
