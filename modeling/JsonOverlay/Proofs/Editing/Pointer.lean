/-
This file follows pointers in the values of a document. Where the tokens name a place in the
tree that a value shows, following them is following the path to that place. Where they do
not, the walk ends early, and what was looked up on the way changes nothing of the tree.
-/

import JsonOverlay.Proofs.Editing.Lookup
import JsonOverlay.Proofs.Pointer

namespace JsonOverlay

/-- The step for reading that leads to a key. -/
def ChildKey.step : ChildKey → Step
  | .member name => .member name
  | .element index => .element index
  | .repeated position => .nth position

theorem ChildKey.keys?_step (content : Content Value) {key : ChildKey}
    (plain : ∀ position, key ≠ .repeated position) : key.step.keys? content = some ([], key) := by
  cases key with
  | repeated position => exact absurd rfl (plain position)
  | _ => rfl

/-- A path for writing may be read as well. -/
theorem Tree.follow?_steps {tree found : Tree} {path : List ChildKey}
    (reached : tree.at? path = some found) : tree.follow? (path.map ChildKey.step) = some found := by
  induction path generalizing tree with
  | nil => exact reached
  | cons key rest inductionHypothesis =>
    obtain ⟨child, named, below⟩ := Option.bind_eq_some_iff.mp reached
    have stepped : tree.content.stepTo? key.step = some child := by
      cases key with
      | repeated position => cases named
      | _ => exact named
    rw [List.map_cons, follow?, stepped, Option.bind_some, inductionHypothesis below]

namespace Shows

variable {heap : Heap} {place : ArenaId} {origin : Origin} {value : Value} {tree : Tree}
  {key : ChildKey} {child : Tree}

/-- The child of a value that a token leads to is the one that it names in the tree. -/
theorem key?_eq (related : Shows place origin value tree) (held : origin.Held heap place)
    (token : String) : Pointer.key? (value.backing heap) token = tree.content.keyOf? token := by
  rw [Pointer.key?_eq]
  refine Content.keyOf?_congr ?_ token
  rw [related.backing_eq held, Content.outline_map, related.outline_eq]

/-- The entry at the key of a child of the tree shows that child. -/
theorem at_named {entry : Entry Value} (related : Shows place origin value tree)
    (present : value.children.get? key = some entry) (named : tree.content.named? key = some child) :
    ∃ source, ShowsAt place origin tree key entry.current.value source child := by
  obtain ⟨source, shown, there⟩ := related.at_entry present
  have same : shown = child :=
    Option.some.inj (there.child.symm.trans (Content.child?_of_named? named))
  exact ⟨source, same ▸ there⟩

/-- Looking up a child of the tree for reading leaves an entry that shows it. -/
theorem look_named (related : Shows place origin value tree) (held : origin.Held heap place)
    (named : tree.content.named? key = some child) :
    ∃ entry source, Shows place origin (value.look heap key) tree ∧
      (value.look heap key).children.get? key = some entry ∧
      ShowsAt place origin tree key entry.current.value source child := by
  obtain ⟨looked, entry, present⟩ :=
    related.look held (related.keys_eq ▸ Content.mem_keys_of_named? named)
  obtain ⟨source, there⟩ := looked.at_named present named
  exact ⟨entry, source, looked, present, there⟩

/-- So does reaching it for writing. -/
theorem reach_named (related : Shows place origin value tree) (held : origin.Held heap place)
    (named : tree.content.named? key = some child) :
    ∃ entry source, Shows place origin (value.reach heap key) tree ∧
      (value.reach heap key).children.get? key = some entry ∧
      ShowsAt place origin tree key entry.current.value source child := by
  obtain ⟨reached, entry, present⟩ :=
    related.reach held (related.keys_eq ▸ Content.mem_keys_of_named? named)
  obtain ⟨source, there⟩ := reached.at_named present named
  exact ⟨entry, source, reached, present, there⟩

/-! ### Pointers for reading -/

theorem pointer_read_eq {tokens : List String} {path : List ChildKey}
    (related : Shows place origin value tree) (held : origin.Held heap place)
    (placed : tree.place? tokens = some path) :
    Pointer.read heap value tokens = value.read heap (path.map ChildKey.step) := by
  induction tokens generalizing origin value tree path with
  | nil =>
    cases placed
    rfl
  | cons token rest inductionHypothesis =>
    obtain ⟨key, child, below, found, named, placedBelow, rfl⟩ := Tree.place?_cons_eq_some placed
    obtain ⟨entry, source, -, present, there⟩ := related.look_named held named
    have steps := ChildKey.keys?_step (value.backing heap) (Content.not_repeated_of_named? named)
    have read := inductionHypothesis there.shows (held_source held there) placedBelow
    simp only [Pointer.read, related.key?_eq held, found, List.map_cons, Value.read, steps,
      List.nil_append, List.foldl_cons, List.foldl_nil, Value.child_eq present, read]

/-- A pointer finds the tree at its place. -/
theorem pointer_read {tokens : List String} {path : List ChildKey} {found : Tree}
    (related : Shows place origin value tree) (held : origin.Held heap place)
    (placed : tree.place? tokens = some path) (reached : tree.at? path = some found) :
    ∃ reference, (Pointer.read heap value tokens).2 = some reference ∧
      Refers heap place origin tree (Pointer.read heap value tokens).1 reference found := by
  rw [related.pointer_read_eq held placed]
  exact related.read _ held (Tree.follow?_steps reached)

theorem pointer_read_eq_none {tokens : List String} (related : Shows place origin value tree)
    (held : origin.Held heap place) (missing : tree.place? tokens = none) :
    (Pointer.read heap value tokens).2 = none := by
  induction tokens generalizing origin value tree with
  | nil => cases missing
  | cons token rest inductionHypothesis =>
    cases found : tree.content.keyOf? token with
    | none => simp only [Pointer.read, related.key?_eq held, found]
    | some key =>
      obtain ⟨child, named⟩ := Content.exists_named?_of_keyOf? found
      obtain ⟨entry, source, -, present, there⟩ := related.look_named held named
      rw [Tree.place?, found, Option.bind_some, named, Option.bind_some, Option.map_eq_none_iff]
        at missing
      have nothing := inductionHypothesis there.shows (held_source held there) missing
      simp only [Pointer.read, related.key?_eq held, found, Value.child_eq present, nothing,
        Option.map_none]

/-! ### Pointers for writing -/

variable {β : Type}

/-- Following tokens that name a place is following the path to it. -/
theorem pointer_edit_eq {tokens : List String} {path : List ChildKey}
    {change : Heap → Value → Value.Edited β} (related : Shows place origin value tree)
    (held : origin.Held heap place) (placed : tree.place? tokens = some path) :
    Pointer.edit heap value change tokens =
      ⟨(value.edit heap change path).heap, (value.edit heap change path).value,
        some (value.edit heap change path).result⟩ := by
  induction tokens generalizing origin value tree path with
  | nil =>
    cases placed
    rfl
  | cons token rest inductionHypothesis =>
    obtain ⟨key, child, below, found, named, placedBelow, rfl⟩ := Tree.place?_cons_eq_some placed
    obtain ⟨entry, source, -, present, there⟩ := related.reach_named held named
    have edited := inductionHypothesis there.shows (held_source held there) placedBelow
    simp only [Pointer.edit, related.key?_eq held, found, Value.edit, Value.child_eq present, edited]

/-- A pointer that leads nowhere changes nothing. -/
theorem pointer_edit_none {tokens : List String} (related : Shows place origin value tree)
    (held : origin.Held heap place) (missing : tree.place? tokens = none)
    (change : Heap → Value → Value.Edited β) :
    (Pointer.edit heap value change tokens).result = none ∧
      (Pointer.edit heap value change tokens).heap = heap ∧
      Shows place origin (Pointer.edit heap value change tokens).value tree := by
  induction tokens generalizing origin value tree with
  | nil => cases missing
  | cons token rest inductionHypothesis =>
    cases found : tree.content.keyOf? token with
    | none =>
      simp only [Pointer.edit, related.key?_eq held, found, true_and]
      exact related
    | some key =>
      obtain ⟨child, named⟩ := Content.exists_named?_of_keyOf? found
      obtain ⟨entry, source, reached, present, there⟩ := related.reach_named held named
      rw [Tree.place?, found, Option.bind_some, named, Option.bind_some, Option.map_eq_none_iff]
        at missing
      obtain ⟨nothing, same, shows⟩ :=
        inductionHypothesis there.shows (held_source held there) missing
      simp only [Pointer.edit, related.key?_eq held, found, Value.child_eq present]
      exact ⟨nothing, same, reached.writeChild_of_same present there shows⟩

end Shows

end JsonOverlay
