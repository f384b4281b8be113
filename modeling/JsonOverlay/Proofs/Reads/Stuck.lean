/-
This file shows what a look that is not careful leaves behind. It goes below a gap, and what
it looks up there is taken for something that was done to the placeholder in the gap. The
placeholder then stays and is null, whatever is added to the level later.
-/

import JsonOverlay.Proofs.Editing.Origin
import JsonOverlay.Proofs.Editing.Plain
import JsonOverlay.Proofs.Reads.Paths

namespace JsonOverlay

namespace Value

variable {heap : Heap} {value child : Value} {key : ChildKey} {placeholder : Bool}
  {path : List Selector}

/-- At the end of a path there is a gap in which null stays, as something was looked up
through it. The path leads through children that are not placeholders. -/
def Stuck (key : ChildKey) : List Selector → Value → Prop
  | [], value => ∃ child, value.children.find? key = some (child, true) ∧
      child.storage = .detached .null ∧ child.isBlank = false
  | selector :: rest, value =>
    ∃ child, value.children.find? selector.key = some (child, false) ∧ Stuck key rest child

/-! ### What is shown is found again -/

theorem outcome_plan_of_isShown (found : value.children.find? key = some (child, placeholder))
    (shown : isShown key child placeholder = true) :
    (value.plan heap key).outcome (value.children.find? key) = (child, placeholder) := by
  simp only [plan, found, shown]
  rfl

theorem find?_look_of_isShown (found : value.children.find? key = some (child, placeholder))
    (shown : isShown key child placeholder = true) :
    (value.look heap key).children.find? key = some (child, placeholder) := by
  rw [look, Children.find?_resolve, if_pos rfl, outcome_plan_of_isShown found shown]

theorem find?_reach_of_isShown (found : value.children.find? key = some (child, placeholder))
    (shown : isShown key child placeholder = true) :
    (value.reach heap key).children.find? key = some (child, placeholder) := by
  rw [reach, Children.find?_resolveForWriting, if_pos rfl, outcome_plan_of_isShown found shown]

/-! ### Additions -/

/-- Whatever is added at the end of the path, null stays in the gap. -/
theorem Stuck.edit (stuck : value.Stuck key path) (heap : Heap) (operation : Operation)
    (adds : ∀ value, (operation.run heap value).value.children = value.children ∨
      ∃ other, (operation.run heap value).value.children =
        value.children.forgetPlaceholder other isBlank) :
    (value.edit heap operation.run (path.map Selector.key)).value.Stuck key path := by
  induction path generalizing value with
  | nil =>
    obtain ⟨child, found, null, touched⟩ := stuck
    refine ⟨child, ?_, null, touched⟩
    show (operation.run heap value).value.children.find? key = some (child, true)
    rcases adds value with same | ⟨other, forgot⟩
    · rw [same, found]
    · rw [forgot, Children.find?_forgetPlaceholder]
      by_cases here : key = other
      · subst here
        rw [if_pos rfl, found, Option.filter_some]
        simp [touched]
      · rw [if_neg here, found]
  | cons selector rest inductionHypothesis =>
    obtain ⟨child, found, below⟩ := stuck
    have reached : (value.reach heap selector.key).children.find? selector.key =
        some (child, false) :=
      find?_reach_of_isShown found (by cases selector <;> rfl)
    refine ⟨(child.edit heap operation.run (rest.map Selector.key)).value, ?_,
      inductionHypothesis below⟩
    rw [List.map_cons, Value.edit, child_of_find? reached]
    exact (Children.find?_write reached _ selector.key).trans (if_pos rfl)

/-- Appending forgets at most a placeholder to which nothing was done. -/
theorem append_adds (appending : Appending) (operand : Value) (allocator : Allocator) (heap : Heap)
    (value : Value) :
    (appending.run heap value operand allocator).value.children = value.children ∨
      ∃ other, (appending.run heap value operand allocator).value.children =
        value.children.forgetPlaceholder other isBlank := by
  obtain ⟨reference | content, table⟩ := value
  · rw [Appending.run_attached]
    split
    · exact .inl rfl
    · split
      · exact .inr ⟨_, rfl⟩
      · exact .inl rfl
  · rw [Appending.run_detached]
    split
    · exact .inr ⟨_, rfl⟩
    · exact .inl rfl

/-! ### Looks -/

/-- Going on below a child that was looked up. -/
theorem read_of_find? {selector : Selector} {rest : List Step} {below : Reference}
    {target : Value}
    (looked : (value.look heap selector.key).children.find? selector.key = some (child, placeholder))
    (answer : (child.read heap rest).2 = some below)
    (found : (child.read heap rest).1.at? below = some target) :
    ∃ reference, (value.read heap (selector.step :: rest)).2 = some reference ∧
      (value.read heap (selector.step :: rest)).1.at? reference = some target ∧
      ∀ change, ∃ table, (value.read heap (selector.step :: rest)).1.writeAt change reference =
          ⟨value.storage, table⟩ ∧
        table.find? selector.key =
          some ((child.read heap rest).1.writeAt change below, placeholder) := by
  obtain ⟨entry, present, current, flag⟩ := exists_get?_of_find? looked
  have version : (value.look heap selector.key).child selector.key = entry.current := by
    rw [Value.child, present]
  refine ⟨(selector.key, entry.current.serial) :: below, ?_, ?_, fun change => ?_⟩
  · rw [read_selector, version, current, answer]
    rfl
  · rw [read_selector, version, current]
    exact (at?_writeChild present _ below).trans found
  · obtain ⟨table, equal, -, find⟩ :=
      writeAt_writeChild present (child.read heap rest).1 change below
    refine ⟨table, ?_, ?_⟩
    · rw [read_selector, version, current]
      exact equal
    · rw [find, if_pos rfl, flag]

/-- A path without positions is always answered. -/
theorem exists_read (heap : Heap) (value : Value) (path : List Selector) :
    ∃ reference target, (value.read heap (path.map Selector.step)).2 = some reference ∧
      (value.read heap (path.map Selector.step)).1.at? reference = some target := by
  induction path generalizing value with
  | nil => exact ⟨[], value, rfl, rfl⟩
  | cons selector rest inductionHypothesis =>
    have looked : (value.look heap selector.key).children.find? selector.key =
        some ((value.plan heap selector.key).outcome (value.children.find? selector.key)) := by
      rw [look, Children.find?_resolve, if_pos rfl]
    obtain ⟨below, target, answer, found⟩ :=
      inductionHypothesis ((value.plan heap selector.key).outcome
        (value.children.find? selector.key)).1
    obtain ⟨reference, answered, same, -⟩ := read_of_find? looked answer found
    exact ⟨reference, target, answered, same⟩

/-- A look at the gap finds null. -/
theorem Stuck.read (stuck : value.Stuck key path) (heap : Heap) {selector : Selector}
    (same : selector.key = key) :
    ∃ reference target,
      (value.read heap ((path ++ [selector]).map Selector.step)).2 = some reference ∧
      (value.read heap ((path ++ [selector]).map Selector.step)).1.at? reference = some target ∧
      target.storage = .detached .null := by
  induction path generalizing value with
  | nil =>
    obtain ⟨child, found, null, touched⟩ := stuck
    rw [← same] at found
    have looked : (value.look heap selector.key).children.find? selector.key = some (child, true) :=
      find?_look_of_isShown found (by cases selector <;> simp [Selector.key, isShown, touched])
    have ends : (child.read heap []).1.at? [] = some child := rfl
    obtain ⟨reference, answer, there, -⟩ := read_of_find? looked rfl ends
    exact ⟨reference, child, answer, there, null⟩
  | cons first rest inductionHypothesis =>
    obtain ⟨child, found, below⟩ := stuck
    obtain ⟨deeper, target, answer, there, null⟩ := inductionHypothesis below
    have looked : (value.look heap first.key).children.find? first.key = some (child, false) :=
      find?_look_of_isShown found (by cases first <;> rfl)
    obtain ⟨reference, answered, same, -⟩ := read_of_find? looked answer there
    exact ⟨reference, target, answered, same, null⟩

/-! ### Looks that are not careful -/

/-- A look below null does something to it. -/
theorem exists_read_null (heap : Heap) (selector : Selector) (rest : List Selector)
    (null : value.storage = .detached .null) :
    ∃ reference target,
      (value.read heap ((selector :: rest).map Selector.step)).2 = some reference ∧
      (value.read heap ((selector :: rest).map Selector.step)).1.at? reference = some target ∧
      ∀ change, ((value.read heap ((selector :: rest).map Selector.step)).1.writeAt change
          reference).storage = .detached .null ∧
        ((value.read heap ((selector :: rest).map Selector.step)).1.writeAt change
          reference).isBlank = false := by
  have looked : (value.look heap selector.key).children.find? selector.key =
      some ((value.plan heap selector.key).outcome (value.children.find? selector.key)) := by
    rw [look, Children.find?_resolve, if_pos rfl]
  obtain ⟨below, target, answer, found⟩ :=
    exists_read heap ((value.plan heap selector.key).outcome
      (value.children.find? selector.key)).1 rest
  obtain ⟨reference, answered, same, written⟩ := read_of_find? looked answer found
  refine ⟨reference, target, answered, same, fun change => ?_⟩
  obtain ⟨table, equal, present⟩ := written change
  rw [List.map_cons, equal]
  refine ⟨null, ?_⟩
  have full : table.isEmpty ≠ true := fun nothing => by
    rw [Children.isEmpty_iff.mp nothing selector.key] at present
    cases present
  simp only [isBlank, null]
  exact Bool.not_eq_true _ ▸ full

/-- Below a value that is null in itself there are no gaps. -/
theorem careful_of_null (path : List Selector) (null : value.storage = .detached .null)
    (nothing : value.children.keys = []) : value.Careful heap path := by
  induction path generalizing value with
  | nil => trivial
  | cons selector rest inductionHypothesis =>
    have unknown : value.children.find? selector.key = none :=
      Children.notMem_keys_iff_find?.mp (by rw [nothing]; exact List.not_mem_nil)
    have level : (value.backing heap) = .null := by rw [backing, null]
    have looked : (value.look heap selector.key).children.find? selector.key =
        some (Value.null, true) := by
      rw [look, Children.find?_resolve, if_pos rfl, plan, unknown, level]
      cases selector <;> rfl
    refine ⟨.inr fun gap => ?_, ?_⟩
    · have same : (value.look heap selector.key).backing heap = .null := level
      have admits := gap.1
      rw [same] at admits
      exact admits
    · rw [child_of_find? looked]
      exact inductionHypothesis rfl rfl

/-- A look along a path leaves null stuck in a gap of a tree, whatever is then written to the
value that the look leads to. -/
def Sticks (heap : Heap) (value : Value) (tree : Tree) (path : List Selector) : Prop :=
  ∃ (above : List Selector) (selector : Selector) (container : Tree),
    above ++ [selector] <+: path ∧
    tree.at? (above.map Selector.key) = some container ∧
    container.content.admits selector.key ∧ container.content.child? selector.key = none ∧
    ∃ reference target,
      (value.read heap (path.map Selector.step)).2 = some reference ∧
      (value.read heap (path.map Selector.step)).1.at? reference = some target ∧
      ∀ change, ((value.read heap (path.map Selector.step)).1.writeAt change reference).Stuck
        selector.key above

section

variable {place : ArenaId} {origin source : Origin} {table : Children Value} {selector : Selector}
  {rest : List Selector}

/-- The first lookup at a key finds what is behind the value or a placeholder. -/
theorem find?_look_of_notMem (held : origin.Held heap place)
    (unknown : table.find? selector.key = none) :
    (Value.look ⟨origin.storage place, table⟩ heap selector.key).children.find? selector.key =
      some (((origin.content.child? selector.key).map fun source =>
        (source.fresh place, false)).getD (Value.null, true)) := by
  rw [look, Children.find?_resolve, if_pos rfl, plan, unknown, held.backing_eq table,
    Content.child?_map]
  cases origin.content.child? selector.key <;> rfl

/-- Null sticks in a gap at which the look goes on. -/
theorem sticks_of_missing (held : origin.Held heap place)
    (unknown : table.find? selector.key = none)
    (missing : origin.content.child? selector.key = none)
    (careless : ¬ Careful heap ⟨origin.storage place, table⟩ (selector :: rest)) :
    Sticks heap ⟨origin.storage place, table⟩ origin.tree (selector :: rest) := by
  have looked := find?_look_of_notMem held unknown
  have behind := origin.child?_content_tree selector.key
  rw [missing] at looked behind
  have below : (Value.null).Careful heap rest := careful_of_null rest rfl rfl
  rw [Careful, not_and_or, child_of_find? looked] at careless
  have gap := careless.resolve_right (not_not_intro below)
  rw [not_or, not_not] at gap
  obtain ⟨more, admits, -⟩ := gap
  obtain ⟨next, last, rfl⟩ := List.exists_cons_of_ne_nil more
  have null : Value.null.storage = .detached .null := rfl
  obtain ⟨reference, target, answer, found, touched⟩ := exists_read_null heap next last null
  obtain ⟨whole, answered, same, written⟩ := read_of_find? looked answer found
  refine ⟨[], selector, origin.tree, ⟨_, rfl⟩, rfl, ?_, behind, whole, target, answered, same,
    fun change => ?_⟩
  · have level : (Value.look ⟨origin.storage place, table⟩ heap selector.key).backing heap =
        origin.content.map (Origin.fresh place) := held.backing_eq table
    rw [level] at admits
    exact (Content.admits_congr (by rw [origin.content_tree, Content.kind_map,
      Content.kind_map])).mp admits
  · obtain ⟨changed, equal, present⟩ := written change
    rw [List.map_cons, equal]
    exact ⟨_, present, touched change⟩

/-- What sticks below a child sticks below the value. -/
theorem sticks_of_child (held : origin.Held heap place)
    (unknown : table.find? selector.key = none)
    (known : origin.content.child? selector.key = some source)
    (deeper : Sticks heap (source.fresh place) source.tree rest) :
    Sticks heap ⟨origin.storage place, table⟩ origin.tree (selector :: rest) := by
  have looked := find?_look_of_notMem held unknown
  have behind := origin.child?_content_tree selector.key
  rw [known] at looked behind
  obtain ⟨above, last, container, start, leads, admits, missing, below, target, answer, found,
    stuck⟩ := deeper
  obtain ⟨reference, answered, same, written⟩ := read_of_find? looked answer found
  refine ⟨selector :: above, last, container, List.cons_prefix_cons.mpr ⟨rfl, start⟩, ?_, admits,
    missing, reference, target, answered, same, fun change => ?_⟩
  · have named : origin.tree.content.named? selector.key = some source.tree := by
      cases selector <;> exact behind
    rw [List.map_cons, Tree.at?, named, Option.bind_some, leads]
  · obtain ⟨changed, equal, present⟩ := written change
    rw [List.map_cons, equal]
    exact ⟨_, present, stuck change⟩

/-- A look that is not careful, through a value through which nothing was looked up, leaves null
stuck in a gap. -/
theorem exists_stuck (held : origin.Held heap place) (nothing : table.keys = [])
    (careless : ¬ Careful heap ⟨origin.storage place, table⟩ path) :
    Sticks heap ⟨origin.storage place, table⟩ origin.tree path := by
  induction path generalizing origin table with
  | nil => exact absurd trivial careless
  | cons selector rest inductionHypothesis =>
    have unknown : table.find? selector.key = none :=
      Children.notMem_keys_iff_find?.mp (by rw [nothing]; exact List.not_mem_nil)
    cases known : origin.content.child? selector.key with
    | none => exact sticks_of_missing held unknown known careless
    | some source =>
      have looked := find?_look_of_notMem held unknown
      rw [known] at looked
      have solid : ¬ (Value.look ⟨origin.storage place, table⟩ heap selector.key).GapAt heap
          selector.key := by
        rintro ⟨-, child, found, -⟩
        rw [looked] at found
        cases found
      rw [Careful, not_and_or, child_of_find? looked, not_or] at careless
      have deeper := careless.resolve_left fun absurd => absurd.2 solid
      exact sticks_of_child held unknown known
        (inductionHypothesis (held.child known) rfl deeper)

end

end Value

end JsonOverlay
