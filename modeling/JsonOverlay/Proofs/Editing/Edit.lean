/-
This file follows an edit from the end of a path up to the root of a document. What is done
at the end may give the layout there a new level or leave a value without a node. In the
value above, the entry on the path takes in the result; if a layout changed, the layout
above has the new one grafted in, and the children at all other keys are what they were.
-/

import JsonOverlay.Proofs.Editing.Level
import JsonOverlay.Proofs.Editing.Lookup

namespace JsonOverlay

/-! ### Changes of what is behind a value -/

/-- What an edit does to the heap and to the origin of the edited value. Either the value ends
up without a node and the heap stays as it is, or one layout gives way to another. -/
inductive Moves (before : Heap) (place : ArenaId) : Heap → Origin → Origin → Prop where
  | loosened (origin : Origin) (tree : Tree) : Moves before place before origin (.loose tree)
  | reshaped {after : Heap} {old new : Layout} (change : before.Reshaped place old new after) :
      Moves before place after (.stored old) (.stored new)

namespace Moves

variable {before after : Heap} {place : ArenaId} {origin origin' source source' : Origin}
  {key : ChildKey}

/-- Nothing changes. -/
theorem stays (held : origin.Held before place) : Moves before place before origin origin := by
  cases origin with
  | loose tree => exact .loosened _ tree
  | stored layout => exact .reshaped (Heap.Holds.reshaped_refl held)

theorem held (moves : Moves before place after origin origin') : origin'.Held after place := by
  cases moves with
  | loosened tree => trivial
  | reshaped change => exact change.holds

/-- What a change of the child at a key means for the value above: its level keeps its outline
and the children at all other keys. -/
theorem above (moves : Moves before place after source source') (held : origin.Held before place)
    (member : key ∈ origin.content.keys)
    (derived : ∀ layout, source = .stored layout → origin.content.child? key = some source) :
    ∃ origin', Moves before place after origin origin' ∧
      origin'.storage place = origin.storage place ∧
      origin'.content.outline = origin.content.outline ∧
      (∀ other ∈ origin.content.keys, other ≠ key →
        origin'.content.child? other = origin.content.child? other) ∧
      ∀ layout, source' = .stored layout → origin'.content.child? key = some source' := by
  cases moves with
  | loosened source tree =>
    exact ⟨origin, stays held, rfl, rfl, fun _ _ _ => rfl, fun layout absurd => by cases absurd⟩
  | @reshaped after old new change =>
    have behind := derived old rfl
    cases origin with
    | loose tree =>
      rw [Origin.content, Content.child?_map] at behind
      obtain ⟨child, -, absurd⟩ := Option.map_eq_some_iff.mp behind
      cases absurd
    | stored outer =>
      simp only [Origin.content, Content.keys_map, Content.child?_map] at member behind
      obtain ⟨child, position, same⟩ := Option.map_eq_some_iff.mp behind
      cases same
      obtain ⟨outer', grafted, id, outline, others, new⟩ := change.above held member position
      refine ⟨.stored outer', .reshaped grafted, ?_, ?_, fun other inside different => ?_,
        fun layout same => ?_⟩
      · rw [Origin.storage, id]
        rfl
      · simp only [Origin.content, Content.outline_map, outline]
      · simp only [Origin.content, Content.keys_map, Content.child?_map] at inside ⊢
        rw [others other inside different]
      · cases same
        rw [Origin.content, Content.child?_map, new]
        rfl

end Moves

/-! ### Edits along a path -/

/-- A change to values does what a change to trees does, wherever the value comes from. -/
def Simulates {β : Type} (heap : Heap) (place : ArenaId) (change : Heap → Value → Value.Edited β)
    (plain : Tree → Tree × β) : Prop :=
  ∀ {origin : Origin} {value : Value} {tree : Tree}, Shows place origin value tree →
    origin.Held heap place → (change heap value).heap.HasRoom place →
      (change heap value).result = (plain tree).2 ∧
        ∃ origin', Moves heap place (change heap value).heap origin origin' ∧
          Shows place origin' (change heap value).value (plain tree).1

/-- Editing along a path does to the value above what editing does to the plain tree. -/
theorem Shows.edit {β : Type} {heap : Heap} {place : ArenaId}
    {change : Heap → Value → Value.Edited β} {plain : Tree → Tree × β}
    (simulates : Simulates heap place change plain) (path : List ChildKey) {origin : Origin}
    {value : Value} {tree changed : Tree} {result : β} (related : Shows place origin value tree)
    (held : origin.Held heap place) (edited : tree.editAt plain path = some (changed, result))
    (room : (value.edit heap change path).heap.HasRoom place) :
    (value.edit heap change path).result = result ∧
      ∃ origin', Moves heap place (value.edit heap change path).heap origin origin' ∧
        Shows place origin' (value.edit heap change path).value changed := by
  induction path generalizing origin value tree changed with
  | nil =>
    have equal : plain tree = (changed, result) := Option.some.inj edited
    have both := simulates related held room
    rw [equal] at both
    exact both
  | cons key rest inductionHypothesis =>
    obtain ⟨child, named, later⟩ := Option.bind_eq_some_iff.mp edited
    obtain ⟨⟨below, answer⟩, editedBelow, equal⟩ := Option.map_eq_some_iff.mp later
    cases equal
    have member : key ∈ origin.content.keys := related.keys_eq ▸ Content.mem_keys_of_named? named
    obtain ⟨reached, entry, present⟩ := related.reach held member
    obtain ⟨source, shown, there⟩ := reached.at_entry present
    have same : shown = child :=
      Option.some.inj (there.child.symm.trans (Content.child?_of_named? named))
    subst same
    have current := Value.child_eq present
    simp only [Value.edit, current] at room ⊢
    obtain ⟨done, source', moves, shows⟩ :=
      inductionHypothesis there.shows (held_source held there) editedBelow room
    refine ⟨done, ?_⟩
    obtain ⟨origin', moved, storage, outline, others, derived⟩ :=
      moves.above held member there.derived
    refine ⟨origin', moved, ?_⟩
    have new := Children.get?_write (value.reach heap key).children key
      (entry.current.value.edit heap change rest).value key
    rw [if_pos rfl, present, Option.map_some] at new
    have put : ShowsAt place origin' (Tree.ofContent (tree.content.withChild key below)) key
        (entry.current.value.edit heap change rest).value source' below := by
      refine ⟨shows, ?_, derived, fun position repeated => ?_⟩
      · rw [Tree.content_ofContent, Content.child?_withChild named _
          (Content.mem_keys_of_named? named), if_pos rfl]
      · exact absurd repeated (Content.not_repeated_of_named? named position)
    have replaced := reached.replace member outline
      (by rw [Tree.content_ofContent, Content.outline_withChild named]) others
      (fun other inside different => by
        rw [Tree.content_ofContent, Content.child?_withChild named _ (reached.keys_eq ▸ inside),
          if_neg different])
      (Children.nodup_write reached.tidy.distinct key _)
      (fun other different => by rw [Children.get?_write, if_neg different]) new
      (reached.tidy.placed key entry present) put
    rw [storage, ← reached.storage_eq] at replaced
    exact replaced

/-! ### Reaching a value for writing -/

/-- Reaching a value and showing it changes nothing. -/
theorem simulates_visible (heap : Heap) (place : ArenaId) :
    Simulates heap place (fun heap value => ⟨heap, value, value.visible heap⟩)
      fun tree => (tree, tree) :=
  fun related held _ => ⟨related.visible_eq held, _, .stays held, related⟩

theorem Tree.editAt_of_at? {tree found : Tree} {path : List ChildKey}
    (reached : tree.at? path = some found) :
    tree.editAt (fun tree => (tree, tree)) path = some (tree, found) := by
  induction path generalizing tree with
  | nil =>
    cases reached
    rfl
  | cons key rest inductionHypothesis =>
    obtain ⟨child, named, below⟩ := Option.bind_eq_some_iff.mp reached
    rw [editAt, named, Option.bind_some, inductionHypothesis below, Option.map_some]
    simp only [Content.withChild_self named, Tree.ofContent_content]

end JsonOverlay
