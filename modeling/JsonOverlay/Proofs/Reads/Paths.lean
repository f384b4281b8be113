/-
This file follows paths for reading in twins. When both follow the same path they end at
twins, and what is then done to both of these alike keeps the whole twins. When one alone
follows a careful path, and what it does at the end keeps twins, they stay twins as well.
-/

import JsonOverlay.Proofs.Reads.Looking

namespace JsonOverlay

variable {heap : Heap} {place : ArenaId} {ground : Ground} {left right : Value}

/-! ### One step -/

theorem Selector.genuine (selector : Selector) : ground.Genuine place selector.key := by
  cases selector <;> exact fun _ absurd => by cases absurd

namespace Value

variable {value child : Value} {key : ChildKey} {entry : Entry Value}

/-- A step of a path looks up a key and goes on from the child there. -/
theorem read_selector (heap : Heap) (value : Value) (selector : Selector) (rest : List Step) :
    value.read heap (selector.step :: rest) =
      ((value.look heap selector.key).writeChild selector.key
          (((value.look heap selector.key).child selector.key).value.read heap rest).1,
        (((value.look heap selector.key).child selector.key).value.read heap rest).2.map
          fun below =>
            (selector.key, ((value.look heap selector.key).child selector.key).serial) :: below) := by
  cases selector <;> rfl

theorem writeAt_writeChild (found : value.children.get? key = some entry) (child : Value)
    (change : Value → Value) (reference : Reference) :
    ∃ table, (value.writeChild key child).writeAt change ((key, entry.current.serial) :: reference) =
        ⟨value.storage, table⟩ ∧ table.keys = value.children.keys ∧
      ∀ other, table.find? other =
        if other = key then some (child.writeAt change reference, entry.placeholder)
        else value.children.find? other := by
  have new := Children.get?_write value.children key child key
  rw [if_pos rfl, found, Option.map_some] at new
  have version := Children.version?_current new
  refine ⟨(value.children.write key child).writeVersion key entry.current.serial
    (child.writeAt change reference), ?_, ?_, fun other => ?_⟩
  · simp only [writeAt, writeChild, version]
  · rw [Children.writeVersion, Children.keys_adjust, Children.write, Children.keys_adjust]
  · refine (Children.find?_writeVersion new _ other).trans ?_
    by_cases same : other = key
    · rw [if_pos same, if_pos same]
    · have present : value.children.find? key = some (entry.current.value, entry.placeholder) := by
        rw [Children.find?, found]
        rfl
      rw [if_neg same, if_neg same, Children.find?_write present, if_neg same]

end Value

theorem Looked.child {key : ChildKey} {before after : Children Value}
    (looked : Looked place ground key before after) (storage : Storage Value) :
    (Value.child ⟨storage, after⟩ key).value = (ground.meets place before key).1 := by
  have found := looked.find?_eq key
  rw [if_pos rfl] at found
  obtain ⟨entry, present, same⟩ := Option.map_eq_some_iff.mp found
  rw [Value.child, present, ← same]

/-- What is written to the child after a lookup comes to stand at its key. -/
theorem Looked.written {key : ChildKey} {before after : Children Value}
    (looked : Looked place ground key before after) (storage : Storage Value) (child : Value) :
    ∃ table, Value.writeChild ⟨storage, after⟩ key child = ⟨storage, table⟩ ∧ table.keys.Nodup ∧
      ∀ other, table.find? other =
        if other = key then some (child, (ground.meets place before key).2) else before.find? other := by
  have found := looked.find?_eq key
  rw [if_pos rfl] at found
  refine ⟨_, rfl, Children.nodup_write looked.distinct key child, fun other => ?_⟩
  refine (Children.find?_write found child other).trans ?_
  by_cases here : other = key
  · rw [if_pos here, if_pos here]
    rfl
  · rw [if_neg here, if_neg here, looked.find?_eq, if_neg here]

theorem Ground.Held.written (held : ground.Held heap place) {value : Value}
    (storage : value.storage = ground.storage place) (distinct : value.children.keys.Nodup)
    (key : ChildKey) (child : Value) :
    ∃ table, (value.look heap key).writeChild key child = ⟨ground.storage place, table⟩ ∧
      table.keys.Nodup ∧ ∀ other, table.find? other =
        if other = key then some (child, (ground.meets place value.children key).2)
        else value.children.find? other := by
  obtain ⟨own, children⟩ := value
  obtain rfl : own = ground.storage place := storage
  exact (held.looked_look distinct key).written (ground.storage place) child

/-- How a reference goes on from what a lookup leaves at its key. -/
theorem Ground.Held.step (held : ground.Held heap place) {value : Value}
    (storage : value.storage = ground.storage place) (distinct : value.children.keys.Nodup)
    (key : ChildKey) :
    ∃ serial, (value.look heap key).child key =
        ⟨serial, (ground.meets place value.children key).1⟩ ∧
      ∀ child change reference,
        ((value.look heap key).writeChild key child).at? ((key, serial) :: reference) =
          child.at? reference ∧
        ∃ table, ((value.look heap key).writeChild key child).writeAt change
            ((key, serial) :: reference) = ⟨ground.storage place, table⟩ ∧ table.keys.Nodup ∧
          ∀ other, table.find? other =
            if other = key then
              some (child.writeAt change reference, (ground.meets place value.children key).2)
            else value.children.find? other := by
  obtain ⟨own, children⟩ := value
  obtain rfl : own = ground.storage place := storage
  have looked := held.looked_look distinct key
  have found := looked.find?_eq key
  rw [if_pos rfl] at found
  obtain ⟨entry, present, same⟩ := Option.map_eq_some_iff.mp found
  refine ⟨entry.current.serial, ?_, fun child change reference => ⟨?_, ?_⟩⟩
  · rw [Value.child, present, ← same]
  · exact Value.at?_writeChild present child reference
  · obtain ⟨table, equal, keys, find⟩ := Value.writeAt_writeChild present child change reference
    refine ⟨table, equal, keys ▸ looked.distinct, fun other => ?_⟩
    rw [find, ← same, looked.find?_eq]
    by_cases here : other = key
    · rw [if_pos here, if_pos here]
    · rw [if_neg here, if_neg here, if_neg here]

theorem Ground.Held.gapAt_look (held : ground.Held heap place) {value child : Value} {key : ChildKey}
    (storage : value.storage = ground.storage place) (distinct : value.children.keys.Nodup)
    (admits : (ground.backing place).admits key)
    (met : ground.meets place value.children key = (child, true))
    (null : child.storage = .detached .null) : (value.look heap key).GapAt heap key := by
  obtain ⟨own, children⟩ := value
  obtain rfl : own = ground.storage place := storage
  refine ⟨?_, child, ?_, null⟩
  · rw [Value.look, held.backing_eq]
    exact admits
  · rw [(held.looked_look distinct key).find?_eq, if_pos rfl, met]

/-- Tables over null in which the same key was looked up more. -/
theorem Level.of_find? {key : ChildKey} {first second : Value} {flag flag' : Bool}
    {left right : Children Value} {storage : Storage Value} {leftBefore rightBefore : Value}
    (level : Level leftBefore rightBefore) (same : leftBefore.storage = storage)
    (findLeft : ∀ other, left.find? other =
      if other = key then some (first, flag) else leftBefore.children.find? other)
    (findRight : ∀ other, right.find? other =
      if other = key then some (second, flag') else rightBefore.children.find? other) :
    Level ⟨storage, left⟩ ⟨storage, right⟩ := by
  intro null other
  show left.find? other = none ↔ right.find? other = none
  rw [findLeft, findRight]
  by_cases here : other = key
  · simp [here]
  · rw [if_neg here, if_neg here]
    exact level (same.trans null) other

namespace Twins

/-- Following one path in both. -/
theorem visit (path : List Selector) (useLeft useRight : Value → Value)
    (twins : Twins place ground left right) (held : ground.Held heap place)
    (keeps : ∀ {ground left right}, Twins place ground left right → ground.Held heap place →
      Twins place ground (useLeft left) (useRight right) ∧
        (Level left right → Level (useLeft left) (useRight right))) :
    ∃ source leftReference rightReference leftTarget rightTarget,
      source.Held heap place ∧ Twins place source leftTarget rightTarget ∧
      (left.read heap (path.map Selector.step)).2 = some leftReference ∧
      (right.read heap (path.map Selector.step)).2 = some rightReference ∧
      (left.read heap (path.map Selector.step)).1.at? leftReference = some leftTarget ∧
      (right.read heap (path.map Selector.step)).1.at? rightReference = some rightTarget ∧
      Twins place ground
        ((left.read heap (path.map Selector.step)).1.writeAt (fun _ => useLeft leftTarget)
          leftReference)
        ((right.read heap (path.map Selector.step)).1.writeAt (fun _ => useRight rightTarget)
          rightReference) ∧
      (Level left right → Level
        ((left.read heap (path.map Selector.step)).1.writeAt (fun _ => useLeft leftTarget)
          leftReference)
        ((right.read heap (path.map Selector.step)).1.writeAt (fun _ => useRight rightTarget)
          rightReference)) := by
  induction path generalizing ground left right with
  | nil =>
    obtain ⟨after, level⟩ := keeps twins held
    exact ⟨ground, [], [], left, right, held, twins, rfl, rfl, rfl, rfl, after, level⟩
  | cons selector rest inductionHypothesis =>
    obtain ⟨source, here⟩ := twins.meets selector.genuine
    obtain ⟨serialLeft, childLeft, stepLeft⟩ :=
      held.step twins.storage_left twins.distinct_left selector.key
    obtain ⟨serialRight, childRight, stepRight⟩ :=
      held.step twins.storage_right twins.distinct_right selector.key
    obtain ⟨deeper, leftBelow, rightBelow, leftTarget, rightTarget, heldDeeper, targets, readLeft,
      readRight, atLeft, atRight, after, level⟩ :=
        inductionHypothesis here.twins (held.of_pairs here.toPairs)
    obtain ⟨sameLeft, tableLeft, equalLeft, distinctLeft, findLeft⟩ :=
      stepLeft _ (fun _ => useLeft leftTarget) leftBelow
    obtain ⟨sameRight, tableRight, equalRight, distinctRight, findRight⟩ :=
      stepRight _ (fun _ => useRight rightTarget) rightBelow
    rw [List.map_cons, Value.read_selector, Value.read_selector, childLeft, childRight, readLeft,
      readRight]
    refine ⟨deeper, (selector.key, serialLeft) :: leftBelow, (selector.key, serialRight) :: rightBelow,
      leftTarget, rightTarget, heldDeeper, targets, rfl, rfl, sameLeft.trans atLeft,
      sameRight.trans atRight, ?_, ?_⟩
    · rw [equalLeft, equalRight]
      rw [← here.flag] at findRight
      exact twins.replace (.refl _ ground) twins.sound selector.genuine distinctLeft
        distinctRight findLeft findRight after here.derived
        fun placeholder admits => level (here.level placeholder admits)
    · intro before
      rw [equalLeft, equalRight]
      exact before.of_find? twins.storage_left findLeft findRight

/-- Following a careful path in one of them alone. -/
theorem visit_right (path : List Selector) (use : Value → Value)
    (twins : Twins place ground left right) (held : ground.Held heap place)
    (careful : right.Careful heap path)
    (keeps : ∀ {ground left right}, Twins place ground left right → ground.Held heap place →
      Twins place ground left (use right))
    (still : ∀ value, value.storage = .detached .null → use value = value) :
    ∃ reference target,
      (right.read heap (path.map Selector.step)).2 = some reference ∧
      (right.read heap (path.map Selector.step)).1.at? reference = some target ∧
      Twins place ground left
        ((right.read heap (path.map Selector.step)).1.writeAt (fun _ => use target) reference) := by
  induction path generalizing ground left right with
  | nil => exact ⟨[], right, rfl, rfl, keeps twins held⟩
  | cons selector rest inductionHypothesis =>
    obtain ⟨shallow, deeper⟩ := careful
    obtain ⟨source, here⟩ := twins.meets selector.genuine
    obtain ⟨serial, child, step⟩ := held.step twins.storage_right twins.distinct_right selector.key
    rw [child] at deeper
    have heldBelow := held.of_pairs here.toPairs
    obtain ⟨below, target, read, found, after⟩ := inductionHypothesis here.twins heldBelow deeper
    obtain ⟨same, table, equal, distinct, find⟩ := step
      ((ground.meets place right.children selector.key).1.read heap (rest.map Selector.step)).1
      (fun _ => use target) below
    rw [List.map_cons, Value.read_selector, child, read]
    refine ⟨(selector.key, serial) :: below, target, rfl, same.trans found, ?_⟩
    have level : (ground.meets place left.children selector.key).2 = true →
        (ground.backing place).admits selector.key →
          Level (ground.meets place left.children selector.key).1
            (((ground.meets place right.children selector.key).1.read heap
              (rest.map Selector.step)).1.writeAt (fun _ => use target) below) := by
      intro placeholder admits null
      have nullRight : (ground.meets place right.children selector.key).1.storage =
          .detached .null := by
        rw [here.twins.storage_right, ← here.twins.storage_left, null]
      rcases shallow with rfl | solid
      · cases read
        cases found
        show ∀ key, _ ↔ (use (ground.meets place right.children selector.key).1).children.find? key =
          none
        rw [still _ nullRight]
        exact here.level placeholder admits null
      · refine absurd ?_ solid
        have met : ground.meets place right.children selector.key =
            ((ground.meets place right.children selector.key).1, true) := by
          rw [← here.flag.symm.trans placeholder]
        exact held.gapAt_look twins.storage_right twins.distinct_right admits met nullRight
    obtain ⟨own, children⟩ := left
    obtain rfl : own = ground.storage place := twins.storage_left
    have looked := held.looked_look twins.distinct_left selector.key
    rw [equal]
    refine Twins.of_looked_left ?_ looked twins.distinct_left
    rw [← here.flag] at find
    exact twins.replace (.refl _ ground) twins.sound selector.genuine looked.distinct
      distinct looked.find?_eq find after here.derived level

end Twins

end JsonOverlay
