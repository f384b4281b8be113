/-
This file shows that lookups find what a value shows, and leave it as it is. Where there is a
child behind a value, a lookup comes to what is shown there: what is in the table if that is
shown, and else the child behind. It does not matter whether the lookup is for reading or for
writing, nor what was looked up before, at any depth.
-/

import JsonOverlay.Proofs.Value.Keyed
import JsonOverlay.Value.Cursor

namespace JsonOverlay

/-- Every reference reads as the level that its node has. -/
def Heap.Levelled (heap : Heap) : Prop :=
  ∀ reference, (heap.tree reference).content =
    match heap.node? reference with
    | some node => node.map fun child => heap.tree ⟨reference.arena, child⟩
    | none => .null

namespace Value

variable {heap : Heap} {value between after : Value} {key : ChildKey} {fresh child : Value}

/-! ### What a value shows -/

theorem content_behind (levelled : heap.Levelled) (value : Value) :
    (value.behind heap).content = (value.backing heap).map (visible heap) := by
  obtain ⟨reference | content, children⟩ := value
  · rw [behind_attached, levelled, backing]
    dsimp only
    cases heap.node? reference with
    | none => rfl
    | some node =>
      rw [Content.map_map]
      exact Content.map_congr fun child _ => (visible_attached heap ⟨reference.arena, child⟩).symm
  · rw [behind_detached, Tree.content_ofContent]
    rfl

/-- What a value shows is its shape, in which each child shows what it shows. -/
theorem content_visible_eq (levelled : heap.Levelled) (keyed : value.Keyed) :
    (value.visible heap).content = (value.shape heap).map (visible heap) := by
  rw [content_visible keyed.distinct, content_behind levelled, shape, Content.map_overlaid]

theorem outline_content_visible (levelled : heap.Levelled) (keyed : value.Keyed) :
    (value.visible heap).content.outline = (value.backing heap).outline := by
  rw [content_visible_eq levelled keyed, Content.outline_map, shape, Content.outline_overlaid]

theorem keys_content_visible (levelled : heap.Levelled) (keyed : value.Keyed) :
    (value.visible heap).content.keys = (value.backing heap).keys :=
  Content.keys_eq_of_outline_eq (outline_content_visible levelled keyed)

/-- The child that is shown at a key: that in the table, or else that behind the value. -/
theorem child?_content_visible (levelled : heap.Levelled) (keyed : value.Keyed)
    (member : key ∈ (value.backing heap).keys) :
    (value.visible heap).content.child? key = ((value.backing heap).child? key).map fun fresh =>
      ((value.shownChild? key).getD fresh).visible heap := by
  rw [content_visible_eq levelled keyed, Content.child?_map, shape, Content.child?_overlaid _ member,
    Option.map_map]
  rfl

/-- Two values with the same behind them show the same if they do at each of its keys. -/
theorem visible_eq_of_shown (levelled : heap.Levelled) (keyed : value.Keyed)
    (keyedAfter : after.Keyed) (storage : after.storage = value.storage)
    (same : ∀ key fresh, key ∈ (value.backing heap).keys →
      (value.backing heap).child? key = some fresh →
        ((after.shownChild? key).getD fresh).visible heap =
          ((value.shownChild? key).getD fresh).visible heap) :
    after.visible heap = value.visible heap := by
  have backing : after.backing heap = value.backing heap := by
    rw [Value.backing, Value.backing, storage]
  refine Tree.content_injective (Content.eq_of_child?_eq ?_ fun key member => ?_)
  · rw [outline_content_visible levelled keyed, outline_content_visible levelled keyedAfter, backing]
  · rw [keys_content_visible levelled keyedAfter, backing] at member
    obtain ⟨fresh, -, found⟩ := Content.exists_child_of_mem_keys member
    rw [child?_content_visible levelled keyed member,
      child?_content_visible levelled keyedAfter (backing ▸ member), backing, found,
      Option.map_some, Option.map_some, same key fresh member found]

/-! ### One lookup -/

/-- What a lookup comes to: what is in the table, or what the plan puts in. -/
def met (value : Value) (heap : Heap) (key : ChildKey) : Value × Bool :=
  (value.plan heap key).outcome (value.children.find? key)

/-- Where there is a child behind a value, a lookup comes to what is shown. -/
theorem met_of_child? (found : (value.backing heap).child? key = some fresh) :
    isShown key (value.met heap key).1 (value.met heap key).2 = true ∧
      (value.met heap key).1.visible heap =
        ((value.shownChild? key).getD fresh).visible heap := by
  unfold met plan shownChild?
  dsimp only
  rw [found]
  cases value.children.find? key with
  | none => exact ⟨isShown_of_not_placeholder key _, visible_duplicate fresh heap⟩
  | some known =>
    obtain ⟨child, placeholder⟩ := known
    dsimp only
    cases shown : isShown key child placeholder with
    | false => exact ⟨isShown_of_not_placeholder key _, visible_duplicate fresh heap⟩
    | true => exact ⟨shown, rfl⟩

/-- What is shown is what a lookup comes to. -/
theorem met_of_isShown {placeholder : Bool}
    (found : value.children.find? key = some (child, placeholder))
    (shown : isShown key child placeholder = true) : value.met heap key = (child, placeholder) := by
  unfold met plan
  dsimp only
  rw [found]
  dsimp only
  rw [shown]
  rfl

/-- A lookup at a key, for reading or for writing. -/
inductive LooksUp (heap : Heap) (key : ChildKey) (value : Value) : Value → Prop where
  | look : LooksUp heap key value (value.look heap key)
  | reach : LooksUp heap key value (value.reach heap key)

theorem LooksUp.storage_eq (looks : LooksUp heap key value after) :
    after.storage = value.storage := by
  cases looks
  all_goals rfl

theorem LooksUp.keyed (looks : LooksUp heap key value after) (keyed : value.Keyed) :
    after.Keyed := by
  cases looks with
  | look => exact closed_keyed.look keyed heap key
  | reach => exact closed_keyed.reach keyed heap key

theorem LooksUp.find?_eq (looks : LooksUp heap key value after) (other : ChildKey) :
    after.children.find? other =
      if other = key then some (value.met heap key) else value.children.find? other := by
  cases looks with
  | look => exact Children.find?_resolve _ key other _
  | reach => exact Children.find?_resolveForWriting _ key other _

theorem LooksUp.child_eq (looks : LooksUp heap key value after) :
    (after.child key).value = (value.met heap key).1 :=
  child_of_find? ((looks.find?_eq key).trans (if_pos rfl))

/-- What is shown at a key is what a lookup finds there. -/
theorem LooksUp.finds (looks : LooksUp heap key value after) (levelled : heap.Levelled)
    (keyed : value.Keyed) (member : key ∈ (value.visible heap).content.keys) :
    (value.visible heap).content.child? key = some ((after.child key).value.visible heap) := by
  rw [keys_content_visible levelled keyed] at member
  obtain ⟨fresh, -, found⟩ := Content.exists_child_of_mem_keys member
  rw [child?_content_visible levelled keyed member, found, Option.map_some, looks.child_eq,
    (met_of_child? found).2]

/-! ### Lookups that leave a value as it is -/

/-- A value after something that left it as it was, but for what was looked up. -/
structure Keeps (heap : Heap) (value after : Value) : Prop where
  storage_eq : after.storage = value.storage
  keyed : after.Keyed
  visible_eq : after.visible heap = value.visible heap
  blank : after.isBlank = true → value.isBlank = true

theorem Keeps.refl (heap : Heap) (keyed : value.Keyed) : Keeps heap value value :=
  ⟨rfl, keyed, rfl, id⟩

theorem Keeps.trans (first : Keeps heap value between) (second : Keeps heap between after) :
    Keeps heap value after where
  storage_eq := second.storage_eq.trans first.storage_eq
  keyed := second.keyed
  visible_eq := second.visible_eq.trans first.visible_eq
  blank := first.blank ∘ second.blank

theorem isBlank_eq_false {found : Value × Bool} (present : value.children.find? key = some found) :
    value.isBlank = false := by
  unfold isBlank
  split
  · by_contra empty
    rw [Bool.not_eq_false, Children.isEmpty_iff] at empty
    rw [empty key] at present
    cases present
  · rfl

/-- A child that is shown is so still when it was read further. -/
theorem isShown_of_blank {placeholder : Bool} (shown : isShown key child placeholder = true)
    (blank : after.isBlank = true → child.isBlank = true) :
    isShown key after placeholder = true := by
  cases key with
  | repeated => rfl
  | _ =>
    simp only [isShown, Bool.not_eq_true', Bool.and_eq_false_iff] at shown ⊢
    refine shown.imp id fun solid => ?_
    rw [← Bool.not_eq_true] at solid ⊢
    exact solid ∘ blank

/-- A value in whose table something else is shown at one key alone, which shows the same if
there is a child behind it. -/
theorem keeps_of_find? {fresh : Value × Bool} (levelled : heap.Levelled) (keyed : value.Keyed)
    (keyedAfter : after.Keyed) (storage : after.storage = value.storage)
    (find? : ∀ other, after.children.find? other =
      if other = key then some fresh else value.children.find? other)
    (shown : ∀ behind, (value.backing heap).child? key = some behind →
      isShown key fresh.1 fresh.2 = true ∧
        fresh.1.visible heap = ((value.shownChild? key).getD behind).visible heap) :
    Keeps heap value after where
  storage_eq := storage
  keyed := keyedAfter
  blank blank := by
    rw [isBlank_eq_false ((find? key).trans (if_pos rfl))] at blank
    cases blank
  visible_eq := by
    refine visible_eq_of_shown levelled keyed keyedAfter storage fun other behind _ found => ?_
    have known := find? other
    by_cases same : other = key
    · subst same
      obtain ⟨inPlace, equal⟩ := shown behind found
      rw [if_pos rfl] at known
      rw [← equal, shownChild?, known]
      simp only [if_pos inPlace]
      rfl
    · rw [if_neg same] at known
      rw [shownChild?, shownChild?, known]

theorem LooksUp.keeps (looks : LooksUp heap key value after) (levelled : heap.Levelled)
    (keyed : value.Keyed) : Keeps heap value after :=
  keeps_of_find? levelled keyed (looks.keyed keyed) looks.storage_eq looks.find?_eq
    fun _ => met_of_child?

/-- Something is written to a child that was just looked up. -/
theorem LooksUp.find?_writeChild (looks : LooksUp heap key value between) (child : Value)
    (other : ChildKey) :
    (between.writeChild key child).children.find? other =
      if other = key then some (child, (value.met heap key).2)
      else value.children.find? other := by
  have present : between.children.find? key =
      some ((value.met heap key).1, (value.met heap key).2) :=
    (looks.find?_eq key).trans (if_pos rfl)
  rw [writeChild, Children.find?_write present]
  by_cases same : other = key
  · rw [if_pos same, if_pos same]
  · rw [if_neg same, if_neg same, looks.find?_eq, if_neg same]

/-- Reading a child further that was just looked up. -/
theorem LooksUp.keeps_writeChild (looks : LooksUp heap key value between)
    (levelled : heap.Levelled) (keyed : value.Keyed)
    (inside : Keeps heap (between.child key).value child) :
    Keeps heap value (between.writeChild key child) := by
  rw [looks.child_eq] at inside
  refine keeps_of_find? levelled keyed (closed_keyed.writeChild (looks.keyed keyed) key inside.keyed)
    looks.storage_eq (looks.find?_writeChild child) fun behind found => ?_
  obtain ⟨shown, equal⟩ := met_of_child? found
  exact ⟨isShown_of_blank shown inside.blank, inside.visible_eq.trans equal⟩

/-- Lookups one after the other, in a value itself or further down in a child that was just
looked up. -/
inductive Lookups (heap : Heap) : Value → Value → Prop where
  | nothing {value : Value} : Lookups heap value value
  | here {value between after : Value} {key : ChildKey} (first : LooksUp heap key value between)
      (rest : Lookups heap between after) : Lookups heap value after
  | deeper {value between child after : Value} {key : ChildKey}
      (first : LooksUp heap key value between)
      (inside : Lookups heap (between.child key).value child)
      (rest : Lookups heap (between.writeChild key child) after) : Lookups heap value after

theorem Lookups.keeps (lookups : Lookups heap value after) (levelled : heap.Levelled)
    (keyed : value.Keyed) : Keeps heap value after := by
  induction lookups with
  | nothing => exact Keeps.refl heap keyed
  | here first _ inductionHypothesis =>
    have step := first.keeps levelled keyed
    exact step.trans (inductionHypothesis step.keyed)
  | @deeper value between child after key first _ _ insideHypothesis restHypothesis =>
    have inside := insideHypothesis (closed_keyed.child (first.keyed keyed) key)
    have step := first.keeps_writeChild levelled keyed inside
    exact step.trans (restHypothesis step.keyed)

end Value

end JsonOverlay
