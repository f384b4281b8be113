/-
This file says what comes of writing over a child that is there: the table shows what was written.
There is one exception: a null to which nothing was done, if it is written over a placeholder to
which something was done before the child came to be there. It looks like a placeholder again, and
gives way to the child.
-/

import JsonOverlay.Proofs.Value.Standing

namespace JsonOverlay.Value

variable {heap : Heap} {value operand child fresh : Value} {key other : ChildKey}
  {path : List ChildKey} {tree : Tree}

/-! ### Writing over a child -/

/-- Whether a value has a child with a name or at an index. -/
def HasChild (heap : Heap) (value : Value) : ChildKey → Prop
  | .member name => value.hasMember heap name = true
  | .element index => index < value.size heap
  | .repeated _ => False

theorem HasChild.exists_named? (has : value.HasChild heap key) :
    ∃ fresh, (value.backing heap).named? key = some fresh := by
  cases key with
  | member name => exact Option.isSome_iff_exists.mp has
  | repeated position => exact has.elim
  | element index =>
    unfold HasChild size at has
    cases level : value.backing heap with
    | array items =>
      rw [level] at has
      exact ⟨_, List.getElem?_eq_getElem has⟩
    | _ =>
      rw [level] at has
      exact absurd has (Nat.not_lt_zero _)

/-- The value after another one was written over its child at a key. -/
def overwrite (value : Value) (heap : Heap) (key : ChildKey) (operand : Value) : Value :=
  (value.reach heap key).writeChild key operand

/-- The table has a placeholder at a key to which something was done. -/
def Stale (value : Value) (key : ChildKey) : Prop :=
  ∃ child, value.children.find? key = some (child, true) ∧ child.isBlank = false

/-- A child is hidden if it is a placeholder to which nothing was done. -/
theorem isShown_eq_true_iff (named : (value.backing heap).named? key = some fresh) (child : Value)
    (placeholder : Bool) :
    isShown key child placeholder = true ↔ ¬ (placeholder = true ∧ child.isBlank = true) := by
  cases key with
  | repeated position => cases named
  | _ => cases placeholder <;> simp [isShown]

theorem find?_overwrite (value : Value) (heap : Heap) (key : ChildKey) (operand : Value)
    (other : ChildKey) :
    (value.overwrite heap key operand).children.find? other =
      if other = key then some (operand, (value.met heap key).2)
      else value.children.find? other :=
  (LooksUp.reach : LooksUp heap key value _).find?_writeChild operand other

/-- Where there is a child, a lookup comes to a placeholder only if something was done to it. -/
theorem met_eq_true_iff (named : (value.backing heap).named? key = some fresh) :
    (value.met heap key).2 = true ↔ value.Stale key := by
  unfold met plan Stale
  dsimp only
  rw [Content.child?_of_named? named]
  cases value.children.find? key with
  | none => simp [Plan.outcome]
  | some known =>
    obtain ⟨child, placeholder⟩ := known
    have visible := isShown_eq_true_iff named child placeholder
    dsimp only
    cases shown : isShown key child placeholder
    all_goals
      rw [shown] at visible
      simp_all [Plan.outcome]

/-- Whether writing a value over the child at a key has no effect. -/
def Lost (value : Value) (key : ChildKey) (operand : Value) : Prop :=
  value.Stale key ∧ operand.isBlank = true

theorem shownChild?_overwrite (named : (value.backing heap).named? key = some fresh)
    (operand : Value) :
    (value.Lost key operand → (value.overwrite heap key operand).shownChild? key = none) ∧
      (¬ value.Lost key operand →
        (value.overwrite heap key operand).shownChild? key = some operand) := by
  have shown : isShown key operand (value.met heap key).2 = true ↔ ¬ value.Lost key operand := by
    rw [Lost, ← met_eq_true_iff named, isShown_eq_true_iff named]
  rw [shownChild?, find?_overwrite, if_pos rfl]
  exact ⟨fun lost => if_neg fun visible => shown.mp visible lost, fun kept => if_pos (shown.mpr kept)⟩

/-- A value after something was written over its child at a key: it shows what it showed, with
a tree in the place of the child, and lookups come to that tree. -/
structure Overwrites (heap : Heap) (key : ChildKey) (tree : Tree) (value after : Value) : Prop where
  shows : (after.visible heap).content = (value.visible heap).content.withChild key tree
  finds : ∀ {looked}, LooksUp heap key after looked → (looked.child key).value.visible heap = tree

theorem overwrites_of_named? (levelled : heap.Levelled) (keyed : value.Keyed)
    (keyedOperand : operand.Keyed) (named : (value.backing heap).named? key = some fresh) :
    Overwrites heap key
      ((((value.overwrite heap key operand).shownChild? key).getD fresh).visible heap)
      value (value.overwrite heap key operand) := by
  have keyedAfter : (value.overwrite heap key operand).Keyed :=
    closed_keyed.writeChild (closed_keyed.reach keyed heap key) key keyedOperand
  have backing : (value.overwrite heap key operand).backing heap = value.backing heap := rfl
  have member := Content.mem_keys_of_named? named
  have found := Content.child?_of_named? named
  have namedShown : ∃ old, (value.visible heap).content.named? key = some old := by
    have shown := child?_content_visible levelled keyed member
    rw [found, Option.map_some] at shown
    cases key with
    | repeated position => cases named
    | _ => exact ⟨_, shown⟩
  obtain ⟨old, namedShown⟩ := namedShown
  refine ⟨Content.eq_of_child?_eq ?_ fun other inside => ?_, fun looks => ?_⟩
  · rw [Content.outline_withChild namedShown, outline_content_visible levelled keyedAfter, backing,
      outline_content_visible levelled keyed]
  · rw [keys_content_visible levelled keyedAfter, backing] at inside
    rw [Content.child?_withChild namedShown _ (by rwa [keys_content_visible levelled keyed]),
      child?_content_visible levelled keyedAfter (backing ▸ inside), backing]
    by_cases same : other = key
    · rw [if_pos same, same, found, Option.map_some]
    · rw [if_neg same, child?_content_visible levelled keyed inside, shownChild?, find?_overwrite,
        if_neg same, shownChild?]
  · rw [looks.child_eq, (met_of_child? (backing ▸ found)).2]

theorem isBlank_overwrite (value : Value) (heap : Heap) (key : ChildKey) (operand : Value) :
    (value.overwrite heap key operand).isBlank = false :=
  isBlank_eq_false ((find?_overwrite value heap key operand key).trans (if_pos rfl))

theorem bears_overwrite (named : (value.backing heap).named? key = some fresh)
    (kept : ¬ value.Lost key operand) :
    (value.overwrite heap key operand).Bears heap (operand.visible heap) [key] := by
  obtain ⟨placeholder, found, shown⟩ :=
    shownChild?_eq_some_iff.mp ((shownChild?_overwrite named operand).2 kept)
  exact ⟨operand, placeholder, found, shown, rfl⟩

/-- A tree is what lookups find at a key, and what is shown there if there is a child. -/
structure Yields (heap : Heap) (key : ChildKey) (tree : Tree) (value : Value) : Prop where
  finds : ∀ {looked}, LooksUp heap key value looked → (looked.child key).value.visible heap = tree
  shows : value.HasChild heap key → (value.visible heap).content.named? key = some tree

theorem Bears.yields (levelled : heap.Levelled) (keyed : value.Keyed)
    (bears : value.Bears heap tree [key]) : value.Yields heap key tree := by
  obtain ⟨child, placeholder, found, shown, rfl⟩ := bears
  refine ⟨fun looks => ?_, fun has => ?_⟩
  · rw [looks.child_eq, met_of_isShown found shown]
  · obtain ⟨fresh, named⟩ := has.exists_named?
    have visible := child?_content_visible levelled keyed (Content.mem_keys_of_named? named)
    rw [Content.child?_of_named? named, Option.map_some,
      shownChild?_eq_some_iff.mpr ⟨placeholder, found, shown⟩] at visible
    cases key with
    | repeated position => cases named
    | _ => exact visible

theorem endpoint_null (heap : Heap) (keys : List ChildKey) : null.endpoint heap keys = null := by
  induction keys with
  | nil => rfl
  | cons key keys inductionHypothesis =>
    have missing : ((null.reach heap key).child key).value = null := by
      have looks : LooksUp heap key null (null.reach heap key) := .reach
      rw [looks.child_eq]
      cases key <;> rfl
    exact (congrArg (endpoint · heap keys) missing).trans inductionHypothesis

/-- Where there is a child below, there is something to start from. -/
theorem HasChild.ne_null {keys : List ChildKey} (has : (value.endpoint heap keys).HasChild heap key) :
    value ≠ null := by
  rintro rfl
  rw [endpoint_null] at has
  obtain ⟨fresh, named⟩ := has.exists_named?
  cases key <;> cases named

end JsonOverlay.Value
