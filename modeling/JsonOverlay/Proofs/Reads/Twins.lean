/-
This file relates two values that cannot be told apart although more was looked up through
one than through the other. They have the same content behind them, and at every key that
is in the table of either, a lookup meets values that cannot be told apart again. What a
lookup meets does not depend on whether it was made before, which is why lookups go
unnoticed.
-/

import JsonOverlay.Proofs.Children
import JsonOverlay.Proofs.Reads.Program
import JsonOverlay.Proofs.Value.Attached
import JsonOverlay.Proofs.Value.Visible

namespace JsonOverlay

/-! ### Values without handles -/

/-- A value in which there is no handle into any document: neither behind it nor in its table,
at any depth. Members known by position are in the table only if they are there. -/
inductive Loose : Value → Prop where
  | level {content : Content Value} {children : Children Value} (distinct : children.keys.Nodup)
      (genuine : ∀ position, .repeated position ∈ children.keys →
        .repeated position ∈ content.keys)
      (payload : ∀ child ∈ content.children, Loose child)
      (table : ∀ key child placeholder, children.find? key = some (child, placeholder) →
        Loose child) :
      Loose ⟨.detached content, children⟩

theorem loose_detached {content : Content Value} (payload : ∀ child ∈ content.children, Loose child) :
    Loose (Value.detached content) :=
  .level List.nodup_nil (fun _ absurd => by cases absurd) payload fun _ _ _ absurd => by cases absurd

theorem loose_ofTree (tree : Tree) : Loose (Value.ofTree tree) := by
  induction tree using Tree.induction_levels with
  | level tree inductionHypothesis =>
    rw [Value.ofTree_eq]
    refine loose_detached fun child member => ?_
    rw [Content.children_map] at member
    obtain ⟨below, present, rfl⟩ := List.mem_map.mp member
    exact inductionHypothesis below present

/-! ### What is behind a value -/

/-- What is behind a value: a layout in the arena at a place, or content without handles. -/
inductive Ground where
  | node (layout : Layout)
  | free (content : Content Value)

namespace Ground

variable {heap : Heap} {place : ArenaId} {ground : Ground} {key : ChildKey}
  {children : Children Value}

def storage (place : ArenaId) : Ground → Storage Value
  | node layout => .attached ⟨place, layout.id⟩
  | free content => .detached content

/-- The children behind a value, as lookups take them. -/
def backing (place : ArenaId) : Ground → Content Value
  | node layout => layout.content.map fun child => Value.attached ⟨place, child.id⟩
  | free content => content

/-- The heap has what is behind a value. -/
def Held (heap : Heap) (place : ArenaId) : Ground → Prop
  | node layout => heap.Holds place layout
  | free _ => True

/-- There are no handles in content that stands for itself. -/
def Sound : Ground → Prop
  | node _ => True
  | free content => ∀ child ∈ content.children, Loose child

/-- A key that lookups may use: a position only if a member is known by it. -/
def Genuine (place : ArenaId) (ground : Ground) (key : ChildKey) : Prop :=
  ∀ position, key = .repeated position → key ∈ (ground.backing place).keys

/-- What a lookup at a key that was not looked up before comes to. -/
def found (place : ArenaId) (ground : Ground) (key : ChildKey) : Value × Bool :=
  match (ground.backing place).child? key with
  | some child => (child.duplicate, false)
  | none => (Value.null, true)

/-- What a lookup at a key comes to: what is in the table, unless that is a placeholder to
which nothing was done and there is a child by now. -/
def meets (place : ArenaId) (ground : Ground) (children : Children Value) (key : ChildKey) :
    Value × Bool :=
  match children.find? key with
  | none => ground.found place key
  | some (child, placeholder) =>
    match Value.isShown key child placeholder, (ground.backing place).child? key with
    | false, some fresh => (fresh.duplicate, false)
    | _, _ => (child, placeholder)

theorem Held.backing_eq (held : ground.Held heap place) (children : Children Value) :
    Value.backing ⟨ground.storage place, children⟩ heap = ground.backing place := by
  cases ground with
  | node layout =>
    have holds : heap.Holds place layout := held
    simp only [Value.backing, storage, holds.node?_eq, backing, Content.map_map]
    rfl
  | free content => rfl

/-- The level behind a value shows what its children show. -/
theorem Held.content_behind (held : ground.Held heap place) (children : Children Value) :
    (Value.behind ⟨ground.storage place, children⟩ heap).content =
      (ground.backing place).map (Value.visible heap) := by
  cases ground with
  | node layout =>
    have holds : heap.Holds place layout := held
    rw [storage, Value.behind_attached, holds.tree_eq, Layout.content_tree, backing, Content.map_map]
    refine Content.map_congr fun child member => ?_
    obtain ⟨key, -, found⟩ := Content.exists_key_of_mem_children member
    exact ((Value.visible_attached heap _).trans (holds.child found).tree_eq).symm
  | free content => rw [storage, Value.behind_detached, Tree.content_ofContent, backing]

end Ground

/-! ### Twins -/

/-- If a value is null in itself, the same keys were looked up through another. -/
def Level (left right : Value) : Prop :=
  left.storage = .detached .null →
    ∀ key, left.children.find? key = none ↔ right.children.find? key = none

/-- What goes along with two values that are met at a key of two tables over one ground. -/
structure Pairs (place : ArenaId) (ground : Ground) (key : ChildKey) (source : Ground)
    (left right : Value × Bool) : Prop where
  flag : left.2 = right.2
  derived : ∀ layout, source = .node layout →
    ∃ outer, ground = .node outer ∧ outer.content.child? key = some layout
  genuine : ground.Genuine place key
  level : left.2 = true → (ground.backing place).admits key → Level left.1 right.1

/-- Two values over one ground that cannot be told apart. -/
inductive Twins (place : ArenaId) : Ground → Value → Value → Prop where
  | level {ground : Ground} {left right : Children Value} (source : ChildKey → Ground)
      (sound : ground.Sound) (distinctLeft : left.keys.Nodup) (distinctRight : right.keys.Nodup)
      (below : ∀ key, key ∈ left.keys ∨ key ∈ right.keys →
        Twins place (source key) (ground.meets place left key).1 (ground.meets place right key).1)
      (pairs : ∀ key, key ∈ left.keys ∨ key ∈ right.keys →
        Pairs place ground key (source key) (ground.meets place left key)
          (ground.meets place right key)) :
      Twins place ground ⟨ground.storage place, left⟩ ⟨ground.storage place, right⟩

/-- Two values that are met at a key of two tables over one ground. -/
structure TwinsAt (place : ArenaId) (ground : Ground) (key : ChildKey) (source : Ground)
    (left right : Value × Bool) : Prop extends Pairs place ground key source left right where
  twins : Twins place source left.1 right.1

namespace Ground

variable {heap : Heap} {place : ArenaId} {ground source : Ground} {key : ChildKey}
  {children : Children Value} {left right : Value × Bool}

theorem meets_of_none (missing : children.find? key = none) :
    ground.meets place children key = ground.found place key := by
  rw [meets, missing]

@[simp]
theorem meets_latest : ground.meets place children.latest key = ground.meets place children key := by
  simp only [meets, Children.find?_latest]

theorem Held.of_pairs (held : ground.Held heap place)
    (pairs : Pairs place ground key source left right) : source.Held heap place := by
  cases source with
  | free content => trivial
  | node layout =>
    obtain ⟨outer, rfl, found⟩ := pairs.derived layout rfl
    exact Heap.Holds.child held found

end Ground

namespace Twins

variable {heap : Heap} {place : ArenaId} {ground : Ground} {left right : Value} {key : ChildKey}
  {before after : Children Value}

/-! ### What the relation says -/

theorem storage_left (twins : Twins place ground left right) :
    left.storage = ground.storage place := by
  cases twins
  rfl

theorem storage_right (twins : Twins place ground left right) :
    right.storage = ground.storage place := by
  cases twins
  rfl

theorem sound (twins : Twins place ground left right) : ground.Sound := by
  cases twins
  assumption

theorem distinct_left (twins : Twins place ground left right) : left.children.keys.Nodup := by
  cases twins
  assumption

theorem distinct_right (twins : Twins place ground left right) : right.children.keys.Nodup := by
  cases twins
  assumption

theorem exists_at (twins : Twins place ground left right)
    (member : key ∈ left.children.keys ∨ key ∈ right.children.keys) :
    ∃ source, TwinsAt place ground key source (ground.meets place left.children key)
      (ground.meets place right.children key) := by
  cases twins with
  | level source _ _ _ below pairs => exact ⟨source key, pairs key member, below key member⟩

theorem intro {left right : Children Value} (sound : ground.Sound) (distinctLeft : left.keys.Nodup)
    (distinctRight : right.keys.Nodup)
    (meets : ∀ key, key ∈ left.keys ∨ key ∈ right.keys → ∃ source,
      TwinsAt place ground key source (ground.meets place left key) (ground.meets place right key)) :
    Twins place ground ⟨ground.storage place, left⟩ ⟨ground.storage place, right⟩ := by
  classical
  have chosen : ∀ key, ∃ source, key ∈ left.keys ∨ key ∈ right.keys →
      TwinsAt place ground key source (ground.meets place left key)
        (ground.meets place right key) := by
    intro key
    by_cases member : key ∈ left.keys ∨ key ∈ right.keys
    · obtain ⟨source, related⟩ := meets key member
      exact ⟨source, fun _ => related⟩
    · exact ⟨ground, fun absurd => (member absurd).elim⟩
  choose source related using chosen
  exact .level source sound distinctLeft distinctRight
    (fun key member => (related key member).twins) fun key member => (related key member).toPairs

/-- Without tables there is nothing to tell apart. -/
theorem of_keys_eq_nil {left right : Children Value} (sound : ground.Sound) (nothing : left.keys = [])
    (nothing' : right.keys = []) :
    Twins place ground ⟨ground.storage place, left⟩ ⟨ground.storage place, right⟩ := by
  refine intro sound (by simp [nothing]) (by simp [nothing']) fun key member => ?_
  rw [nothing, nothing'] at member
  rcases member with absurd | absurd <;> cases absurd

/-! ### Values without handles -/

theorem duplicate (twins : Twins place ground left right) :
    Twins place ground left.duplicate right.duplicate := by
  cases twins with
  | level source sound distinctLeft distinctRight below pairs =>
    refine .level source sound (by rwa [Children.keys_latest]) (by rwa [Children.keys_latest]) ?_ ?_
    · simpa only [Children.keys_latest, Ground.meets_latest] using below
    · simpa only [Children.keys_latest, Ground.meets_latest] using pairs

end Twins

theorem Level.refl (value : Value) : Level value value := fun _ _ => Iff.rfl

/-- A value without handles is its own twin. -/
theorem Loose.twins {value : Value} (loose : Loose value) (place : ArenaId) :
    ∃ content, Twins place (.free content) value value := by
  induction loose with
  | @level content children distinct genuine payload table below inside =>
    have known : ∀ key, key ∈ children.keys → ∃ source,
        TwinsAt place (.free content) key source ((Ground.free content).meets place children key)
          ((Ground.free content).meets place children key) := by
      intro key member
      obtain ⟨⟨child, placeholder⟩, found⟩ := Children.mem_keys_iff_find?.mp member
      have met : ∃ parts, Twins place (.free parts)
          ((Ground.free content).meets place children key).1
          ((Ground.free content).meets place children key).1 := by
        simp only [Ground.meets, found]
        split
        · rename_i fresh _ present
          obtain ⟨parts, twins⟩ := below fresh (Content.mem_children_of_child? present)
          exact ⟨parts, twins.duplicate⟩
        · exact inside key child placeholder found
      obtain ⟨parts, twins⟩ := met
      refine ⟨.free parts, ⟨rfl, nofun, ?_, fun _ _ => .refl _⟩, twins⟩
      rintro position rfl
      exact genuine position member
    exact ⟨content, Twins.intro payload distinct distinct fun key member =>
      known key (member.elim id id)⟩

namespace Twins

variable {heap : Heap} {place : ArenaId} {ground : Ground} {left right : Value} {key : ChildKey}
  {before after : Children Value}

/-- What a first lookup comes to is its own twin. -/
theorem found (sound : ground.Sound) (genuine : ground.Genuine place key) :
    ∃ source, TwinsAt place ground key source (ground.found place key) (ground.found place key) := by
  unfold Ground.found
  cases present : (ground.backing place).child? key with
  | none =>
    refine ⟨.free .null, ⟨rfl, nofun, genuine, fun _ _ => .refl _⟩, ?_⟩
    have sound : (Ground.free .null).Sound := fun _ absurd => by cases absurd
    exact of_keys_eq_nil sound rfl rfl
  | some child =>
    cases ground with
    | free content =>
      obtain ⟨parts, twins⟩ := (sound child (Content.mem_children_of_child? present)).twins place
      exact ⟨.free parts, ⟨rfl, nofun, genuine, fun _ _ => .refl _⟩,
        twins.duplicate⟩
    | node layout =>
      rw [Ground.backing, Content.child?_map] at present
      obtain ⟨inner, position, rfl⟩ := Option.map_eq_some_iff.mp present
      have sound : (Ground.node inner).Sound := trivial
      refine ⟨.node inner, ⟨rfl, ?_, genuine, fun _ _ => .refl _⟩, of_keys_eq_nil sound rfl rfl⟩
      rintro other same
      cases same
      exact ⟨layout, rfl, position⟩

/-- Lookups in both come to twins at every key that can be looked up. -/
theorem meets (twins : Twins place ground left right) (genuine : ground.Genuine place key) :
    ∃ source, TwinsAt place ground key source (ground.meets place left.children key)
      (ground.meets place right.children key) := by
  by_cases member : key ∈ left.children.keys ∨ key ∈ right.children.keys
  · exact twins.exists_at member
  · rw [not_or, Children.notMem_keys_iff_find?, Children.notMem_keys_iff_find?] at member
    rw [Ground.meets_of_none member.1, Ground.meets_of_none member.2]
    exact found twins.sound genuine

/-! ### What twins show -/

/-- At a key of its level a value shows what a lookup comes to. -/
theorem shown_eq {children : Children Value} {child : Value}
    (present : (ground.backing place).child? key = some child) :
    (((Value.mk (ground.storage place) children).shownChild? key).map (Value.visible heap)).getD
        (child.visible heap) = (ground.meets place children key).1.visible heap := by
  unfold Value.shownChild? Ground.meets
  cases children.find? key with
  | none => simp only [Option.map_none, Option.getD_none, Ground.found, present, Value.visible_duplicate]
  | some found =>
    obtain ⟨looked, placeholder⟩ := found
    simp only [present]
    cases Value.isShown key looked placeholder with
    | true => rfl
    | false => exact (Value.visible_duplicate child heap).symm

theorem visible_eq (twins : Twins place ground left right) (held : ground.Held heap place) :
    left.visible heap = right.visible heap := by
  induction twins with
  | @level ground left right source sound distinctLeft distinctRight below pairs inductionHypothesis =>
    refine Tree.content_injective ?_
    rw [Value.content_visible distinctLeft, Value.content_visible distinctRight,
      held.content_behind, held.content_behind]
    refine Content.eq_of_child?_eq (by rw [Content.outline_overlaid, Content.outline_overlaid])
      fun key member => ?_
    rw [Content.keys_overlaid] at member
    rw [Content.child?_overlaid _ member, Content.child?_overlaid _ member]
    rw [Content.keys_map] at member
    obtain ⟨child, -, present⟩ := Content.exists_child_of_mem_keys member
    rw [Content.child?_map, present, Option.map_some, Option.map_some, Option.map_some,
      shown_eq present, shown_eq present]
    by_cases looked : key ∈ left.keys ∨ key ∈ right.keys
    · rw [inductionHypothesis key looked (held.of_pairs (pairs key looked))]
    · rw [not_or, Children.notMem_keys_iff_find?, Children.notMem_keys_iff_find?] at looked
      rw [Ground.meets_of_none looked.1, Ground.meets_of_none looked.2]

/-- Twins give the same glimpse. -/
theorem glimpse_eq (twins : Twins place ground left right) (held : ground.Held heap place) :
    left.glimpse heap = right.glimpse heap := by
  rw [Value.glimpse, Value.glimpse, twins.visible_eq held, twins.storage_left, twins.storage_right]

end Twins

end JsonOverlay
