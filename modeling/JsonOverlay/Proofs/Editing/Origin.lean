/-
This file relates a value of a document to the plain tree that it shows. Behind the value
there is a layout in the arena of the document or a tree that was assigned, and over it lie
the entries of the table: each is the child behind it, perhaps with entries of its own, or
something that was assigned in its place. The relation does not mention the heap. As long
as the arena holds the layout, the value shows the tree, and it does so after any work on
the arena that spares the layout.
-/

import JsonOverlay.Proofs.Value.Attached
import JsonOverlay.Proofs.Value.Visible

namespace JsonOverlay

/-! ### What is behind a value -/

/-- Where a value comes from: a layout in the arena of its document, or a tree that was
assigned and has no node. -/
inductive Origin where
  | stored (layout : Layout)
  | loose (tree : Tree)

namespace Origin

variable {heap : Heap} {place : ArenaId} {origin : Origin} {key : ChildKey}

def tree : Origin → Tree
  | stored layout => layout.tree
  | loose tree => tree

/-- The level of an origin, with the origins of the children. -/
def content : Origin → Content Origin
  | stored layout => layout.content.map stored
  | loose tree => tree.content.map loose

/-- The storage of a value with an origin in the arena at a place. -/
def storage (place : ArenaId) : Origin → Storage Value
  | stored layout => .attached ⟨place, layout.id⟩
  | loose tree => .detached (tree.content.map Value.ofTree)

/-- The value with an origin through which nothing was looked up. -/
def fresh (place : ArenaId) (origin : Origin) : Value := { storage := origin.storage place }

/-- The heap has what is behind a value. -/
def Held (heap : Heap) (place : ArenaId) : Origin → Prop
  | stored layout => heap.Holds place layout
  | loose _ => True

theorem content_tree (origin : Origin) : origin.tree.content = origin.content.map tree := by
  cases origin with
  | stored layout =>
    show layout.tree.content = (layout.content.map stored).map tree
    rw [Layout.content_tree, Content.map_map]
    rfl
  | loose tree =>
    show tree.content = (tree.content.map loose).map Origin.tree
    rw [Content.map_map]
    exact (Content.map_id _).symm

@[simp]
theorem keys_content_tree (origin : Origin) : origin.tree.content.keys = origin.content.keys := by
  rw [content_tree, Content.keys_map]

@[simp]
theorem outline_content_tree (origin : Origin) :
    origin.tree.content.outline = origin.content.outline := by
  rw [content_tree, Content.outline_map]

theorem child?_content_tree (origin : Origin) (key : ChildKey) :
    origin.tree.content.child? key = (origin.content.child? key).map tree := by
  rw [content_tree, Content.child?_map]

theorem fresh_loose (place : ArenaId) (tree : Tree) : (loose tree).fresh place = Value.ofTree tree :=
  (Value.ofTree_eq tree).symm

/-- The level behind a value consists of fresh values. -/
theorem Held.backing_eq (held : origin.Held heap place) (children : Children Value) :
    Value.backing ⟨origin.storage place, children⟩ heap = origin.content.map (fresh place) := by
  cases origin with
  | stored layout =>
    have holds : heap.Holds place layout := held
    simp only [Value.backing, storage, holds.node?_eq, content, Content.map_map]
    rfl
  | loose tree =>
    simp only [Value.backing, storage, content, Content.map_map]
    exact Content.map_congr fun child _ => (fresh_loose place child).symm

/-- The tree behind a value is that of its origin. -/
theorem Held.behind_eq (held : origin.Held heap place) (children : Children Value) :
    Value.behind ⟨origin.storage place, children⟩ heap = origin.tree := by
  cases origin with
  | stored layout =>
    rw [storage, Value.behind_attached]
    exact Heap.Holds.tree_eq held
  | loose tree =>
    rw [storage, Value.behind_detached, Content.map_map]
    have shown : (tree.content.map (Value.visible heap ∘ Value.ofTree)) =
        tree.content.map fun child => child :=
      Content.map_congr fun child _ => Value.visible_ofTree heap child
    rw [shown, Content.map_id, Tree.ofContent_content]
    rfl

theorem Held.child {child : Origin} (held : origin.Held heap place)
    (found : origin.content.child? key = some child) : child.Held heap place := by
  cases origin with
  | stored layout =>
    rw [content, Content.child?_map] at found
    obtain ⟨below, position, rfl⟩ := Option.map_eq_some_iff.mp found
    exact Heap.Holds.child held position
  | loose tree =>
    rw [content, Content.child?_map] at found
    obtain ⟨below, position, rfl⟩ := Option.map_eq_some_iff.mp found
    trivial

end Origin

/-! ### Tables -/

/-- The table of a document's value: each entry is at a key of its level, and stands for a
child that is there. -/
structure Tidy (keys : List ChildKey) (children : Children Value) : Prop where
  distinct : children.keys.Nodup
  known : ∀ key entry, children.get? key = some entry → key ∈ keys
  placed : ∀ key entry, children.get? key = some entry → entry.placeholder = false

theorem tidy_clear (keys : List ChildKey) (children : Children Value) :
    Tidy keys children.clear where
  distinct := List.nodup_nil
  known _ _ found := by cases found
  placed _ _ found := by cases found

/-- A tree with some children in place of those at the keys of a table. -/
def laidOver (tree : Tree) (children : Children Value) (shown : ChildKey → Tree) : Tree :=
  Tree.ofContent (tree.content.overlaid fun key => (children.get? key).map fun _ => shown key)

/-- A value with an origin shows a tree. The entries of its table have origins as well; one
with a node is the child at that key, and one that is known by its position shows what is
behind it, so that it can be dropped. -/
inductive Shows (place : ArenaId) : Origin → Value → Tree → Prop where
  | level {origin : Origin} {children : Children Value} (source : ChildKey → Origin)
      (shown : ChildKey → Tree) (tidy : Tidy origin.content.keys children)
      (below : ∀ key entry, children.get? key = some entry →
        Shows place (source key) entry.current.value (shown key))
      (derived : ∀ key entry layout, children.get? key = some entry →
        source key = .stored layout → origin.content.child? key = some (.stored layout))
      (fixed : ∀ position entry, children.get? (.repeated position) = some entry →
        origin.tree.content.child? (.repeated position) = some (shown (.repeated position))) :
      Shows place origin ⟨origin.storage place, children⟩ (laidOver origin.tree children shown)

/-- What the entry at a key of a value's table is. -/
structure ShowsAt (place : ArenaId) (origin : Origin) (tree : Tree) (key : ChildKey)
    (value : Value) (source : Origin) (shown : Tree) : Prop where
  shows : Shows place source value shown
  child : tree.content.child? key = some shown
  derived : ∀ layout, source = .stored layout → origin.content.child? key = some source
  fixed : ∀ position, key = .repeated position → origin.tree.content.child? key = some shown

namespace Shows

variable {heap : Heap} {place : ArenaId} {origin : Origin} {value : Value} {tree : Tree}
  {children : Children Value} {key : ChildKey} {entry : Entry Value}

theorem child?_laidOver {base : Tree} (children : Children Value) (shown : ChildKey → Tree)
    (member : key ∈ base.content.keys) :
    (laidOver base children shown).content.child? key =
      (base.content.child? key).map fun child =>
        ((children.get? key).map fun _ => shown key).getD child := by
  rw [laidOver, Tree.content_ofContent, Content.child?_overlaid _ member]

/-! #### What the relation says -/

theorem storage_eq (related : Shows place origin value tree) :
    value.storage = origin.storage place := by
  cases related
  rfl

theorem tidy (related : Shows place origin value tree) :
    Tidy origin.content.keys value.children := by
  cases related
  assumption

theorem outline_eq (related : Shows place origin value tree) :
    tree.content.outline = origin.content.outline := by
  cases related
  rw [laidOver, Tree.content_ofContent, Content.outline_overlaid, Origin.outline_content_tree]

theorem keys_eq (related : Shows place origin value tree) :
    tree.content.keys = origin.content.keys :=
  Content.keys_eq_of_outline_eq related.outline_eq

theorem at_entry (related : Shows place origin value tree)
    (found : value.children.get? key = some entry) :
    ∃ source shown, ShowsAt place origin tree key entry.current.value source shown := by
  cases related with
  | level source shown tidy below derived fixed =>
    refine ⟨source key, shown key, below key entry found, ?_, ?_, ?_⟩
    · have member := tidy.known key entry found
      obtain ⟨child, -, present⟩ := Content.exists_child_of_mem_keys member
      rw [child?_laidOver _ _ (by rwa [Origin.keys_content_tree]), Origin.child?_content_tree,
        present, found]
      rfl
    · intro layout same
      rw [same]
      exact derived key entry layout found same
    · rintro position rfl
      exact fixed position entry found

/-- Where nothing was looked up the value shows what is behind it. -/
theorem at_missing (related : Shows place origin value tree) (member : key ∈ origin.content.keys)
    (missing : value.children.get? key = none) :
    tree.content.child? key = origin.tree.content.child? key := by
  cases related with
  | level source shown tidy below derived fixed =>
    rw [child?_laidOver _ _ (by rwa [Origin.keys_content_tree]), missing]
    exact Option.map_id'

/-- The relation from what it says at every key. -/
theorem intro (tidy : Tidy origin.content.keys children)
    (outline : tree.content.outline = origin.content.outline)
    (entries : ∀ key entry, children.get? key = some entry →
      ∃ source shown, ShowsAt place origin tree key entry.current.value source shown)
    (missing : ∀ key ∈ origin.content.keys, children.get? key = none →
      tree.content.child? key = origin.tree.content.child? key) :
    Shows place origin ⟨origin.storage place, children⟩ tree := by
  classical
  have chosen : ∀ key, ∃ pair : Origin × Tree, ∀ entry, children.get? key = some entry →
      ShowsAt place origin tree key entry.current.value pair.1 pair.2 := by
    intro key
    cases found : children.get? key with
    | none => exact ⟨(origin, tree), fun entry absurd => by cases absurd⟩
    | some entry =>
      obtain ⟨source, shown, related⟩ := entries key entry found
      refine ⟨(source, shown), fun other same => ?_⟩
      rw [← Option.some.inj same]
      exact related
  choose pair related using chosen
  have same : tree = laidOver origin.tree children fun key => (pair key).2 := by
    refine Tree.content_injective (Content.eq_of_child?_eq ?_ fun key member => ?_)
    · rw [laidOver, Tree.content_ofContent, Content.outline_overlaid, Origin.outline_content_tree,
        outline]
    · rw [Content.keys_eq_of_outline_eq outline] at member
      obtain ⟨child, -, present⟩ := Content.exists_child_of_mem_keys member
      rw [child?_laidOver _ _ (by rwa [Origin.keys_content_tree]), Origin.child?_content_tree, present]
      cases found : children.get? key with
      | none =>
        rw [missing key member found, Origin.child?_content_tree, present]
        rfl
      | some entry => exact (related key entry found).child
  rw [same]
  refine .level (fun key => (pair key).1) _ tidy (fun key entry found => (related key entry found).shows)
    (fun key entry layout found stored => ?_) fun position entry found => ?_
  · rw [← stored]
    exact (related key entry found).derived layout stored
  · exact (related _ entry found).fixed position rfl

theorem fresh (place : ArenaId) (origin : Origin) :
    Shows place origin (origin.fresh place) origin.tree :=
  intro (tidy_clear _ {}) origin.outline_content_tree (fun key entry found => by cases found)
    fun _ _ _ => rfl

/-! #### What the value shows -/

/-- The tree of the relation is the tree that the value shows. -/
theorem visible_eq (related : Shows place origin value tree) (held : origin.Held heap place) :
    value.visible heap = tree := by
  induction related with
  | @level origin children source shown tidy _ derived _ inductionHypothesis =>
    refine Tree.content_injective ?_
    rw [Value.content_visible tidy.distinct, held.behind_eq, laidOver, Tree.content_ofContent]
    refine Content.overlaid_congr fun key _ => ?_
    rw [Value.map_shownChild?]
    cases found : children.get? key with
    | none => rfl
    | some entry =>
      have childHeld : (source key).Held heap place := by
        cases stored : source key with
        | loose tree => trivial
        | stored layout => exact held.child (derived key entry layout found stored)
      rw [Option.bind_some, tidy.placed key entry found, Value.isShown_of_not_placeholder,
        if_pos rfl, inductionHypothesis key entry found childHeld]
      rfl

end Shows

end JsonOverlay
