/-
This file relates arenas to trees. A layout is a tree together with the identifiers of the
nodes that store it. An arena holds a layout if each identifier finds the level that the
layout has there; whether it does depends on these identifiers alone, so a change of an
arena that spares them does not disturb the layout. When no identifier occurs twice the
tree that the arena reads under the topmost identifier is the tree of the layout.
-/

import JsonOverlay.Arena.Tree
import JsonOverlay.Proofs.Arena.Slots
import JsonOverlay.Proofs.Tree
import Mathlib.Algebra.Order.BigOperators.Group.List
import Mathlib.Algebra.Order.Ring.Nat
import Mathlib.Data.List.Perm.Subperm

namespace JsonOverlay

/-- A tree of nodes as an arena stores it: each value with the identifier of its node. -/
structure Layout where
  id : NodeId
  content : Content Layout

namespace Layout

/-! ### Folding -/

mutual

/-- What a function makes of every level of a layout, from the leaves upwards. -/
def fold {β : Type} (level : NodeId → Content β → β) : Layout → β
  | ⟨id, content⟩ => level id (foldContent level content)

/-- Folds every child of a level. -/
def foldContent {β : Type} (level : NodeId → Content β → β) : Content Layout → Content β
  | .null => .null
  | .bool value => .bool value
  | .number value => .number value
  | .string value => .string value
  | .array items => .array (foldItems level items)
  | .object members => .object (foldMembers level members)

/-- Folds the elements of an array. -/
def foldItems {β : Type} (level : NodeId → Content β → β) : List Layout → List β
  | [] => []
  | item :: rest => fold level item :: foldItems level rest

/-- Folds the members of an object. -/
def foldMembers {β : Type} (level : NodeId → Content β → β) :
    List (String × Layout) → List (String × β)
  | [] => []
  | (name, child) :: rest => (name, fold level child) :: foldMembers level rest

end

section Folding

variable {β : Type} (level : NodeId → Content β → β)

theorem foldItems_eq_map (items : List Layout) : foldItems level items = items.map (fold level) := by
  induction items with
  | nil => rfl
  | cons item rest inductionHypothesis => rw [foldItems, inductionHypothesis, List.map_cons]

theorem foldMembers_eq_map (members : List (String × Layout)) :
    foldMembers level members = members.map fun (name, child) => (name, fold level child) := by
  induction members with
  | nil => rfl
  | cons member rest inductionHypothesis =>
    obtain ⟨name, child⟩ := member
    rw [foldMembers, inductionHypothesis, List.map_cons]

theorem fold_eq (layout : Layout) :
    layout.fold level = level layout.id (layout.content.map (fold level)) := by
  obtain ⟨id, content⟩ := layout
  cases content <;>
    simp only [fold, foldContent, Content.map, foldItems_eq_map, foldMembers_eq_map]

end Folding

/-- Induction over the levels of a layout. -/
theorem induction_levels {motive : Layout → Prop}
    (level : ∀ layout : Layout, (∀ child ∈ layout.content.children, motive child) → motive layout)
    (layout : Layout) : motive layout :=
  level layout fun child _ => induction_levels level child
termination_by sizeOf layout
decreasing_by
  have smaller := Content.sizeOf_lt_of_mem_children (by assumption)
  cases layout
  simp only [Layout.mk.sizeOf_spec] at smaller ⊢
  omega

/-! ### What a layout consists of -/

/-- All identifiers of a layout, the topmost first. -/
def ids (layout : Layout) : List NodeId := layout.fold fun id content => id :: content.children.flatten

/-- The tree that a layout stores. -/
def tree (layout : Layout) : Tree := layout.fold fun _ content => Tree.ofContent content

theorem ids_eq (layout : Layout) :
    layout.ids = layout.id :: layout.content.children.flatMap ids := by
  rw [ids, fold_eq, Content.children_map, ← List.flatMap_def]
  rfl

theorem tree_eq (layout : Layout) : layout.tree = Tree.ofContent (layout.content.map tree) := by
  rw [tree, fold_eq]
  rfl

@[simp]
theorem content_tree (layout : Layout) : layout.tree.content = layout.content.map tree := by
  rw [tree_eq, Tree.content_ofContent]

theorem id_mem_ids (layout : Layout) : layout.id ∈ layout.ids := by
  rw [ids_eq]
  exact List.mem_cons_self

theorem mem_ids_of_child {layout child : Layout} {id : NodeId}
    (member : child ∈ layout.content.children) (below : id ∈ child.ids) : id ∈ layout.ids := by
  rw [ids_eq]
  exact List.mem_cons_of_mem _ (List.mem_flatMap.mpr ⟨child, member, below⟩)

/-- A layout has an identifier for each value of its tree. -/
theorem length_ids (layout : Layout) : layout.ids.length = layout.tree.count := by
  induction layout using induction_levels with
  | level layout inductionHypothesis =>
    rw [ids_eq, Tree.count_eq, content_tree, Content.children_map, List.length_cons,
      List.length_flatMap, List.map_map, List.map_congr_left inductionHypothesis]
    rfl

/-! ### Layouts whose identifiers are distinct -/

theorem nodup_child {layout child : Layout} (distinct : layout.ids.Nodup)
    (member : child ∈ layout.content.children) : child.ids.Nodup := by
  rw [ids_eq, List.nodup_cons, List.nodup_flatMap] at distinct
  exact distinct.2.1 child member

theorem id_notMem_child {layout child : Layout} (distinct : layout.ids.Nodup)
    (member : child ∈ layout.content.children) : layout.id ∉ child.ids := by
  rw [ids_eq, List.nodup_cons] at distinct
  exact fun below => distinct.1 (List.mem_flatMap.mpr ⟨child, member, below⟩)

end Layout

namespace Arena

variable {arena other : Arena} {layout : Layout}

/-! ### Holding a layout -/

/-- Each identifier of a layout finds the level that the layout has there. -/
inductive Holds (arena : Arena) : Layout → Prop where
  | level {layout : Layout} (found : arena.get? layout.id = some (layout.content.map Layout.id))
      (below : ∀ child ∈ layout.content.children, arena.Holds child) : arena.Holds layout

theorem Holds.found (holds : arena.Holds layout) :
    arena.get? layout.id = some (layout.content.map Layout.id) := by
  cases holds
  assumption

theorem Holds.child (holds : arena.Holds layout) {child : Layout}
    (member : child ∈ layout.content.children) : arena.Holds child := by
  cases holds with
  | level _ below => exact below child member

/-- A layout is held wherever its identifiers find the same. -/
theorem Holds.congr (holds : arena.Holds layout)
    (same : ∀ id ∈ layout.ids, other.get? id = arena.get? id) : other.Holds layout := by
  induction holds with
  | @level layout found _ inductionHypothesis =>
    refine .level ((same _ layout.id_mem_ids).trans found) fun child member => ?_
    exact inductionHypothesis child member fun id below =>
      same id (Layout.mem_ids_of_child member below)

/-- The identifiers of a held layout are live. -/
theorem Holds.contains (holds : arena.Holds layout) {id : NodeId} (member : id ∈ layout.ids) :
    arena.contains id = true := by
  induction holds with
  | @level layout found _ inductionHypothesis =>
    rw [Layout.ids_eq, List.mem_cons, List.mem_flatMap] at member
    rcases member with rfl | ⟨child, present, below⟩
    · exact contains_iff.mpr ⟨_, found⟩
    · exact inductionHypothesis child present below

/-- Distinct live identifiers are no more than there are slots. -/
theorem length_le_size {ids : List NodeId} (distinct : ids.Nodup)
    (live : ∀ id ∈ ids, arena.contains id = true) : ids.length ≤ arena.slots.size := by
  have indices : (ids.map fun id => id.index.toNat).Nodup := by
    refine (List.nodup_map_iff_inj_on distinct).mpr fun id member other memberOther same => ?_
    obtain ⟨node, found⟩ := contains_iff.mp (live id member)
    obtain ⟨nodeOther, foundOther⟩ := contains_iff.mp (live other memberOther)
    exact eq_of_index_eq foundOther found (UInt32.toNat_inj.mp same)
  have bounded : (ids.map fun id => id.index.toNat) ⊆ List.range arena.slots.size := by
    intro index member
    obtain ⟨id, present, rfl⟩ := List.mem_map.mp member
    obtain ⟨node, found⟩ := contains_iff.mp (live id present)
    exact List.mem_range.mpr (get?_eq_some found).1
  simpa using (List.subperm_of_subset indices bounded).length_le

/-! ### Reading a layout -/

/-- A tree is read whole as soon as there are as many levels as identifiers. -/
theorem Holds.treeWithin_eq (holds : arena.Holds layout) {levels : Nat}
    (enough : layout.ids.length ≤ levels) : arena.treeWithin levels layout.id = layout.tree := by
  induction holds generalizing levels with
  | @level layout found below inductionHypothesis =>
    rw [Layout.ids_eq, List.length_cons] at enough
    cases levels with
    | zero => omega
    | succ levels =>
      rw [treeWithin, found, Layout.tree_eq]
      simp only [Content.map_map]
      refine congrArg Tree.ofContent (Content.map_congr fun child member => ?_)
      have smaller : child.ids.length ≤ (layout.content.children.flatMap Layout.ids).length := by
        rw [List.length_flatMap]
        exact List.le_sum_of_mem (List.mem_map_of_mem member)
      exact inductionHypothesis child member (by omega)

/-- The tree under the topmost identifier of a held layout is the tree of the layout. -/
theorem Holds.tree_eq (holds : arena.Holds layout) (distinct : layout.ids.Nodup) :
    arena.tree layout.id = layout.tree :=
  holds.treeWithin_eq (length_le_size distinct fun _ member => holds.contains member)

end Arena

end JsonOverlay
