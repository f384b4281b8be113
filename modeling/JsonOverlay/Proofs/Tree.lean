/-
This file gives plain trees an induction by levels: what holds of a tree whenever it holds
of all children of its top level holds of every tree. The measures of a tree are read off
the children of its top level.
-/

import JsonOverlay.Proofs.Content
import JsonOverlay.Tree

namespace JsonOverlay

theorem Content.sizeOf_lt_of_mem_children {α : Type} [SizeOf α] {content : Content α} {child : α}
    (member : child ∈ content.children) : sizeOf child < sizeOf content := by
  cases content with
  | array items =>
    have smaller : sizeOf child < sizeOf items := List.sizeOf_lt_of_mem member
    simp only [array.sizeOf_spec]
    omega
  | object members =>
    obtain ⟨⟨name, found⟩, present, rfl⟩ := List.mem_map.mp member
    have smaller := List.sizeOf_lt_of_mem present
    simp only [Prod.mk.sizeOf_spec, object.sizeOf_spec] at smaller ⊢
    omega
  | _ => simp [children] at member

namespace Tree

theorem sizeOf_content_le (tree : Tree) : sizeOf tree.content ≤ sizeOf tree := by
  cases tree <;> simp [content]

/-- Induction over the levels of a tree. -/
theorem induction_levels {motive : Tree → Prop}
    (level : ∀ tree : Tree, (∀ child ∈ tree.content.children, motive child) → motive tree)
    (tree : Tree) : motive tree :=
  level tree fun child _ => induction_levels level child
termination_by sizeOf tree
decreasing_by
  have smaller := Content.sizeOf_lt_of_mem_children (by assumption)
  have top := sizeOf_content_le tree
  omega

theorem content_injective {first second : Tree} (same : first.content = second.content) :
    first = second := by
  rw [← ofContent_content first, same, ofContent_content]

/-! ### Measures -/

-- As in the definitions, a sum starts from the numeral zero.
attribute [local instance (1100)] Zero.ofOfNat0

theorem countItems_eq_sum (items : List Tree) : countItems items = (items.map count).sum := by
  induction items with
  | nil => rfl
  | cons item rest inductionHypothesis => simp [countItems, inductionHypothesis]

theorem countMembers_eq_sum (members : List (String × Tree)) :
    countMembers members = ((members.map Prod.snd).map count).sum := by
  induction members with
  | nil => rfl
  | cons member rest inductionHypothesis =>
    simpa [countMembers] using inductionHypothesis

/-- A tree has one value more than all its children together. -/
theorem count_eq (tree : Tree) : tree.count = (tree.content.children.map count).sum + 1 := by
  cases tree <;>
    simp [count, content, Content.children, countItems_eq_sum, countMembers_eq_sum]

theorem depth_le_depthItems {items : List Tree} {item : Tree} (member : item ∈ items) :
    item.depth ≤ depthItems items := by
  induction items with
  | nil => cases member
  | cons first rest inductionHypothesis =>
    rw [depthItems]
    rcases List.mem_cons.mp member with rfl | later
    · exact Nat.le_max_left _ _
    · exact Nat.le_trans (inductionHypothesis later) (Nat.le_max_right _ _)

theorem depth_le_depthMembers {members : List (String × Tree)} {child : Tree}
    (member : child ∈ members.map Prod.snd) : child.depth ≤ depthMembers members := by
  induction members with
  | nil => cases member
  | cons first rest inductionHypothesis =>
    rw [depthMembers]
    rcases List.mem_cons.mp member with rfl | later
    · exact Nat.le_max_left _ _
    · exact Nat.le_trans (inductionHypothesis later) (Nat.le_max_right _ _)

/-- The children of a tree are nested less deeply than the tree. -/
theorem depth_lt_of_mem_children {tree child : Tree} (member : child ∈ tree.content.children) :
    child.depth < tree.depth := by
  cases tree with
  | array items => exact Nat.lt_succ_of_le (depth_le_depthItems member)
  | object members => exact Nat.lt_succ_of_le (depth_le_depthMembers member)
  | _ => cases member

end Tree

end JsonOverlay
