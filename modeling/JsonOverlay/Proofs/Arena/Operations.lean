/-
This file says what each operation on an attached value does to the arena of its document.
Every one of them gives the layout of the value's node a new level under the same
identifier: a scalar or an empty container, one more child at the end, or the members that
are left. The arenas here are those that the operations compute, in the order in which they
store, overwrite and free.
-/

import JsonOverlay.Proofs.Appending
import JsonOverlay.Proofs.Arena.Reshape

namespace JsonOverlay.Arena

variable {arena : Arena} {inner : Layout} {members : List (String × Layout)} {items : List Layout}

/-- Nothing happens to a layout that is held. -/
theorem Reshaped.refl (sound : arena.Sound) (holds : arena.Holds inner)
    (distinct : inner.ids.Nodup) : Reshaped arena inner inner arena where
  id_eq := rfl
  holds := holds
  distinct := distinct
  fresh _ inside outside := absurd inside outside
  gone _ inside outside := absurd inside outside
  kept _ _ _ := rfl
  sound := sound
  root := rfl
  live := rfl

/-- The level of a node as an arena has it, by the names and identifiers of the children. -/
theorem Holds.get?_object (holds : arena.Holds inner) (object : inner.content = .object members) :
    arena.get? inner.id = some (.object (members.map fun (name, child) => (name, child.id))) := by
  rw [holds.found, object]
  rfl

/-! ### A new level -/

theorem replace_of_found {id : NodeId} {old : Node} (found : arena.get? id = some old)
    (node : Node) :
    arena.replace id node = (true, (arena.assign id node).freeAll old.children) := by
  rw [replace, found]
  exact congrArg (Prod.mk true) (foldl_free _ _)

/-- Replacing a node by a level without children frees all that was below it. -/
theorem reshaped_replace (sound : arena.Sound) (holds : arena.Holds inner)
    (distinct : inner.ids.Nodup) (content : Content Empty) :
    Reshaped arena inner ⟨inner.id, content.ofLeaf⟩ (arena.replace inner.id content.ofLeaf).2 := by
  have leaf : (content.ofLeaf : Content Layout).children = [] := by
    rw [Content.ofLeaf, Content.children_map, List.map_eq_nil_iff, List.eq_nil_iff_forall_not_mem]
    exact fun child => child.elim
  have level : (content.ofLeaf : Content Layout).map Layout.id = content.ofLeaf := by
    rw [Content.ofLeaf, Content.map_map]
    exact Content.map_congr fun child => child.elim
  have parts : ((content.ofLeaf : Content Layout).children ++ inner.content.children).Perm
      inner.content.children := by rw [leaf, List.nil_append]
  have pruned := reshaped_prune sound holds distinct parts
  rw [level] at pruned
  rw [replace_of_found holds.found, Content.children_map]
  exact pruned

/-! ### One more child -/

/-- Appending stores the tree first and then gives the node its new level. -/
theorem reshaped_append (sound : arena.Sound) (holds : arena.Holds inner)
    (distinct : inner.ids.Nodup) (appending : Appending) (tree : Tree) {node : Node}
    (more : appending.extend? (inner.content.map Layout.id) (arena.store tree).1 = some node)
    (room : (arena.store tree).2.slots.size ≤ slotLimit) :
    ∃ added extended, Layout.tree added = tree ∧
      appending.extend? inner.content added = some extended ∧
      Reshaped arena inner ⟨inner.id, extended⟩ ((arena.store tree).2.assign inner.id node) := by
  obtain ⟨added, id, shown, grown⟩ := grown_store tree sound room
  rw [← id, appending.extend?_map] at more
  obtain ⟨extended, fits, rfl⟩ := Option.map_eq_some_iff.mp more
  refine ⟨added, extended, shown, fits, reshaped_extend holds distinct grown ?_⟩
  rw [Appending.children_of_extend? fits]
  exact (List.perm_append_singleton added _).symm

/-! ### Fewer members -/

/-- Removing members gives the object its new level and then frees what was removed. -/
theorem reshaped_removeMember (sound : arena.Sound) (holds : arena.Holds inner)
    (distinct : inner.ids.Nodup) (object : inner.content = .object members) (name : String) :
    Reshaped arena inner ⟨inner.id, .object (members.filter fun (other, _) => other != name)⟩
      (((((members.map fun (name, child) => (name, child.id)).filter
          fun (other, _) => other == name).map Prod.snd).foldl free
        (arena.assign inner.id
          (.object ((members.map fun (name, child) => (name, child.id)).filter
            fun (other, _) => other != name))))) := by
  have parts : ((Content.object (members.filter fun (other, _) => other != name)).children ++
      (members.filter fun (other, _) => other == name).map Prod.snd).Perm
        inner.content.children := by
    rw [object]
    have split := List.filter_append_perm (fun member : String × Layout => member.1 != name) members
    simpa [Content.children, bne] using split.map Prod.snd
  have pruned := reshaped_prune sound holds distinct parts
  rw [foldl_free]
  simpa [Content.map, List.filter_map, Function.comp_def] using pruned

end JsonOverlay.Arena
