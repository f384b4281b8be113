/-
This file says what storing and freeing whole trees does to an arena. Storing a tree adds
a layout of it under identifiers that were dead before; freeing what an arena holds makes
exactly the identifiers of the freed layouts find nothing. Either way every other
identifier finds what it found before, the bookkeeping stays right and the number of live
nodes changes by the number of values.
-/

import JsonOverlay.Proofs.Arena.Layout

namespace JsonOverlay.Arena

variable {arena before between after : Arena}

/-! ### Growing by layouts -/

/-- An arena that has come to hold some layouts besides what it held before. -/
structure Grown (before : Arena) (added : List Layout) (after : Arena) : Prop where
  holds : ∀ layout ∈ added, after.Holds layout
  distinct : (added.flatMap Layout.ids).Nodup
  fresh : ∀ id ∈ added.flatMap Layout.ids, before.get? id = none
  kept : ∀ id ∉ added.flatMap Layout.ids, after.get? id = before.get? id
  sound : after.Sound
  root : after.root = before.root
  live : after.live = before.live + (added.flatMap Layout.ids).length

theorem Grown.refl (sound : arena.Sound) : Grown arena [] arena where
  holds := by simp
  distinct := by simp
  fresh := by simp
  kept _ _ := rfl
  sound := sound
  root := rfl
  live := by simp

/-- The identifiers of an added layout are live. -/
theorem Grown.contains {added : List Layout} (grown : Grown before added after) {id : NodeId}
    (member : id ∈ added.flatMap Layout.ids) : after.contains id = true := by
  obtain ⟨layout, present, below⟩ := List.mem_flatMap.mp member
  exact (grown.holds layout present).contains below

/-- A layout that was held stays held while others are added. -/
theorem Grown.holds_of_holds {added : List Layout} (grown : Grown before added after)
    {layout : Layout} (holds : before.Holds layout) : after.Holds layout := by
  refine holds.congr fun id member => grown.kept id fun added => ?_
  obtain ⟨node, found⟩ := contains_iff.mp (holds.contains member)
  rw [grown.fresh id added] at found
  cases found

theorem Grown.trans {first second : List Layout} (grown : Grown before first between)
    (more : Grown between second after) : Grown before (first ++ second) after := by
  have apart : ∀ id ∈ first.flatMap Layout.ids, id ∉ second.flatMap Layout.ids := by
    intro id member memberSecond
    obtain ⟨node, found⟩ := contains_iff.mp (grown.contains member)
    rw [more.fresh id memberSecond] at found
    cases found
  refine ⟨fun layout member => ?_, ?_, fun id member => ?_, fun id outside => ?_, more.sound,
    more.root.trans grown.root, ?_⟩
  · rcases List.mem_append.mp member with early | late
    · exact more.holds_of_holds (grown.holds layout early)
    · exact more.holds layout late
  · rw [List.flatMap_append, List.nodup_append']
    exact ⟨grown.distinct, more.distinct, fun id member => apart id member⟩
  · rw [List.flatMap_append, List.mem_append] at member
    rcases member with early | late
    · exact grown.fresh id early
    · have outside : id ∉ first.flatMap Layout.ids := fun early => apart id early late
      rw [← grown.kept id outside]
      exact more.fresh id late
  · rw [List.flatMap_append, List.mem_append, not_or] at outside
    rw [more.kept id outside.2, grown.kept id outside.1]
  · rw [more.live, grown.live, List.flatMap_append, List.length_append, Nat.add_assoc]

/-- Storing the level above some layouts joins them into one. -/
theorem Grown.alloc (content : Content Layout) (grown : Grown before content.children between)
    (room : (between.alloc (content.map Layout.id)).2.slots.size ≤ slotLimit) :
    Grown before [⟨(between.alloc (content.map Layout.id)).1, content⟩]
      (between.alloc (content.map Layout.id)).2 := by
  have stores := stores_alloc grown.sound (content.map Layout.id) room
  have all : [(⟨(between.alloc (content.map Layout.id)).1, content⟩ : Layout)].flatMap Layout.ids =
      (between.alloc (content.map Layout.id)).1 :: content.children.flatMap Layout.ids := by
    rw [List.flatMap_singleton, Layout.ids_eq]
  have new : (between.alloc (content.map Layout.id)).1 ∉ content.children.flatMap Layout.ids := by
    intro member
    obtain ⟨node, found⟩ := contains_iff.mp (grown.contains member)
    rw [stores.fresh] at found
    cases found
  refine ⟨fun layout member => ?_, ?_, fun id member => ?_, fun id outside => ?_, stores.sound,
    (root_alloc _ _).trans grown.root, ?_⟩
  · rw [List.mem_singleton.mp member]
    refine .level (by rw [stores.get?_eq, if_pos rfl]) fun child below => ?_
    refine (grown.holds child below).congr fun id inside => ?_
    rw [stores.get?_eq, if_neg]
    rintro rfl
    exact new (List.mem_flatMap.mpr ⟨child, below, inside⟩)
  · rw [all, List.nodup_cons]
    exact ⟨new, grown.distinct⟩
  · rw [all, List.mem_cons] at member
    rcases member with rfl | below
    · rw [← grown.kept _ new]
      exact stores.fresh
    · exact grown.fresh id below
  · rw [all, List.mem_cons, not_or] at outside
    rw [stores.get?_eq, if_neg outside.1, grown.kept id outside.2]
  · rw [live_alloc, grown.live, all, List.length_cons]
    omega

/-! ### Storing node by node -/

/-- An arena that has come of another by storing some nodes, one after the other. -/
inductive Allocates (before : Arena) : Nat → Arena → Prop where
  | nothing : Allocates before 0 before
  | node {count : Nat} {between : Arena} (allocates : Allocates before count between)
      (node : Node) : Allocates before (count + 1) (between.alloc node).2

theorem Allocates.trans {first second : Nat} (allocates : Allocates before first between)
    (more : Allocates between second after) : Allocates before (first + second) after := by
  induction more with
  | nothing => exact allocates
  | node _ node inductionHypothesis => exact .node inductionHypothesis node

mutual

/-- A tree is stored by one node for each of its values. -/
theorem allocates_store (arena : Arena) :
    (tree : Tree) → Allocates arena tree.count (arena.store tree).2
  | .null | .bool _ | .number _ | .string _ => .node .nothing _
  | .array items => .node (allocates_storeItems arena items) _
  | .object members => .node (allocates_storeMembers arena members) _

theorem allocates_storeItems (arena : Arena) :
    (items : List Tree) → Allocates arena (Tree.countItems items) (arena.storeItems items).2
  | [] => .nothing
  | item :: rest => (allocates_store arena item).trans (allocates_storeItems _ rest)

theorem allocates_storeMembers (arena : Arena) : (members : List (String × Tree)) →
    Allocates arena (Tree.countMembers members) (arena.storeMembers members).2
  | [] => .nothing
  | (_, child) :: rest => (allocates_store arena child).trans (allocates_storeMembers _ rest)

end

section Allocates

variable {count : Nat}

theorem Allocates.size_slots_le (allocates : Allocates before count after) :
    before.slots.size ≤ after.slots.size := by
  induction allocates with
  | nothing => exact Nat.le_refl _
  | node _ node inductionHypothesis => exact inductionHypothesis.trans (size_slots_le_alloc _ node)

theorem size_slots_alloc_le (arena : Arena) (node : Node) :
    (arena.alloc node).2.slots.size ≤ arena.slots.size + 1 := by
  unfold alloc
  split
  · exact (size_slots_fill _).le.trans (Nat.le_succ _)
  · exact (Array.size_push _).le

/-- At most one slot is new for each node. -/
theorem Allocates.size_slots_le_add (allocates : Allocates before count after) :
    after.slots.size ≤ before.slots.size + count := by
  induction allocates with
  | nothing => exact Nat.le_refl _
  | node _ node inductionHypothesis =>
    exact (size_slots_alloc_le _ node).trans (Nat.succ_le_succ inductionHypothesis)

/-- An arena without vacant slots that has got some more nodes, each in a slot of its own. -/
structure Lengthened (before after : Arena) (added : Nat) : Prop where
  vacant : after.vacant = []
  size : after.slots.size = before.slots.size + added
  live : after.live = before.live + added

/-- Where no slot is vacant, every node takes a new one. -/
theorem Allocates.lengthened (allocates : Allocates before count after)
    (full : before.vacant = []) : Lengthened before after count := by
  induction allocates with
  | nothing => exact ⟨full, rfl, rfl⟩
  | node _ node inductionHypothesis =>
    rw [alloc_of_full inductionHypothesis.vacant]
    exact ⟨inductionHypothesis.vacant, (Array.size_push _).trans
      (congrArg Nat.succ inductionHypothesis.size), congrArg Nat.succ inductionHypothesis.live⟩

end Allocates

/-! ### Storing trees -/

/-- Storing a level without children. -/
theorem grown_leaf (sound : arena.Sound) (content : Content Layout) (leaf : content.children = [])
    (room : (arena.alloc (content.map Layout.id)).2.slots.size ≤ slotLimit) :
    ∃ layout : Layout, layout.id = (arena.alloc (content.map Layout.id)).1 ∧
      layout.content = content ∧ Grown arena [layout] (arena.alloc (content.map Layout.id)).2 :=
  ⟨⟨_, content⟩, rfl, rfl, Grown.alloc content (leaf ▸ Grown.refl sound) room⟩

mutual

/-- Storing a tree adds one layout of it, whose topmost identifier is the answer. -/
theorem grown_store :
    (tree : Tree) → ∀ {arena : Arena}, arena.Sound →
      (arena.store tree).2.slots.size ≤ slotLimit →
      ∃ layout : Layout, layout.id = (arena.store tree).1 ∧ layout.tree = tree ∧
        Grown arena [layout] (arena.store tree).2
  | .null, _, sound, room => by
    obtain ⟨layout, id, content, grown⟩ := grown_leaf sound .null rfl room
    exact ⟨layout, id, by rw [Layout.tree_eq, content]; rfl, grown⟩
  | .bool value, _, sound, room => by
    obtain ⟨layout, id, content, grown⟩ := grown_leaf sound (.bool value) rfl room
    exact ⟨layout, id, by rw [Layout.tree_eq, content]; rfl, grown⟩
  | .number value, _, sound, room => by
    obtain ⟨layout, id, content, grown⟩ := grown_leaf sound (.number value) rfl room
    exact ⟨layout, id, by rw [Layout.tree_eq, content]; rfl, grown⟩
  | .string value, _, sound, room => by
    obtain ⟨layout, id, content, grown⟩ := grown_leaf sound (.string value) rfl room
    exact ⟨layout, id, by rw [Layout.tree_eq, content]; rfl, grown⟩
  | .array items, _, sound, room => by
    simp only [store] at room ⊢
    obtain ⟨layouts, ids, trees, grown⟩ := grown_storeItems items sound
      ((size_slots_le_alloc _ _).trans room)
    rw [← ids] at room ⊢
    refine ⟨⟨_, .array layouts⟩, rfl, ?_, Grown.alloc (.array layouts) grown room⟩
    rw [Layout.tree_eq]
    exact congrArg Tree.array trees
  | .object members, _, sound, room => by
    simp only [store] at room ⊢
    obtain ⟨layouts, ids, trees, grown⟩ := grown_storeMembers members sound
      ((size_slots_le_alloc _ _).trans room)
    rw [← ids] at room ⊢
    refine ⟨⟨_, .object layouts⟩, rfl, ?_, Grown.alloc (.object layouts) grown room⟩
    rw [Layout.tree_eq]
    exact congrArg Tree.object trees

theorem grown_storeItems :
    (items : List Tree) → ∀ {arena : Arena}, arena.Sound →
      (arena.storeItems items).2.slots.size ≤ slotLimit →
      ∃ layouts : List Layout, layouts.map Layout.id = (arena.storeItems items).1 ∧
        layouts.map Layout.tree = items ∧ Grown arena layouts (arena.storeItems items).2
  | [], _, sound, _ => ⟨[], rfl, rfl, Grown.refl sound⟩
  | item :: rest, _, sound, room => by
    simp only [storeItems] at room ⊢
    obtain ⟨layout, id, tree, grown⟩ := grown_store item sound
      ((allocates_storeItems _ rest).size_slots_le.trans room)
    obtain ⟨layouts, ids, trees, more⟩ := grown_storeItems rest grown.sound room
    exact ⟨layout :: layouts, by simp [id, ids], by simp [tree, trees], grown.trans more⟩

theorem grown_storeMembers :
    (members : List (String × Tree)) → ∀ {arena : Arena}, arena.Sound →
      (arena.storeMembers members).2.slots.size ≤ slotLimit →
      ∃ layouts : List (String × Layout),
        (layouts.map fun (name, child) => (name, child.id)) = (arena.storeMembers members).1 ∧
        (layouts.map fun (name, child) => (name, child.tree)) = members ∧
        Grown arena (layouts.map Prod.snd) (arena.storeMembers members).2
  | [], _, sound, _ => ⟨[], rfl, rfl, Grown.refl sound⟩
  | (name, child) :: rest, _, sound, room => by
    simp only [storeMembers] at room ⊢
    obtain ⟨layout, id, tree, grown⟩ := grown_store child sound
      ((allocates_storeMembers _ rest).size_slots_le.trans room)
    obtain ⟨layouts, ids, trees, more⟩ := grown_storeMembers rest grown.sound room
    exact ⟨(name, layout) :: layouts, by simp [id, ids], by simp [tree, trees], grown.trans more⟩

end

/-! ### Freeing layouts -/

/-- An arena that has ceased to hold some layouts and is otherwise as before. -/
structure Released (before : Arena) (removed : List Layout) (after : Arena) : Prop where
  gone : ∀ id ∈ removed.flatMap Layout.ids, after.get? id = none
  kept : ∀ id ∉ removed.flatMap Layout.ids, after.get? id = before.get? id
  sound : after.Sound
  live : after.live + (removed.flatMap Layout.ids).length = before.live

/-- Freeing held layouts releases their nodes and nothing else. -/
theorem released_freeAll (sound : arena.Sound) {layouts : List Layout}
    (holds : ∀ layout ∈ layouts, arena.Holds layout)
    (distinct : (layouts.flatMap Layout.ids).Nodup) :
    Released arena layouts (arena.freeAll (layouts.map Layout.id)) := by
  -- The children of a freed node are freed next, so the induction is on all identifiers left.
  generalize bound : (layouts.flatMap Layout.ids).length = size
  induction size using Nat.strongRecOn generalizing arena layouts with
  | ind size inductionHypothesis =>
    cases layouts with
    | nil => exact ⟨by simp, by simp [freeAll], by rw [List.map_nil, freeAll]; exact sound, by
        simp [freeAll]⟩
    | cons layout rest =>
      have found := (holds layout List.mem_cons_self).found
      have order : ((layout.content.children.reverse ++ rest).flatMap Layout.ids).Perm
          (layout.content.children.flatMap Layout.ids ++ rest.flatMap Layout.ids) := by
        rw [List.flatMap_append]
        exact ((List.reverse_perm _).flatMap_right _).append_right _
      have split : (layout :: rest).flatMap Layout.ids = layout.id ::
          (layout.content.children.flatMap Layout.ids ++ rest.flatMap Layout.ids) := by
        rw [List.flatMap_cons, Layout.ids_eq, List.cons_append]
      rw [split, List.nodup_cons] at distinct
      have sizes : ((layout.content.children.reverse ++ rest).flatMap Layout.ids).length + 1 =
          size := by
        rw [← bound, split, List.length_cons, order.length_eq]
      have spared : ∀ id ∈ (layout.content.children.reverse ++ rest).flatMap Layout.ids,
          (arena.vacate layout.id).get? id = arena.get? id := by
        intro id member
        rw [get?_vacate found, if_neg]
        rintro rfl
        exact distinct.1 (order.mem_iff.mp member)
      have held : ∀ below ∈ layout.content.children.reverse ++ rest,
          (arena.vacate layout.id).Holds below := by
        intro below member
        have before : arena.Holds below := by
          rcases List.mem_append.mp member with child | other
          · exact (holds layout List.mem_cons_self).child (List.mem_reverse.mp child)
          · exact holds below (List.mem_cons_of_mem _ other)
        exact before.congr fun id inside => spared id (List.mem_flatMap.mpr ⟨below, member, inside⟩)
      have released := inductionHypothesis _ (by omega) (sound.vacate found) held
        (order.nodup_iff.mpr distinct.2) rfl
      have walk : arena.freeAll ((layout :: rest).map Layout.id) =
          (arena.vacate layout.id).freeAll
            ((layout.content.children.reverse ++ rest).map Layout.id) := by
        rw [List.map_cons, freeAll_of_found found, Content.children_map, List.map_append,
          List.map_reverse]
      rw [walk]
      refine ⟨fun id member => ?_, fun id outside => ?_, released.sound, ?_⟩
      · rw [split, List.mem_cons] at member
        by_cases below : id ∈ (layout.content.children.reverse ++ rest).flatMap Layout.ids
        · exact released.gone id below
        · rw [released.kept id below, get?_vacate found, if_pos]
          exact member.resolve_right fun later => below (order.mem_iff.mpr later)
      · rw [split, List.mem_cons, not_or] at outside
        rw [released.kept id fun below => outside.2 (order.mem_iff.mp below), get?_vacate found,
          if_neg outside.1]
      · have counted := sound.live_vacate found
        have rest := released.live
        rw [bound]
        omega

/-- A layout that shares no identifier with those freed stays held. -/
theorem Released.holds_of_holds {removed : List Layout} (released : Released before removed after)
    {layout : Layout} (holds : before.Holds layout)
    (apart : ∀ id ∈ layout.ids, id ∉ removed.flatMap Layout.ids) : after.Holds layout :=
  holds.congr fun id member => released.kept id (apart id member)

end JsonOverlay.Arena
