/-
This file says what an operation does through a value that is attached to a node. As long as
the heap holds the layout under the node, the operation gives the layout a new level: a
scalar or an empty container, one more child at the end, or the members that are left. What
lies above in the same arena has the new layout grafted in.
-/

import JsonOverlay.Proofs.Value.Write

namespace JsonOverlay

namespace Heap

variable {before after heap : Heap} {place : ArenaId} {old new layout : Layout} {key : ChildKey}

/-- The heap has a layout in the arena at a place. -/
def Holds (heap : Heap) (place : ArenaId) (layout : Layout) : Prop :=
  ∃ arena, heap.arena? place = some arena ∧ arena.Sound ∧ arena.Holds layout ∧ layout.ids.Nodup

/-- No arena at a place has more slots than can be told apart. -/
def HasRoom (heap : Heap) (place : ArenaId) : Prop :=
  ∀ arena, heap.arena? place = some arena → arena.slots.size ≤ Arena.slotLimit

theorem Touched.hasRoom (touched : Touched before after) (room : after.HasRoom place) :
    before.HasRoom place := by
  intro arena found
  obtain ⟨changed, present, size⟩ := touched.exists_arena found
  exact size.trans (room changed present)

theorem Touched.arena?_eq_none (touched : Touched before after)
    (absent : before.arena? place = none) : after.arena? place = none := by
  cases touched with
  | nothing => exact absent
  | @arena id old changed found follows =>
    have apart : place ≠ id := by
      rintro rfl
      rw [absent] at found
      cases found
    rw [arena?_put found, if_neg apart, absent]

theorem HasRoom.of_put {arena changed : Arena} (room : (heap.put place changed).HasRoom place)
    (found : heap.arena? place = some arena) : changed.slots.size ≤ Arena.slotLimit := by
  refine room changed ?_
  rw [arena?_put found, if_pos rfl]

/-! ### Layouts in the heap -/

theorem Holds.node?_eq (holds : heap.Holds place layout) :
    heap.node? ⟨place, layout.id⟩ = some (layout.content.map Layout.id) := by
  obtain ⟨arena, found, -, holds, -⟩ := holds
  rw [node?, found]
  exact holds.found

theorem Holds.tree_eq (holds : heap.Holds place layout) :
    heap.tree ⟨place, layout.id⟩ = layout.tree := by
  obtain ⟨arena, found, -, holds, distinct⟩ := holds
  rw [tree, found]
  exact holds.tree_eq distinct

theorem Holds.child {inner : Layout} (holds : heap.Holds place layout)
    (found : layout.content.child? key = some inner) : heap.Holds place inner := by
  have member := Content.mem_children_of_child? found
  obtain ⟨arena, present, sound, holds, distinct⟩ := holds
  exact ⟨arena, present, sound, holds.child member, Layout.nodup_child distinct member⟩

/-! ### One layout in the place of another -/

/-- A layout in the arena at a place has given way to another. -/
inductive Reshaped (before : Heap) (place : ArenaId) (old new : Layout) : Heap → Prop where
  | intro {arena changed : Arena} (found : before.arena? place = some arena)
      (change : Arena.Reshaped arena old new changed) :
      Reshaped before place old new (before.put place changed)

theorem Holds.reshaped_refl (holds : heap.Holds place layout) :
    heap.Reshaped place layout layout heap := by
  obtain ⟨arena, found, sound, holds, distinct⟩ := holds
  have same := Reshaped.intro found (Arena.Reshaped.refl sound holds distinct)
  rwa [put_self found] at same

theorem Reshaped.holds (reshaped : before.Reshaped place old new after) :
    after.Holds place new := by
  cases reshaped with
  | intro found change =>
    exact ⟨_, by rw [arena?_put found, if_pos rfl], change.sound, change.holds, change.distinct⟩

/-- What a change of the child at a key means for the layout above: it keeps its outline and
the children at all other keys. -/
theorem Reshaped.above (reshaped : before.Reshaped place old new after) {outer : Layout}
    (held : before.Holds place outer) (member : key ∈ outer.content.keys)
    (position : outer.content.child? key = some old) :
    ∃ outer' : Layout, before.Reshaped place outer outer' after ∧ outer'.id = outer.id ∧
      outer'.content.outline = outer.content.outline ∧
      (∀ other ∈ outer.content.keys, other ≠ key →
        outer'.content.child? other = outer.content.child? other) ∧
      outer'.content.child? key = some new := by
  cases reshaped with
  | @intro arena changed found change =>
    obtain ⟨whole, present, sound, holds, distinct⟩ := held
    rw [found, Option.some.injEq] at present
    subst present
    have below := Content.mem_children_of_child? position
    have grafted := change.graft holds distinct (.deeper below .self)
    have top : outer.id ≠ new.id := by
      rw [change.id_eq]
      exact ((Layout.Within.self).id_ne distinct below).symm
    have level : (outer.graft new).content = outer.content.map fun child => child.graft new := by
      rw [Layout.graft_eq, if_neg top]
    refine ⟨outer.graft new, .intro found grafted, Layout.id_graft outer new, ?_,
      fun other inside different => ?_, ?_⟩
    · rw [level, Content.outline_map]
    · obtain ⟨sibling, -, atOther⟩ := Content.exists_child_of_mem_keys inside
      have apart : new.id ∉ sibling.ids := by
        rw [change.id_eq]
        exact fun inSibling => different
          (Layout.key_unique distinct inside member atOther position inSibling old.id_mem_ids)
      rw [level, Content.child?_map, atOther, Option.map_some, Layout.graft_of_notMem apart]
    · rw [level, Content.child?_map, position, Option.map_some,
        Layout.graft_of_id_eq change.id_eq.symm]

end Heap

/-! ### Operations -/

theorem Allocator.owns_self (place : ArenaId) (id : NodeId) :
    Allocator.owns ⟨some place⟩ ⟨place, id⟩ = true := by
  simp [owns]

namespace Value

variable {heap : Heap} {place : ArenaId} {layout : Layout} {children : Children Value}
  {allocator : Allocator}

/-- An allocator of the document finds the level of a node. -/
theorem target_of_holds (holds : heap.Holds place layout)
    (owned : allocator.owns ⟨place, layout.id⟩ = true) :
    ∃ arena, heap.arena? place = some arena ∧ arena.Sound ∧ arena.Holds layout ∧
      layout.ids.Nodup ∧
        target heap ⟨place, layout.id⟩ allocator = .ok (arena, layout.content.map Layout.id) := by
  obtain ⟨arena, found, sound, holds, distinct⟩ := holds
  exact ⟨arena, found, sound, holds, distinct, target_eq_ok.mpr ⟨owned, found, holds.found⟩⟩

theorem set_of_holds (holds : heap.Holds place layout) (content : Content Empty) :
    ∃ after, (∀ table, Value.set ⟨.attached ⟨place, layout.id⟩, table⟩ heap content =
        (after, ⟨.attached ⟨place, layout.id⟩, table.clear⟩)) ∧
      heap.Reshaped place layout ⟨layout.id, content.ofLeaf⟩ after := by
  obtain ⟨arena, found, sound, holds, distinct⟩ := holds
  refine ⟨_, fun table => ?_, .intro found (Arena.reshaped_replace sound holds distinct content)⟩
  simp only [set, found]

/-- Removing members from an object. -/
theorem removeMember_of_object {members : List (String × Layout)} (holds : heap.Holds place layout)
    (object : layout.content = .object members) (name : String) :
    ∃ after, (∀ table, Value.removeMember ⟨.attached ⟨place, layout.id⟩, table⟩ heap name =
        (members.countP fun (other, _) => other == name, after,
          ⟨.attached ⟨place, layout.id⟩, table.forgetMember name⟩)) ∧
      heap.Reshaped place layout
        ⟨layout.id, .object (members.filter fun (other, _) => other != name)⟩ after := by
  obtain ⟨arena, found, sound, holds, distinct⟩ := holds
  refine ⟨_, fun table => ?_,
    .intro found (Arena.reshaped_removeMember sound holds distinct object name)⟩
  simp only [removeMember, found, holds.get?_object object,
    ← List.countP_eq_length_filter, List.countP_map, Function.comp_def]

/-- From anything else nothing is removed. -/
theorem removeMember_of_other (holds : heap.Holds place layout)
    (other : layout.content.kind ≠ .object) (name : String) :
    Value.removeMember ⟨.attached ⟨place, layout.id⟩, children⟩ heap name =
      (0, heap, ⟨.attached ⟨place, layout.id⟩, children.forgetMember name⟩) := by
  obtain ⟨arena, found, sound, holds, distinct⟩ := holds
  simp only [removeMember, found, holds.found]
  cases level : layout.content <;> simp only [level] at other ⊢ <;>
    first | rfl | exact absurd rfl other

end Value

namespace Appending

variable {appending : Appending} {heap : Heap} {place : ArenaId} {layout : Layout}
  {children : Children Value} {operand : Value} {allocator : Allocator}

/-- Appending to a node of the right type. -/
theorem run_of_fits (holds : heap.Holds place layout)
    (owned : allocator.owns ⟨place, layout.id⟩ = true) (fits : layout.content.kind = appending.kind)
    (room : (appending.run heap ⟨.attached ⟨place, layout.id⟩, children⟩ operand
      allocator).heap.HasRoom place) :
    ∃ after added extended, (∀ table, appending.run heap ⟨.attached ⟨place, layout.id⟩, table⟩
        operand allocator = ⟨after, ⟨.attached ⟨place, layout.id⟩,
          table.forgetPlaceholder (appending.key layout.content) Value.isBlank⟩, .done⟩) ∧
      Layout.tree added = operand.visible heap ∧
      appending.extend? layout.content added = some extended ∧
      heap.Reshaped place layout ⟨layout.id, extended⟩ after := by
  obtain ⟨arena, found, sound, holds, distinct, target⟩ := Value.target_of_holds holds owned
  obtain ⟨node, more⟩ := exists_extend? ((Content.kind_map Layout.id _).trans fits)
    (arena.store (operand.visible heap)).1
  have equation : ∀ table, appending.run heap ⟨.attached ⟨place, layout.id⟩, table⟩ operand
      allocator = ⟨heap.put place ((arena.store (operand.visible heap)).2.assign layout.id node),
        ⟨.attached ⟨place, layout.id⟩,
          table.forgetPlaceholder (appending.key layout.content) Value.isBlank⟩, .done⟩ := by
    intro table
    rw [run_attached, target]
    dsimp only
    rw [more, key_map]
    rfl
  rw [equation] at room
  obtain ⟨added, extended, shown, below, reshaped⟩ := Arena.reshaped_append sound holds distinct
    appending _ more ((Arena.size_slots_assign _ _ _).symm.trans_le (room.of_put found))
  exact ⟨_, added, extended, equation, shown, below, .intro found reshaped⟩

/-- Nothing is appended to a node of another type. -/
theorem run_of_other (holds : heap.Holds place layout)
    (owned : allocator.owns ⟨place, layout.id⟩ = true)
    (other : layout.content.kind ≠ appending.kind) :
    appending.run heap ⟨.attached ⟨place, layout.id⟩, children⟩ operand allocator =
      ⟨heap, ⟨.attached ⟨place, layout.id⟩, children⟩,
        .refused (appending.refusal layout.content.kind)⟩ := by
  obtain ⟨arena, found, sound, holds, distinct, target⟩ := Value.target_of_holds holds owned
  rw [run_attached, target]
  dsimp only
  rw [extend?_of_ne (by rwa [Content.kind_map]), Content.kind_map]

/-- Nothing is appended with an allocator of another document. -/
theorem run_of_foreign (foreign : ¬ allocator.owns ⟨place, layout.id⟩ = true) :
    appending.run heap ⟨.attached ⟨place, layout.id⟩, children⟩ operand allocator =
      ⟨heap, ⟨.attached ⟨place, layout.id⟩, children⟩, .refused .foreignAllocator⟩ := by
  rw [run_attached, Value.target, if_neg foreign]

end Appending

end JsonOverlay
