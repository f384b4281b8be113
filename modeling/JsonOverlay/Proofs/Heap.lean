/-
This file says what each operation on the heap does to the arena at every place, and follows
arenas through the work of a program. An arena that is worked on never loses slots, and it
stays a single layout as long as its slots can be told apart. New arenas are single layouts
to begin with, so every arena that any amount of work leads to is one.
-/

import JsonOverlay.Heap
import JsonOverlay.Proofs.Arena.OneTree

namespace JsonOverlay

/-! ### The arena at a place -/

namespace Heap

variable {heap : Heap} {id other : ArenaId} {arena old : Arena}

theorem index_lt_of_arena? (found : heap.arena? id = some old) : id.index < heap.arenas.size := by
  by_contra outside
  rw [arena?, Array.getElem?_eq_none (Nat.le_of_not_lt outside)] at found
  cases found

theorem arena?_put (found : heap.arena? id = some old) (arena : Arena) (other : ArenaId) :
    (heap.put id arena).arena? other = if other = id then some arena else heap.arena? other := by
  have bound := index_lt_of_arena? found
  by_cases same : other = id
  · subst same
    rw [if_pos rfl, arena?, put, Array.getElem?_setIfInBounds_self_of_lt bound]
    rfl
  · have different : id.index ≠ other.index := fun equal =>
      same (by cases id; cases other; simp_all)
    rw [if_neg same, arena?, put, Array.getElem?_setIfInBounds_ne different]
    rfl

/-- Storing an arena at its own place changes nothing. -/
theorem put_self (found : heap.arena? id = some arena) : heap.put id arena = heap := by
  have bound := index_lt_of_arena? found
  have stored : heap.arenas[id.index] = some arena := by
    rw [arena?, Array.getElem?_eq_getElem bound] at found
    exact found
  cases heap
  simp only [put, mk.injEq]
  refine Array.ext (by simp) fun index _ _ => ?_
  rw [Array.getElem_setIfInBounds]
  split
  · subst_vars
    exact stored.symm
  · rfl

theorem arena?_drop (heap : Heap) (id other : ArenaId) :
    (heap.drop id).arena? other = if other = id then none else heap.arena? other := by
  by_cases same : other = id
  · subst same
    rw [if_pos rfl, arena?, drop, Array.getElem?_setIfInBounds_self]
    split <;> rfl
  · have different : id.index ≠ other.index := fun equal =>
      same (by cases id; cases other; simp_all)
    rw [if_neg same, arena?, drop, Array.getElem?_setIfInBounds_ne different]
    rfl

theorem arena?_add (heap : Heap) (arena : Arena) (other : ArenaId) :
    (heap.add arena).2.arena? other =
      if other = (heap.add arena).1 then some arena else heap.arena? other := by
  show (heap.arenas.push (some arena))[other.index]?.join = _
  rw [Array.getElem?_push]
  by_cases same : other = (heap.add arena).1
  · subst same
    have last : (heap.add arena).1.index = heap.arenas.size := rfl
    rw [if_pos rfl, if_pos last]
    rfl
  · have different : other.index ≠ heap.arenas.size := fun equal =>
      same (by cases other; simp_all [add])
    rw [if_neg same, if_neg different]
    rfl

/-- A reference that finds no node reads as null. -/
theorem tree_of_node?_eq_none {reference : NodeRef} (dead : heap.node? reference = none) :
    heap.tree reference = .null := by
  rw [tree]
  cases found : heap.arena? reference.arena with
  | none => rfl
  | some arena =>
    rw [node?, found, Option.bind_some] at dead
    show arena.treeWithin arena.slots.size reference.node = .null
    cases arena.slots.size with
    | zero => rfl
    | succ levels => rw [Arena.treeWithin, dead]

end Heap

/-! ### Work on one arena -/

namespace Arena

variable {arena before between after : Arena} {id : NodeId} {node : Node}

/-- An arena and what some work has made of it. -/
structure Follows (before after : Arena) : Prop where
  size_le : before.slots.size ≤ after.slots.size
  rooted : ∀ layout, before.Rooted layout → after.slots.size ≤ slotLimit →
    ∃ layout', after.Rooted layout'

theorem Follows.refl (arena : Arena) : Follows arena arena :=
  ⟨Nat.le_refl _, fun layout rooted _ => ⟨layout, rooted⟩⟩

theorem Follows.trans (first : Follows before between) (second : Follows between after) :
    Follows before after := by
  refine ⟨first.size_le.trans second.size_le, fun layout rooted room => ?_⟩
  obtain ⟨layout', rooted'⟩ := first.rooted layout rooted (second.size_le.trans room)
  exact second.rooted layout' rooted' room

/-- A change at one live node, whatever layout the node has. -/
theorem follows_of_reshaped (found : arena.get? id = some node)
    (size_le : arena.slots.size ≤ after.slots.size)
    (reshaped : ∀ inner : Layout, inner.id = id → arena.Sound → arena.Holds inner →
      inner.ids.Nodup → after.slots.size ≤ slotLimit → ∃ new, Reshaped arena inner new after) :
    Follows arena after := by
  refine ⟨size_le, fun layout rooted room => ?_⟩
  obtain ⟨inner, within, equal⟩ := Layout.exists_within_of_mem_ids
    (rooted.complete id (contains_iff.mpr ⟨node, found⟩))
  obtain ⟨new, change⟩ := reshaped inner equal rooted.sound (within.holds rooted.holds)
    (within.nodup rooted.distinct) room
  exact ⟨_, rooted.reshaped within change⟩

/-- The layout of a node that is an object has its members. -/
theorem Holds.exists_members {inner : Layout} {members : List (String × NodeId)}
    (holds : arena.Holds inner) (found : arena.get? inner.id = some (.object members)) :
    ∃ below : List (String × Layout), inner.content = .object below ∧
      members = below.map fun (name, child) => (name, child.id) := by
  have level := holds.found.symm.trans found
  cases content : inner.content <;> rw [content] at level <;>
    simp only [Content.map, Option.some.injEq, Content.object.injEq, reduceCtorEq] at level
  exact ⟨_, rfl, level.symm⟩

theorem follows_replace (arena : Arena) (id : NodeId) (content : Content Empty) :
    Follows arena (arena.replace id content.ofLeaf).2 := by
  cases found : arena.get? id with
  | none =>
    rw [replace, found]
    exact Follows.refl arena
  | some node =>
    refine follows_of_reshaped found ?_ fun inner equal sound holds distinct _ => ?_
    · rw [replace_of_found found]
      simp
    · subst equal
      exact ⟨_, reshaped_replace sound holds distinct content⟩

theorem follows_append (found : arena.get? id = some node) (appending : Appending) (tree : Tree)
    {extended : Node} (more : appending.extend? node (arena.store tree).1 = some extended) :
    Follows arena ((arena.store tree).2.assign id extended) := by
  refine follows_of_reshaped found ?_ fun inner equal sound holds distinct room => ?_
  · rw [size_slots_assign]
    exact (allocates_store arena tree).size_slots_le
  · subst equal
    obtain rfl : node = inner.content.map Layout.id :=
      Option.some.inj (found.symm.trans holds.found)
    rw [size_slots_assign] at room
    obtain ⟨added, below, -, -, reshaped⟩ :=
      reshaped_append sound holds distinct appending tree more room
    exact ⟨_, reshaped⟩

theorem follows_removeMember {members : List (String × NodeId)}
    (found : arena.get? id = some (.object members)) (name : String) :
    Follows arena (((members.filter fun (other, _) => other == name).map Prod.snd).foldl free
      (arena.assign id (.object (members.filter fun (other, _) => other != name)))) := by
  refine follows_of_reshaped found ?_ fun inner equal sound holds distinct _ => ?_
  · rw [foldl_free]
    simp
  · subst equal
    obtain ⟨below, object, rfl⟩ := holds.exists_members found
    exact ⟨_, reshaped_removeMember sound holds distinct object name⟩

end Arena

/-! ### Work on the heap -/

namespace Heap

variable {heap before between after : Heap} {id : ArenaId} {arena old : Arena}

/-- An arena that consists of a single layout unless it has too many slots. -/
def OneTree (arena : Arena) : Prop :=
  arena.slots.size ≤ Arena.slotLimit → ∃ layout, arena.Rooted layout

/-- A heap and what some work has made of it: every arena goes on from the one that was at
its place, or it is new. -/
def Follows (before after : Heap) : Prop :=
  ∀ id arena, after.arena? id = some arena →
    (∃ old, before.arena? id = some old ∧ old.Follows arena) ∨ OneTree arena

theorem Follows.refl (heap : Heap) : Follows heap heap :=
  fun _ arena found => .inl ⟨arena, found, Arena.Follows.refl arena⟩

theorem OneTree.follows (oneTree : OneTree old) (follows : old.Follows arena) : OneTree arena := by
  intro room
  obtain ⟨layout, rooted⟩ := oneTree (follows.size_le.trans room)
  exact follows.rooted layout rooted room

theorem Follows.trans (first : Follows before between) (second : Follows between after) :
    Follows before after := by
  intro id arena found
  rcases second id arena found with ⟨middle, present, follows⟩ | oneTree
  · rcases first id middle present with ⟨old, origin, early⟩ | oneTree
    · exact .inl ⟨old, origin, early.trans follows⟩
    · exact .inr (oneTree.follows follows)
  · exact .inr oneTree

theorem follows_put (found : heap.arena? id = some old) (follows : old.Follows arena) :
    Follows heap (heap.put id arena) := by
  intro other result present
  rw [arena?_put found] at present
  by_cases same : other = id
  · subst same
    rw [if_pos rfl, Option.some.injEq] at present
    subst present
    exact .inl ⟨old, found, follows⟩
  · rw [if_neg same] at present
    exact .inl ⟨result, present, Arena.Follows.refl result⟩

/-- A heap in which one arena was worked on, or none. -/
inductive Touched (heap : Heap) : Heap → Prop where
  | nothing : Touched heap heap
  | arena {id : ArenaId} {old arena : Arena} (found : heap.arena? id = some old)
      (follows : old.Follows arena) : Touched heap (heap.put id arena)

theorem Touched.follows (touched : Touched before after) : Follows before after := by
  cases touched with
  | nothing => exact Follows.refl before
  | arena found follows => exact follows_put found follows

/-- No arena loses slots or goes away. -/
theorem Touched.exists_arena (touched : Touched before after) (found : before.arena? id = some old) :
    ∃ arena, after.arena? id = some arena ∧ old.slots.size ≤ arena.slots.size := by
  cases touched with
  | nothing => exact ⟨old, found, Nat.le_refl _⟩
  | @arena other source changed present follows =>
    rw [arena?_put present]
    by_cases same : id = other
    · subst same
      rw [present, Option.some.injEq] at found
      subst found
      exact ⟨changed, if_pos rfl, follows.size_le⟩
    · exact ⟨old, by rw [if_neg same, found], Nat.le_refl _⟩

theorem follows_drop (heap : Heap) (id : ArenaId) : Follows heap (heap.drop id) := by
  intro other result present
  rw [arena?_drop] at present
  by_cases same : other = id
  · rw [if_pos same] at present
    cases present
  · rw [if_neg same] at present
    exact .inl ⟨result, present, Arena.Follows.refl result⟩

theorem follows_add (heap : Heap) (oneTree : OneTree arena) : Follows heap (heap.add arena).2 := by
  intro other result present
  rw [arena?_add] at present
  by_cases same : other = (heap.add arena).1
  · rw [if_pos same, Option.some.injEq] at present
    exact .inr (present ▸ oneTree)
  · rw [if_neg same] at present
    exact .inl ⟨result, present, Arena.Follows.refl result⟩

end Heap

end JsonOverlay
