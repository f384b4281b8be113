/-
This file shows that in every workspace that a program leads to, all ways of getting at the
children of a value agree with what it shows, and none of them changes that. It does not
matter how the value came to be, what was looked up through it before, and what was done to
its document through other handles.
-/

import JsonOverlay.Proofs.Value.Agreement
import JsonOverlay.Proofs.Workspace.Keyed

namespace JsonOverlay

namespace Heap

variable {heap : Heap}

/-- The arenas of a heap have room if the slots of each are few enough. -/
theorem hasRoom_of_all
    (few : (heap.arenas.toList.all fun arena =>
      (arena.map fun arena => arena.slots.size).getD 0 ≤ Arena.slotLimit) = true)
    (place : ArenaId) : heap.HasRoom place := by
  intro arena found
  have member : some arena ∈ heap.arenas.toList := by
    rw [arena?, Option.join_eq_some_iff] at found
    exact Array.mem_toList_iff.mpr (Array.mem_of_getElem? found)
  exact of_decide_eq_true (List.all_eq_true.mp few _ member)

end Heap

namespace Workspace

variable {workspace : Workspace} {name : String} {reference : Reference} {value : Value}

/-- In every workspace that a program leads to, every reference reads as the level that its
node has. -/
theorem Reachable.levelled (reachable : workspace.Reachable)
    (room : ∀ place, workspace.heap.HasRoom place) : workspace.heap.Levelled := by
  rintro ⟨place, id⟩
  cases node : workspace.heap.node? ⟨place, id⟩ with
  | none => exact congrArg Tree.content (Heap.tree_of_node?_eq_none node)
  | some level =>
    obtain ⟨layout, rfl, holds⟩ :=
      reachable.exists_layout (by rw [node]; exact Option.some_ne_none level) (room place)
    have found := holds.node?_eq
    rw [node, Option.some.injEq] at found
    show (workspace.heap.tree ⟨place, layout.id⟩).content =
      level.map fun child => workspace.heap.tree ⟨place, child⟩
    rw [holds.tree_eq, Layout.content_tree, found, Content.map_map]
    refine Content.map_congr fun child member => ?_
    obtain ⟨key, -, there⟩ := Content.exists_key_of_mem_children member
    exact (holds.child there).tree_eq.symm

/-- A new root that shows what the old one does changes nothing of what a name shows. -/
theorem visible_root_setRoot {root : Value} (name other : String)
    (same : root.visible workspace.heap = (workspace.root name).visible workspace.heap) :
    ((workspace.setRoot name root).root other).visible workspace.heap =
      (workspace.root other).visible workspace.heap := by
  by_cases here : other = name
  · subst here
    rw [Workspace.root] at same
    rw [Workspace.root, Workspace.root, holding?_setRoot]
    cases held : workspace.holding? other with
    | none => rfl
    | some holding =>
      rw [held] at same
      cases holding with
      | allocator => rfl
      | _ => exact same
  · rw [Workspace.root, holding?_setRoot_of_ne here]
    rfl

/-- Looking up a place for reading changes nothing of what a name shows. -/
theorem Reachable.visible_refer (reachable : workspace.Reachable)
    (room : ∀ place, workspace.heap.HasRoom place) (place : Place) (name : String) :
    ((workspace.refer place).1.root name).visible workspace.heap =
      (workspace.root name).visible workspace.heap := by
  have keyed := (reachable.keyed place.name).root Value.closed_keyed.null
  have keeps := (Value.lookups_read workspace.heap (workspace.root place.name) place.path).keeps
    (reachable.levelled room) keyed
  exact visible_root_setRoot place.name name keeps.visible_eq

/-- In every workspace that a program leads to, whatever was looked up through a value or below
it, the value shows what it showed before, and all ways of getting at its children agree with
that. Paths, pointers and walks for reading are such lookups, and so are paths for writing at
whose end nothing is done. -/
theorem Reachable.lookups_agree (reachable : workspace.Reachable)
    (room : ∀ place, workspace.heap.HasRoom place)
    (held : workspace.at? name reference = some value) :
    (∀ after, Value.Lookups workspace.heap value after →
      after.visible workspace.heap = value.visible workspace.heap ∧
        after.Agrees workspace.heap) ∧
    (∀ path, Value.Lookups workspace.heap value (value.read workspace.heap path).1) ∧
    (∀ tokens, Value.Lookups workspace.heap value (Pointer.read workspace.heap value tokens).1) ∧
    (∀ keys, ∃ after, value.edit workspace.heap (fun heap value => ⟨heap, value, ()⟩) keys =
      ⟨workspace.heap, after, ()⟩ ∧ Value.Lookups workspace.heap value after) ∧
    (∀ count cursor, Value.Lookups workspace.heap value
      (MemberCursor.walk workspace.heap count cursor value).2.2) ∧
    (∀ indices, Value.Lookups workspace.heap value
      (ArrayCursor.lookAll workspace.heap value indices).2) := by
  have keyed := reachable.keyed_at? held
  have levelled := reachable.levelled room
  refine ⟨fun after lookups => ?_, Value.lookups_read _ value, Value.lookups_pointer _ value,
    Value.lookups_edit _ value, fun count cursor => Value.lookups_walk _ count cursor value,
    Value.lookups_lookAll _ value⟩
  have keeps := lookups.keeps levelled keyed
  exact ⟨keeps.visible_eq, Value.agrees levelled keeps.keyed⟩

theorem lookups_agree_handleProgram :
    ∃ value reference target, (empty.run handleProgram).at? "d" [] = some value ∧
      (value.read (empty.run handleProgram).heap [.member "a", .element 1]).2 = some reference ∧
      (value.read (empty.run handleProgram).heap [.member "a", .element 1]).1.at? reference =
        some target ∧
      target.visible (empty.run handleProgram).heap = .object [("a", .array [.null])] := by
  have room : ∀ place, (empty.run handleProgram).heap.HasRoom place :=
    Heap.hasRoom_of_all (by decide)
  have held : (empty.run handleProgram).at? "d" [] = some _ := rfl
  obtain ⟨-, agrees⟩ := (Reachable.lookups_agree ⟨handleProgram, rfl⟩ room held).1 _ .nothing
  have follow : (((empty.run handleProgram).root "d").visible
      (empty.run handleProgram).heap).follow? [.member "a", .element 1] =
        some (.object [("a", .array [.null])]) := rfl
  obtain ⟨reference, target, answer, means, shows⟩ := agrees.read follow
  exact ⟨_, reference, target, held, answer, means, shows⟩

end Workspace

end JsonOverlay
