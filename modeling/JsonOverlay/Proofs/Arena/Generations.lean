/-
This file says when slots go on to other generations. The generation of a slot counts how often
its node was freed, and comes around after the last one. Work on an arena frees the node of a slot
at most once, and storing frees none.
-/

import JsonOverlay.Proofs.Arena.Ages
import JsonOverlay.Proofs.Arena.Release

namespace JsonOverlay.Arena

variable {arena before between after : Arena} {id : NodeId} {node old : Node} {index : UInt32}

/-! ### Slots that are freed -/

/-- Whether the node that a slot has is gone in a later arena. -/
def frees (before after : Arena) (index : UInt32) : Bool :=
  (before.slots[index.toNat]?).any fun slot =>
    slot.node.isSome && !after.contains ⟨index, slot.generation⟩

theorem frees_iff : before.frees after index = true ↔
    ∃ id, id.index = index ∧ before.contains id = true ∧ after.contains id = false := by
  rw [frees, Option.any_eq_true]
  constructor
  · rintro ⟨slot, present, freed⟩
    obtain ⟨held, gone⟩ := Bool.and_eq_true_iff.mp freed
    obtain ⟨node, holds⟩ := Option.isSome_iff_exists.mp held
    refine ⟨⟨index, slot.generation⟩, rfl, contains_iff.mpr ⟨node, ?_⟩, by simpa using gone⟩
    rw [get?_of_slot present, if_pos rfl, holds]
  · rintro ⟨id, rfl, live, gone⟩
    obtain ⟨node, found⟩ := contains_iff.mp live
    obtain ⟨bound, slot⟩ := get?_eq_some found
    refine ⟨⟨id.generation, some node⟩, ?_, ?_⟩
    · rw [Array.getElem?_eq_getElem bound, slot]
    · exact Bool.and_eq_true_iff.mpr ⟨rfl, by rw [gone]; rfl⟩

/-- Whether a slot is freed rests on what is live before. -/
theorem frees_congr (same : ∀ id, before.contains id = between.contains id) (after : Arena)
    (index : UInt32) : before.frees after index = between.frees after index := by
  rw [Bool.eq_iff_iff, frees_iff, frees_iff]
  simp only [same]

/-- Where all that was live is live, no slot was freed. -/
theorem frees_eq_false (kept : ∀ id, before.contains id = true → after.contains id = true)
    (index : UInt32) : before.frees after index = false := by
  refine Bool.eq_false_iff.mpr fun freed => ?_
  obtain ⟨id, -, live, gone⟩ := frees_iff.mp freed
  rw [kept id live] at gone
  cases gone

/-! ### Generations that go on -/

/-- A slot goes on to the next generation if its node is freed, and only then. -/
def Turns (before after : Arena) : Prop :=
  ∀ index, after.generationAt index =
    (before.generationAt index + (before.frees after index).toNat) % 2 ^ 32

theorem generationAt_lt (arena : Arena) (index : UInt32) : arena.generationAt index < 2 ^ 32 := by
  rw [generationAt]
  cases arena.slots[index.toNat]? with
  | none => decide
  | some slot => exact slot.generation.toNat_lt

theorem turns_of_kept (kept : ∀ id, before.contains id = true → after.contains id = true)
    (same : ∀ index, after.generationAt index = before.generationAt index) :
    before.Turns after := by
  intro index
  rw [frees_eq_false kept, same]
  exact (Nat.mod_eq_of_lt (before.generationAt_lt index)).symm

theorem Turns.refl (arena : Arena) : arena.Turns arena :=
  turns_of_kept (fun _ => id) fun _ => rfl

theorem turns_freeAll (arena : Arena) (ids : List NodeId) : arena.Turns (arena.freeAll ids) := by
  intro index
  by_cases taken : ∃ id ∈ arena.freed ids, id.index = index
  · obtain ⟨id, member, rfl⟩ := taken
    have live := ((mem_freed_iff arena ids id).mp member).1
    obtain ⟨node, found⟩ := contains_iff.mp live
    have emptied := slots_freeAll_of_mem member
    have gone : (arena.freeAll ids).contains id = false := by
      rw [contains, get?_of_emptySlot emptied rfl]
      rfl
    rw [frees_iff.mpr ⟨id, rfl, live, gone⟩, ← generation_eq found, generationAt, emptied]
    exact UInt32.toNat_add _ _
  · have untouched : (arena.freeAll ids).slots[index.toNat]? = arena.slots[index.toNat]? :=
      slots_freeAll_of_notMem fun id member same =>
        taken ⟨id, member, UInt32.toNat_inj.mp same⟩
    have spared : arena.frees (arena.freeAll ids) index = false := by
      refine Bool.eq_false_iff.mpr fun freed => ?_
      obtain ⟨id, rfl, live, gone⟩ := frees_iff.mp freed
      rw [contains, get?, untouched] at gone
      rw [contains, get?, gone] at live
      cases live
    rw [spared, generationAt, untouched]
    exact (Nat.mod_eq_of_lt (arena.generationAt_lt index)).symm

/-- Giving a node a new level and then freeing some identifiers. -/
theorem turns_reassign (found : arena.get? id = some old) (node : Node) (ids : List NodeId) :
    arena.Turns ((arena.assign id node).freeAll ids) := by
  intro index
  rw [frees_congr fun other => (contains_assign found node other).symm,
    ← generationAt_assign arena id node index]
  exact turns_freeAll _ ids index

theorem turns_replace (arena : Arena) (id : NodeId) (node : Node) :
    arena.Turns (arena.replace id node).2 := by
  cases found : arena.get? id with
  | none =>
    rw [replace, found]
    exact .refl arena
  | some old =>
    rw [replace_of_found found]
    exact turns_reassign found node _

/-! ### Storing -/

theorem generationAt_ofTree (tree : Tree) (index : UInt32) : (ofTree tree).generationAt index = 0 :=
  (tended_empty.store tree).generation index

/-- Storing a tree and giving a node that was there another level. -/
theorem Tended.turns_extend (tended : arena.Tended) (found : arena.get? id = some old) (tree : Tree)
    (node : Node) : arena.Turns ((arena.store tree).2.assign id node) := by
  have stored := tended.store tree
  refine turns_of_kept (fun other live => ?_) fun index => ?_
  · obtain ⟨content, there⟩ := contains_iff.mp live
    rw [contains_assign (stored.same id old found)]
    exact contains_iff.mpr ⟨content, stored.same other content there⟩
  · rw [generationAt_assign, stored.generation]

end JsonOverlay.Arena
