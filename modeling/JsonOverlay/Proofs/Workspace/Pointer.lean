/-
This file shows that in every workspace that a program leads to, a pointer finds what its tokens
lead to in the tree that a value shows, and that its two forms agree on it.
-/

import JsonOverlay.Proofs.Value.Pointer
import JsonOverlay.Proofs.Workspace.Lookups

namespace JsonOverlay.Workspace

open Value

variable {workspace : Workspace} {name : String} {reference : Reference} {value : Value}

/-- In every workspace that a program leads to, a pointer leads to a child, for reading and for
writing, if its tokens lead from the tree that the value shows to one inside it, and then the child
shows that one. Reading changes nothing of what the value shows and puts in no placeholder, and
neither does writing if the pointer leads nowhere or nothing is done to the child. -/
theorem Reachable.pointers_exact (reachable : workspace.Reachable)
    (room : ∀ place, workspace.heap.HasRoom place)
    (held : workspace.at? name reference = some value) (pointer : Pointer) :
    ((pointer.get? value workspace.heap).2 ≠ none ↔
      ∃ found, (value.visible workspace.heap).Resolves pointer.tokens found) ∧
    (∀ {β : Type} (change : Heap → Value → Edited β),
      (pointer.modify value workspace.heap change).result ≠ none ↔
        ∃ found, (value.visible workspace.heap).Resolves pointer.tokens found) ∧
    (∀ found, (value.visible workspace.heap).Resolves pointer.tokens found →
      (∃ below child, (pointer.get? value workspace.heap).2 = some below ∧
        (pointer.get? value workspace.heap).1.at? below = some child ∧
        child.visible workspace.heap = found) ∧
      ∃ child, child.visible workspace.heap = found ∧
        ∀ {β : Type} (change : Heap → Value → Edited β),
          (pointer.modify value workspace.heap change).heap = (change workspace.heap child).heap ∧
          (pointer.modify value workspace.heap change).result =
            some (change workspace.heap child).result) ∧
    ((pointer.get? value workspace.heap).1.visible workspace.heap = value.visible workspace.heap ∧
      ∀ path key, (pointer.get? value workspace.heap).1.HasPlaceholder workspace.heap path key →
        value.HasPlaceholder workspace.heap path key) ∧
    ∀ {β : Type} (change : Heap → Value → Edited β),
      (¬∃ found, (value.visible workspace.heap).Resolves pointer.tokens found) ∨
        (∀ child, (change workspace.heap child).heap = workspace.heap ∧
          (change workspace.heap child).value = child) →
      (pointer.modify value workspace.heap change).heap = workspace.heap ∧
      (pointer.modify value workspace.heap change).value.visible workspace.heap =
        value.visible workspace.heap ∧
      ∀ path key, (pointer.modify value workspace.heap change).value.HasPlaceholder workspace.heap
        path key → value.HasPlaceholder workspace.heap path key := by
  have levelled := reachable.levelled room
  have keyed := reachable.keyed_at? held
  obtain ⟨visits, finds, misses⟩ := reads_pointer levelled keyed pointer.tokens
  obtain ⟨reaches, fails⟩ := reaches_pointer levelled keyed pointer.tokens
  refine ⟨⟨fun answered => ?_, fun reached => ?_⟩,
    fun change => ⟨fun answered => ?_, fun reached => ?_⟩,
    fun found resolves => ⟨finds found resolves, ?_⟩, ⟨visits.visible_eq, visits.bare⟩,
    fun change nothing => ?_⟩
  · exact not_imp_comm.mp misses answered
  · obtain ⟨found, resolves⟩ := reached
    obtain ⟨below, child, answer, -⟩ := finds found resolves
    exact Option.ne_none_iff_exists'.mpr ⟨below, answer⟩
  · by_contra missing
    exact answered (fails missing change).2.1
  · obtain ⟨found, resolves⟩ := reached
    obtain ⟨child, -, edits⟩ := reaches found resolves
    exact Option.ne_none_iff_exists'.mpr ⟨_, (edits change).2.1⟩
  · obtain ⟨child, shows, edits⟩ := reaches found resolves
    exact ⟨child, shows, fun change => ⟨(edits change).1, (edits change).2.1⟩⟩
  · rcases em (∃ found, (value.visible workspace.heap).Resolves pointer.tokens found) with
      ⟨found, resolves⟩ | missing
    · obtain ⟨child, -, edits⟩ := reaches found resolves
      obtain ⟨sameHeap, sameChild⟩ := nothing.resolve_left (not_not_intro ⟨found, resolves⟩) child
      obtain ⟨heap, -, visits⟩ := edits change
      exact ⟨heap.trans sameHeap, (visits sameChild).visible_eq, (visits sameChild).bare⟩
    · obtain ⟨same, -, visits⟩ := fails missing change
      exact ⟨same, visits.visible_eq, visits.bare⟩

/-- A detached object is assigned to an element, a missing member is looked up twice over, and
something is written to one of the placeholders. -/
def tokenProgram : List Command :=
  [.newDocument "d", .write "d" [] (.set (.object [])),
    .write "d" [] (.addMember "a" (.tree (.array [.null, .bool true])) "d"),
    .write "d" [.member "a", .element 0] (.assign (.tree (.object [("b", .number (.int 1))]))),
    .look "d" [] [.member "y"], .write "d" [.member "z"] (.set (.bool false))]

/-- The numeral of an index leads on; a zero in front of it and a written placeholder do not. -/
theorem pointers_exact_tokenProgram :
    ∃ heap value below child, heap = (empty.run tokenProgram).heap ∧
      value = (empty.run tokenProgram).root "d" ∧
      (Pointer.get? ⟨["a", "0", "b"]⟩ value heap).2 = some below ∧
      (Pointer.get? ⟨["a", "0", "b"]⟩ value heap).1.at? below = some child ∧
      child.visible heap = .number (.int 1) ∧
      (¬∃ found, (value.visible heap).Resolves ["a", "00"] found) ∧
      (¬∃ found, (value.visible heap).Resolves ["z"] found) ∧
      (Pointer.get? ⟨["a", "00"]⟩ value heap).1.visible heap = value.visible heap := by
  have room : ∀ place, (empty.run tokenProgram).heap.HasRoom place :=
    Heap.hasRoom_of_all (by decide)
  have held : (empty.run tokenProgram).at? "d" [] = some ((empty.run tokenProgram).root "d") := rfl
  have every := Reachable.pointers_exact ⟨tokenProgram, rfl⟩ room held
  have resolves : (((empty.run tokenProgram).root "d").visible
      (empty.run tokenProgram).heap).Resolves ["a", "0", "b"] (.number (.int 1)) :=
    .step (Content.selects_iff.mpr ⟨.member "a", by decide, rfl⟩)
      (.step (Content.selects_iff.mpr ⟨.element 0, by decide, rfl⟩)
        (.step (Content.selects_iff.mpr ⟨.member "b", by decide, rfl⟩) .here))
  obtain ⟨-, -, finds, -⟩ := every ⟨["a", "0", "b"]⟩
  obtain ⟨⟨below, child, answer, means, shows⟩, -⟩ := finds _ resolves
  obtain ⟨zero, -, -, ⟨same, -⟩, -⟩ := every ⟨["a", "00"]⟩
  obtain ⟨written, -⟩ := every ⟨["z"]⟩
  exact ⟨_, _, below, child, rfl, rfl, answer, means, shows,
    zero.not.mp (not_not_intro rfl), written.not.mp (not_not_intro rfl), same⟩

end JsonOverlay.Workspace
