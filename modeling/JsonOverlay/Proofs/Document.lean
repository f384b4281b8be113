/-
This file shows that parsing undoes printing. A new document shows the tree that it was
made from, one node for each value; and the document of a printed value shows what the
value showed, up to the representation of integers, and is printed as the same text.
-/

import JsonOverlay.Document
import JsonOverlay.Proofs.Arena.OneTree
import JsonOverlay.Proofs.Reader
import JsonOverlay.Proofs.Value.Attached
import JsonOverlay.Proofs.Value.Visible

namespace JsonOverlay

/-! ### New documents -/

namespace Document

theorem arena?_ofTree (heap : Heap) (tree : Tree) :
    (ofTree heap tree).1.arena? (ofTree heap tree).2.arena =
      some ((Arena.empty.store tree).2.setRoot (Arena.empty.store tree).1) :=
  (Heap.arena?_add heap _ _).trans (if_pos rfl)

/-- A new document has one node for each value of its tree. -/
theorem nodeCount_ofTree (heap : Heap) (tree : Tree) :
    (ofTree heap tree).2.nodeCount (ofTree heap tree).1 = tree.count := by
  have found := arena?_ofTree heap tree
  have live := ((Arena.allocates_store .empty tree).lengthened rfl).live
  rw [nodeCount, allocator, Allocator.nodeCount, Option.bind_some, found]
  exact live.trans (Nat.zero_add _)

/-- A new document shows the tree that it was made from. -/
theorem visible_root_ofTree (heap : Heap) {tree : Tree} (room : tree.count ≤ Arena.slotLimit) :
    (ofTree heap tree).2.root.visible (ofTree heap tree).1 = tree := by
  have size := ((Arena.allocates_store .empty tree).lengthened rfl).size
  have empty : Arena.empty.slots.size = 0 := rfl
  obtain ⟨layout, id, shown, rooted⟩ := Arena.rooted_store_empty tree (by omega)
  have holds : (ofTree heap tree).1.Holds (ofTree heap tree).2.arena layout :=
    ⟨_, arena?_ofTree heap tree, rooted.sound, rooted.holds, rooted.distinct⟩
  have same := holds.tree_eq
  rw [id, shown] at same
  exact (Value.visible_attached _ _).trans same

end Document

/-! ### Printed values -/

namespace Value

/-- A value that is not nested too deeply is printed, and the document of its text shows the
same: the names in their order, the strings, the doubles and the integers, of which those
that are not negative have become unsigned. Its text is the same again. -/
theorem exists_ofText_eq (value : Value) (heap target : Heap) (options : WriteOptions)
    (shallow : (value.visible heap).depth ≤ Reader.greatestDepth)
    (doubles : ∀ double ∈ (value.visible heap).doubles,
      options.numbers.ReadsBack (.double double)) :
    ∃ text later document,
      (value.visible heap).write options = .ok text ∧
      Tree.parse .strict text = .ok (value.visible heap).canonical ∧
      (value.visible heap).equal (value.visible heap).canonical = true ∧
      (value.visible heap).canonical.write options = .ok text ∧
      Document.ofText target .strict text = .ok (later, document) ∧
      document.nodeCount later = (value.visible heap).count ∧
      ((value.visible heap).count ≤ Arena.slotLimit →
        document.root.visible later = (value.visible heap).canonical) := by
  have parsed := Tree.parse_render options (value.visible heap) shallow doubles
  have finite : ∀ double ∈ (value.visible heap).doubles, double.isFinite = true :=
    fun double held => (doubles double held).isFinite
  have same : (value.visible heap).canonical.text options = (value.visible heap).text options := by
    rw [Tree.text_eq, Tree.text_eq, Tree.render_canonical]
  rw [← Tree.text_eq] at parsed
  refine ⟨_, _, _, Tree.write_eq options _, parsed, Tree.equal_canonical _ finite, ?_,
    congrArg (Except.map (Document.ofTree target)) parsed, ?_, fun room => ?_⟩
  · rw [Tree.write_eq, same]
  · exact (Document.nodeCount_ofTree target _).trans (Tree.count_canonical _)
  · exact Document.visible_root_ofTree target (by rwa [Tree.count_canonical])

/-- The double 1.5. -/
def threeHalves : Double := ⟨0x3ff8000000000000⟩

theorem readsBack_threeHalves : DecimalLayout.plain.ReadsBack (.double threeHalves) := by
  have text : DecimalLayout.plain.double threeHalves = "1.5" := by decide +kernel
  have read : Reader.readNumeral false "1.5".toList = .ok (.double threeHalves, []) := by
    decide +kernel
  change Reader.readScalar (DecimalLayout.plain.double threeHalves).toList = _
  rw [text, show "1.5".toList = ['1', '.', '5'] from rfl, Reader.readScalar_digit rfl]
  exact congrArg (fun reading => Reader.andThen reading fun value rest =>
    .ok (Tree.number value, rest)) read

/-- A name twice, a line break and a number of every kind. -/
def printed : Tree :=
  .object [("a", .array [.number (.int 7), .number (.int (-7)), .number (.double threeHalves)]),
    ("a", .string "\n")]

/-- What is printed over several lines is read back with one of the integers unsigned. -/
theorem ofText_printed :
    ∃ later document,
      Document.ofText .empty .strict
        "\x7b\n \"a\": [\n  7,\n  -7,\n  1.5\n ],\n \"a\": \"\\n\"\n\x7d" =
          .ok (later, document) ∧
      document.nodeCount later = 6 ∧
      document.root.visible later = .object [("a", .array [.number (.uint 7), .number (.int (-7)),
        .number (.double threeHalves)]), ("a", .string "\n")] := by
  have shown : (ofTree printed).visible .empty = printed := visible_ofTree .empty printed
  have doubles : ∀ double ∈ ((ofTree printed).visible .empty).doubles,
      DecimalLayout.plain.ReadsBack (.double double) := by
    rw [shown]
    intro double held
    cases List.mem_singleton.mp held
    exact readsBack_threeHalves
  have outcome := exists_ofText_eq (ofTree printed) .empty .empty { indent := some 1 }
    (by rw [shown]; decide) doubles
  rw [shown] at outcome
  obtain ⟨text, later, document, written, _, _, _, parsed, nodes, same⟩ := outcome
  have lines : printed.text { indent := some 1 } =
    "\x7b\n \"a\": [\n  7,\n  -7,\n  1.5\n ],\n \"a\": \"\\n\"\n\x7d" := by decide +kernel
  rw [Tree.write_eq, lines] at written
  cases written
  exact ⟨later, document, parsed, nodes, same (by decide)⟩

end Value

end JsonOverlay
