/-
This file shows when the values of a program compare equal. In every workspace that a program leads
to, two values are equal if the trees that they show are the same, whatever is attached, detached or
overlaid in either, in which document it is, and how numbers are kept. So comparing is symmetric
and transitive, and a value without a double that is not a number equals itself and its copies.
-/

import JsonOverlay.Proofs.Tree.Equality
import JsonOverlay.Proofs.Value.Handles
import JsonOverlay.Proofs.Workspace.Descent

namespace JsonOverlay.Workspace

open Value

variable {workspace : Workspace}

/-- A value that the program holds, by a name or below what was looked up from one. -/
def Holds (workspace : Workspace) (value : Value) : Prop :=
  ∃ name reference, workspace.at? name reference = some value

/-- Looking up two places changes no document, and nothing of what a name shows. -/
theorem Reachable.visible_referBoth (reachable : workspace.Reachable)
    (room : ∀ place, workspace.heap.HasRoom place) (left right : Place) :
    (workspace.referBoth left right).1.heap = workspace.heap ∧
      ∀ name, ((workspace.referBoth left right).1.root name).visible workspace.heap =
        (workspace.root name).visible workspace.heap := by
  have between : (workspace.refer left).1.Reachable := reachable.run [.read left]
  exact ⟨rfl, fun name => (between.visible_refer room right name).trans
    (reachable.visible_refer room left name)⟩

/-- In every workspace that a program leads to, comparing values is a recursion with exactly one
solution. Of the values that a program holds, two are equal if and only if the trees that they show
are the same. So they compare in either order, values that equal one value equal each other, and a
value without a double that is not a number equals itself, what it is duplicated to and its deep
copy. Looking up two places to compare what is there changes nothing of what a name shows. -/
theorem Reachable.equality_structural (reachable : workspace.Reachable)
    (room : ∀ place, workspace.heap.HasRoom place) :
    (∃! test, Walks workspace.heap (equalLevel workspace.heap) test) ∧
    (∀ test, Walks workspace.heap (equalLevel workspace.heap) test →
      (∀ left right, workspace.Holds left → workspace.Holds right →
        (test left right = true ↔
          (left.visible workspace.heap).Same (right.visible workspace.heap)) ∧
        test left right = test right left) ∧
      (∀ left right third, workspace.Holds left → workspace.Holds right → workspace.Holds third →
        test left right = true → test right third = true → test left third = true) ∧
      ∀ value, workspace.Holds value →
        (∀ double ∈ (value.visible workspace.heap).doubles, double.isNaN = false) →
        test value value = true ∧
        test value value.duplicate = true ∧ test value.duplicate value = true ∧
        test value (value.deepCopy workspace.heap) = true ∧
        test (value.deepCopy workspace.heap) value = true) ∧
    ∀ left right, (workspace.referBoth left right).1.heap = workspace.heap ∧
      ∀ name, ((workspace.referBoth left right).1.root name).visible workspace.heap =
        (workspace.root name).visible workspace.heap := by
  have levelled := reachable.levelled room
  refine ⟨existsUnique_walks levelled _, fun test walks => ?_, reachable.visible_referBoth room⟩
  have compares : ∀ left right : Value, left.Keyed → right.Keyed → (test left right = true ↔
      (left.visible workspace.heap).Same (right.visible workspace.heap)) :=
    fun left right keyed otherKeyed => by
      rw [walks.eq_equal levelled keyed otherKeyed, Tree.equal_iff_same]
  have keyed : ∀ value, workspace.Holds value → value.Keyed := by
    rintro value ⟨name, reference, held⟩
    exact reachable.keyed_at? held
  refine ⟨fun left right held otherHeld => ⟨?_, ?_⟩, fun left right third held otherHeld thirdHeld
    first second => ?_, fun value held numbers => ?_⟩
  · exact compares left right (keyed left held) (keyed right otherHeld)
  · rw [walks.eq_equal levelled (keyed left held) (keyed right otherHeld), Tree.equal_comm,
      walks.eq_equal levelled (keyed right otherHeld) (keyed left held)]
  · have between := (compares left right (keyed left held) (keyed right otherHeld)).mp first
    have last := (compares right third (keyed right otherHeld) (keyed third thirdHeld)).mp second
    exact (compares left third (keyed left held) (keyed third thirdHeld)).mpr (between.trans last)
  · have reflexive := Tree.Same.refl _ numbers
    -- What shows the tree of the value equals it on either side.
    have like : ∀ copy : Value, copy.Keyed →
        copy.visible workspace.heap = value.visible workspace.heap →
        test value copy = true ∧ test copy value = true := fun copy copyKeyed same => by
      rw [compares value copy (keyed value held) copyKeyed,
        compares copy value copyKeyed (keyed value held), same]
      exact ⟨reflexive, reflexive⟩
    have duplicated := like value.duplicate (keyed value held).duplicate (visible_duplicate value _)
    have copied := like (value.deepCopy workspace.heap) (closed_keyed.ofTree _)
      (visible_deepCopy value _ _)
    exact ⟨(like value (keyed value held) rfl).1, duplicated.1, duplicated.2, copied.1, copied.2⟩

/-- An array in a document with an object assigned to its first element, a detached array that
shows the same, and what is not a number. -/
def equalityProgram : List Command :=
  [.newDocument "d", .write "d" [] (.set (.array [])),
    .write "d" [] (.pushBack (.tree .null) "d"),
    .write "d" [] (.pushBack (.tree (.number (.int 2))) "d"),
    .write "d" [.element 0] (.assign (.tree (.object [("x", .number (.uint 1))]))),
    .keep "v" (.array [.object [("x", .tree (.number (.double ⟨0x3ff0000000000000⟩)))],
      .tree (.number (.uint 2))]),
    .keep "n" (.tree (.number (.double ⟨0x7ff8000000000000⟩)))]

theorem equality_structural_equalityProgram :
    ∃ test, Walks (empty.run equalityProgram).heap (equalLevel (empty.run equalityProgram).heap) test ∧
      test ((empty.run equalityProgram).root "d") ((empty.run equalityProgram).root "v") = true ∧
      test ((empty.run equalityProgram).root "d") ((empty.run equalityProgram).root "d") = true ∧
      test ((empty.run equalityProgram).root "n") ((empty.run equalityProgram).root "n") = false := by
  have room : ∀ place, (empty.run equalityProgram).heap.HasRoom place :=
    Heap.hasRoom_of_all (by decide)
  have document : (empty.run equalityProgram).Holds ((empty.run equalityProgram).root "d") :=
    ⟨"d", [], rfl⟩
  have detached : (empty.run equalityProgram).Holds ((empty.run equalityProgram).root "v") :=
    ⟨"v", [], rfl⟩
  have unknown : (empty.run equalityProgram).Holds ((empty.run equalityProgram).root "n") :=
    ⟨"n", [], rfl⟩
  obtain ⟨⟨test, walks, -⟩, every, -⟩ :=
    Reachable.equality_structural ⟨equalityProgram, rfl⟩ room
  obtain ⟨compares, -, reflexive⟩ := every test walks
  refine ⟨test, walks, ?_, (reflexive _ document ?_).1, Bool.eq_false_iff.mpr fun same => ?_⟩
  · rw [(compares _ _ document detached).1, ← Tree.equal_iff_same]
    rfl
  · intro double held
    cases held
  · rw [(compares _ _ unknown unknown).1, ← Tree.equal_iff_same] at same
    cases same

end JsonOverlay.Workspace
