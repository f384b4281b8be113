/-
This file shows what the values of a program are exchanged as. In every workspace that a program
leads to, a value comes to exactly one tree of another library, and from such a tree comes a value
that is exchanged as that tree again. A writer that builds a tree from what a value says of itself
builds another one exactly if the value repeats a name and the first member with it is not like
the last.
-/

import JsonOverlay.Proofs.Portable.Alike
import JsonOverlay.Proofs.Workspace.Descent

namespace JsonOverlay

open Portable (gather ofDatum ofLevelWith)

namespace Value

variable {heap : Heap} {value : Value}

theorem Walks.eq_portable {exported : Value → Portable}
    (walks : Walks heap (ofLevelWith gather) exported) (levelled : heap.Levelled)
    (keyed : value.Keyed) : exported value = value.portable heap :=
  walks.eq_fold levelled keyed

theorem Walks.eq_datum {described : Value → Datum} (walks : Walks heap Datum.ofLevel described)
    (levelled : heap.Levelled) (keyed : value.Keyed) : described value = value.datum heap :=
  walks.eq_fold levelled keyed

theorem keyed_ofPortable (portable : Portable) : (ofPortable portable).Keyed :=
  closed_keyed.ofTree portable.tree

theorem visible_ofPortable (heap : Heap) (portable : Portable) :
    (ofPortable portable).visible heap = portable.tree :=
  visible_ofTree heap portable.tree

end Value

namespace Workspace

open Value

variable {workspace : Workspace}

/-- In every workspace that a program leads to, exchanging values is a recursion with exactly one
solution. An exchanged tree with distinct names comes back as it was. A value that the program
holds is exchanged as the tree that it shows, with null for doubles that are not finite and with
the first of the members of one name, and as nothing else. What comes back from that equals the
value, if that repeats no name and its doubles are finite. -/
theorem Reachable.exchange_exact (reachable : workspace.Reachable)
    (room : ∀ place, workspace.heap.HasRoom place) :
    (∃! exported, Walks workspace.heap (ofLevelWith gather) exported) ∧
    (∃! test, Walks workspace.heap (equalLevel workspace.heap) test) ∧
    ∀ exported, Walks workspace.heap (ofLevelWith gather) exported →
      (∀ portable : Portable, portable.Distinct → exported (ofPortable portable) = portable) ∧
      ∀ name reference value, workspace.at? name reference = some value →
        (∀ portable, (value.visible workspace.heap).ExportsTo portable ↔
          portable = exported value) ∧
        (exported value).Distinct ∧
        (exported value).tree = (value.visible workspace.heap).toExport ∧
        ((value.visible workspace.heap).Distinct →
          (∀ double ∈ (value.visible workspace.heap).doubles, double.isFinite = true) →
          ∀ test, Walks workspace.heap (equalLevel workspace.heap) test →
            test (ofPortable (exported value)) value = true ∧
            test value (ofPortable (exported value)) = true) := by
  have levelled := reachable.levelled room
  refine ⟨existsUnique_walks levelled _, existsUnique_walks levelled _,
    fun exported walks => ⟨fun portable distinct => ?_, fun name reference value held => ?_⟩⟩
  · rw [walks.eq_portable levelled (keyed_ofPortable portable), Value.portable, visible_ofPortable]
    exact distinct.portable_tree
  · have keyed := reachable.keyed_at? held
    rw [walks.eq_portable levelled keyed]
    refine ⟨fun portable => Tree.exportsTo_iff, Tree.distinct_portable _, Tree.tree_portable _,
      fun distinct finite test tests => ?_⟩
    have back := keyed_ofPortable (value.portable workspace.heap)
    have equal := (value.visible workspace.heap).equal_canonical finite
    rw [tests.eq_equal levelled back keyed, tests.eq_equal levelled keyed back, visible_ofPortable,
      Value.portable, distinct.tree_portable finite]
    exact ⟨(Tree.equal_comm _ _).trans equal, equal⟩

/-- A name twice, a double that is not a number, and an object that was assigned to an element. -/
def exchangeProgram : List Command :=
  [.newDocument "d", .write "d" [] (.set (.object [])),
    .write "d" [] (.addMember "k" (.tree (.number (.int 1))) "d"),
    .write "d" [] (.addMember "k" (.tree (.number (.int 2))) "d"),
    .write "d" [] (.addMember "m"
      (.tree (.array [.null, .number (.double ⟨0x7ff8000000000000⟩)])) "d"),
    .write "d" [.member "m", .element 0] (.assign (.tree (.object [("x", .number (.int (-1)))])))]

/-- The first member is kept, and what is not a number becomes null. -/
def exchanged : Portable :=
  .object [("k", .number (.unsigned 1)),
    ("m", .array [.object [("x", .number (.negative (-1) (by decide)))], .null])]

theorem exchange_exact_exchangeProgram :
    ∃ exported, Walks (empty.run exchangeProgram).heap (ofLevelWith gather) exported ∧
      exported ((empty.run exchangeProgram).root "d") = exchanged ∧
      exported (ofPortable exchanged) = exchanged := by
  have room : ∀ place, (empty.run exchangeProgram).heap.HasRoom place :=
    Heap.hasRoom_of_all (by decide)
  have held : (empty.run exchangeProgram).at? "d" [] =
      some ((empty.run exchangeProgram).root "d") := rfl
  obtain ⟨⟨exported, walks, -⟩, -, exact⟩ := Reachable.exchange_exact ⟨exchangeProgram, rfl⟩ room
  obtain ⟨back, shown⟩ := exact exported walks
  obtain ⟨only, distinct, -⟩ := shown "d" [] _ held
  have same : exchanged = exported ((empty.run exchangeProgram).root "d") :=
    (only exchanged).mp (Tree.exportsTo_iff.mpr rfl)
  exact ⟨exported, walks, same.symm, back exchanged (same ▸ distinct)⟩

/-- In every workspace that a program leads to, a value that the program holds is exchanged as the
tree that a writer builds from what the value says of itself, or a reader from its text, exactly if
the value is alike itself: at every level first and last members with one name are. So it is if no
name is repeated. In general the first member is exchanged, and the last one is written. -/
theorem Reachable.exports_agree_iff (reachable : workspace.Reachable)
    (room : ∀ place, workspace.heap.HasRoom place) :
    (∃! exported, Walks workspace.heap (ofLevelWith gather) exported) ∧
    (∃! described, Walks workspace.heap Datum.ofLevel described) ∧
    ∀ exported described, Walks workspace.heap (ofLevelWith gather) exported →
      Walks workspace.heap Datum.ofLevel described →
      ∀ name reference value, workspace.at? name reference = some value →
        (ofDatum (described value) = exported value ↔
          (value.visible workspace.heap).Alike (value.visible workspace.heap)) ∧
        ((value.visible workspace.heap).Distinct → ofDatum (described value) = exported value) ∧
        (exported value).tree = (value.visible workspace.heap).toExport ∧
        (ofDatum (described value)).tree = (value.visible workspace.heap).streamExport ∧
        ∀ options : WriteOptions, (value.visible workspace.heap).depth ≤ Reader.greatestDepth →
          (∀ double ∈ (value.visible workspace.heap).doubles,
            options.numbers.ReadsBack (.double double)) →
          ∃ text, (value.visible workspace.heap).write options = .ok text ∧
            Portable.ofText text = .ok (ofDatum (described value)) := by
  have levelled := reachable.levelled room
  refine ⟨existsUnique_walks levelled _, existsUnique_walks levelled _,
    fun exported described walks descriptions name reference value held => ?_⟩
  have keyed := reachable.keyed_at? held
  rw [walks.eq_portable levelled keyed, descriptions.eq_datum levelled keyed]
  have agree : ofDatum (value.datum workspace.heap) = value.portable workspace.heap ↔
      (value.visible workspace.heap).Alike (value.visible workspace.heap) :=
    eq_comm.trans Tree.portable_eq_ofDatum_iff
  refine ⟨agree, fun distinct => agree.mpr distinct.alike, Tree.tree_portable _,
    Tree.tree_ofDatum_datum _, fun options shallow doubles => ?_⟩
  exact ⟨_, Tree.write_eq options _, Tree.ofText_text options _ shallow doubles⟩

/-- An object with one name twice. -/
def repeatingProgram : List Command :=
  [.newDocument "d", .write "d" [] (.set (.object [])),
    .write "d" [] (.addMember "k" (.tree (.number (.int 1))) "d"),
    .write "d" [] (.addMember "k" (.tree (.number (.int 2))) "d")]

/-- The first member is exchanged; a writer builds, and a reader reads, the last one. -/
theorem exports_agree_iff_repeatingProgram :
    ∃ exported described, Walks (empty.run repeatingProgram).heap (ofLevelWith gather) exported ∧
      Walks (empty.run repeatingProgram).heap Datum.ofLevel described ∧
      exported ((empty.run repeatingProgram).root "d") =
        .object [("k", .number (.unsigned 1))] ∧
      ofDatum (described ((empty.run repeatingProgram).root "d")) =
        .object [("k", .number (.unsigned 2))] ∧
      Portable.ofText "\x7b\"k\":1,\"k\":2\x7d" = .ok (.object [("k", .number (.unsigned 2))]) := by
  have room : ∀ place, (empty.run repeatingProgram).heap.HasRoom place :=
    Heap.hasRoom_of_all (by decide)
  have held : (empty.run repeatingProgram).at? "d" [] =
      some ((empty.run repeatingProgram).root "d") := rfl
  obtain ⟨⟨exported, walks, -⟩, ⟨described, descriptions, -⟩, every⟩ :=
    Reachable.exports_agree_iff ⟨repeatingProgram, rfl⟩ room
  have keyed := Reachable.keyed_at? ⟨repeatingProgram, rfl⟩ held
  have levelled := Reachable.levelled ⟨repeatingProgram, rfl⟩ room
  have built : ofDatum (described ((empty.run repeatingProgram).root "d")) =
      .object [("k", .number (.unsigned 2))] := by
    rw [descriptions.eq_datum levelled keyed]
    rfl
  obtain ⟨-, -, -, -, reads⟩ := every exported described walks descriptions "d" [] _ held
  obtain ⟨text, written, read⟩ := reads {} (by decide) (by nofun)
  have same : text = "\x7b\"k\":1,\"k\":2\x7d" := by
    rw [Tree.write_eq] at written
    exact (Except.ok.inj written).symm.trans (by decide +kernel)
  refine ⟨exported, described, walks, descriptions, ?_, built, ?_⟩
  · rw [walks.eq_portable levelled keyed]
    rfl
  · rw [← same, read, built]

end Workspace

end JsonOverlay
