/-
This file shows that in every workspace that a program leads to, going down through what values
show comes to an end, whatever was assigned into whatever. So all recursions over values end:
copying, walking with a handler, exporting and comparing. They come to what they do on the trees
that the values show.
-/

import JsonOverlay.Proofs.Value.Descent
import JsonOverlay.Proofs.Workspace.Lookups
import Mathlib.Order.WellFounded

namespace JsonOverlay.Workspace

open Value

variable {workspace : Workspace}

/-- In every workspace that a program leads to, the rank of a value falls with each step to a child
that it shows, so no way down goes on for ever and a recursion through the levels of values has
exactly one solution. Such recursions copy, walk, export and compare what values show. -/
theorem Reachable.traversal_ends (reachable : workspace.Reachable)
    (room : ∀ place, workspace.heap.HasRoom place) :
    (∀ value child : Value, child ∈ (value.shape workspace.heap).children →
      Prod.Lex (· < ·) (· < ·) (child.rank workspace.heap) (value.rank workspace.heap)) ∧
    (¬ ∃ chain : Nat → Value, ∀ count,
      chain (count + 1) ∈ ((chain count).shape workspace.heap).children) ∧
    (∀ (β : Type) (level : Content β → β), ∃! walk, Walks workspace.heap level walk) ∧
    ∀ name reference value, workspace.at? name reference = some value →
      (∀ walk, Walks workspace.heap detached walk →
        walk value = value.deepCopy workspace.heap) ∧
      (∀ (σ ε : Type) (handler : Handler σ ε) walk, Walks workspace.heap handler.acceptLevel walk →
        walk value = (value.visible workspace.heap).accept handler) ∧
      (∀ merge walk, Walks workspace.heap (Tree.exportLevel merge) walk →
        walk value = (value.visible workspace.heap).exportWith merge) ∧
      ∀ name reference other, workspace.at? name reference = some other →
        ∀ walk, Walks workspace.heap (equalLevel workspace.heap) walk →
          walk value other = (value.visible workspace.heap).equal (other.visible workspace.heap) := by
  have levelled := reachable.levelled room
  refine ⟨fun value child => rank_lt_of_shownIn levelled, fun ⟨chain, down⟩ => ?_,
    fun β level => ?_, fun name reference value held => ?_⟩
  · obtain ⟨-, ⟨count, rfl⟩, lowest⟩ :=
      (wellFounded_shownIn levelled).has_min (Set.range chain) ⟨chain 0, 0, rfl⟩
    exact lowest (chain (count + 1)) ⟨count + 1, rfl⟩ (down count)
  · obtain ⟨walk, walks⟩ := exists_walks levelled level
    exact ⟨walk, walks, fun other others => others.unique levelled walks⟩
  · have keyed := reachable.keyed_at? held
    refine ⟨fun walk walks => ?_, fun σ ε handler walk walks => ?_, fun merge walk walks => ?_,
      fun name reference other heldOther walk walks => ?_⟩
    · rw [walks.eq_fold levelled keyed, deepCopy, ofTree_eq_fold]
    · rw [walks.eq_fold levelled keyed, Tree.accept_eq_fold]
    · rw [walks.eq_fold levelled keyed, Tree.exportWith_eq_fold]
    · rw [walks.eq_fold levelled keyed, fold_equalLevel levelled _ (reachable.keyed_at? heldOther)]

/-- A handle of a document is assigned twice into a descendant of the node that it is attached
to, the second time with the first one in its table. -/
def loopProgram : List Command :=
  [.newDocument "d", .write "d" [] (.set (.object [])),
    .write "d" [] (.addMember "a" (.tree (.array [.null])) "d"),
    .write "d" [.member "a", .element 0] (.assign (.duplicate ⟨"d", []⟩)),
    .write "d" [.member "a", .element 0] (.assign (.duplicate ⟨"d", []⟩))]

theorem traversal_ends_loopProgram :
    ∃ reference inside, (empty.run loopProgram).at? "d" reference = some inside ∧
      inside.storage = ((empty.run loopProgram).root "d").storage ∧
      ∃ walk, Walks (empty.run loopProgram).heap detached walk ∧
        walk ((empty.run loopProgram).root "d") = ofTree (.object
          [("a", .array [.object [("a", .array [.object [("a", .array [.null])]])]])]) := by
  have room : ∀ place, (empty.run loopProgram).heap.HasRoom place :=
    Heap.hasRoom_of_all (by decide)
  have held : (empty.run loopProgram).at? "d" [] = some ((empty.run loopProgram).root "d") := rfl
  obtain ⟨-, -, unique, ends⟩ := Reachable.traversal_ends ⟨loopProgram, rfl⟩ room
  obtain ⟨walk, walks, -⟩ := unique Value detached
  refine ⟨[(.member "a", 0), (.element 0, 0)], _, rfl, rfl, walk, walks, ?_⟩
  rw [(ends "d" [] _ held).1 walk walks]
  rfl

end JsonOverlay.Workspace
