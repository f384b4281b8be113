/-
This file shows that appending is all or nothing in every workspace that a program leads to,
whatever is appended to what. The books of all arenas are right there, however many slots they
have, and that is all that appending rests on.
-/

import JsonOverlay.Proofs.Value.Append
import JsonOverlay.Proofs.Workspace.Effects

namespace JsonOverlay

theorem Heap.Renews.sound {before after : Heap} {lost : Option ArenaId}
    (renews : before.Renews lost after) (sound : before.Sound) : after.Sound := by
  intro place arena found
  rcases renews.origin place arena found with old | ⟨-, tree, rfl⟩
  · exact sound place arena old
  · exact Arena.sound_ofTree tree

namespace Workspace

variable {workspace : Workspace}

theorem sound_step (sound : workspace.heap.Sound) (command : Command) :
    (workspace.step command).heap.Sound := by
  rcases workspace.step_cases command with ⟨_, _, _, _, _, -, -, effect⟩ | renews
  · exact effect.sound sound
  · exact renews.sound sound

/-- In every workspace that a program leads to, the books of every arena are right. -/
theorem Reachable.sound (reachable : workspace.Reachable) : workspace.heap.Sound := by
  obtain ⟨program, rfl⟩ := reachable
  have run (start : Workspace) (sound : start.heap.Sound) : (start.run program).heap.Sound := by
    induction program generalizing start with
    | nil => exact sound
    | cons command rest inductionHypothesis => exact inductionHypothesis _ (sound_step sound command)
  exact run empty fun _ _ found => by cases found

/-- In every workspace that a program leads to, whatever is appended to whatever value, the answer
is told by the storage of the value and the allocator. If it is a refusal, the heap and the value
are what they were; if not, there is one child more behind the others, and in a document it shows
what the operand showed. -/
theorem Reachable.appending_all_or_nothing (reachable : workspace.Reachable)
    (appending : Appending) (value operand : Value) (allocator : Allocator) :
    (appending.run workspace.heap value operand allocator).result =
        appending.verdict workspace.heap value allocator ∧
      (appending.verdict workspace.heap value allocator ≠ .done →
        (appending.run workspace.heap value operand allocator).heap = workspace.heap ∧
          (appending.run workspace.heap value operand allocator).value = value) ∧
      (appending.verdict workspace.heap value allocator = .done →
        appending.Succeeds workspace.heap operand value
          (appending.run workspace.heap value operand allocator).heap
          (appending.run workspace.heap value operand allocator).value) := by
  rcases appending.run_cases value operand allocator reachable.sound with
    ⟨error, verdict, run⟩ | ⟨verdict, after, changed, run, succeeds⟩
  · rw [run, verdict]
    exact ⟨rfl, fun _ => ⟨rfl, rfl⟩, fun absurd => by cases absurd⟩
  · rw [run, verdict]
    exact ⟨rfl, fun refused => (refused rfl).elim, fun _ => succeeds⟩

/-- A document takes in a copy of itself under a name that it has already, but not with the
allocator that belongs to no document. -/
theorem appending_all_or_nothing_itself :
    ∃ heap value, heap = (empty.run handleProgram).heap ∧
      value = (empty.run handleProgram).root "d" ∧
      (Appending.member "a").Succeeds heap value value
        ((Appending.member "a").run heap value value ⟨some ⟨0⟩⟩).heap
        ((Appending.member "a").run heap value value ⟨some ⟨0⟩⟩).value ∧
      Allocator.nodeCount ⟨some ⟨0⟩⟩ heap = 6 ∧
      Allocator.nodeCount ⟨some ⟨0⟩⟩
        ((Appending.member "a").run heap value value ⟨some ⟨0⟩⟩).heap = 12 ∧
      ((Appending.member "a").run heap value value {}).result = .refused .foreignAllocator ∧
      ((Appending.member "a").run heap value value {}).heap = heap ∧
      ((Appending.member "a").run heap value value {}).value = value := by
  have every := Reachable.appending_all_or_nothing ⟨handleProgram, rfl⟩ (.member "a")
    ((empty.run handleProgram).root "d") ((empty.run handleProgram).root "d")
  obtain ⟨-, -, success⟩ := every ⟨some ⟨0⟩⟩
  obtain ⟨refusal, unchanged, -⟩ := every {}
  refine ⟨_, _, rfl, rfl, success rfl, rfl, by decide, refusal, unchanged ?_⟩
  exact fun absurd => by cases absurd

end Workspace

end JsonOverlay
