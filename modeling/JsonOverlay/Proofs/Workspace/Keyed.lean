/-
This file shows that in every workspace that a program leads to, no key is twice in any table
of looked-up children, at any depth and in older versions of children as well. Everything that
a program does keeps it so.
-/

import JsonOverlay.Proofs.Value.Keyed
import JsonOverlay.Proofs.Workspace.Closed

namespace JsonOverlay.Workspace

variable {workspace : Workspace}

/-- No value that is held has a key twice in any table. -/
def Keyed (workspace : Workspace) : Prop :=
  ∀ name, workspace.Has Value.Keyed (fun _ => True) name

theorem Keyed.step (keyed : workspace.Keyed) (command : Command) :
    (workspace.step command).Keyed :=
  fun name => (keyed name).step Value.closed_keyed (fun _ => has_gift? Value.closed_keyed keyed)
    fun _ _ fresh => fresh.has trivial fun _ => Value.keyed_attached _

/-- In every workspace that a program leads to, no key is twice in any table. -/
theorem Reachable.keyed (reachable : workspace.Reachable) : workspace.Keyed := by
  obtain ⟨program, rfl⟩ := reachable
  have run (start : Workspace) (keyed : start.Keyed) : (start.run program).Keyed := by
    induction program generalizing start with
    | nil => exact keyed
    | cons command rest inductionHypothesis => exact inductionHypothesis _ (keyed.step command)
  exact run empty fun _ _ held => by cases held

/-- A value that can be got at in a workspace that a program leads to has no key twice. -/
theorem Reachable.keyed_at? (reachable : workspace.Reachable) {name : String}
    {reference : Reference} {value : Value}
    (means : workspace.at? name reference = some value) : value.Keyed :=
  Value.closed_keyed.at? ((reachable.keyed name).root Value.closed_keyed.null) means

end JsonOverlay.Workspace
