/-
This file shows which calls a walk makes. In every workspace that a program leads to, walking
through a value delivers the events of the tree that the value shows, up to the first one that the
handler refuses. Nothing that a name shows changes.
-/

import JsonOverlay.Proofs.Event.Delivery
import JsonOverlay.Proofs.Workspace.Descent

namespace JsonOverlay

namespace Value

variable {σ ε : Type} {handler : Handler σ ε} {heap : Heap} {value : Value}
  {walk : Value → σ → σ × Option ε} {stream calls : List Event} {outcome : σ × Option ε}

/-- A walk through a value sends the events of the tree that it shows. -/
theorem Walks.eq_receiveAll (walks : Walks heap handler.acceptLevel walk)
    (levelled : heap.Levelled) (keyed : value.Keyed)
    (unfolds : (value.visible heap).Unfolds stream) : walk value = handler.receiveAll stream := by
  rw [walks.eq_fold levelled keyed, ← Tree.accept_eq_fold, Tree.accept_eq, unfolds.eq_events]

end Value

namespace Workspace

open Value

variable {workspace : Workspace}

/-- In every workspace that a program leads to, walking through values with a handler is a recursion
with exactly one solution. The tree that a value shows unfolds to exactly one stream of events. The
calls that are made to the handler are those by which this stream is delivered, and noting them
changes nothing. At a handler without 32-bit integers of its own the stream arrives with integers of
the same values. What a name shows is not changed by looking up the value to walk through. -/
theorem Reachable.accept_delivers (reachable : workspace.Reachable)
    (room : ∀ place, workspace.heap.HasRoom place) :
    (∀ (σ ε : Type) (handler : Handler σ ε),
      ∃! walk, Walks workspace.heap handler.acceptLevel walk) ∧
    (∀ name reference value, workspace.at? name reference = some value →
      (∃! stream, (value.visible workspace.heap).Unfolds stream) ∧
      ∀ stream, (value.visible workspace.heap).Unfolds stream →
        (∃! arrived, List.Forall₂ Event.Widens stream arrived) ∧
        ∀ (σ ε : Type) (handler : Handler σ ε) walk noted wide,
          Walks workspace.heap handler.acceptLevel walk →
          Walks workspace.heap handler.logged.acceptLevel noted →
          Walks workspace.heap handler.logged.widened.acceptLevel wide →
          ∀ state,
            walk value state = ((noted value ([], state)).1.2, (noted value ([], state)).2) ∧
            (∀ calls outcome, handler.Delivers stream state calls outcome ↔
              noted value ([], state) = ((calls, outcome.1), outcome.2)) ∧
            ∀ arrived, List.Forall₂ Event.Widens stream arrived → ∀ calls outcome,
              handler.Delivers arrived state calls outcome ↔
                wide value ([], state) = ((calls, outcome.1), outcome.2)) ∧
    ∀ place name, ((workspace.read place).1.root name).visible workspace.heap =
      (workspace.root name).visible workspace.heap := by
  have levelled := reachable.levelled room
  refine ⟨fun σ ε handler => existsUnique_walks levelled _, fun name reference value held => ?_,
    fun place => reachable.visible_refer room place⟩
  have keyed := reachable.keyed_at? held
  refine ⟨⟨_, Tree.unfolds_events _, fun other unfolds => unfolds.eq_events⟩,
    fun stream unfolds => ⟨⟨_, Event.forall₂_widens_iff.mpr rfl,
      fun other arrives => Event.forall₂_widens_iff.mp arrives⟩, ?_⟩⟩
  intro σ ε handler walk noted wide walks notes widens state
  rw [walks.eq_receiveAll levelled keyed unfolds, notes.eq_receiveAll levelled keyed unfolds,
    widens.eq_receiveAll levelled keyed unfolds, Handler.receiveAll_widened]
  refine ⟨Handler.receiveAll_eq_logged [] state, fun calls outcome => Handler.delivers_iff,
    fun arrived arrives calls outcome => ?_⟩
  rw [Event.forall₂_widens_iff.mp arrives]
  exact Handler.delivers_iff

/-- An object that repeats a name, with an array assigned to its first member. -/
def acceptProgram : List Command :=
  [.newDocument "d", .write "d" [] (.set (.object [])),
    .write "d" [] (.addMember "k" (.tree .null) "d"),
    .write "d" [] (.addMember "k" (.tree (.number (.uint 4294967296))) "d"),
    .write "d" [.member "k"] (.assign (.tree (.array [.number (.int 7), .bool true])))]

/-- A handler that refuses the fifth event has been called five times. If it has only integers of
64 bits, it has received the seven as such. -/
theorem accept_delivers_acceptProgram :
    ∃ noted wide,
      Walks (empty.run acceptProgram).heap (Handler.recorder (some 4)).logged.acceptLevel noted ∧
      Walks (empty.run acceptProgram).heap
        (Handler.recorder (some 4)).logged.widened.acceptLevel wide ∧
      noted ((empty.run acceptProgram).root "d") ([], []) =
        (([.startObject, .key "k", .startArray, .int 7, .bool true],
          [.startObject, .key "k", .startArray, .int 7]), some ()) ∧
      wide ((empty.run acceptProgram).root "d") ([], []) =
        (([.startObject, .key "k", .startArray, .int64 7, .bool true],
          [.startObject, .key "k", .startArray, .int64 7]), some ()) := by
  have room : ∀ place, (empty.run acceptProgram).heap.HasRoom place :=
    Heap.hasRoom_of_all (by decide)
  have held : (empty.run acceptProgram).at? "d" [] =
      some ((empty.run acceptProgram).root "d") := rfl
  obtain ⟨unique, every, -⟩ := Reachable.accept_delivers ⟨acceptProgram, rfl⟩ room
  obtain ⟨-, unfolded⟩ := every "d" [] _ held
  obtain ⟨-, delivers⟩ := unfolded ([.startObject, .key "k", .startArray, .int 7] ++ .bool true ::
    [.endArray 2, .key "k", .uint64 4294967296, .endObject 2]) (Tree.unfolds_iff.mpr rfl)
  obtain ⟨walk, walks, -⟩ := unique _ _ (Handler.recorder (some 4))
  obtain ⟨noted, notes, -⟩ := unique _ _ (Handler.recorder (some 4)).logged
  obtain ⟨wide, widens, -⟩ := unique _ _ (Handler.recorder (some 4)).logged.widened
  obtain ⟨-, stops, arrives⟩ := delivers _ _ _ walk noted wide walks notes widens []
  have takes (seven : Event) : (Handler.recorder (some 4)).Takes
      [.startObject, .key "k", .startArray, seven] []
      [.startObject, .key "k", .startArray, seven] :=
    .cons rfl (.cons rfl (.cons rfl (.cons rfl (.nil _))))
  refine ⟨noted, wide, notes, widens, ?_, ?_⟩
  · exact (stops _ (_, _)).mp (.refused rfl (takes (.int 7)) rfl)
  · refine (arrives ([.startObject, .key "k", .startArray, .int64 7] ++ .bool true ::
      [.endArray 2, .key "k", .uint64 4294967296, .endObject 2])
      (Event.forall₂_widens_iff.mpr rfl) _ (_, _)).mp ?_
    exact .refused rfl (takes (.int64 7)) rfl

end Workspace

end JsonOverlay
