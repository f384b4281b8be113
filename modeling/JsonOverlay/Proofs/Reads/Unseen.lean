/-
This file compares two runs of a program, one with extra looks in it and one without. If the
looks are careful, the steps of the program cannot tell: the values in both runs stay twins,
so all reports of the program and all trees in between agree.
-/

import JsonOverlay.Proofs.Reads.Changing
import JsonOverlay.Proofs.Reads.Sights
import JsonOverlay.Proofs.Workspace.Holdings

namespace JsonOverlay

namespace Workspace

variable {workspace left right : Workspace} {name : String} {place : ArenaId} {ground : Ground}

/-! ### Looks and changes -/

/-- A look leaves a new root behind and gives the report from the end of its path. -/
theorem HoldsRoot.look_eq (holds : workspace.HoldsRoot name) (look : Look) {reference : Reference}
    {target : Value}
    (answer : ((workspace.root name).read workspace.heap (look.path.map Selector.step)).2 =
      some reference)
    (found : ((workspace.root name).read workspace.heap (look.path.map Selector.step)).1.at?
      reference = some target) :
    (workspace.look name look).2 = (look.sight.use workspace.heap target).2 ∧
      (workspace.look name look).1.heap = workspace.heap ∧
      (workspace.look name look).1.HoldsRoot name ∧
      (workspace.look name look).1.root name =
        ((workspace.root name).read workspace.heap (look.path.map Selector.step)).1.writeAt
          (fun _ => (look.sight.use workspace.heap target).1) reference := by
  have looked := holds.setRoot
    ((workspace.root name).read workspace.heap (look.path.map Selector.step)).1
  simp only [Workspace.look, visit, refer, answer, holds.root_setRoot, found, Option.getD_some]
  exact ⟨trivial, rfl, looked.setRoot _, looked.root_setRoot _⟩

/-- A change leaves a new root behind. -/
theorem HoldsRoot.act_change (holds : workspace.HoldsRoot name) (path : List Selector)
    (operation : Operation) :
    (workspace.act name (.change path operation)).1.HoldsRoot name ∧
      (workspace.act name (.change path operation)).1.root name =
        ((workspace.root name).edit workspace.heap operation.run (path.map Selector.key)).value :=
  ⟨holds.setRoot _, holds.root_setRoot _⟩

/-! ### Steps of two workspaces -/

/-- Two workspaces over one heap in which a name holds twins. -/
structure Paired (name : String) (place : ArenaId) (ground : Ground) (left right : Workspace) :
    Prop where
  heap : right.heap = left.heap
  holdsLeft : left.HoldsRoot name
  holdsRight : right.HoldsRoot name
  held : ground.Held left.heap place
  twins : Twins place ground (left.root name) (right.root name)

theorem Paired.visible_eq (paired : Paired name place ground left right) :
    (left.root name).visible left.heap = (right.root name).visible right.heap := by
  rw [paired.heap]
  exact paired.twins.visible_eq paired.held

/-- Both look at the same. -/
theorem Paired.look (paired : Paired name place ground left right) (look : Look) :
    (left.look name look).2 = (right.look name look).2 ∧
      Paired name place ground (left.look name look).1 (right.look name look).1 := by
  obtain ⟨heap, holdsLeft, holdsRight, held, twins⟩ := paired
  obtain ⟨source, leftReference, rightReference, leftTarget, rightTarget, heldBelow, targets,
    answerLeft, answerRight, foundLeft, foundRight, after, -⟩ :=
    twins.visit look.path (fun value => (look.sight.use left.heap value).1)
      (fun value => (look.sight.use left.heap value).1) held
      fun twins held => (twins.use_sight look.sight held).2
  obtain ⟨reportLeft, heapLeft, holdLeft, rootLeft⟩ := holdsLeft.look_eq look answerLeft foundLeft
  rw [← heap] at answerRight foundRight
  obtain ⟨reportRight, heapRight, holdRight, rootRight⟩ :=
    holdsRight.look_eq look answerRight foundRight
  refine ⟨?_, heapRight.trans (heap.trans heapLeft.symm), holdLeft, holdRight, ?_, ?_⟩
  · rw [reportLeft, reportRight, heap]
    exact (targets.use_sight look.sight heldBelow).1
  · rw [heapLeft]
    exact held
  · rw [rootLeft, rootRight, heap]
    exact after

/-- Only one of them looks, and it is careful. -/
theorem Paired.look_right (paired : Paired name place ground left right) {look : Look}
    (careful : (right.root name).Careful right.heap look.path) :
    Paired name place ground left (right.look name look).1 := by
  obtain ⟨heap, holdsLeft, holdsRight, held, twins⟩ := paired
  rw [heap] at careful
  obtain ⟨reference, target, answer, found, after⟩ :=
    twins.visit_right look.path (fun value => (look.sight.use left.heap value).1) held careful
      (fun twins held => twins.use_sight_right look.sight held)
      fun value null => look.sight.use_null left.heap null
  rw [← heap] at answer found
  obtain ⟨-, heapRight, holdRight, rootRight⟩ := holdsRight.look_eq look answer found
  refine ⟨heapRight.trans heap, holdsLeft, holdRight, held, ?_⟩
  rw [rootRight, heap]
  exact after

end Workspace

/-- There are no handles in what a step of a program puts anywhere. -/
def Act.HasLooseOperand : Act → Prop
  | look _ => True
  | change _ operation => operation.HasLooseOperand

/-- There are no handles in what a program puts anywhere. -/
def Turn.HasLooseOperand : Turn → Prop
  | .act step => step.HasLooseOperand
  | .extra _ => True

theorem Ground.Moves.hasRoom {before after heap : Heap} {place : ArenaId} {ground ground' : Ground}
    (moves : ground.Moves before place after ground') (room : ground.HasRoom heap place) :
    ground'.HasRoom heap place := by
  cases moves with
  | loosened content => trivial
  | reshaped change => exact room

namespace Workspace

variable {workspace left right : Workspace} {name : String} {place : ArenaId} {ground : Ground}

/-- Both take the same step of a program. -/
theorem Paired.act {act : Act} (paired : Paired name place ground left right)
    (loose : act.HasLooseOperand) (room : ground.HasRoom (left.act name act).1.heap place) :
    (left.act name act).2 = (right.act name act).2 ∧
      ∃ ground', Paired name place ground' (left.act name act).1 (right.act name act).1 ∧
        ∀ heap, ground.HasRoom heap place → ground'.HasRoom heap place := by
  cases act with
  | look look =>
    obtain ⟨reports, after⟩ := paired.look look
    exact ⟨reports, ground, after, fun _ => id⟩
  | change path operation =>
    obtain ⟨heap, holdsLeft, holdsRight, held, twins⟩ := paired
    obtain ⟨heapRight, holdings⟩ := right
    obtain rfl : heapRight = left.heap := heap
    obtain ⟨heaps, results, ⟨ground', moves, after⟩, -⟩ := twins.edit loose path held room
    obtain ⟨leftHolds, rootLeft⟩ := holdsLeft.act_change path operation
    obtain ⟨rightHolds, rootRight⟩ := holdsRight.act_change path operation
    refine ⟨congrArg Report.outcome results.symm, ground',
      ⟨heaps, leftHolds, rightHolds, moves.held, ?_⟩, fun _ => moves.hasRoom⟩
    rw [← rootLeft, ← rootRight] at after
    exact after

/-! ### Runs of two workspaces -/

theorem touched_act (workspace : Workspace) (name : String) (act : Act) :
    workspace.heap.Touched (workspace.act name act).1.heap := by
  cases act with
  | look look =>
    show workspace.heap.Touched (workspace.visit _ _).1.heap
    rw [heap_visit]
    exact Heap.Touched.nothing
  | change path operation => exact workspace.touched_perform name _ operation

theorem hasRoom_of_runTurns (workspace : Workspace) (name : String) (turns : List Turn)
    (room : (workspace.runTurns name turns).heap.HasRoom place) : workspace.heap.HasRoom place := by
  induction turns generalizing workspace with
  | nil => exact room
  | cons turn rest inductionHypothesis =>
    cases turn with
    | act act => exact (workspace.touched_act name act).hasRoom (inductionHypothesis _ room)
    | extra look =>
      exact (workspace.touched_act name (.look look)).hasRoom (inductionHypothesis _ room)

theorem reports_act (workspace : Workspace) (name : String) (act : Act) (rest : List Turn) :
    workspace.reports name (.act act :: rest) =
      ((workspace.act name act).2,
        ((workspace.act name act).1.root name).visible (workspace.act name act).1.heap) ::
        (workspace.act name act).1.reports name rest := rfl

/-- The run with careful extra looks reports what the run without them reports. -/
theorem Paired.run {turns : List Turn} (paired : Paired name place ground left right)
    (loose : ∀ turn ∈ turns, turn.HasLooseOperand) (careful : right.Careful name turns)
    (room : ground.HasRoom (left.runTurns name (turns.filter Turn.isAct)).heap place) :
    left.reports name (turns.filter Turn.isAct) = right.reports name turns ∧
      ∃ ground', Paired name place ground' (left.runTurns name (turns.filter Turn.isAct))
        (right.runTurns name turns) := by
  induction turns generalizing left right ground with
  | nil => exact ⟨rfl, ground, paired⟩
  | cons turn rest inductionHypothesis =>
    have later : ∀ turn ∈ rest, turn.HasLooseOperand := fun turn member =>
      loose turn (List.mem_cons_of_mem _ member)
    cases turn with
    | extra look =>
      rw [List.filter_cons_of_neg (by simp [Turn.isAct])] at room ⊢
      exact inductionHypothesis (paired.look_right careful.1) later careful.2 room
    | act act =>
      rw [List.filter_cons_of_pos (by simp [Turn.isAct])] at room ⊢
      have roomHere : ground.HasRoom (left.act name act).1.heap place := by
        cases ground with
        | free content => trivial
        | node layout => exact hasRoom_of_runTurns _ name (rest.filter Turn.isAct) room
      obtain ⟨reports, ground', after, roomy⟩ := paired.act (loose _ List.mem_cons_self) roomHere
      obtain ⟨others, last⟩ := inductionHypothesis after later careful (roomy _ room)
      exact ⟨by rw [reports_act, reports_act, reports, after.visible_eq, others], last⟩

end Workspace

end JsonOverlay
