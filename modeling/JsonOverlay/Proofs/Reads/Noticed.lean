/-
This file settles which looks a program can notice. Careful looks go unnoticed. After any
other look through a value that was not looked through before, a program can add children
until the gap that the look went below is filled, and then look there: it finds null instead
of the child that it added.
-/

import JsonOverlay.Proofs.Editing.Change
import JsonOverlay.Proofs.Reads.Stuck
import JsonOverlay.Proofs.Reads.Unseen

namespace JsonOverlay

/-! ### Filling a gap in a plain tree -/

/-- The change that adds a child, which comes to fill the gap at a key. -/
def Selector.filling : Selector → Change
  | member name => .addMember name (.bool true)
  | element _ => .pushBack (.bool true)

/-- How many additions fill any gap at a key. -/
def Selector.places : Selector → Nat
  | member _ => 1
  | element index => index + 1

/-- A tree after a number of additions. -/
def Tree.filled (selector : Selector) (count : Nat) (tree : Tree) : Tree :=
  (fun tree => (selector.filling.apply tree).1)^[count] tree

namespace Tree

theorem filled_element (index count : Nat) (items : List Tree) :
    (Tree.array items).filled (.element index) count =
      .array (items ++ List.replicate count (.bool true)) := by
  induction count generalizing items with
  | zero => simp [filled]
  | succ count inductionHypothesis =>
    have first : (Tree.array items).filled (.element index) (count + 1) =
        (Tree.array (items ++ [.bool true])).filled (.element index) count := rfl
    rw [first, inductionHypothesis, List.append_assoc]
    rfl

/-- A gap is filled by a number of additions. -/
theorem exists_filled {tree : Tree} {selector : Selector}
    (admits : tree.content.admits selector.key) (missing : tree.content.child? selector.key = none) :
    ∃ count ≤ selector.places,
      (tree.filled selector count).content.child? selector.key = some (.bool true) := by
  cases selector with
  | member name =>
    cases tree with
    | object members =>
      have absent : members.lookup name = none := missing
      refine ⟨1, Nat.le_refl 1, ?_⟩
      show (members ++ [(name, Tree.bool true)]).lookup name = some (.bool true)
      simp [List.lookup_append, absent]
    | _ => exact absurd admits id
  | element index =>
    cases tree with
    | array items =>
      have short : items.length ≤ index := List.getElem?_eq_none_iff.mp missing
      refine ⟨index + 1 - items.length, Nat.sub_le _ _, ?_⟩
      rw [filled_element]
      show (items ++ List.replicate (index + 1 - items.length) (Tree.bool true))[index]? =
        some (.bool true)
      rw [List.getElem?_append_right short, List.getElem?_replicate, if_pos (by omega)]
    | _ => exact absurd admits id

/-- After an edit at the end of a path the edited tree is there. -/
theorem exists_editAt {β : Type} (change : Tree → Tree × β) {tree found : Tree}
    {path : List ChildKey} (reached : tree.at? path = some found) :
    ∃ changed, tree.editAt change path = some (changed, (change found).2) ∧
      changed.at? path = some (change found).1 := by
  induction path generalizing tree with
  | nil =>
    cases reached
    exact ⟨_, rfl, rfl⟩
  | cons key rest inductionHypothesis =>
    obtain ⟨child, named, below⟩ := Option.bind_eq_some_iff.mp reached
    obtain ⟨changed, edited, there⟩ := inductionHypothesis below
    refine ⟨ofContent (tree.content.withChild key changed), ?_, ?_⟩
    · rw [editAt, named, Option.bind_some, edited, Option.map_some]
    · have member := Content.mem_keys_of_named? named
      have put := Content.child?_withChild named changed member
      rw [if_pos rfl] at put
      have again : (tree.content.withChild key changed).named? key = some changed := by
        cases key with
        | repeated position => cases named
        | _ => exact put
      rw [at?, content_ofContent, again, Option.bind_some, there]

theorem at?_append (tree : Tree) (path later : List ChildKey) :
    tree.at? (path ++ later) = (tree.at? path).bind fun found => found.at? later := by
  induction path generalizing tree with
  | nil => rfl
  | cons key rest inductionHypothesis =>
    rw [List.cons_append, at?, at?]
    cases tree.content.named? key with
    | none => rfl
    | some child => exact inductionHypothesis child

/-- Selectors lead to the same tree for reading and for writing. -/
theorem follow?_eq_at? (tree : Tree) (path : List Selector) :
    tree.follow? (path.map Selector.step) = tree.at? (path.map Selector.key) := by
  induction path generalizing tree with
  | nil => rfl
  | cons selector rest inductionHypothesis =>
    rw [List.map_cons, List.map_cons, follow?, at?]
    cases selector <;> exact Option.bind_congr fun child _ => inductionHypothesis child

end Tree

theorem Value.visible_of_null {value : Value} (heap : Heap)
    (null : value.storage = .detached .null) : value.visible heap = .null := by
  obtain ⟨own, children⟩ := value
  obtain rfl : own = .detached .null := null
  rfl

/-- A program that adds children at the end of a path. -/
def fillings (above : List Selector) (selector : Selector) (allocator : Allocator) (count : Nat) :
    List Turn :=
  List.replicate count (.act (.change above (selector.filling.operation allocator)))

namespace Workspace

variable {workspace : Workspace} {name : String} {place : ArenaId} {tree container : Tree}
  {above : List Selector} {selector : Selector}

theorem reports_append (workspace : Workspace) (name : String) (turns later : List Turn) :
    workspace.reports name (turns ++ later) =
      workspace.reports name turns ++ (workspace.runTurns name turns).reports name later := by
  induction turns generalizing workspace with
  | nil => rfl
  | cons turn rest inductionHypothesis =>
    cases turn with
    | act act =>
      rw [List.cons_append, reports_act, reports_act, inductionHypothesis]
      rfl
    | extra look => exact inductionHypothesis _

/-! ### Without the look -/

/-- A name holds a value that shows a tree. -/
def Displays (workspace : Workspace) (name : String) (place : ArenaId) (tree : Tree) : Prop :=
  workspace.HoldsRoot name ∧ ∃ origin, origin.Held workspace.heap place ∧
    Shows place origin (workspace.root name) tree

theorem Displays.fill (count : Nat) (displays : workspace.Displays name place tree)
    (leads : tree.at? (above.map Selector.key) = some container)
    (room : (workspace.runTurns name (fillings above selector ⟨some place⟩ count)).heap.HasRoom
      place) :
    ∃ changed, (workspace.runTurns name (fillings above selector ⟨some place⟩ count)).Displays name
        place changed ∧
      changed.at? (above.map Selector.key) = some (container.filled selector count) := by
  induction count generalizing workspace tree container with
  | zero => exact ⟨tree, displays, leads⟩
  | succ count inductionHypothesis =>
    obtain ⟨holds, origin, held, shows⟩ := displays
    obtain ⟨edited, equal, there⟩ := Tree.exists_editAt selector.filling.apply leads
    have roomHere := hasRoom_of_runTurns _ name (fillings above selector ⟨some place⟩ count) room
    obtain ⟨-, origin', moves, after⟩ :=
      shows.edit selector.filling.simulates (above.map Selector.key) held equal roomHere
    obtain ⟨stillHolds, root⟩ :=
      holds.act_change above (selector.filling.operation ⟨some place⟩)
    rw [← root] at after
    exact inductionHypothesis ⟨stillHolds, origin', moves.held, after⟩ there room

theorem Displays.look {path : List Selector} {found : Tree}
    (displays : workspace.Displays name place tree)
    (leads : tree.at? (path.map Selector.key) = some found) :
    ∃ glimpse : Glimpse, (workspace.look name ⟨path, .glance⟩).2 = .glance glimpse ∧
      glimpse.shown = found := by
  obtain ⟨holds, origin, held, shows⟩ := displays
  rw [← Tree.follow?_eq_at?] at leads
  obtain ⟨reference, answer, refers⟩ := shows.read (path.map Selector.step) held leads
  obtain ⟨target, source, means, heldBelow, below, -⟩ := refers.target
  obtain ⟨report, -⟩ := holds.look_eq ⟨path, .glance⟩ answer means
  exact ⟨target.glimpse workspace.heap, report, below.visible_eq heldBelow⟩

/-! ### After the look -/

theorem stuck_fill (allocator : Allocator) (count : Nat) (holds : workspace.HoldsRoot name)
    (stuck : (workspace.root name).Stuck selector.key above) :
    (workspace.runTurns name (fillings above selector allocator count)).HoldsRoot name ∧
      ((workspace.runTurns name (fillings above selector allocator count)).root name).Stuck
        selector.key above := by
  induction count generalizing workspace with
  | zero => exact ⟨holds, stuck⟩
  | succ count inductionHypothesis =>
    obtain ⟨stillHolds, root⟩ := holds.act_change above (selector.filling.operation allocator)
    have after := stuck.edit workspace.heap (selector.filling.operation allocator) (by
      cases selector with
      | member member => exact Value.append_adds (.member member) _ allocator workspace.heap
      | element index => exact Value.append_adds .element _ allocator workspace.heap)
    rw [← root] at after
    exact inductionHypothesis stillHolds after

theorem stuck_look (holds : workspace.HoldsRoot name)
    (stuck : (workspace.root name).Stuck selector.key above) :
    ∃ glimpse : Glimpse,
      (workspace.look name ⟨above ++ [selector], .glance⟩).2 = .glance glimpse ∧
        glimpse.shown = .null := by
  obtain ⟨reference, target, answer, means, null⟩ := stuck.read workspace.heap rfl
  obtain ⟨report, -⟩ := holds.look_eq ⟨above ++ [selector], .glance⟩ answer means
  exact ⟨target.glimpse workspace.heap, report, Value.visible_of_null workspace.heap null⟩

/-- The runs with and without a look that left null stuck in a gap differ. -/
theorem Displays.reports_ne {count : Nat} {look : Look}
    (displays : workspace.Displays name place tree)
    (leads : tree.at? (above.map Selector.key) = some container)
    (filled : (container.filled selector count).content.child? selector.key = some (.bool true))
    (holds : (workspace.look name look).1.HoldsRoot name)
    (stuck : ((workspace.look name look).1.root name).Stuck selector.key above)
    (room : (workspace.runTurns name (fillings above selector ⟨some place⟩ count)).heap.HasRoom
      place) :
    workspace.reports name (fillings above selector ⟨some place⟩ count ++
        [.act (.look ⟨above ++ [selector], .glance⟩)]) ≠
      workspace.reports name (.extra look :: (fillings above selector ⟨some place⟩ count ++
        [.act (.look ⟨above ++ [selector], .glance⟩)])) := by
  intro same
  obtain ⟨changed, after, there⟩ := displays.fill count leads room
  have found : changed.at? ((above ++ [selector]).map Selector.key) = some (.bool true) := by
    rw [List.map_append, Tree.at?_append, there, Option.bind_some, List.map_singleton, Tree.at?]
    cases selector <;> exact congrArg (Option.bind · _) filled
  obtain ⟨plain, plainReport, shown⟩ := after.look found
  obtain ⟨stillHolds, stays⟩ := stuck_fill ⟨some place⟩ count holds stuck
  obtain ⟨looked, lookedReport, null⟩ := stuck_look stillHolds stays
  have unrolled : workspace.reports name (.extra look ::
      (fillings above selector ⟨some place⟩ count ++
        [.act (.look ⟨above ++ [selector], .glance⟩)])) =
      (workspace.look name look).1.reports name (fillings above selector ⟨some place⟩ count ++
        [.act (.look ⟨above ++ [selector], .glance⟩)]) := rfl
  rw [unrolled, reports_append, reports_append] at same
  have last := (List.cons.inj (List.append_inj_right' same rfl)).1
  have reports : Report.glance plain = Report.glance looked :=
    plainReport.symm.trans ((congrArg Prod.fst last).trans lookedReport)
  rw [Report.glance.injEq] at reports
  rw [reports, null] at shown
  cases shown

end Workspace

/-! ### Values that were not looked through -/

/-- An object or an array through which nothing was looked up. If it is detached there are no
handles in it. -/
structure Value.Unread (heap : Heap) (value : Value) : Prop where
  container : (value.backing heap).kind = .object ∨ (value.backing heap).kind = .array
  untouched : value.children.keys = []
  loose : ∀ content, value.storage = .detached content → ∀ child ∈ content.children, Loose child

/-- If a value is attached, a heap has no more slots in its arena than can be told apart. -/
def Value.HasRoom (value : Value) (heap : Heap) : Prop :=
  ∀ reference, value.storage = .attached reference → heap.HasRoom reference.arena

namespace Workspace

variable {workspace : Workspace} {name : String}

theorem holdsRoot_of_unread (unread : (workspace.root name).Unread workspace.heap) :
    workspace.HoldsRoot name := by
  refine holdsRoot_of_ne fun null => ?_
  have container := unread.container
  rw [null] at container
  rcases container with absurd | absurd <;> cases absurd

theorem node?_of_unread {reference : NodeRef} {value : Value} {heap : Heap}
    (unread : value.Unread heap) (attached : value.storage = .attached reference) :
    heap.node? reference ≠ none := by
  intro dead
  have container := unread.container
  rw [Value.backing, attached] at container
  simp only [dead] at container
  rcases container with absurd | absurd <;> cases absurd

/-- A value that was not looked through is its own twin. -/
theorem Reachable.exists_twins (reachable : workspace.Reachable) {value : Value}
    (unread : value.Unread workspace.heap) (room : value.HasRoom workspace.heap) :
    ∃ place ground, ground.Held workspace.heap place ∧ Twins place ground value value ∧
      ∀ heap, value.HasRoom heap → ground.HasRoom heap place := by
  obtain ⟨storage, table⟩ := value
  cases storage with
  | detached content =>
    have sound : (Ground.free content).Sound := unread.loose content rfl
    exact ⟨⟨0⟩, .free content, trivial,
      Twins.of_keys_eq_nil sound unread.untouched unread.untouched, fun _ _ => trivial⟩
  | attached reference =>
    obtain ⟨layout, same, held⟩ :=
      reachable.exists_layout (node?_of_unread unread rfl) (room reference rfl)
    have twins : Twins reference.arena (.node layout)
        ⟨(Ground.node layout).storage reference.arena, table⟩
        ⟨(Ground.node layout).storage reference.arena, table⟩ :=
      Twins.of_keys_eq_nil trivial unread.untouched unread.untouched
    rw [Ground.storage, same] at twins
    exact ⟨reference.arena, .node layout, held, twins, fun _ room => room reference rfl⟩

theorem arena?_runTurns_eq_none {place : ArenaId} (turns : List Turn)
    (absent : workspace.heap.arena? place = none) :
    (workspace.runTurns name turns).heap.arena? place = none := by
  induction turns generalizing workspace with
  | nil => exact absent
  | cons turn rest inductionHypothesis =>
    cases turn with
    | act act => exact inductionHypothesis ((workspace.touched_act name act).arena?_eq_none absent)
    | extra look =>
      exact inductionHypothesis ((workspace.touched_act name (.look look)).arena?_eq_none absent)

/-- A value that was not looked through, and that is attached or a copy of a tree, shows what is
behind it. -/
theorem Reachable.exists_shows (reachable : workspace.Reachable) (name : String) {value : Value}
    (unread : value.Unread workspace.heap) (room : value.HasRoom workspace.heap)
    (copied : ∀ content, value.storage = .detached content →
      ∀ child ∈ content.children, ∃ tree, child = Value.ofTree tree) :
    ∃ (place : ArenaId) (origin : Origin) (table : Children Value),
      value = ⟨origin.storage place, table⟩ ∧ table.keys = [] ∧
      origin.Held workspace.heap place ∧ Shows place origin value origin.tree ∧
      ∀ turns, value.HasRoom (workspace.runTurns name turns).heap →
        (workspace.runTurns name turns).heap.HasRoom place := by
  obtain ⟨storage, table⟩ := value
  have nothing : table.keys = [] := unread.untouched
  have cleared : table = table.clear := by
    obtain ⟨entries, serial⟩ := table
    obtain rfl : entries = [] := List.map_eq_nil_iff.mp nothing
    rfl
  cases storage with
  | detached content =>
    have same : (Tree.ofContent (content.map (Value.visible workspace.heap))).content.map
        Value.ofTree = content := by
      rw [Tree.content_ofContent, Content.map_map]
      refine (Content.map_congr fun child member => ?_).trans (Content.map_id content)
      obtain ⟨tree, rfl⟩ := copied content rfl child member
      rw [Function.comp_apply, Value.visible_ofTree]
    have shows : Shows ⟨workspace.heap.arenas.size⟩ (.loose _) ⟨_, table.clear⟩ _ :=
      Shows.of_clear (.loose (Tree.ofContent (content.map (Value.visible workspace.heap)))) table
    rw [← cleared, Origin.storage, same] at shows
    refine ⟨⟨workspace.heap.arenas.size⟩, .loose _, table, ?_, nothing, trivial, shows,
      fun turns _ arena found => ?_⟩
    · rw [Origin.storage, same]
    · have absent : workspace.heap.arena? ⟨workspace.heap.arenas.size⟩ = none := by
        simp [Heap.arena?]
      rw [arena?_runTurns_eq_none turns absent] at found
      cases found
  | attached reference =>
    obtain ⟨layout, id, held⟩ :=
      reachable.exists_layout (node?_of_unread unread rfl) (room reference rfl)
    have shows : Shows reference.arena (.stored layout)
        ⟨(Origin.stored layout).storage reference.arena, table.clear⟩ (Origin.stored layout).tree :=
      Shows.of_clear _ table
    rw [← cleared, Origin.storage, id] at shows
    refine ⟨reference.arena, .stored layout, table, ?_, nothing, held, shows, fun turns room =>
      room reference rfl⟩
    rw [Origin.storage, id]

/-- Careful looks through a value that was not looked through before go unnoticed: a program
reports the same without them, and its value shows the same in the end. Any other look
through such a value, if the value is attached or a copy of a tree, is noticed by a program
that fills a gap and looks there. -/
theorem Reachable.careful_looks_unnoticed (reachable : workspace.Reachable)
    (unread : (workspace.root name).Unread workspace.heap)
    (room : (workspace.root name).HasRoom workspace.heap) :
    (∀ turns : List Turn, (∀ turn ∈ turns, turn.HasLooseOperand) →
      (workspace.root name).HasRoom (workspace.runTurns name (turns.filter Turn.isAct)).heap →
      workspace.Careful name turns →
        workspace.reports name turns = workspace.reports name (turns.filter Turn.isAct) ∧
        ((workspace.runTurns name turns).root name).visible (workspace.runTurns name turns).heap =
          ((workspace.runTurns name (turns.filter Turn.isAct)).root name).visible
            (workspace.runTurns name (turns.filter Turn.isAct)).heap) ∧
    ∀ look : Look,
      (∀ content, (workspace.root name).storage = .detached content →
        ∀ child ∈ content.children, ∃ tree, child = Value.ofTree tree) →
      ¬ (workspace.root name).Careful workspace.heap look.path →
        ∃ (above : List Selector) (selector : Selector) (allocator : Allocator) (count : Nat),
          above ++ [selector] <+: look.path ∧ count ≤ selector.places ∧
          ((workspace.root name).HasRoom
              (workspace.runTurns name (fillings above selector allocator count)).heap →
            workspace.reports name (fillings above selector allocator count ++
                [.act (.look ⟨above ++ [selector], .glance⟩)]) ≠
              workspace.reports name (.extra look :: (fillings above selector allocator count ++
                [.act (.look ⟨above ++ [selector], .glance⟩)]))) := by
  have holds := holdsRoot_of_unread unread
  refine ⟨fun turns loose roomAfter careful => ?_, fun look copied careless => ?_⟩
  · obtain ⟨place, ground, held, twins, roomy⟩ := reachable.exists_twins unread room
    obtain ⟨reports, ground', after⟩ :=
      Paired.run ⟨rfl, holds, holds, held, twins⟩ loose careful (roomy _ roomAfter)
    exact ⟨reports.symm, after.visible_eq.symm⟩
  · obtain ⟨place, origin, table, same, nothing, held, shows, roomy⟩ :=
      reachable.exists_shows name unread room copied
    rw [same] at careless
    obtain ⟨above, selector, container, start, leads, admits, missing, reference, target, answer,
      found, stuck⟩ := Value.exists_stuck held nothing careless
    rw [← same] at answer found stuck
    obtain ⟨count, few, filled⟩ := Tree.exists_filled admits missing
    obtain ⟨-, -, stillHolds, root⟩ := holds.look_eq look answer found
    refine ⟨above, selector, ⟨some place⟩, count, start, few, fun roomAfter => ?_⟩
    have displays : workspace.Displays name place origin.tree := ⟨holds, origin, held, shows⟩
    refine displays.reports_ne leads filled stillHolds ?_ (roomy _ roomAfter)
    rw [root]
    exact stuck _

/-- A program looks for a member that is missing, adds it and looks again. -/
def missingThenAdded : List Turn :=
  [.extra ⟨[.member "x"], .glance⟩,
    .act (.change [] (.addMember "x" (Value.ofTree (.bool true)) {})),
    .act (.look ⟨[.member "x"], .glance⟩)]

/-- In a new object a look for a missing member goes unnoticed, and a look below it does not. -/
theorem looks_through_new_object :
    (empty.run [.keep "v" (.object [])]).reports "v" missingThenAdded =
        (empty.run [.keep "v" (.object [])]).reports "v" (missingThenAdded.filter Turn.isAct) ∧
      ∃ (above : List Selector) (selector : Selector) (allocator : Allocator) (count : Nat),
        (empty.run [.keep "v" (.object [])]).reports "v" (fillings above selector allocator count ++
            [.act (.look ⟨above ++ [selector], .glance⟩)]) ≠
          (empty.run [.keep "v" (.object [])]).reports "v"
            (.extra ⟨[.member "x", .member "y"], .glance⟩ ::
              (fillings above selector allocator count ++
                [.act (.look ⟨above ++ [selector], .glance⟩)])) := by
  have unread : ((empty.run [.keep "v" (.object [])]).root "v").Unread
      (empty.run [.keep "v" (.object [])]).heap :=
    ⟨.inl rfl, rfl, fun content same => by cases same; exact fun _ absurd => by cases absurd⟩
  have loose : ∀ turn ∈ missingThenAdded, turn.HasLooseOperand := by
    simp only [missingThenAdded, List.forall_mem_cons]
    exact ⟨trivial, loose_ofTree _, trivial, fun _ absurd => by cases absurd⟩
  have careless : ¬ ((empty.run [.keep "v" (.object [])]).root "v").Careful
      (empty.run [.keep "v" (.object [])]).heap [.member "x", .member "y"] := by
    rintro ⟨ends | solid, -⟩
    · cases ends
    · exact solid ⟨trivial, Value.null, rfl, rfl⟩
  obtain ⟨unnoticed, noticed⟩ := Reachable.careful_looks_unnoticed ⟨_, rfl⟩ unread nofun
  obtain ⟨above, selector, allocator, count, -, -, differ⟩ :=
    noticed ⟨[.member "x", .member "y"], .glance⟩
      (fun content same => by cases same; exact fun _ absurd => by cases absurd) careless
  exact ⟨(unnoticed missingThenAdded loose nofun ⟨⟨.inl rfl, trivial⟩, trivial⟩).1,
    above, selector, allocator, count, differ nofun⟩

end Workspace

end JsonOverlay
