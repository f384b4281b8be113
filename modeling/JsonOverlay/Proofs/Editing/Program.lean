/-
This file shows that a document behaves like the plain tree that it shows. One request to a
document in a workspace gets the answer that the tree gives, and leaves a document that
shows the tree as the request leaves it. By induction the answers to any requests agree, and
so do all trees in between, from the moment that a document is made or parsed.
-/

import JsonOverlay.Proofs.Editing.Change
import JsonOverlay.Proofs.Workspace.Holdings

namespace JsonOverlay

namespace Workspace

variable {workspace : Workspace} {name : String} {place : ArenaId} {tree changed : Tree}
  {request : Request} {answer : Answer}

theorem touched_respond (workspace : Workspace) (name : String) (request : Request) :
    workspace.heap.Touched (workspace.respond name request).1.heap := by
  cases request with
  | read path => exact Heap.Touched.nothing
  | reach path =>
    rw [respond, heap_edit]
    exact Heap.Touched.nothing
  | members path count =>
    rw [respond, heap_visit]
    exact Heap.Touched.nothing
  | elements path indices =>
    rw [respond, heap_visit]
    exact Heap.Touched.nothing
  | change path change => exact workspace.touched_perform name path _

theorem hasRoom_of_respondAll (workspace : Workspace) (name : String) (requests : List Request)
    (room : (workspace.respondAll name requests).heap.HasRoom place) :
    workspace.heap.HasRoom place := by
  induction requests generalizing workspace with
  | nil => exact room
  | cons request rest inductionHypothesis =>
    exact (workspace.touched_respond name request).hasRoom (inductionHypothesis _ room)

/-! ### One request -/

/-- What a name holds is a document at a place, and it shows a tree. -/
def Presents (workspace : Workspace) (name : String) (place : ArenaId) (tree : Tree) : Prop :=
  ∃ document origin, workspace.document? name = some document ∧ document.arena = place ∧
    origin.Held workspace.heap place ∧ Shows place origin document.root tree

theorem Presents.visible_eq (presents : workspace.Presents name place tree) :
    (workspace.root name).visible workspace.heap = tree := by
  obtain ⟨document, origin, named, rfl, held, shows⟩ := presents
  rw [root_of_document? named]
  exact shows.visible_eq held

/-- A new root that shows a tree. -/
theorem presents_setRoot {document : Document} {origin : Origin} {root : Value}
    (named : workspace.document? name = some document) (held : origin.Held workspace.heap place)
    (same : document.arena = place) (shows : Shows place origin root tree) :
    (workspace.setRoot name root).Presents name place tree :=
  ⟨_, origin, document?_setRoot named root, same, held, shows⟩

/-- Following a path of the tree leaves a document that shows the same, and a reference into
its root. -/
theorem Presents.refer {path : List Step} {found : Tree}
    (presents : workspace.Presents name place tree) (follow : tree.follow? path = some found) :
    ∃ document origin reference, (workspace.refer ⟨name, path⟩).2 = some reference ∧
      (workspace.refer ⟨name, path⟩).1.document? name = some document ∧ document.arena = place ∧
        origin.Held workspace.heap place ∧
          Refers workspace.heap place origin tree document.root reference found := by
  obtain ⟨document, origin, named, same, held, shows⟩ := presents
  obtain ⟨reference, answer, refers⟩ := shows.read path held follow
  rw [← root_of_document? named] at answer refers
  exact ⟨_, origin, reference, answer, document?_setRoot named _, same, held, refers⟩

theorem Presents.read {path : List Step} {found : Tree}
    (presents : workspace.Presents name place tree) (follow : tree.follow? path = some found) :
    (workspace.read ⟨name, path⟩).1.Presents name place tree ∧
      (workspace.read ⟨name, path⟩).2.visible workspace.heap = found := by
  obtain ⟨document, origin, reference, answer, named, same, held, refers⟩ := presents.refer follow
  obtain ⟨child, source, means, heldBelow, below, -⟩ := refers.target
  refine ⟨⟨document, origin, named, same, held, refers.shows⟩, ?_⟩
  simp only [Workspace.read, answer, Option.bind_some, at?]
  rw [root_of_document? named, means]
  exact below.visible_eq heldBelow

/-- Looking further from the end of a path leaves a document that shows the same if what is
at the end then shows the same. -/
theorem Presents.visit {β : Type} {path : List Step} {found : Tree}
    (presents : workspace.Presents name place tree) (follow : tree.follow? path = some found)
    (use : Value → Value × β) :
    ∃ source child, source.Held workspace.heap place ∧ Shows place source child found ∧
      (workspace.visit ⟨name, path⟩ use).2 = some (use child).2 ∧
        (Shows place source (use child).1 found →
          (workspace.visit ⟨name, path⟩ use).1.Presents name place tree) := by
  obtain ⟨document, origin, reference, answer, named, same, held, refers⟩ := presents.refer follow
  obtain ⟨child, source, means, heldBelow, below, exchange⟩ := refers.target
  refine ⟨source, child, heldBelow, below, ?_⟩
  simp only [Workspace.visit, answer, root_of_document? named, means, true_and]
  exact fun shows => presents_setRoot named held same (exchange _ shows)

theorem Presents.edit {β : Type} {path : List ChildKey} {result : β}
    {change : Heap → Value → Value.Edited β} {plain : Tree → Tree × β}
    (simulates : Simulates workspace.heap place change plain)
    (presents : workspace.Presents name place tree)
    (edited : tree.editAt plain path = some (changed, result))
    (room : (workspace.edit name path change).1.heap.HasRoom place) :
    (workspace.edit name path change).1.Presents name place changed ∧
      (workspace.edit name path change).2 = result := by
  obtain ⟨document, origin, named, same, held, shows⟩ := presents
  rw [← root_of_document? named] at shows
  obtain ⟨done, origin', moves, after⟩ := shows.edit simulates path held edited room
  exact ⟨⟨_, origin', document?_setRoot named _, same, moves.held, after⟩, done⟩

/-- A request to a document that shows a tree is answered as the tree answers it. -/
theorem Presents.respond (presents : workspace.Presents name place tree)
    (answered : tree.respond request = some (changed, answer))
    (room : (workspace.respond name request).1.heap.HasRoom place) :
    (workspace.respond name request).1.Presents name place changed ∧
      (workspace.respond name request).2 = answer := by
  cases request with
  | read path =>
    obtain ⟨found, follow, equal⟩ := Option.map_eq_some_iff.mp answered
    cases equal
    obtain ⟨after, shown⟩ := presents.read follow
    exact ⟨after, congrArg Answer.shown shown⟩
  | reach path =>
    obtain ⟨found, reached, equal⟩ := Option.map_eq_some_iff.mp answered
    cases equal
    obtain ⟨after, shown⟩ := presents.edit (simulates_visible workspace.heap place)
      (Tree.editAt_of_at? reached) room
    exact ⟨after, congrArg Answer.shown shown⟩
  | members path count =>
    obtain ⟨found, follow, equal⟩ := Option.map_eq_some_iff.mp answered
    cases equal
    obtain ⟨source, child, held, shows, visits, after⟩ := presents.visit follow fun value =>
      ((MemberCursor.walk workspace.heap count (MemberCursor.start value workspace.heap) value).2.2,
        (MemberCursor.walk workspace.heap count (MemberCursor.start value workspace.heap) value).1)
    obtain ⟨same, shown⟩ := shows.walk_start count held
    refine ⟨after same, ?_⟩
    simp only [Workspace.respond, visits, Option.getD_some, shown]
  | elements path indices =>
    obtain ⟨found, follow, later⟩ := Option.bind_eq_some_iff.mp answered
    obtain ⟨items, present, equal⟩ := Option.map_eq_some_iff.mp later
    cases equal
    obtain ⟨source, child, held, shows, values, after⟩ := presents.visit follow fun value =>
      ((ArrayCursor.lookAll workspace.heap value indices).2,
        (ArrayCursor.lookAll workspace.heap value indices).1)
    obtain ⟨same, shown⟩ := shows.lookAll indices held present
    refine ⟨after same, ?_⟩
    simp only [Workspace.respond, values, Option.getD_some, shown]
  | change path change =>
    obtain ⟨⟨other, outcome⟩, edited, equal⟩ := Option.map_eq_some_iff.mp answered
    cases equal
    have allocator : workspace.allocator name = ⟨some place⟩ := by
      obtain ⟨document, origin, named, same, -⟩ := presents
      rw [allocator_of_document? named, same]
    simp only [Workspace.respond, allocator] at room ⊢
    obtain ⟨after, done⟩ := presents.edit change.simulates edited room
    exact ⟨after, congrArg Answer.outcome done⟩

/-- So are all requests that follow. -/
theorem Presents.history {requests : List Request} {expected : List (Answer × Tree)}
    (presents : workspace.Presents name place tree)
    (answered : tree.history requests = some expected)
    (room : (workspace.respondAll name requests).heap.HasRoom place) :
    workspace.history name requests = expected := by
  induction requests generalizing workspace tree expected with
  | nil => exact Option.some.inj answered
  | cons request rest inductionHypothesis =>
    obtain ⟨⟨changed, answer⟩, first, later⟩ := Option.bind_eq_some_iff.mp answered
    obtain ⟨others, following, equal⟩ := Option.map_eq_some_iff.mp later
    cases equal
    obtain ⟨after, right⟩ := presents.respond first (hasRoom_of_respondAll _ name rest room)
    have unrolled : workspace.history name (request :: rest) =
        ((workspace.respond name request).2,
          ((workspace.respond name request).1.root name).visible
            (workspace.respond name request).1.heap) ::
          (workspace.respond name request).1.history name rest := rfl
    rw [unrolled, right, after.visible_eq, inductionHypothesis after following room]

/-! ### New and parsed documents -/

/-- A program makes a document under a name, or parses one successfully, and the document
shows a tree. -/
inductive Starts (name : String) : Workspace → Tree → Prop where
  | new {before : Workspace} (reachable : before.Reachable) :
      Starts name (before.step (.newDocument name)) .null
  | parse {before : Workspace} (reachable : before.Reachable) {options : ParseOptions}
      {text : String} {tree : Tree} (parsed : Tree.parse options text = .ok tree) :
      Starts name (before.step (.parse name options text)) tree
  | parseStream {before : Workspace} (reachable : before.Reachable) {options : ParseOptions}
      {stream : Stream} {tree : Tree} (parsed : Tree.parseStream options stream = .ok tree) :
      Starts name (before.step (.parseStream name options stream)) tree

/-- A new arena survives the release of what a name held before. -/
theorem Placed.arena?_hold (placed : workspace.Placed) (name : String) (holding : Holding)
    {heap : Heap} (beyond : workspace.heap.arenas.size ≤ place.index) :
    (({ workspace with heap } : Workspace).hold name holding).heap.arena? place =
      heap.arena? place := by
  rw [Workspace.hold, heap_drop]
  cases held : ({ workspace with heap } : Workspace).document? name with
  | none => rfl
  | some document =>
    have bound := placed.of_document? held
    have apart : place ≠ document.arena := by
      rintro rfl
      omega
    exact (Heap.arena?_drop heap document.arena place).trans (if_neg apart)

/-- A document that was just made from a tree presents it. -/
theorem Placed.presents_hold (placed : workspace.Placed) (name : String) {heap : Heap}
    {document : Document} (arena : document.arena = ⟨workspace.heap.arenas.size⟩)
    (root : document.root = Value.attached ⟨document.arena, (Arena.empty.store tree).1⟩)
    (found : heap.arena? document.arena =
      some ((Arena.empty.store tree).2.setRoot (Arena.empty.store tree).1))
    (room : (({ workspace with heap } : Workspace).hold name (.document document)).heap.HasRoom
      document.arena) :
    (({ workspace with heap } : Workspace).hold name (.document document)).Presents name
      document.arena tree := by
  have kept := placed.arena?_hold name (.document document) (by rw [arena]) |>.trans found
  have small : ((Arena.empty.store tree).2.setRoot (Arena.empty.store tree).1).slots.size ≤
      Arena.slotLimit := room _ kept
  obtain ⟨layout, id, rfl, rooted⟩ := Arena.rooted_store_empty tree small
  refine ⟨document, .stored layout, document?_hold _ name document, rfl,
    ⟨_, kept, rooted.sound, rooted.holds, rooted.distinct⟩, ?_⟩
  rw [root, ← id]
  exact Shows.fresh document.arena (.stored layout)

theorem Placed.presents_newDocument (placed : workspace.Placed) (name : String) :
    ∃ document, (workspace.newDocument name).document? name = some document ∧
      ((workspace.newDocument name).heap.HasRoom document.arena →
        (workspace.newDocument name).Presents name document.arena .null) := by
  refine ⟨_, document?_hold _ name _, fun room => ?_⟩
  refine placed.presents_hold name rfl rfl ?_ room
  exact (Heap.arena?_add _ _ _).trans (if_pos rfl)

theorem Placed.presents_install (placed : workspace.Placed) (name : String) (tree : Tree) :
    ∃ document, (workspace.install name (.ok tree)).document? name = some document ∧
      ((workspace.install name (.ok tree)).heap.HasRoom document.arena →
        (workspace.install name (.ok tree)).Presents name document.arena tree) := by
  unfold Workspace.install
  generalize made : (if (workspace.document? name).isSome then workspace
    else workspace.newDocument name) = ready
  have early : ready.Placed := by
    rw [← made]
    split
    · exact placed
    · exact placed.newDocument name
  have there : (ready.document? name).isSome := by
    rw [← made]
    split
    · assumption
    · rw [Workspace.newDocument, document?_hold]
      rfl
  obtain ⟨old, held⟩ := Option.isSome_iff_exists.mp there
  simp only [held]
  refine ⟨_, document?_hold _ name _, fun room => ?_⟩
  refine (early.withdraw name).presents_hold name rfl rfl ?_ room
  have apart : (⟨ready.heap.arenas.size⟩ : ArenaId) ≠ old.arena := by
    rintro equal
    have bound := early.of_document? held
    rw [← equal] at bound
    exact Nat.lt_irrefl _ bound
  refine (Heap.arena?_drop _ _ _).trans ((if_neg apart).trans ?_)
  exact (Heap.arena?_add _ _ _).trans (if_pos rfl)

theorem Starts.exists_presents (starts : Starts name workspace tree) :
    ∃ document, workspace.document? name = some document ∧
      (workspace.heap.HasRoom document.arena → workspace.Presents name document.arena tree) := by
  cases starts with
  | new reachable => exact reachable.placed.presents_newDocument name
  | parse reachable parsed =>
    rw [step, parsed]
    exact reachable.placed.presents_install name tree
  | parseStream reachable parsed =>
    rw [step, parsed]
    exact reachable.placed.presents_install name tree

/-- Editing a new or parsed document by paths is editing the plain tree: requests with an
answer from the tree get that answer from the document, and after every one of them the
document shows the tree. Room is what the identifiers of nodes can tell apart. -/
theorem Starts.history_eq {document : Document} {requests : List Request}
    {expected : List (Answer × Tree)} (starts : Starts name workspace tree)
    (named : workspace.document? name = some document)
    (answered : tree.history requests = some expected)
    (room : (workspace.respondAll name requests).heap.HasRoom document.arena) :
    workspace.history name requests = expected := by
  obtain ⟨other, same, presents⟩ := starts.exists_presents
  rw [named, Option.some.injEq] at same
  subst same
  exact (presents (hasRoom_of_respondAll workspace name requests room)).history answered room

/-- An element is assigned in an array that was looked up before, and the array is then
appended to. -/
def requestsToArray : List Request :=
  [.change [] (.set (.object [])), .change [] (.addMember "a" (.array [.null])),
    .read [.member "a", .element 0], .change [.member "a", .element 0] (.assign (.bool true)),
    .change [.member "a"] (.pushBack .null), .change [] (.pushBack .null),
    .change [] (.removeMember "b")]

theorem history_requestsToArray :
    (empty.step (.newDocument "d")).history "d" requestsToArray =
      [(.outcome .done, .object []), (.outcome .done, .object [("a", .array [.null])]),
        (.shown .null, .object [("a", .array [.null])]),
        (.outcome .done, .object [("a", .array [.bool true])]),
        (.outcome .done, .object [("a", .array [.bool true, .null])]),
        (.outcome (.refused (.notAnArray .object)), .object [("a", .array [.bool true, .null])]),
        (.outcome (.removed 0), .object [("a", .array [.bool true, .null])])] := by
  refine Starts.history_eq (.new ⟨[], rfl⟩) rfl rfl fun arena found => ?_
  have size : (((empty.step (.newDocument "d")).respondAll "d" requestsToArray).heap.arena? ⟨0⟩).map
      (fun arena => arena.slots.size) = some 4 := by decide
  rw [show ((empty.step (.newDocument "d")).respondAll "d" requestsToArray).heap.arena? ⟨0⟩ =
    some arena from found, Option.map_some, Option.some.injEq] at size
  rw [size]
  decide

end Workspace

end JsonOverlay
