/-
This file follows nodes that are gone through the rest of a program. Their slots may hold new nodes,
but these are of later generations, as long as no slot is freed so often that its generations come
around. So whatever was attached to a node that was released, or to a document that was dropped or
parsed anew, is inert from then on.
-/

import JsonOverlay.Proofs.Arena.Generations
import JsonOverlay.Proofs.Value.Inert
import JsonOverlay.Proofs.Workspace.Traced

namespace JsonOverlay

namespace Heap

variable {before after heap : Heap} {place : ArenaId} {times : ArenaId → UInt32 → Nat}
  {node : NodeRef} {moved : NodeRef → ChildKey → Prop}

/-! ### Slots that are freed -/

/-- Whether the node that a slot of a document has is gone later, though the document is not. -/
def frees (before after : Heap) (place : ArenaId) (index : UInt32) : Bool :=
  match before.arena? place, after.arena? place with
  | some old, some arena => old.frees arena index
  | _, _ => false

/-- The slots of a document go on to the next generation when they are freed, and only then. Those
of a new document are in the first one. -/
structure Turns (before after : Heap) : Prop where
  size_le : before.arenas.size ≤ after.arenas.size
  origin : ∀ place arena, after.arena? place = some arena →
    (∃ old, before.arena? place = some old ∧ old.Turns arena) ∨
      before.arenas.size ≤ place.index ∧ ∀ index, arena.generationAt index = 0

theorem Turns.refl (heap : Heap) : heap.Turns heap :=
  ⟨Nat.le_refl _, fun _ arena found => .inl ⟨arena, found, .refl arena⟩⟩

theorem turns_put {old arena : Arena} (found : heap.arena? place = some old)
    (turns : old.Turns arena) : heap.Turns (heap.put place arena) := by
  refine ⟨by simp [put], fun other result present => .inl ?_⟩
  rw [arena?_put found] at present
  split at present
  · rename_i same
    subst same
    cases present
    exact ⟨old, found, turns⟩
  · exact ⟨result, present, .refl result⟩

theorem Renews.turns {lost : Option ArenaId} (renews : before.Renews lost after) :
    before.Turns after := by
  refine ⟨renews.size_le, fun place arena found => ?_⟩
  rcases renews.origin place arena found with old | ⟨new, tree, rfl⟩
  · exact .inl ⟨arena, old, .refl arena⟩
  · exact .inr ⟨new, Arena.generationAt_ofTree tree⟩

/-- Each slot is in the generation that some number of releases has brought it to. -/
structure Counted (times : ArenaId → UInt32 → Nat) (heap : Heap) : Prop where
  generations : ∀ place arena index, heap.arena? place = some arena →
    arena.generationAt index = times place index
  new : ∀ place index, heap.arenas.size ≤ place.index → times place index = 0

/-- While the count is below the number of generations, they do not come around. -/
theorem Counted.turns (counted : before.Counted times) (turns : before.Turns after)
    (few : ∀ place index, times place index + (before.frees after place index).toNat < 2 ^ 32) :
    before.Rises after ∧
      after.Counted fun place index => times place index + (before.frees after place index).toNat := by
  have next {place : ArenaId} {old arena : Arena} (found : before.arena? place = some old)
      (present : after.arena? place = some arena) (turned : old.Turns arena) (index : UInt32) :
      arena.generationAt index =
        times place index + (before.frees after place index).toNat := by
    have freed : before.frees after place index = old.frees arena index := by
      rw [frees, found, present]
    rw [turned, counted.generations place old index found, ← freed]
    exact Nat.mod_eq_of_lt (few place index)
  have outside {place : ArenaId} (new : before.arenas.size ≤ place.index) :
      before.arena? place = none := by
    by_contra found
    obtain ⟨old, found⟩ := Option.ne_none_iff_exists'.mp found
    exact absurd (index_lt_of_arena? found) (Nat.not_lt_of_le new)
  have none {place : ArenaId} (new : before.arenas.size ≤ place.index) (index : UInt32) :
      times place index + (before.frees after place index).toNat = 0 := by
    rw [counted.new place index new, frees, outside new]
    rfl
  refine ⟨fun place old arena found present index => ?_, fun place arena index present => ?_,
    fun place index new => none (turns.size_le.trans new) index⟩
  · rcases turns.origin place arena present with ⟨old', found', turned⟩ | ⟨new, -⟩
    · rw [found', Option.some.injEq] at found
      subst found
      rw [next found' present turned, counted.generations place old' index found']
      exact Nat.le_add_right _ _
    · rw [outside new] at found
      cases found
  · rcases turns.origin place arena present with ⟨old, found, turned⟩ | ⟨new, first⟩
    · exact next found present turned index
    · rw [first, none new]

/-! ### Nodes that are gone -/

/-- A node was issued, and is gone, or its document is. -/
def Gone (heap : Heap) (node : NodeRef) : Prop := heap.Known node ∧ heap.node? node = none

theorem Ages.gone (ages : before.Ages moved after) (gone : before.Gone node) : after.Gone node := by
  refine ⟨ages.known gone.1, ?_⟩
  by_contra live
  exact ages.node?_ne_none gone.1 live gone.2

end Heap

/-- An operation frees a slot at most once, and then the slot goes on to the next generation. -/
theorem Operation.Effect.turns {heap after : Heap} {value changed : Value} {operation : Operation}
    (effect : operation.Effect heap value after changed) (tended : heap.Tended) :
    heap.Turns after := by
  cases effect with
  | setAttached _ found => exact Heap.turns_put found (Arena.turns_replace _ _ _)
  | memberAttached _ found level | elementAttached _ found level =>
    exact Heap.turns_put found ((tended _ _ found).turns_extend level _ _)
  | removedAttached _ found level =>
    refine Heap.turns_put found ?_
    rw [Value.withoutMember, Arena.foldl_free]
    exact Arena.turns_reassign level _ _
  | _ => exact .refl heap

/-- A command releases a node, or drops its document or parses into it. -/
inductive Command.Releases (workspace : Workspace) (command : Command) (node : NodeRef) : Prop where
  | node {content : Content NodeId} (found : workspace.heap.node? node = some content)
      (gone : (workspace.step command).heap.node? node = none)
  | document {arena : Arena} (found : workspace.heap.arena? node.arena = some arena)
      (gone : (workspace.step command).heap.arena? node.arena = none)

namespace Workspace

variable {workspace : Workspace} {command : Command} {program later : List Command}
  {node : NodeRef} {value : Value} {name : String} {document : Document} {arena : Arena}
  {times : ArenaId → UInt32 → Nat}

/-! ### What is released -/

theorem releases_drop (held : workspace.document? name = some document)
    (found : workspace.heap.arena? document.arena = some arena)
    (inside : node.arena = document.arena) : (Command.drop name).Releases workspace node := by
  refine .document (by rw [inside]; exact found) ?_
  rw [step, heap_drop, held, inside]
  exact (Heap.arena?_drop _ _ _).trans (if_pos rfl)

/-- Whether or not it succeeds, a parse releases what the document held. -/
theorem arena?_install (held : workspace.document? name = some document)
    (parsed : Except Error Tree) :
    (workspace.install name parsed).heap.arena? document.arena = none := by
  -- The document is taken out before its successor is held, so nothing else is released.
  have taken (heap : Heap) :
      ({ workspace.withdraw name with heap } : Workspace).document? name = none :=
    workspace.document?_withdraw name
  have installed : (workspace.install name parsed).heap =
      (document.install workspace.heap parsed).1 := by
    simp only [install, held, Option.isSome_some, if_true]
    rw [hold, heap_drop, taken]
  rw [installed]
  exact (Heap.arena?_drop _ _ _).trans (if_pos rfl)

theorem releases_parse (held : workspace.document? name = some document)
    (found : workspace.heap.arena? document.arena = some arena)
    (inside : node.arena = document.arena) (options : ParseOptions) :
    (∀ text, (Command.parse name options text).Releases workspace node) ∧
      ∀ stream, (Command.parseStream name options stream).Releases workspace node := by
  rw [← inside] at found
  exact ⟨fun text => .document found (inside ▸ arena?_install held _),
    fun stream => .document found (inside ▸ arena?_install held _)⟩

section Writing

variable {keys : List ChildKey} {parent : NodeRef} {id : NodeId} {ids : List NodeId}
  {old : Content NodeId} {members : List (String × NodeId)}

/-- Giving a node a new level and freeing some identifiers releases what is reached from them. -/
theorem releases_reached {new : Content NodeId}
    (found : workspace.heap.arena? parent.arena = some arena)
    (level : arena.get? parent.node = some old)
    (work : (workspace.step command).heap =
      workspace.heap.put parent.arena ((arena.assign parent.node new).freeAll ids))
    (reached : (arena.assign parent.node new).Reached ids id) :
    command.Releases workspace ⟨parent.arena, id⟩ := by
  have live := reached.1
  rw [Arena.contains_assign level] at live
  obtain ⟨content, there⟩ := Arena.contains_iff.mp live
  have emptied := Arena.slots_freeAll_of_mem ((Arena.mem_freed_iff _ _ _).mpr reached)
  refine .node (Heap.node?_eq_some.mpr ⟨arena, found, there⟩) ?_
  rw [work, Heap.node?, Heap.arena?_put found, if_pos rfl]
  exact Arena.get?_of_emptySlot emptied rfl

theorem releases_set (content : Content Empty)
    (endpoint : ((workspace.root name).endpoint workspace.heap keys).storage = .attached parent)
    (found : workspace.heap.arena? parent.arena = some arena)
    (level : arena.get? parent.node = some old)
    (reached : (arena.assign parent.node content.ofLeaf).Reached old.children id) :
    (Command.write name keys (.set content)).Releases workspace ⟨parent.arena, id⟩ := by
  refine releases_reached found level ?_ reached
  rw [step, Action.heap_run_of_some rfl]
  have replaced := Value.heap_set_attached endpoint found content
  rw [Arena.replace_of_found level] at replaced
  exact replaced

theorem releases_removeMember (member : String)
    (endpoint : ((workspace.root name).endpoint workspace.heap keys).storage = .attached parent)
    (found : workspace.heap.arena? parent.arena = some arena)
    (level : arena.get? parent.node = some (.object members))
    (reached : (arena.assign parent.node
      (.object (members.filter fun (other, _) => other != member))).Reached
        ((members.filter fun (other, _) => other == member).map Prod.snd) id) :
    (Command.write name keys (.removeMember member)).Releases workspace ⟨parent.arena, id⟩ := by
  refine releases_reached found level ?_ reached
  rw [step, Action.heap_run_of_some rfl, ← Arena.foldl_free]
  exact Value.heap_removeMember_attached endpoint found level member

end Writing

/-! ### Counting -/

/-- How often a program frees a slot of a document. A command does so at most once. -/
def timesFreed (place : ArenaId) (index : UInt32) (workspace : Workspace) : List Command → Nat
  | [] => 0
  | command :: rest =>
    (workspace.heap.frees (workspace.step command).heap place index).toNat +
      (workspace.step command).timesFreed place index rest

/-- No slot is freed so often that its generations come around. -/
def FreesRarely (workspace : Workspace) (program : List Command) : Prop :=
  ∀ place index, workspace.timesFreed place index program < 2 ^ 32

theorem timesFreed_le_length (place : ArenaId) (index : UInt32) (workspace : Workspace)
    (program : List Command) : workspace.timesFreed place index program ≤ program.length := by
  induction program generalizing workspace with
  | nil => exact Nat.le_refl 0
  | cons command rest inductionHypothesis =>
    rw [timesFreed, List.length_cons, Nat.add_comm]
    exact Nat.add_le_add (inductionHypothesis _) (Bool.toNat_le _)

theorem freesRarely_of_length_lt (few : program.length < 2 ^ 32) : workspace.FreesRarely program :=
  fun place index => (workspace.timesFreed_le_length place index program).trans_lt few

theorem turns_step (tended : workspace.heap.Tended) (command : Command) :
    workspace.heap.Turns (workspace.step command).heap := by
  rcases workspace.step_cases command with ⟨_, _, _, _, _, -, -, effect⟩ | renews
  · exact effect.turns tended
  · exact renews.turns

theorem rising_of_counted (tended : workspace.heap.Tended) (counted : workspace.heap.Counted times)
    (few : ∀ place index, times place index + workspace.timesFreed place index program < 2 ^ 32) :
    workspace.Throughout Command.Rising program := by
  induction program generalizing workspace times with
  | nil => trivial
  | cons command rest inductionHypothesis =>
    -- What the command adds to the count of a slot is part of what the program adds.
    have total (place : ArenaId) (index : UInt32) : times place index +
        (workspace.heap.frees (workspace.step command).heap place index).toNat +
          (workspace.step command).timesFreed place index rest < 2 ^ 32 := by
      rw [Nat.add_assoc]
      exact few place index
    obtain ⟨rising, next⟩ := counted.turns (workspace.turns_step tended command)
      fun place index => (Nat.le_add_right _ _).trans_lt (total place index)
    exact ⟨rising, inductionHypothesis (worked_step tended rising).tended next total⟩

theorem rising_of_freesRarely (rare : empty.FreesRarely program) :
    empty.Throughout Command.Rising program := by
  have counted : empty.heap.Counted fun _ _ => 0 := by
    refine ⟨fun _ _ _ found => ?_, fun _ _ _ => rfl⟩
    cases found
  refine rising_of_counted tended_empty counted fun place index => ?_
  rw [Nat.zero_add]
  exact rare place index

/-! ### Programs -/

theorem tended_run (tended : workspace.heap.Tended)
    (rising : workspace.Throughout Command.Rising program) :
    (workspace.run program).heap.Tended := by
  induction program generalizing workspace with
  | nil => exact tended
  | cons command rest inductionHypothesis =>
    exact inductionHypothesis (worked_step tended rising.1).tended rising.2

/-- What is gone stays so, whatever comes to be in its slot. -/
theorem gone_run (tended : workspace.heap.Tended) (gone : workspace.heap.Gone node)
    (rising : workspace.Throughout Command.Rising program) :
    (workspace.run program).heap.Gone node := by
  induction program generalizing workspace with
  | nil => exact gone
  | cons command rest inductionHypothesis =>
    have worked := worked_step tended rising.1
    exact inductionHypothesis worked.tended (worked.ages.gone gone) rising.2

theorem gone_of_releases (releases : command.Releases workspace node)
    (tended : workspace.heap.Tended) (rising : command.Rising workspace) :
    (workspace.step command).heap.Gone node := by
  have worked := worked_step tended rising
  cases releases with
  | node found gone => exact ⟨worked.ages.known (Heap.known_of_node? found), gone⟩
  | document found gone =>
    refine ⟨⟨(Heap.index_lt_of_arena? found).trans_le worked.ages.size_le, fun arena there => ?_⟩, ?_⟩
    · rw [gone] at there
      cases there
    · rw [Heap.node?, gone]
      rfl

/-- A command of a program releases a node, or drops its document or parses into it, and no slot is
freed so often that its generations come around. However the program goes on, every value attached
to the node is inert: it reads as null, and through it nothing is changed, whatever is in the slot
of the node by then. -/
theorem released_inert (rare : empty.FreesRarely (program ++ command :: later))
    (releases : command.Releases (empty.run program) node)
    (attached : value.storage = .attached node) :
    value.Inert (empty.run (program ++ command :: later)).heap node := by
  obtain ⟨before, now, after⟩ := throughout_append.mp (rising_of_freesRarely rare)
  have tended := tended_run tended_empty before
  have gone := gone_run (worked_step tended now).tended (gone_of_releases releases tended now) after
  rw [run, List.foldl_append, List.foldl_cons]
  exact Value.inert_of_dead attached gone.2

/-- A handle for a member of a document knows an element of it. -/
def memberHandle : List Command :=
  [.newDocument "d", .write "d" [] (.set (.object [])),
    .write "d" [] (.addMember "a" (.tree (.array [.null])) "d"),
    .keep "h" (.duplicate ⟨"d", [.member "a"]⟩), .look "h" [] [.element 0]]

/-- The member is removed, and another one takes its slots. -/
def memberReplaced : List Command :=
  [.write "d" [] (.removeMember "a"),
    .write "d" [] (.addMember "b" (.tree (.array [.bool true])) "d")]

/-- The arena of the document before. -/
def memberArena : Arena :=
  ⟨#[⟨0, some (.object [("a", ⟨2, 0⟩)])⟩, ⟨0, some .null⟩, ⟨0, some (.array [⟨1, 0⟩])⟩], [],
    some ⟨0, 0⟩, 3⟩

/-- What the handle holds before and after. -/
def knowingHandle : Value :=
  ⟨.attached ⟨⟨0⟩, ⟨2, 0⟩⟩, ⟨[(.element 0, ⟨false, ⟨0, .attached ⟨⟨0⟩, ⟨1, 0⟩⟩⟩, []⟩)], 1⟩⟩

/-- Both nodes of the member go, and nothing else. -/
theorem step_removeMember :
    (empty.run memberHandle).step (.write "d" [] (.removeMember "a")) =
      ⟨⟨#[some ⟨#[⟨0, some (.object [])⟩, ⟨1, none⟩, ⟨1, none⟩], [1, 2], some ⟨0, 0⟩, 1⟩]⟩,
        [("h", .value knowingHandle),
          ("d", .document ⟨⟨0⟩, ⟨.attached ⟨⟨0⟩, ⟨0, 0⟩⟩, ⟨[], 1⟩⟩, none⟩)]⟩ := by
  have freed : Arena.freeAll ⟨#[⟨0, some (.object [])⟩, ⟨0, some .null⟩,
      ⟨0, some (.array [⟨1, 0⟩])⟩], [], some ⟨0, 0⟩, 3⟩ [⟨2, 0⟩] =
        ⟨#[⟨0, some (.object [])⟩, ⟨1, none⟩, ⟨1, none⟩], [1, 2], some ⟨0, 0⟩, 1⟩ :=
    (Arena.freeAll_of_found rfl []).trans
      ((Arena.freeAll_of_found rfl []).trans (Arena.freeAll.eq_1 _))
  rw [← freed]
  rfl

/-- The handle is inert after its member was replaced, and after the document was set, parsed into
or dropped. -/
theorem released_inert_memberReplaced :
    empty.FreesRarely (memberHandle ++ memberReplaced) ∧
      Command.Releases (empty.run memberHandle) (.write "d" [] (.removeMember "a"))
        ⟨⟨0⟩, ⟨2, 0⟩⟩ ∧
      (empty.run (memberHandle ++ memberReplaced)).holding? "h" = some (.value knowingHandle) ∧
      (empty.run (memberHandle ++ memberReplaced)).heap.node? ⟨⟨0⟩, ⟨2, 1⟩⟩ =
        some (.array [⟨1, 1⟩]) ∧
      knowingHandle.Inert (empty.run (memberHandle ++ memberReplaced)).heap ⟨⟨0⟩, ⟨2, 0⟩⟩ ∧
      knowingHandle.Inert (empty.run (memberHandle ++ [.write "d" [] (.set .null)])).heap
        ⟨⟨0⟩, ⟨2, 0⟩⟩ ∧
      knowingHandle.Inert (empty.run (memberHandle ++ [.parse "d" {} "[[1]]"])).heap
        ⟨⟨0⟩, ⟨2, 0⟩⟩ ∧
      knowingHandle.Inert (empty.run (memberHandle ++ [.drop "d"])).heap ⟨⟨0⟩, ⟨2, 0⟩⟩ := by
  have rare {later : List Command} (few : later.length ≤ 2) :
      empty.FreesRarely (memberHandle ++ later) := by
    refine freesRarely_of_length_lt ?_
    rw [List.length_append, show memberHandle.length = 5 from rfl]
    omega
  have endpoint : (((empty.run memberHandle).root "d").endpoint (empty.run memberHandle).heap
      []).storage = .attached ⟨⟨0⟩, ⟨0, 0⟩⟩ := rfl
  have found : (empty.run memberHandle).heap.arena? ⟨0⟩ = some memberArena := rfl
  have level : memberArena.get? ⟨0, 0⟩ = some (.object [("a", ⟨2, 0⟩)]) := rfl
  have removed : Command.Releases (empty.run memberHandle) (.write "d" [] (.removeMember "a"))
      ⟨⟨0⟩, ⟨2, 0⟩⟩ :=
    (releases_removeMember "a" endpoint found level ⟨rfl, ⟨2, 0⟩, List.mem_cons_self, .start⟩ :)
  have set : Command.Releases (empty.run memberHandle) (.write "d" [] (.set .null))
      ⟨⟨0⟩, ⟨2, 0⟩⟩ :=
    (releases_set .null endpoint found level ⟨rfl, ⟨2, 0⟩, List.mem_cons_self, .start⟩ :)
  have parsed : Command.Releases (empty.run memberHandle) (.parse "d" {} "[[1]]") ⟨⟨0⟩, ⟨2, 0⟩⟩ :=
    (releases_parse rfl rfl rfl {}).1 "[[1]]"
  have dropped : Command.Releases (empty.run memberHandle) (.drop "d") ⟨⟨0⟩, ⟨2, 0⟩⟩ :=
    releases_drop rfl rfl rfl
  have last : empty.run (memberHandle ++ memberReplaced) =
      ((empty.run memberHandle).step (.write "d" [] (.removeMember "a"))).run
        memberReplaced.tail := rfl
  refine ⟨rare (by decide), removed, ?_, ?_, released_inert (rare (by decide)) removed rfl,
    released_inert (rare (by decide)) set rfl, released_inert (rare (by decide)) parsed rfl,
    released_inert (rare (by decide)) dropped rfl⟩
  · rw [last, step_removeMember]
    rfl
  · rw [last, step_removeMember]
    rfl

end Workspace

end JsonOverlay
