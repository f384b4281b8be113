/-
This file says exactly what appending a child to a value comes to. The answer can be told from
the storage of the value and the allocator alone; a refusal leaves everything as it was, and
otherwise one child comes to stand behind the last one. In a document that is a new copy of what
the operand shows, whatever the operand is: it may be the value itself, or lie around it.
-/

import JsonOverlay.Proofs.Value.Visible
import JsonOverlay.Proofs.Value.Write

namespace JsonOverlay

/-! ### Storing trees -/

namespace Arena

variable {arena before between after : Arena} {id : NodeId} {node : Node}

/-- An arena that has come to count some nodes more, and has all those that it had. Its books are
right, but with too many slots an identifier may have been given twice. -/
structure Gains (before : Arena) (added : Nat) (after : Arena) : Prop where
  sound : after.Sound
  same : ∀ id node, before.get? id = some node → after.get? id = some node
  live : after.live = before.live + added

theorem Sound.gains_nothing (sound : arena.Sound) : Gains arena 0 arena :=
  ⟨sound, fun _ _ found => found, rfl⟩

theorem Gains.trans {first second : Nat} (gains : Gains before first between)
    (more : Gains between second after) : Gains before (first + second) after where
  sound := more.sound
  same id node found := more.same id node (gains.same id node found)
  live := by rw [more.live, gains.live, Nat.add_assoc]

/-- A slot is taken only if it holds no node. -/
theorem Sound.get?_alloc (sound : arena.Sound) (found : arena.get? id = some node) (new : Node) :
    (arena.alloc new).2.get? id = some node := by
  obtain ⟨bound, slot⟩ := get?_eq_some found
  cases vacant : arena.vacant with
  | nil =>
    rw [alloc_of_full vacant]
    rw [get?] at found ⊢
    rwa [Array.getElem?_push, if_neg (Nat.ne_of_lt bound)]
  | cons index rest =>
    obtain ⟨free, present, empty⟩ :=
      (sound.vacant_iff index).mp (by rw [vacant]; exact List.mem_cons_self)
    rw [alloc_of_vacant vacant present]
    have apart : id.index ≠ index := by
      rintro rfl
      rw [Array.getElem?_eq_getElem bound, slot, Option.some.injEq] at present
      subst present
      cases empty
    exact (get?_fill_other ⟨index, free.generation⟩ _ apart).trans found

theorem Gains.alloc {added : Nat} (gains : Gains before added between) (node : Node) :
    Gains before (added + 1) (between.alloc node).2 :=
  gains.trans ⟨gains.sound.alloc node, fun _ _ found => gains.sound.get?_alloc found node,
    live_alloc between node⟩

theorem Allocates.gains {count : Nat} (allocates : Allocates before count after)
    (sound : before.Sound) : Gains before count after := by
  induction allocates with
  | nothing => exact sound.gains_nothing
  | node _ node inductionHypothesis => exact inductionHypothesis.alloc node

/-- Storing a tree adds a node for each of its values, however many slots there are. -/
theorem Sound.gains_store (sound : arena.Sound) (tree : Tree) :
    Gains arena tree.count (arena.store tree).2 :=
  (allocates_store arena tree).gains sound

theorem sound_ofTree (tree : Tree) : (ofTree tree).Sound :=
  (sound_empty.gains_store tree).sound.setRoot _

end Arena

namespace Heap

/-- The books of every arena are right. -/
def Sound (heap : Heap) : Prop := ∀ place arena, heap.arena? place = some arena → arena.Sound

theorem Sound.put {heap : Heap} {place : ArenaId} {old arena : Arena} (sound : heap.Sound)
    (found : heap.arena? place = some old) (right : arena.Sound) :
    (heap.put place arena).Sound := by
  intro other result present
  rw [arena?_put found] at present
  split at present
  · cases present
    exact right
  · exact sound other result present

end Heap

/-- The books stay right, whatever is done to a value. -/
theorem Operation.Effect.sound {heap after : Heap} {value changed : Value} {operation : Operation}
    (effect : operation.Effect heap value after changed) (sound : heap.Sound) : after.Sound := by
  cases effect with
  | @setAttached content reference arena attached found =>
    refine sound.put found ?_
    cases level : arena.get? reference.node with
    | none =>
      rw [Arena.replace, level]
      exact sound _ _ found
    | some old =>
      rw [Arena.replace_of_found level]
      exact ((sound _ _ found).assign level _).freeAll _
  | memberAttached attached found level | elementAttached attached found level =>
    have gains := (sound _ _ found).gains_store
    exact sound.put found ((gains _).sound.assign ((gains _).same _ _ level) _)
  | removedAttached attached found level =>
    refine sound.put found ?_
    rw [Value.withoutMember, Arena.foldl_free]
    exact ((sound _ _ found).assign level _).freeAll _
  | _ => exact sound

/-! ### The answer -/

namespace Appending

/-- The answer to appending to a level of some type. -/
def judge (appending : Appending) (found : Kind) : Outcome :=
  if found = appending.kind then .done else .refused (appending.refusal found)

/-- The answer to appending to a value: the type of a detached value decides. For an attached one
it comes first that the allocator is for its arena, then that its node is there, and only then
the type of that. -/
def verdict (appending : Appending) (heap : Heap) (value : Value) (allocator : Allocator) :
    Outcome :=
  match value.storage with
  | .detached content => appending.judge content.kind
  | .attached reference =>
    if allocator.arena = some reference.arena then
      match heap.node? reference with
      | some node => appending.judge node.kind
      | none => .refused .dangling
    else .refused .foreignAllocator

/-- The type of a level decides whether it can be extended. -/
theorem judge_cases {α : Type} (appending : Appending) (content : Content α) (child : α) :
    (appending.judge content.kind = .refused (appending.refusal content.kind) ∧
        appending.extend? content child = none) ∨
      appending.judge content.kind = .done ∧
        ∃ extended, appending.extend? content child = some extended := by
  cases appending <;> cases content
  all_goals first
    | exact .inl ⟨rfl, rfl⟩
    | exact .inr ⟨rfl, _, rfl⟩

end Appending

/-! ### What appending does -/

/-- A node has got one child more, and the arena the nodes of a copy of a tree. -/
structure Arena.Appends (before : Arena) (id : NodeId) (appending : Appending) (tree : Tree)
    (child : NodeId) (after : Arena) : Prop where
  level : ∃ old extended, before.get? id = some old ∧
    appending.extend? old child = some extended ∧ after.get? id = some extended
  others : ∀ other node, other ≠ id → before.get? other = some node →
    after.get? other = some node
  live : after.live = before.live + tree.count
  /-- As long as slots can be told apart, the child is at the top of a layout of the tree that is
  all there is new. -/
  fresh : after.slots.size ≤ slotLimit → ∃ layout : Layout, layout.id = child ∧
    layout.tree = tree ∧ after.Holds layout ∧ layout.ids.Nodup ∧
      (∀ new ∈ layout.ids, before.get? new = none) ∧
      ∀ other, after.contains other = true ↔ before.contains other = true ∨ other ∈ layout.ids

/-- What appending does if it succeeds. A detached value takes the operand as it is, and an
attached one a child of its own. No more is forgotten of what was looked up than a placeholder for
the child to which nothing was done. -/
inductive Appending.Succeeds (appending : Appending) (heap : Heap) (operand : Value) :
    Value → Heap → Value → Prop where
  | detached {content extended : Content Value} {children : Children Value}
      (more : appending.extend? content operand = some extended) :
      Succeeds appending heap operand ⟨.detached content, children⟩ heap
        (Value.forgetPlaceholder ⟨.detached extended, children⟩ (appending.key content))
  | attached {reference : NodeRef} {children : Children Value} {before after : Arena}
      {node : Node} {child : NodeId} (found : heap.arena? reference.arena = some before)
      (there : before.get? reference.node = some node)
      (appends : before.Appends reference.node appending (operand.visible heap) child after)
      (shown : after.slots.size ≤ Arena.slotLimit →
        (Value.attached ⟨reference.arena, child⟩).visible (heap.put reference.arena after) =
          operand.visible heap) :
      Succeeds appending heap operand ⟨.attached reference, children⟩
        (heap.put reference.arena after)
        (Value.forgetPlaceholder ⟨.attached reference, children⟩ (appending.key node))

namespace Arena

variable {arena : Arena} {id : NodeId} {old extended : Node} {appending : Appending} {tree : Tree}

/-- Storing a copy of a tree and then giving a node one child more. -/
theorem Sound.appends (sound : arena.Sound) (found : arena.get? id = some old)
    (more : appending.extend? old (arena.store tree).1 = some extended) :
    arena.Appends id appending tree (arena.store tree).1
      ((arena.store tree).2.assign id extended) := by
  have gains := sound.gains_store tree
  have stays := gains.same id old found
  refine ⟨⟨old, extended, found, more, (get?_assign stays extended id).trans (if_pos rfl)⟩,
    fun other node apart there => ?_, (live_assign _ id extended).trans gains.live, fun room => ?_⟩
  · rw [get?_assign stays, if_neg apart]
    exact gains.same other node there
  · rw [size_slots_assign] at room
    obtain ⟨layout, top, shows, grown⟩ := grown_store tree sound room
    have ids : [layout].flatMap Layout.ids = layout.ids := List.flatMap_singleton _ _
    have new (other : NodeId) (member : other ∈ layout.ids) : arena.get? other = none :=
      grown.fresh other (ids.symm ▸ member)
    refine ⟨layout, top, shows, ?_, ids ▸ grown.distinct, new, fun other => ?_⟩
    · refine (grown.holds layout (List.mem_singleton.mpr rfl)).congr fun other member => ?_
      rw [get?_assign stays, if_neg]
      rintro rfl
      rw [new other member] at found
      cases found
    · rw [contains, get?_assign stays, contains]
      by_cases same : other = id
      · subst same
        simp [found]
      · rw [if_neg same]
        by_cases member : other ∈ layout.ids
        · have live := grown.contains (ids.symm ▸ member)
          rw [contains] at live
          simp [live, member]
        · rw [grown.kept other (ids.symm ▸ member)]
          simp [member]

end Arena

namespace Appending

variable {appending : Appending} {heap : Heap} {operand : Value} {reference : NodeRef}
  {children : Children Value} {arena : Arena} {node extended : Node}

/-- What is asked before anything is looked at or stored. -/
theorem target_cases (heap : Heap) (reference : NodeRef) (allocator : Allocator) :
    (allocator.arena ≠ some reference.arena ∧
        Value.target heap reference allocator = .error .foreignAllocator) ∨
      allocator.arena = some reference.arena ∧
        ((heap.node? reference = none ∧ Value.target heap reference allocator = .error .dangling) ∨
          ∃ arena node, heap.node? reference = some node ∧
            heap.arena? reference.arena = some arena ∧ arena.get? reference.node = some node ∧
            Value.target heap reference allocator = .ok (arena, node)) := by
  unfold Value.target Heap.node?
  by_cases owned : allocator.arena = some reference.arena
  · refine .inr ⟨owned, ?_⟩
    rw [if_pos (by rw [Allocator.owns, owned]; exact beq_self_eq_true _)]
    cases heap.arena? reference.arena with
    | none => exact .inl ⟨rfl, rfl⟩
    | some arena =>
      dsimp only [Option.bind_some]
      cases there : arena.get? reference.node with
      | none => exact .inl ⟨rfl, rfl⟩
      | some node => exact .inr ⟨arena, node, rfl, rfl, there, rfl⟩
  · refine .inl ⟨owned, if_neg ?_⟩
    rw [Allocator.owns, beq_iff_eq]
    exact owned

theorem succeeds_attached (sound : arena.Sound) (found : heap.arena? reference.arena = some arena)
    (there : arena.get? reference.node = some node)
    (more : appending.extend? node (arena.store (operand.visible heap)).1 = some extended) :
    appending.Succeeds heap operand ⟨.attached reference, children⟩
      (heap.put reference.arena
        ((arena.store (operand.visible heap)).2.assign reference.node extended))
      (Value.forgetPlaceholder ⟨.attached reference, children⟩ (appending.key node)) := by
  have appends := sound.appends there more
  refine .attached found there appends fun room => ?_
  obtain ⟨layout, top, shows, holds, distinct, -⟩ := appends.fresh room
  rw [Value.visible_attached, Heap.tree, Heap.arena?_put found, if_pos rfl, ← top]
  exact (holds.tree_eq distinct).trans shows

/-- What appending an operand comes to: the answer can be told beforehand, a refusal leaves heap
and value as they were, and there is nothing else but success. -/
theorem run_cases (appending : Appending) (value operand : Value) (allocator : Allocator)
    (sound : heap.Sound) :
    (∃ error, appending.verdict heap value allocator = .refused error ∧
        appending.run heap value operand allocator = ⟨heap, value, .refused error⟩) ∨
      appending.verdict heap value allocator = .done ∧ ∃ after changed,
        appending.run heap value operand allocator = ⟨after, changed, .done⟩ ∧
          appending.Succeeds heap operand value after changed := by
  obtain ⟨reference | content, children⟩ := value
  · rw [run_attached]
    unfold verdict
    dsimp only
    rcases target_cases heap reference allocator with
      ⟨foreign, target⟩ | ⟨owned, ⟨gone, target⟩ | ⟨arena, node, live, found, there, target⟩⟩
    · rw [if_neg foreign, target]
      exact .inl ⟨_, rfl, rfl⟩
    · rw [if_pos owned, gone, target]
      exact .inl ⟨_, rfl, rfl⟩
    · rw [if_pos owned, live, target]
      dsimp only
      rcases appending.judge_cases node (arena.store (operand.visible heap)).1 with
        ⟨refused, none⟩ | ⟨done, extended, more⟩
      · rw [refused, none]
        exact .inl ⟨_, rfl, rfl⟩
      · rw [done, more]
        exact .inr ⟨rfl, _, _, rfl, succeeds_attached (sound _ _ found) found there more⟩
  · rw [run_detached]
    unfold verdict
    dsimp only
    rcases appending.judge_cases content operand with ⟨refused, none⟩ | ⟨done, extended, more⟩
    · rw [refused, none]
      exact .inl ⟨_, rfl, rfl⟩
    · rw [done, more]
      exact .inr ⟨rfl, _, _, rfl, .detached more⟩

end Appending

end JsonOverlay
