/-
This file opens the operations on values. An operation on a detached value leaves the heap
alone. One on an attached value is refused, or it puts a changed arena in the place of the
old one, and that arena goes on from the old one.
-/

import JsonOverlay.Proofs.Heap
import JsonOverlay.Value.Write

namespace JsonOverlay

namespace Value

variable {value operand changed : Value} {heap after : Heap} {reference : NodeRef}
  {allocator : Allocator} {arena : Arena} {node : Node} {name : String}

/-! ### What an operation needs -/

theorem target_eq_ok : target heap reference allocator = .ok (arena, node) ↔
    allocator.owns reference = true ∧ heap.arena? reference.arena = some arena ∧
      arena.get? reference.node = some node := by
  unfold target
  by_cases owned : allocator.owns reference = true
  · rw [if_pos owned]
    cases present : heap.arena? reference.arena with
    | none => simp
    | some found =>
      cases level : found.get? reference.node with
      | none =>
        simp only [level, reduceCtorEq, Option.some.injEq, false_iff, not_and]
        rintro - rfl
        rw [level]
        simp
      | some other =>
        simp only [level, Except.ok.injEq, Prod.mk.injEq, Option.some.injEq, owned, true_and]
        constructor
        · rintro ⟨rfl, rfl⟩
          exact ⟨rfl, level⟩
        · rintro ⟨rfl, same⟩
          exact ⟨rfl, Option.some.inj (level.symm.trans same)⟩
  · rw [if_neg owned]
    simp [owned]

/-- The arena that adding a member to an object leads to. -/
def withMember (arena : Arena) (id : NodeId) (members : List (String × NodeId)) (name : String)
    (tree : Tree) : Arena :=
  (arena.store tree).2.assign id (.object (members ++ [(name, (arena.store tree).1)]))

/-- The arena that appending an element to an array leads to. -/
def withElement (arena : Arena) (id : NodeId) (items : List NodeId) (tree : Tree) : Arena :=
  (arena.store tree).2.assign id (.array (items ++ [(arena.store tree).1]))

/-- The arena that removing members from an object leads to. -/
def withoutMember (arena : Arena) (id : NodeId) (members : List (String × NodeId))
    (name : String) : Arena :=
  ((members.filter fun (other, _) => other == name).map Prod.snd).foldl Arena.free
    (arena.assign id (.object (members.filter fun (other, _) => other != name)))

/-- Adding a member to an attached value. -/
theorem addMember_attached (storage : value.storage = .attached reference) :
    value.addMember heap name operand allocator =
      match target heap reference allocator with
      | .error error => .error error
      | .ok (arena, .object members) =>
        .ok (heap.put reference.arena
            (withMember arena reference.node members name (operand.visible heap)),
          value.forgetPlaceholder (.member name))
      | .ok (_, other) => .error (.notAnObject other.kind) := by
  simp only [addMember, storage]
  rcases target heap reference allocator with error | ⟨arena, node⟩
  · rfl
  · cases node <;> rfl

/-- Appending an element to an attached value. -/
theorem pushBack_attached (storage : value.storage = .attached reference) :
    value.pushBack heap operand allocator =
      match target heap reference allocator with
      | .error error => .error error
      | .ok (arena, .array items) =>
        .ok (heap.put reference.arena
            (withElement arena reference.node items (operand.visible heap)),
          value.forgetPlaceholder (.element items.length))
      | .ok (_, other) => .error (.notAnArray other.kind) := by
  simp only [pushBack, storage]
  rcases target heap reference allocator with error | ⟨arena, node⟩
  · rfl
  · cases node <;> rfl

/-- Setting an attached value. -/
theorem heap_set_attached (storage : value.storage = .attached reference)
    (found : heap.arena? reference.arena = some arena) (content : Content Empty) :
    (value.set heap content).1 =
      heap.put reference.arena (arena.replace reference.node content.ofLeaf).2 := by
  rw [set, storage]
  dsimp only
  rw [found]

/-- Removing members from an attached object. -/
theorem heap_removeMember_attached (storage : value.storage = .attached reference)
    (found : heap.arena? reference.arena = some arena) {members : List (String × NodeId)}
    (level : arena.get? reference.node = some (.object members)) (name : String) :
    (value.removeMember heap name).2.1 =
      heap.put reference.arena (withoutMember arena reference.node members name) := by
  rw [removeMember, storage]
  dsimp only
  rw [found]
  dsimp only
  rw [level]
  rfl

end Value

/-! ### Appending -/

namespace Appending

/-- The operation that appends an operand. -/
def operation (operand : Value) (allocator : Allocator) : Appending → Operation
  | member name => .addMember name operand allocator
  | element => .pushBack operand allocator

/-- Appends an operand to a value. -/
def run (appending : Appending) (heap : Heap) (value operand : Value) (allocator : Allocator) :
    Value.Edited Outcome :=
  (appending.operation operand allocator).run heap value

/-- What is said of a value of another type. -/
def refusal (found : Kind) : Appending → Error
  | member _ => .notAnObject found
  | element => .notAnArray found

/-- Appending to a detached value. -/
theorem run_detached (appending : Appending) (heap : Heap) (operand : Value)
    (allocator : Allocator) (content : Content Value) (children : Children Value) :
    appending.run heap ⟨.detached content, children⟩ operand allocator =
      match appending.extend? content operand with
      | some extended => ⟨heap, Value.forgetPlaceholder ⟨.detached extended, children⟩
          (appending.key content), .done⟩
      | none => ⟨heap, ⟨.detached content, children⟩,
          .refused (appending.refusal content.kind)⟩ := by
  cases appending <;> cases content <;> rfl

/-- Appending to an attached value. -/
theorem run_attached (appending : Appending) (heap : Heap) (operand : Value)
    (allocator : Allocator) (reference : NodeRef) (children : Children Value) :
    appending.run heap ⟨.attached reference, children⟩ operand allocator =
      match Value.target heap reference allocator with
      | .error error => ⟨heap, ⟨.attached reference, children⟩, .refused error⟩
      | .ok (arena, node) =>
        match appending.extend? node (arena.store (operand.visible heap)).1 with
        | some extended => ⟨heap.put reference.arena
            ((arena.store (operand.visible heap)).2.assign reference.node extended),
            Value.forgetPlaceholder ⟨.attached reference, children⟩ (appending.key node), .done⟩
        | none => ⟨heap, ⟨.attached reference, children⟩,
            .refused (appending.refusal node.kind)⟩ := by
  cases appending with
  | member name =>
    rw [run, operation, Operation.run, Value.addMember_attached rfl]
    rcases Value.target heap reference allocator with error | ⟨arena, node⟩
    · rfl
    · cases node <;> rfl
  | element =>
    rw [run, operation, Operation.run, Value.pushBack_attached rfl]
    rcases Value.target heap reference allocator with error | ⟨arena, node⟩
    · rfl
    · cases node <;> rfl

end Appending

/-! ### What operations do -/

namespace Operation

variable {value operand changed : Value} {heap after : Heap} {reference : NodeRef}
  {allocator : Allocator} {arena : Arena} {name : String} {content : Content Empty}
  {operation : Operation}

/-- What an operation does to a heap and a value. If it is not refused, a detached value changes
itself, and for an attached one a changed arena takes the place of the old one. -/
inductive Effect (heap : Heap) (value : Value) : Operation → Heap → Value → Prop where
  | refused {operation : Operation} : Effect heap value operation heap value
  | assigned {operand : Value} : Effect heap value (.assign operand) heap operand
  | setDetached {content : Content Empty} {old : Content Value}
      (detached : value.storage = .detached old) :
      Effect heap value (.set content) heap ⟨.detached content.ofLeaf, value.children.clear⟩
  | setDropped {content : Content Empty} {reference : NodeRef}
      (attached : value.storage = .attached reference) :
      Effect heap value (.set content) heap { value with children := value.children.clear }
  | setAttached {content : Content Empty} {reference : NodeRef} {arena : Arena}
      (attached : value.storage = .attached reference)
      (found : heap.arena? reference.arena = some arena) :
      Effect heap value (.set content)
        (heap.put reference.arena (arena.replace reference.node content.ofLeaf).2)
        { value with children := value.children.clear }
  | memberDetached {name : String} {operand : Value} {allocator : Allocator}
      {members : List (String × Value)} (detached : value.storage = .detached (.object members)) :
      Effect heap value (.addMember name operand allocator) heap
        (Value.forgetPlaceholder
          ⟨.detached (.object (members ++ [(name, operand)])), value.children⟩ (.member name))
  | memberAttached {name : String} {operand : Value} {allocator : Allocator} {reference : NodeRef}
      {arena : Arena} {members : List (String × NodeId)}
      (attached : value.storage = .attached reference)
      (found : heap.arena? reference.arena = some arena)
      (level : arena.get? reference.node = some (.object members)) :
      Effect heap value (.addMember name operand allocator)
        (heap.put reference.arena
          (Value.withMember arena reference.node members name (operand.visible heap)))
        (value.forgetPlaceholder (.member name))
  | elementDetached {operand : Value} {allocator : Allocator} {items : List Value}
      (detached : value.storage = .detached (.array items)) :
      Effect heap value (.pushBack operand allocator) heap
        (Value.forgetPlaceholder ⟨.detached (.array (items ++ [operand])), value.children⟩
          (.element items.length))
  | elementAttached {operand : Value} {allocator : Allocator} {reference : NodeRef}
      {arena : Arena} {items : List NodeId} (attached : value.storage = .attached reference)
      (found : heap.arena? reference.arena = some arena)
      (level : arena.get? reference.node = some (.array items)) :
      Effect heap value (.pushBack operand allocator)
        (heap.put reference.arena
          (Value.withElement arena reference.node items (operand.visible heap)))
        (value.forgetPlaceholder (.element items.length))
  | removedDetached {name : String} {members : List (String × Value)}
      (detached : value.storage = .detached (.object members)) :
      Effect heap value (.removeMember name) heap
        ⟨.detached (.object (members.filter fun (other, _) => other != name)),
          value.children.forgetMember name⟩
  | removedNothing {name : String} :
      Effect heap value (.removeMember name) heap
        { value with children := value.children.forgetMember name }
  | removedAttached {name : String} {reference : NodeRef} {arena : Arena}
      {members : List (String × NodeId)} (attached : value.storage = .attached reference)
      (found : heap.arena? reference.arena = some arena)
      (level : arena.get? reference.node = some (.object members)) :
      Effect heap value (.removeMember name)
        (heap.put reference.arena (Value.withoutMember arena reference.node members name))
        { value with children := value.children.forgetMember name }

theorem effect_set (heap : Heap) (value : Value) (content : Content Empty) :
    Effect heap value (.set content) (value.set heap content).1 (value.set heap content).2 := by
  obtain ⟨reference | old, children⟩ := value
  · rw [Value.set]
    cases found : heap.arena? reference.arena with
    | none =>
      simp only [found]
      exact .setDropped rfl
    | some arena =>
      simp only [found]
      exact .setAttached rfl found
  · exact .setDetached rfl

theorem effect_append (appending : Appending) (heap : Heap) (value operand : Value)
    (allocator : Allocator) :
    Effect heap value (appending.operation operand allocator)
      (appending.run heap value operand allocator).heap
      (appending.run heap value operand allocator).value := by
  obtain ⟨reference | content, children⟩ := value
  · rw [Appending.run_attached]
    cases able : Value.target heap reference allocator with
    | error error => exact .refused
    | ok found =>
      obtain ⟨arena, node⟩ := found
      obtain ⟨-, present, level⟩ := Value.target_eq_ok.mp able
      dsimp only
      cases more : appending.extend? node (arena.store (operand.visible heap)).1 with
      | none => exact .refused
      | some extended =>
        cases appending <;> cases node <;> cases more
        · exact .memberAttached rfl present level
        · exact .elementAttached rfl present level
  · rw [Appending.run_detached]
    cases more : appending.extend? content operand with
    | none => exact .refused
    | some extended =>
      cases appending <;> cases content <;> cases more
      · exact .memberDetached rfl
      · exact .elementDetached rfl

theorem effect_removeMember (heap : Heap) (value : Value) (name : String) :
    Effect heap value (.removeMember name) (value.removeMember heap name).2.1
      (value.removeMember heap name).2.2 := by
  obtain ⟨reference | content, children⟩ := value
  · rw [Value.removeMember]
    cases found : heap.arena? reference.arena with
    | none =>
      simp only [found]
      exact .removedNothing
    | some arena =>
      simp only [found]
      split
      · rename_i members level
        exact .removedAttached rfl found level
      · exact .removedNothing
  · cases content with
    | object members => exact .removedDetached rfl
    | _ => exact .removedNothing

theorem effect_run (operation : Operation) (heap : Heap) (value : Value) :
    Effect heap value operation (operation.run heap value).heap
      (operation.run heap value).value := by
  cases operation with
  | assign operand => exact .assigned
  | set content => exact effect_set heap value content
  | addMember name operand allocator =>
    exact effect_append (.member name) heap value operand allocator
  | pushBack operand allocator => exact effect_append .element heap value operand allocator
  | removeMember name => exact effect_removeMember heap value name

end Operation

/-! ### Work on one arena -/

theorem Operation.Effect.touched {heap after : Heap} {value changed : Value} {operation : Operation}
    (effect : operation.Effect heap value after changed) : heap.Touched after := by
  cases effect with
  | setAttached _ found => exact .arena found (Arena.follows_replace _ _ _)
  | memberAttached _ found level => exact .arena found (Arena.follows_append level (.member _) _ rfl)
  | elementAttached _ found level => exact .arena found (Arena.follows_append level .element _ rfl)
  | removedAttached _ found level => exact .arena found (Arena.follows_removeMember level _)
  | _ => exact .nothing

/-- Whatever is done to a value, at most one arena is worked on. -/
theorem Operation.touched_run (operation : Operation) (heap : Heap) (value : Value) :
    heap.Touched (operation.run heap value).heap :=
  (operation.effect_run heap value).touched

end JsonOverlay
