/-
This file says what is left of a value whose node is gone, whatever it knows of the children that
it had. To whoever asks it is null, nothing reaches a document through it, and nothing that is done
to it makes it otherwise.
-/

import JsonOverlay.Proofs.Value.Write
import JsonOverlay.Value.Cursor

namespace JsonOverlay.Value

variable {heap : Heap} {value : Value} {node : NodeRef}

/-- What nothing is added to because of a node that is gone. -/
def refusal (node : NodeRef) (allocator : Allocator) : Error :=
  if allocator.arena = some node.arena then .dangling else .foreignAllocator

/-- A value that is attached to a node and stands for nothing. -/
structure Inert (heap : Heap) (node : NodeRef) (value : Value) : Prop where
  kind : value.kind heap = .null
  /-- Each getter gives its zero. -/
  number? : value.number? heap = none
  isNumberWhere : ∀ predicate, value.isNumberWhere heap predicate = false
  toBool : value.toBool heap = false
  toInt32 : value.toInt32 heap = 0
  toUInt32 : value.toUInt32 heap = 0
  toInt64 : value.toInt64 heap = 0
  toUInt64 : value.toUInt64 heap = 0
  toDouble : value.toDouble heap = Double.zero
  toNarrow : value.toNarrow heap = Double.zero.toNarrow
  toText : value.toText heap = ""
  textLength : value.textLength heap = 0
  size : value.size heap = 0
  memberCount : value.memberCount heap = 0
  isEmpty : value.isEmpty heap = false
  hasMember : ∀ name, value.hasMember heap name = false
  /-- Walks visit nothing and look nothing up. -/
  members : ∀ count, MemberCursor.walk heap count (.start value heap) value = ([], ⟨[]⟩, value)
  elements : ∀ {ρ : Type} (array : ρ) (count : Nat),
    ((ArrayCursor.start array (value.size heap)).visited count).1 = [] ∧
      ((ArrayCursor.start array (value.size heap)).visitedBack count).1 = []
  visible : value.visible heap = .null
  text : ∀ options, value.text heap options = "null"
  debug : value.debug heap = "Attached(null)"
  /-- It stays attached when it is set, and forgets what it knew. -/
  set : ∀ content, (Operation.set content).run heap value =
    ⟨heap, { value with children := value.children.clear }, .done⟩
  removeMember : ∀ name, (Operation.removeMember name).run heap value =
    ⟨heap, { value with children := value.children.forgetMember name }, .removed 0⟩
  /-- Nothing is added to it, and it is said why. -/
  addMember : ∀ name operand allocator, (Operation.addMember name operand allocator).run heap value =
    ⟨heap, value, .refused (refusal node allocator)⟩
  pushBack : ∀ operand allocator, (Operation.pushBack operand allocator).run heap value =
    ⟨heap, value, .refused (refusal node allocator)⟩

variable (attached : value.storage = .attached node) (dead : heap.node? node = none)
include attached dead

theorem backing_of_dead : value.backing heap = .null := by
  rw [backing, attached]
  dsimp only
  rw [dead]

theorem visible_of_dead : value.visible heap = .null := by
  obtain ⟨storage, children⟩ := value
  cases attached
  rw [visible, visibleStorage, Heap.tree_of_node?_eq_none dead]
  rfl

theorem set_of_dead (content : Content Empty) :
    value.set heap content = (heap, { value with children := value.children.clear }) := by
  rw [set, attached]
  dsimp only
  cases found : heap.arena? node.arena with
  | none => rfl
  | some arena =>
    rw [Heap.node?, found, Option.bind_some] at dead
    dsimp only
    rw [Arena.replace, dead, Heap.put_self found]

theorem removeMember_of_dead (name : String) :
    value.removeMember heap name =
      (0, heap, { value with children := value.children.forgetMember name }) := by
  rw [removeMember, attached]
  dsimp only
  cases found : heap.arena? node.arena with
  | none => rfl
  | some arena =>
    rw [Heap.node?, found, Option.bind_some] at dead
    dsimp only
    rw [dead]

omit attached in
theorem target_of_dead (allocator : Allocator) :
    target heap node allocator = .error (refusal node allocator) := by
  rw [target, Allocator.owns, refusal]
  by_cases own : allocator.arena = some node.arena
  · rw [own, beq_self_eq_true, if_pos rfl, if_pos rfl]
    cases found : heap.arena? node.arena with
    | none => rfl
    | some arena =>
      rw [Heap.node?, found, Option.bind_some] at dead
      dsimp only
      rw [dead]
  · rw [if_neg own, beq_false_of_ne own]
    rfl

/-- Whatever a value knows of the children that it had, it is inert when its node is gone. -/
theorem inert_of_dead : value.Inert heap node := by
  have backing := backing_of_dead attached dead
  have number : value.number? heap = none := by rw [number?, backing]; rfl
  have toDouble : value.toDouble heap = Double.zero := by rw [toDouble, number]; rfl
  have toText : value.toText heap = "" := by rw [toText, backing]; rfl
  have size : value.size heap = 0 := by rw [size, backing]; rfl
  have visible := visible_of_dead attached dead
  have text (options : WriteOptions) : value.text heap options = "null" := by
    rw [text, visible]; rfl
  exact {
    kind := by rw [kind, backing]; rfl
    number? := number
    isNumberWhere := fun predicate => by rw [isNumberWhere, number]; rfl
    toBool := by rw [toBool, backing]; rfl
    toInt32 := by rw [toInt32, number]; rfl
    toUInt32 := by rw [toUInt32, number]; rfl
    toInt64 := by rw [toInt64, number]; rfl
    toUInt64 := by rw [toUInt64, number]; rfl
    toDouble := toDouble
    toNarrow := by rw [toNarrow, toDouble]
    toText := toText
    textLength := by rw [textLength, toText]; rfl
    size := size
    memberCount := by rw [memberCount, backing]; rfl
    isEmpty := by rw [isEmpty, backing]
    hasMember := fun name => by rw [hasMember, backing]; rfl
    members := fun count => by
      rw [MemberCursor.start, backing]
      cases count <;> rfl
    elements := fun array count => by
      rw [size]
      cases count <;> exact ⟨rfl, rfl⟩
    visible := visible
    text := text
    debug := by rw [debug, isAttached, attached, text]; rfl
    set := fun content => by rw [Operation.run, set_of_dead attached dead]
    removeMember := fun name => by rw [Operation.run, removeMember_of_dead attached dead]
    addMember := fun name operand allocator => by
      rw [Operation.run, addMember_attached attached, target_of_dead dead]
      rfl
    pushBack := fun operand allocator => by
      rw [Operation.run, pushBack_attached attached, target_of_dead dead]
      rfl }

end JsonOverlay.Value
