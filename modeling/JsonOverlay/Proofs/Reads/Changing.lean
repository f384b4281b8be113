/-
This file shows that an operation whose operand has no handles does the same to twins: it
gives the same answer, leaves the same heap behind, and what it makes of them are twins
again. This holds for the value at the end of a path and, from there up, for the value that
the path starts from.
-/

import JsonOverlay.Proofs.Reads.Forgetting
import JsonOverlay.Proofs.Reads.Paths

namespace JsonOverlay

variable {heap : Heap} {place : ArenaId} {ground : Ground} {left right : Value}

/-! ### Changes of grounds -/

namespace Ground

/-- What an edit does to the heap and to what is behind the edited value. Either the value
ends up without a node and the heap stays as it is, or one layout gives way to another. -/
inductive Moves (before : Heap) (place : ArenaId) : Heap → Ground → Ground → Prop where
  | loosened (ground : Ground) (content : Content Value) :
      Moves before place before ground (.free content)
  | reshaped {after : Heap} {old new : Layout} (change : before.Reshaped place old new after) :
      Moves before place after (.node old) (.node new)

variable {before after : Heap} {ground' source source' : Ground} {key : ChildKey}

theorem Moves.stays (held : ground.Held before place) : Moves before place before ground ground := by
  cases ground with
  | free content => exact .loosened _ content
  | node layout => exact .reshaped (Heap.Holds.reshaped_refl held)

theorem Moves.held (moves : Moves before place after ground ground') : ground'.Held after place := by
  cases moves with
  | loosened content => trivial
  | reshaped change => exact change.holds

/-- What a change of the child at a key means for what is behind the value above. -/
theorem Moves.above (moves : Moves before place after source source')
    (held : ground.Held before place) (sound : ground.Sound) (genuine : ground.Genuine place key)
    (derived : ∀ layout, source = .node layout →
      ∃ outer, ground = .node outer ∧ outer.content.child? key = some layout) :
    ∃ ground', Moves before place after ground ground' ∧
      ground'.storage place = ground.storage place ∧ ground'.Sound ∧
      ground.Keeps (· ≠ key) ground' ∧
      ∀ layout, source' = .node layout →
        ∃ outer, ground' = .node outer ∧ outer.content.child? key = some layout := by
  cases moves with
  | loosened source content =>
    exact ⟨ground, .stays held, rfl, sound, .refl _ ground, fun _ absurd => by cases absurd⟩
  | @reshaped after old new change =>
    obtain ⟨outer, rfl, position⟩ := derived old rfl
    have inside : key ∈ outer.content.keys := by
      rw [Ground.Genuine, Ground.backing, Content.keys_map] at genuine
      exact Content.mem_keys_of_child? genuine position
    obtain ⟨outer', grafted, id, outline, others, new⟩ := change.above held inside position
    have keys := Content.keys_eq_of_outline_eq outline
    refine ⟨.node outer', .reshaped grafted, ?_, trivial, .node ⟨?_, ?_, ?_⟩, ?_⟩
    · rw [Ground.storage, id]
      rfl
    · exact Content.kind_eq_of_outline_eq outline
    · intro other _ there
      rwa [keys]
    · intro other different there
      by_cases known : other ∈ outer.content.keys
      · exact others other known different
      · rw [Content.child?_of_notMem_keys there known,
          Content.child?_of_notMem_keys (keys ▸ there) (keys ▸ known)]
    · rintro layout same
      cases same
      exact ⟨outer', rfl, new⟩

/-- If a value is attached, its arena does not grow beyond the slots that can be told apart. -/
def HasRoom (after : Heap) (place : ArenaId) : Ground → Prop
  | node _ => after.HasRoom place
  | free _ => True

end Ground

/-! ### Operations -/

/-- The keys that stay when a name is forgotten are other names, and no positions. -/
theorem ChildKey.ne_of_kept {name : String} {key : ChildKey}
    (kept : (match key with
      | .member other => other != name
      | .repeated _ => false
      | .element _ => true) = true) :
    key ≠ .member name ∧ ∀ position, key ≠ .repeated position := by
  constructor
  · rintro rfl
    simp at kept
  · rintro position rfl
    cases kept

/-- There are no handles in the operand. -/
def Operation.HasLooseOperand : Operation → Prop
  | assign operand | addMember _ operand _ | pushBack operand _ => Loose operand
  | set _ | removeMember _ => True

/-- What two edits of twins have in common. -/
structure Alike (before : Heap) (place : ArenaId) (ground : Ground) (left right : Value)
    (first second : Value.Edited Outcome) : Prop where
  heap : second.heap = first.heap
  result : second.result = first.result
  twins : ∃ ground', ground.Moves before place first.heap ground' ∧
    Twins place ground' first.value second.value
  level : Level left right → Level first.value second.value

/-- A value that is not null is level with any other. -/
theorem Level.of_ne {storage : Storage Value} {first second : Children Value}
    (solid : storage ≠ .detached .null) : Level ⟨storage, first⟩ ⟨storage, second⟩ :=
  fun null => absurd null solid

/-- An operation appends a child, and at its key a placeholder is forgotten. -/
theorem Alike.appended {ground' : Ground} {after : Heap} {key : ChildKey}
    (twins : Twins place ground left right) (moves : ground.Moves heap place after ground')
    (sound : ground'.Sound)
    (keeps : ground.Keeps (fun other => other = key → (ground.backing place).child? key ≠ none)
      ground')
    (named : ∀ position, key ≠ .repeated position) (admits : (ground.backing place).admits key)
    (solid : ground'.storage place ≠ .detached .null) :
    Alike heap place ground left right
      ⟨after, ⟨ground'.storage place, left.children.forgetPlaceholder key Value.isBlank⟩, .done⟩
      ⟨after, ⟨ground'.storage place, right.children.forgetPlaceholder key Value.isBlank⟩, .done⟩ where
  heap := rfl
  result := rfl
  twins := ⟨ground', moves, twins.forgetPlaceholder sound keeps
    (fun _ different same => absurd same different) (fun present _ => present) named admits⟩
  level _ := .of_ne solid

theorem Ground.storage_node_ne_null (place : ArenaId) (layout : Layout) :
    (Ground.node layout).storage place ≠ .detached .null := by
  rintro ⟨⟩

theorem Ground.storage_object_ne_null (place : ArenaId) (members : List (String × Value)) :
    (Ground.free (.object members)).storage place ≠ .detached .null := by
  rintro ⟨⟩

theorem Alike.refused (twins : Twins place ground left right) (held : ground.Held heap place)
    (error : Error) :
    Alike heap place ground left right ⟨heap, left, .refused error⟩ ⟨heap, right, .refused error⟩ :=
  ⟨rfl, rfl, ⟨ground, .stays held, twins⟩, id⟩

namespace Twins

variable {operand : Value} {allocator : Allocator}

theorem run_assign (left right : Value) (ground : Ground) (loose : Loose operand) :
    Alike heap place ground left right ((Operation.assign operand).run heap left)
      ((Operation.assign operand).run heap right) := by
  obtain ⟨content, same⟩ := loose.twins place
  exact ⟨rfl, rfl, ⟨.free content, .loosened ground content, same⟩, fun _ => .refl operand⟩

theorem run_set (content : Content Empty) (twins : Twins place ground left right)
    (held : ground.Held heap place) :
    Alike heap place ground left right ((Operation.set content).run heap left)
      ((Operation.set content).run heap right) := by
  obtain ⟨own, tableLeft⟩ := left
  obtain ⟨other, tableRight⟩ := right
  obtain rfl : own = ground.storage place := twins.storage_left
  obtain rfl : other = ground.storage place := twins.storage_right
  cases ground with
  | free old =>
    have sound : (Ground.free content.ofLeaf).Sound := by
      intro child member
      rw [Content.ofLeaf, Content.children_map] at member
      obtain ⟨absurd, -⟩ := List.mem_map.mp member
      exact absurd.elim
    exact ⟨rfl, rfl, ⟨.free content.ofLeaf, .loosened _ _, of_keys_eq_nil sound rfl rfl⟩,
      fun _ _ _ => Iff.rfl⟩
  | node layout =>
    obtain ⟨after, equation, reshaped⟩ := Value.set_of_holds held content
    simp only [Operation.run, Ground.storage, equation]
    have sound : (Ground.node ⟨layout.id, content.ofLeaf⟩).Sound := trivial
    exact ⟨rfl, rfl, ⟨_, .reshaped reshaped, of_keys_eq_nil sound rfl rfl⟩,
      fun _ => .of_ne (Ground.storage_node_ne_null place _)⟩

theorem run_append (appending : Appending) (loose : Loose operand)
    (twins : Twins place ground left right) (held : ground.Held heap place)
    (room : ground.HasRoom (appending.run heap left operand allocator).heap place) :
    Alike heap place ground left right (appending.run heap left operand allocator)
      (appending.run heap right operand allocator) := by
  obtain ⟨own, tableLeft⟩ := left
  obtain ⟨other, tableRight⟩ := right
  obtain rfl : own = ground.storage place := twins.storage_left
  obtain rfl : other = ground.storage place := twins.storage_right
  cases ground with
  | free content =>
    rw [Ground.storage, Appending.run_detached, Appending.run_detached]
    cases more : appending.extend? content operand with
    | none => exact .refused twins held _
    | some extended =>
      have fits := Appending.kind_of_extend? more
      have sound : (Ground.free extended).Sound := by
        intro child member
        rw [Appending.children_of_extend? more, List.mem_append] at member
        rcases member with old | new
        · exact twins.sound child old
        · rwa [List.mem_singleton.mp new]
      refine .appended twins (.loosened _ _) sound (.free (Content.keeps_append more))
        (appending.key_ne_repeated content) (Content.admits_key fits) fun null => ?_
      have kind := (Appending.kind_eq_of_extend? more).trans fits
      rw [Storage.detached.inj null] at kind
      cases appending <;> cases kind
  | node layout =>
    rw [Ground.storage]
    by_cases owned : allocator.owns ⟨place, layout.id⟩ = true
    · by_cases fits : layout.content.kind = appending.kind
      · obtain ⟨after, added, extended, equation, -, more, reshaped⟩ :=
          Appending.run_of_fits held owned fits room
        rw [equation, equation]
        have admits := Content.admits_key fits
        rw [← Content.admits_congr (Content.kind_map _ layout.content)] at admits
        exact .appended twins (.reshaped reshaped) trivial
          (.node_of_backing (Content.keeps_append more))
          (appending.key_ne_repeated layout.content) admits (Ground.storage_node_ne_null place _)
      · rw [Appending.run_of_other held owned fits, Appending.run_of_other held owned fits]
        exact .refused twins held _
    · rw [Appending.run_of_foreign owned, Appending.run_of_foreign owned]
      exact .refused twins held _

theorem run_removeMember (name : String) (twins : Twins place ground left right)
    (held : ground.Held heap place) :
    Alike heap place ground left right ((Operation.removeMember name).run heap left)
      ((Operation.removeMember name).run heap right) := by
  obtain ⟨own, tableLeft⟩ := left
  obtain ⟨other, tableRight⟩ := right
  obtain rfl : own = ground.storage place := twins.storage_left
  obtain rfl : other = ground.storage place := twins.storage_right
  have unchanged : Twins place ground ⟨ground.storage place, tableLeft.forgetMember name⟩
      ⟨ground.storage place, tableRight.forgetMember name⟩ :=
    twins.filterKeys twins.sound (.refl _ ground) fun _ => ChildKey.ne_of_kept
  have level : Level ⟨ground.storage place, tableLeft⟩ ⟨ground.storage place, tableRight⟩ →
      Level ⟨ground.storage place, tableLeft.forgetMember name⟩
        ⟨ground.storage place, tableRight.forgetMember name⟩ := fun before => before.filterKeys _
  cases ground with
  | free content =>
    cases content with
    | object members =>
      have sound : (Ground.free (.object (Content.withoutName name members))).Sound := by
        intro child member
        obtain ⟨pair, kept, rfl⟩ := List.mem_map.mp member
        exact twins.sound pair.2 (List.mem_map_of_mem (List.mem_filter.mp kept).1)
      exact ⟨rfl, rfl, ⟨_, .loosened _ _, twins.filterKeys sound
        (.free (Content.keeps_withoutName name members)) fun _ => ChildKey.ne_of_kept⟩,
        fun _ => .of_ne (Ground.storage_object_ne_null place _)⟩
    | _ => exact ⟨rfl, rfl, ⟨_, .stays held, unchanged⟩, level⟩
  | node layout =>
    by_cases object : layout.content.kind = .object
    · cases shape : layout.content <;> rw [shape] at object <;> cases object
      rename_i members
      obtain ⟨after, equation, reshaped⟩ := Value.removeMember_of_object held shape name
      simp only [Operation.run, Ground.storage, equation]
      have keeps := Content.keeps_withoutName name members
      rw [← shape] at keeps
      exact ⟨rfl, rfl, ⟨_, .reshaped reshaped,
        twins.filterKeys trivial (.node keeps) fun _ => ChildKey.ne_of_kept⟩,
        fun _ => .of_ne (Ground.storage_node_ne_null place _)⟩
    · simp only [Operation.run, Ground.storage, Value.removeMember_of_other held object]
      exact ⟨rfl, rfl, ⟨_, .stays held, unchanged⟩, level⟩

/-- No operation tells twins apart. -/
theorem run {operation : Operation} (loose : operation.HasLooseOperand)
    (twins : Twins place ground left right) (held : ground.Held heap place)
    (room : ground.HasRoom (operation.run heap left).heap place) :
    Alike heap place ground left right (operation.run heap left) (operation.run heap right) := by
  cases operation with
  | assign operand => exact run_assign left right ground loose
  | set content => exact twins.run_set content held
  | addMember name operand allocator => exact twins.run_append (.member name) loose held room
  | pushBack operand allocator => exact twins.run_append .element loose held room
  | removeMember name => exact twins.run_removeMember name held

/-! ### Edits along a path -/

end Twins

/-- An edit along a path edits what is met at the first key and writes it there. -/
theorem Ground.Held.edited {β : Type} (held : ground.Held heap place) {table : Children Value}
    (distinct : table.keys.Nodup) (key : ChildKey) (change : Heap → Value → Value.Edited β)
    (rest : List ChildKey) :
    ∃ written, Value.edit heap ⟨ground.storage place, table⟩ change (key :: rest) =
        { (ground.meets place table key).1.edit heap change rest with
          value := ⟨ground.storage place, written⟩ } ∧
      written.keys.Nodup ∧ ∀ other, written.find? other =
        if other = key then
          some (((ground.meets place table key).1.edit heap change rest).value,
            (ground.meets place table key).2)
        else table.find? other := by
  have reached := held.looked_reach distinct key
  have child := reached.child (ground.storage place)
  obtain ⟨written, equal, distinct, find⟩ := reached.written (ground.storage place)
    ((ground.meets place table key).1.edit heap change rest).value
  refine ⟨written, ?_, distinct, find⟩
  rw [← equal, ← child]
  rfl

namespace Twins

/-- No edit along a path tells twins apart. -/
theorem edit {operation : Operation} (loose : operation.HasLooseOperand) (path : List Selector)
    (twins : Twins place ground left right) (held : ground.Held heap place)
    (room : ground.HasRoom
      (left.edit heap operation.run (path.map Selector.key)).heap place) :
    Alike heap place ground left right (left.edit heap operation.run (path.map Selector.key))
      (right.edit heap operation.run (path.map Selector.key)) := by
  induction path generalizing ground left right with
  | nil => exact twins.run loose held room
  | cons selector rest inductionHypothesis =>
    obtain ⟨own, tableLeft⟩ := left
    obtain ⟨other, tableRight⟩ := right
    obtain rfl : own = ground.storage place := twins.storage_left
    obtain rfl : other = ground.storage place := twins.storage_right
    obtain ⟨source, here⟩ := twins.meets selector.genuine
    obtain ⟨writtenLeft, editLeft, distinctLeft, findLeft⟩ := held.edited twins.distinct_left
      selector.key operation.run (rest.map Selector.key)
    obtain ⟨writtenRight, editRight, distinctRight, findRight⟩ := held.edited twins.distinct_right
      selector.key operation.run (rest.map Selector.key)
    rw [List.map_cons, editLeft] at room
    have roomBelow : source.HasRoom ((ground.meets place tableLeft selector.key).1.edit heap
        operation.run (rest.map Selector.key)).heap place := by
      cases source with
      | free content => trivial
      | node layout =>
        obtain ⟨outer, rfl, -⟩ := here.derived layout rfl
        exact room
    have below := inductionHypothesis here.twins (held.of_pairs here.toPairs) roomBelow
    obtain ⟨source', moves, twinsBelow⟩ := below.twins
    obtain ⟨ground', moved, storage, sound, keeps, derived⟩ :=
      moves.above held twins.sound selector.genuine here.derived
    rw [List.map_cons, editLeft, editRight]
    rw [← here.flag] at findRight
    refine ⟨below.heap, below.result, ⟨ground', moved, ?_⟩, fun before =>
      before.of_find? rfl findLeft findRight⟩
    rw [← storage]
    exact twins.replace keeps sound selector.genuine distinctLeft distinctRight findLeft findRight
      twinsBelow derived fun placeholder admits =>
        below.level (here.level placeholder (keeps.admits admits))

end Twins

end JsonOverlay
