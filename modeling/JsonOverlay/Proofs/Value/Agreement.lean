/-
This file shows that all ways of getting at the children of a value agree. Following a path,
walking over members, and visiting elements are lookups one after the other, so they leave a
value as it is, and each of them comes upon the children that the value shows, in order.
-/

import JsonOverlay.Proofs.Editing.Level
import JsonOverlay.Proofs.Editing.Lookup
import JsonOverlay.Proofs.Value.Lookups

namespace JsonOverlay

/-! ### Counting down -/

/-- Some things, each with the number of those from it on. -/
def countdown {α : Type} : List α → List (Nat × α)
  | [] => []
  | first :: rest => (rest.length + 1, first) :: countdown rest

theorem length_countdown {α : Type} (items : List α) : (countdown items).length = items.length := by
  induction items with
  | nil => rfl
  | cons first rest inductionHypothesis =>
    rw [countdown, List.length_cons, List.length_cons, inductionHypothesis]

theorem countdown_map {α β : Type} (change : α → β) (items : List α) :
    countdown (items.map change) =
      (countdown items).map fun (left, item) => (left, change item) := by
  induction items with
  | nil => rfl
  | cons first rest inductionHypothesis =>
    rw [List.map_cons, countdown, countdown, inductionHypothesis, List.length_map, List.map_cons]

namespace Value

variable {heap : Heap} {value after : Value} {key : ChildKey}

/-! ### What consists of lookups -/

theorem lookups_foldl {keys : List ChildKey}
    (rest : Lookups heap (keys.foldl (fun value key => value.look heap key) value) after) :
    Lookups heap value after := by
  induction keys generalizing value with
  | nil => exact rest
  | cons key keys inductionHypothesis => exact .here .look (inductionHypothesis rest)

/-- Following a path for reading, whether it leads anywhere or not. -/
theorem lookups_read (heap : Heap) (value : Value) (path : List Step) :
    Lookups heap value (value.read heap path).1 := by
  induction path generalizing value with
  | nil => exact .nothing
  | cons step rest inductionHypothesis =>
    rw [read]
    split
    · exact .nothing
    · rw [List.foldl_append]
      exact lookups_foldl (.deeper .look (inductionHypothesis _) .nothing)

/-- Following a path for writing at whose end nothing is done. -/
theorem lookups_edit (heap : Heap) (value : Value) (keys : List ChildKey) :
    ∃ after, value.edit heap (fun heap value => ⟨heap, value, ()⟩) keys = ⟨heap, after, ()⟩ ∧
      Lookups heap value after := by
  induction keys generalizing value with
  | nil => exact ⟨value, rfl, .nothing⟩
  | cons key rest inductionHypothesis =>
    obtain ⟨child, edited, inside⟩ := inductionHypothesis ((value.reach heap key).child key).value
    refine ⟨(value.reach heap key).writeChild key child, ?_, .deeper .reach inside .nothing⟩
    rw [edit, edited]

theorem lookups_walk (heap : Heap) (count : Nat) (cursor : MemberCursor) (value : Value) :
    Lookups heap value (MemberCursor.walk heap count cursor value).2.2 := by
  induction count generalizing cursor value with
  | zero => exact .nothing
  | succ count inductionHypothesis =>
    obtain ⟨_ | ⟨⟨name, key⟩, rest⟩⟩ := cursor
    · exact .nothing
    · exact .here .look (inductionHypothesis _ _)

theorem lookups_lookAll (heap : Heap) (value : Value) (indices : List UInt64) :
    Lookups heap value (ArrayCursor.lookAll heap value indices).2 := by
  induction indices generalizing value with
  | nil => exact .nothing
  | cons index rest inductionHypothesis => exact .here .look (inductionHypothesis _)

/-- Following a pointer for reading, whether it leads anywhere or not. -/
theorem lookups_pointer (heap : Heap) (value : Value) (tokens : List String) :
    Lookups heap value (Pointer.read heap value tokens).1 := by
  induction tokens generalizing value with
  | nil => exact .nothing
  | cons token rest inductionHypothesis =>
    rw [Pointer.read]
    split
    · exact .nothing
    · exact .deeper .look (inductionHypothesis _) .nothing

/-! ### Members -/

/-- A walk meets what is shown at the keys that it has still to visit. -/
theorem walk_visits (levelled : heap.Levelled) (keyed : value.Keyed) (count : Nat)
    {pending : List (String × ChildKey)}
    (inside : ∀ member ∈ pending, member.2 ∈ (value.visible heap).content.keys) :
    (MemberCursor.walk heap count ⟨pending⟩ value).1.map (fun visit =>
        (visit.remaining, visit.name, some (visit.value.visible heap))) =
      (countdown (pending.map fun (name, key) =>
        (name, (value.visible heap).content.child? key))).take count := by
  induction count generalizing value pending with
  | zero => rfl
  | succ count inductionHypothesis =>
    cases pending with
    | nil => rfl
    | cons first rest =>
      obtain ⟨name, key⟩ := first
      obtain ⟨here, others⟩ := List.forall_mem_cons.mp inside
      have looks : LooksUp heap key value (value.look heap key) := .look
      have keeps := looks.keeps levelled keyed
      have found := looks.finds levelled keyed here
      rw [← keeps.visible_eq] at others
      have later := inductionHypothesis keeps.keyed others
      rw [keeps.visible_eq] at later
      simp only [MemberCursor.walk, MemberCursor.next?, List.map_cons, later, countdown,
        List.take_succ_cons, found, MemberCursor.remaining, List.length_cons, List.length_map]

theorem pending_walk (heap : Heap) (count : Nat) (cursor : MemberCursor) (value : Value) :
    (MemberCursor.walk heap count cursor value).2.1.pending = cursor.pending.drop count := by
  induction count generalizing cursor value with
  | zero => rfl
  | succ count inductionHypothesis =>
    obtain ⟨_ | ⟨⟨name, key⟩, rest⟩⟩ := cursor
    · rfl
    · exact inductionHypothesis _ _

theorem memberNames_backing (levelled : heap.Levelled) (keyed : value.Keyed) :
    (value.backing heap).memberNames = (value.visible heap).content.memberNames := by
  have same := congrArg Content.memberNames (outline_content_visible levelled keyed)
  rw [Content.outline, Content.outline, Content.memberNames_map, Content.memberNames_map] at same
  exact same.symm

theorem size_backing (levelled : heap.Levelled) (keyed : value.Keyed) :
    value.size heap = (value.visible heap).content.size := by
  have same := congrArg Content.size (outline_content_visible levelled keyed)
  rw [Content.outline, Content.outline, Content.size_map, Content.size_map] at same
  exact same.symm

/-- A walk from the start meets the members that a value shows, in order, and counts them
down. -/
theorem walk_start (levelled : heap.Levelled) (keyed : value.Keyed) (count : Nat) :
    (MemberCursor.walk heap count (.start value heap) value).1.map (fun visit =>
        (visit.remaining, visit.name, visit.value.visible heap)) =
      (countdown (value.visible heap).content.members).take count := by
  have inside : ∀ member ∈ (value.visible heap).content.memberNames.zip
      (memberKeys (value.visible heap).content.memberNames),
      member.2 ∈ (value.visible heap).content.keys := fun _ => Content.mem_keys_of_mem_zip
  have visits := walk_visits levelled keyed count inside
  rw [Content.map_child?_zip_memberKeys, countdown_map, ← List.map_take,
    ← memberNames_backing levelled keyed] at visits
  have injective : Function.Injective fun visit : Nat × String × Tree =>
      (visit.1, visit.2.1, some visit.2.2) := by
    rintro ⟨left, name, shown⟩ ⟨other, name', shown'⟩ same
    cases same
    rfl
  refine List.map_injective_iff.mpr injective ?_
  rw [List.map_map]
  exact visits

/-- The members that are left after some were visited. -/
theorem remaining_walk_start (levelled : heap.Levelled) (keyed : value.Keyed) (count : Nat) :
    (MemberCursor.walk heap count (.start value heap) value).2.1.remaining =
      (value.visible heap).content.members.length - count := by
  have names : (value.visible heap).content.memberNames.length =
      (value.visible heap).content.members.length := by
    cases (value.visible heap).content <;> simp [Content.memberNames, Content.members]
  rw [MemberCursor.remaining, pending_walk, List.length_drop, MemberCursor.start,
    memberNames_backing levelled keyed, List.length_zip, length_memberKeys, Nat.min_self, names]

theorem hasNext_iff (cursor : MemberCursor) : cursor.hasNext = true ↔ 0 < cursor.remaining := by
  obtain ⟨_ | ⟨first, rest⟩⟩ := cursor
  all_goals simp [MemberCursor.hasNext, MemberCursor.remaining]

theorem find?_countdown (members : List (String × Tree)) (name : String) :
    ((countdown members).find? fun met => met.2.1 == name).map (fun met => met.2.2) =
      members.lookup name := by
  induction members with
  | nil => rfl
  | cons member rest inductionHypothesis =>
    obtain ⟨other, shown⟩ := member
    by_cases same : name = other
    · subst same
      simp [countdown]
    · rw [countdown, List.find?_cons_of_neg (by simpa using Ne.symm same), inductionHypothesis,
        List.lookup_cons, beq_false_of_ne same]

/-- The first member with a name that a walk meets is the one that is shown. -/
theorem find?_walk_start (levelled : heap.Levelled) (keyed : value.Keyed) (name : String) :
    ((MemberCursor.walk heap (value.visible heap).content.members.length (.start value heap)
        value).1.find? fun visit => visit.name == name).map (fun visit => visit.value.visible heap) =
      (value.visible heap).content.member? name := by
  have visits := walk_start levelled keyed (value.visible heap).content.members.length
  rw [List.take_of_length_le (length_countdown _).le] at visits
  have named : (value.visible heap).content.member? name =
      (value.visible heap).content.members.lookup name := by
    cases (value.visible heap).content <;> rfl
  rw [named, ← find?_countdown, ← visits, List.find?_map, Option.map_map]
  rfl

/-! ### Elements -/

/-- Elements that are visited are those that are shown. -/
theorem lookAll_shows (levelled : heap.Levelled) (keyed : value.Keyed) {indices : List UInt64}
    (inside : ∀ index ∈ indices, .element index.toNat ∈ (value.visible heap).content.keys) :
    (ArrayCursor.lookAll heap value indices).1.map (fun item => some (item.visible heap)) =
      indices.map fun index => (value.visible heap).content.element? index.toNat := by
  induction indices generalizing value with
  | nil => rfl
  | cons index rest inductionHypothesis =>
    obtain ⟨here, others⟩ := List.forall_mem_cons.mp inside
    have looks : LooksUp heap (.element index.toNat) value
        (value.look heap (.element index.toNat)) := .look
    have keeps := looks.keeps levelled keyed
    have found := looks.finds levelled keyed here
    rw [← keeps.visible_eq] at others
    have later := inductionHypothesis keeps.keyed others
    rw [keeps.visible_eq] at later
    have shown : (value.visible heap).content.element? index.toNat = _ := found
    simp only [ArrayCursor.lookAll, List.map_cons, later, shown]

/-! ### Paths -/

/-- Following a path of the tree that a value shows leads to what is at its end. -/
theorem read_shows (levelled : heap.Levelled) (keyed : value.Keyed) {path : List Step}
    {found : Tree} (follow : (value.visible heap).follow? path = some found) :
    ∃ reference target, (value.read heap path).2 = some reference ∧
      (value.read heap path).1.at? reference = some target ∧ target.visible heap = found := by
  induction path generalizing value with
  | nil => exact ⟨[], value, rfl, rfl, Option.some.inj follow⟩
  | cons step rest inductionHypothesis =>
    obtain ⟨child, stepped, later⟩ := Option.bind_eq_some_iff.mp follow
    obtain ⟨passed, key, keys, -, member, shown⟩ := Content.exists_keys?_of_stepTo? stepped
      (outline_content_visible levelled keyed).symm
    have passing : Keeps heap value (passed.foldl (fun value key => value.look heap key) value) :=
      (lookups_foldl .nothing).keeps levelled keyed
    have looks : LooksUp heap key (passed.foldl (fun value key => value.look heap key) value) _ :=
      .look
    rw [← passing.visible_eq] at member shown
    have reached := Option.some.inj
      ((looks.finds levelled passing.keyed member).symm.trans shown)
    rw [← reached] at later
    obtain ⟨reference, target, answer, means, shows⟩ :=
      inductionHypothesis (closed_keyed.child (looks.keyed passing.keyed) key) later
    obtain ⟨entry, present, -, -⟩ := exists_get?_of_find? ((looks.find?_eq key).trans (if_pos rfl))
    simp only [read, keys, List.foldl_append, List.foldl_cons, List.foldl_nil, answer]
    refine ⟨_, target, rfl, ?_, shows⟩
    rw [child_eq present] at means ⊢
    exact (at?_writeChild present _ reference).trans means

/-- Following a path for writing leads to what the value shows at its end. -/
theorem edit_shows (levelled : heap.Levelled) (keyed : value.Keyed) {path : List ChildKey}
    {found : Tree} (named : (value.visible heap).at? path = some found) {β : Type}
    (change : Heap → Value → Edited β) :
    ∃ target, target.visible heap = found ∧
      (value.edit heap change path).heap = (change heap target).heap ∧
      (value.edit heap change path).result = (change heap target).result := by
  induction path generalizing value with
  | nil => exact ⟨value, Option.some.inj named, rfl, rfl⟩
  | cons key rest inductionHypothesis =>
    obtain ⟨child, here, later⟩ := Option.bind_eq_some_iff.mp named
    have looks : LooksUp heap key value (value.reach heap key) := .reach
    have reached := Option.some.inj
      ((looks.finds levelled keyed (Content.mem_keys_of_named? here)).symm.trans
        (Content.child?_of_named? here))
    rw [← reached] at later
    exact inductionHypothesis (closed_keyed.child (looks.keyed keyed) key) later

end Value

namespace ArrayCursor

variable {ρ : Type} {cursor : ArrayCursor ρ}

theorem next_of_lt (some : cursor.index.toNat < cursor.finish.toNat) :
    cursor.next = (.some cursor.index, { cursor with index := cursor.index + 1 }) ∧
      (cursor.index + 1).toNat = cursor.index.toNat + 1 := by
  refine ⟨if_pos (UInt64.lt_iff_toNat_lt.mpr some), ?_⟩
  have bound := cursor.finish.toNat_lt
  rw [UInt64.toNat_add]
  exact Nat.mod_eq_of_lt (by simp only [UInt64.toNat_one]; omega)

theorem next_of_le (none : cursor.finish.toNat ≤ cursor.index.toNat) :
    cursor.next = (.none, cursor) :=
  if_neg fun before => absurd (UInt64.lt_iff_toNat_lt.mp before) (Nat.not_lt.mpr none)

/-- Steps from the front visit one index after the other. -/
theorem visited_eq (count : Nat) (cursor : ArrayCursor ρ) :
    (cursor.visited count).1.map UInt64.toNat =
        (List.range' cursor.index.toNat cursor.length).take count ∧
      (cursor.visited count).2.length = cursor.length - count := by
  induction count generalizing cursor with
  | zero => exact ⟨rfl, rfl⟩
  | succ count inductionHypothesis =>
    rcases Nat.lt_or_ge cursor.index.toNat cursor.finish.toNat with some | none
    · obtain ⟨next, index⟩ := next_of_lt some
      have shorter : cursor.length =
          ({ cursor with index := cursor.index + 1 } : ArrayCursor ρ).length + 1 := by
        simp only [length, index]
        omega
      obtain ⟨indices, left⟩ := inductionHypothesis { cursor with index := cursor.index + 1 }
      rw [index] at indices
      rw [visited, next, shorter, List.range'_succ, List.take_succ_cons, Nat.add_sub_add_right]
      exact ⟨congrArg _ indices, left⟩
    · have nothing : cursor.length = 0 := Nat.sub_eq_zero_of_le none
      rw [visited, next_of_le none, nothing]
      exact ⟨rfl, (Nat.zero_sub _).symm⟩

/-- A cursor at the first element visits all indices in order. -/
theorem visited_start {size : Nat} (small : size < 2 ^ 64) (array : ρ) (count : Nat) :
    ((start array size).visited count).1.map UInt64.toNat = (List.range size).take count ∧
      ((start array size).visited count).2.length = size - count := by
  have whole : (start array size).length = size := by
    rw [start, length, UInt64.toNat_ofNat_of_lt' small]
    rfl
  have visited := visited_eq count (start array size)
  rw [whole] at visited
  rwa [List.range_eq_range']

end ArrayCursor

/-! ### All ways at once -/

namespace Value

variable {heap : Heap} {value after : Value}

/-- All ways of getting at the children of a value come to what the value shows: getting one
for reading or for writing, following a path, walking over the members, and visiting the
elements. -/
structure Agrees (heap : Heap) (value : Value) : Prop where
  /-- Getting a member comes to the first one with its name. -/
  member : ∀ {name : String} {shown : Tree} {after : Value},
    (value.visible heap).content.member? name = some shown →
      LooksUp heap (.member name) value after →
        (after.child (.member name)).value.visible heap = shown
  element : ∀ {index : Nat} {shown : Tree} {after : Value},
    (value.visible heap).content.element? index = some shown →
      LooksUp heap (.element index) value after →
        (after.child (.element index)).value.visible heap = shown
  read : ∀ {path : List Step} {shown : Tree}, (value.visible heap).follow? path = some shown →
    ∃ reference target, (value.read heap path).2 = some reference ∧
      (value.read heap path).1.at? reference = some target ∧ target.visible heap = shown
  edit : ∀ {path : List ChildKey} {shown : Tree}, (value.visible heap).at? path = some shown →
    ∀ {β : Type} (change : Heap → Value → Edited β), ∃ target, target.visible heap = shown ∧
      (value.edit heap change path).heap = (change heap target).heap ∧
      (value.edit heap change path).result = (change heap target).result
  /-- A walk meets the members in order, and counts those that are left. -/
  walk : ∀ count, (MemberCursor.walk heap count (.start value heap) value).1.map (fun visit =>
      (visit.remaining, visit.name, visit.value.visible heap)) =
    (countdown (value.visible heap).content.members).take count
  remaining : ∀ count, (MemberCursor.walk heap count (.start value heap) value).2.1.remaining =
    (value.visible heap).content.members.length - count
  hasNext : ∀ count, (MemberCursor.walk heap count (.start value heap) value).2.1.hasNext = true ↔
    count < (value.visible heap).content.members.length
  /-- The first member with a name that a walk meets is the one that getting it comes to. -/
  first : ∀ name, ((MemberCursor.walk heap (value.visible heap).content.members.length
      (.start value heap) value).1.find? fun visit => visit.name == name).map
        (fun visit => visit.value.visible heap) = (value.visible heap).content.member? name
  /-- Visits from the front meet the elements in order, if positions can count them. -/
  elements : value.size heap < 2 ^ 64 → ∀ {ρ : Type} (array : ρ) (count : Nat),
    (ArrayCursor.lookAll heap value
        ((ArrayCursor.start array (value.size heap)).visited count).1).1.map
          (fun item => some (item.visible heap)) =
      ((List.range (value.visible heap).content.size).take count).map
        (value.visible heap).content.element?
  left : value.size heap < 2 ^ 64 → ∀ {ρ : Type} (array : ρ) (count : Nat),
    ((ArrayCursor.start array (value.size heap)).visited count).2.length =
      (value.visible heap).content.size - count

theorem elements_start (levelled : heap.Levelled) (keyed : value.Keyed)
    (small : value.size heap < 2 ^ 64) {ρ : Type} (array : ρ) (count : Nat) :
    (ArrayCursor.lookAll heap value
        ((ArrayCursor.start array (value.size heap)).visited count).1).1.map
          (fun item => some (item.visible heap)) =
      ((List.range (value.visible heap).content.size).take count).map
        (value.visible heap).content.element? := by
  have indices := (ArrayCursor.visited_start small array count).1
  rw [← size_backing levelled keyed, ← indices, List.map_map]
  refine lookAll_shows levelled keyed fun index visited => ?_
  have inside := List.mem_of_mem_take (indices ▸ List.mem_map_of_mem visited)
  rw [List.mem_range, size_backing levelled keyed] at inside
  cases level : (value.visible heap).content with
  | array items =>
    rw [level] at inside
    exact element_mem_elementKeys.mpr inside
  | _ =>
    rw [level] at inside
    exact absurd inside (Nat.not_lt_zero _)

theorem agrees (levelled : heap.Levelled) (keyed : value.Keyed) : value.Agrees heap where
  member shown looks := by
    have found := looks.finds levelled keyed (Content.mem_keys_of_member? shown)
    exact Option.some.inj (found.symm.trans shown)
  element shown looks := by
    have found := looks.finds levelled keyed (Content.mem_keys_of_element? shown)
    exact Option.some.inj (found.symm.trans shown)
  read := read_shows levelled keyed
  edit named _ change := edit_shows levelled keyed named change
  walk := walk_start levelled keyed
  remaining := remaining_walk_start levelled keyed
  hasNext count := by
    rw [hasNext_iff, remaining_walk_start levelled keyed]
    exact Nat.sub_pos_iff_lt
  first := find?_walk_start levelled keyed
  elements small _ array := elements_start levelled keyed small array
  left small _ array count := by
    rw [← size_backing levelled keyed]
    exact (ArrayCursor.visited_start small array count).2

end Value

end JsonOverlay
