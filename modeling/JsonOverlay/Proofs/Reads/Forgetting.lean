/-
This file shows that twins stay twins when both forget the same looked-up children: those
that may no longer be right, or a placeholder to which nothing was done where there may be a
child by now.
-/

import JsonOverlay.Proofs.Editing.Level
import JsonOverlay.Proofs.Reads.Looking

namespace JsonOverlay

variable {heap : Heap} {place : ArenaId} {ground ground' : Ground} {key : ChildKey}
  {left right : Value}

/-! ### Levels that keep children -/

namespace Content

variable {α : Type} {content extended : Content α} {child : α}

theorem mem_keys_of_child? (genuine : ∀ position, key = .repeated position → key ∈ content.keys)
    (found : content.child? key = some child) : key ∈ content.keys := by
  cases key with
  | member name => exact mem_keys_of_member? found
  | element index => exact mem_keys_of_element? found
  | repeated position => exact genuine position rfl

theorem child?_of_notMem_keys (genuine : ∀ position, key = .repeated position → key ∈ content.keys)
    (absent : key ∉ content.keys) : content.child? key = none :=
  Option.eq_none_iff_forall_ne_some.mpr fun _ found => absent (mem_keys_of_child? genuine found)

/-- One more child leaves the others at their keys. -/
theorem Extends.keeps {new : ChildKey} {kept : ChildKey → Prop}
    (more : Extends content extended new child) (kind : extended.kind = content.kind)
    (fresh : kept new → new ∈ content.keys ∨ ∃ position, new = .repeated position) :
    content.Keeps kept extended where
  kind := kind
  keys other _ inside := by
    rw [more.keys]
    exact List.mem_append_left _ inside
  same other inKept genuine := by
    by_cases inside : other ∈ content.keys
    · exact more.same other inside
    · have different : other ≠ new := by
        rintro rfl
        rcases fresh inKept with present | ⟨position, repeated⟩
        · exact inside present
        · exact inside (genuine position repeated)
      have absent : other ∉ extended.keys := by
        rw [more.keys, List.mem_append, List.mem_singleton, not_or]
        exact ⟨inside, different⟩
      rw [child?_of_notMem_keys genuine inside, child?_of_notMem_keys (fun position repeated =>
        (inside (genuine position repeated)).elim) absent]

/-- A child that is appended takes nobody's key. -/
theorem keeps_append {appending : Appending}
    (more : appending.extend? content child = some extended) :
    content.Keeps
      (fun other => other = appending.key content → content.child? (appending.key content) ≠ none)
      extended := by
  have last := Appending.extends_of_extend? more
  refine last.keeps (Appending.kind_eq_of_extend? more) fun kept => ?_
  cases appending with
  | member name =>
    rw [Appending.newKey, keyBehind] at kept ⊢
    split at kept
    · rename_i known
      rw [if_pos known]
      exact .inr ⟨_, rfl⟩
    · rename_i new
      rw [if_neg new]
      obtain ⟨other, present⟩ := Option.ne_none_iff_exists'.mp (kept rfl)
      exact .inl (mem_keys_of_member? present)
  | element =>
    obtain ⟨other, present⟩ := Option.ne_none_iff_exists'.mp (kept rfl)
    exact .inl (mem_keys_of_element? present)

/-- Where a child was appended there could be one before. -/
theorem admits_key {appending : Appending} (fits : content.kind = appending.kind) :
    content.admits (appending.key content) := by
  cases appending <;> cases content <;> cases fits <;> trivial

/-- The members with other names stay, but not at their positions. -/
theorem keeps_withoutName (name : String) (members : List (String × α)) :
    (object members).Keeps (fun key => key ≠ .member name ∧ ∀ position, key ≠ .repeated position)
      (object (withoutName name members)) where
  kind := rfl
  keys key kept inside := by
    cases key with
    | member other =>
      exact member_mem_keys_withoutName.mpr ⟨fun same => kept.1 (same ▸ rfl), inside⟩
    | repeated position => exact absurd rfl (kept.2 position)
    | element index => exact absurd inside element_notMem_memberKeysFrom
  same key kept _ := by
    cases key with
    | member other => exact lookup_withoutName (fun same => kept.1 (congrArg ChildKey.member same)) members
    | repeated position => exact absurd rfl (kept.2 position)
    | element index => rfl

end Content

/-! ### Forgetting -/

namespace Twins

/-- What a lookup comes to after a placeholder was forgotten. -/
theorem meets_forgetPlaceholder (named : ∀ position, key ≠ .repeated position)
    (level : (ground.backing place).child? key ≠ none →
      (ground'.backing place).child? key = (ground.backing place).child? key)
    (children : Children Value) :
    ground'.meets place (children.forgetPlaceholder key Value.isBlank) key =
      if (ground.meets place children key).2 && (ground.meets place children key).1.isBlank then
        ground'.found place key
      else ground.meets place children key := by
  have shownIf : ∀ child placeholder,
      Value.isShown key child placeholder = !(placeholder && child.isBlank) := by
    intro child placeholder
    cases key <;> first | rfl | exact absurd rfl (named _)
  have sameFound : (ground.backing place).child? key ≠ none →
      ground'.found place key = ground.found place key := by
    intro present
    rw [Ground.found, Ground.found, level present]
  have foundSolid : (ground.backing place).child? key ≠ none → (ground.found place key).2 = false := by
    intro present
    obtain ⟨child, behind⟩ := Option.ne_none_iff_exists'.mp present
    rw [Ground.found, behind]
  have find := children.find?_forgetPlaceholder key Value.isBlank key
  rw [if_pos rfl] at find
  cases known : children.find? key with
  | none =>
    rw [known] at find
    rw [Ground.meets_of_none known, Ground.meets_of_none find]
    by_cases present : (ground.backing place).child? key = none
    · have null : ground.found place key = (Value.null, true) := by rw [Ground.found, present]
      rw [null]
      rfl
    · rw [foundSolid present, sameFound present]
      rfl
  | some entry =>
    obtain ⟨child, placeholder⟩ := entry
    simp only [known, Option.filter_some] at find
    by_cases blank : (placeholder && child.isBlank) = true
    · rw [blank] at find
      rw [Ground.meets_of_none find]
      by_cases present : (ground.backing place).child? key = none
      · rw [Ground.meets_of_settled known (.inr present), blank]
        rfl
      · rw [Ground.meets_of_hidden known (by rw [shownIf, blank]; rfl) present, foundSolid present,
          sameFound present]
        rfl
    · rw [Bool.not_eq_true] at blank
      rw [blank] at find
      have shown : Value.isShown key child placeholder = true := by rw [shownIf, blank]; rfl
      rw [Ground.meets_of_settled known (.inl shown), Ground.meets_of_settled find (.inl shown),
        blank]
      rfl

/-- Twins whose level may have come to have a child at a key. -/
theorem forgetPlaceholder {kept : ChildKey → Prop} (twins : Twins place ground left right)
    (sound : ground'.Sound) (keeps : ground.Keeps kept ground')
    (others : ∀ other, other ≠ key → kept other)
    (here : (ground.backing place).child? key ≠ none → kept key)
    (named : ∀ position, key ≠ .repeated position) (admits : (ground.backing place).admits key) :
    Twins place ground'
      ⟨ground'.storage place, left.children.forgetPlaceholder key Value.isBlank⟩
      ⟨ground'.storage place, right.children.forgetPlaceholder key Value.isBlank⟩ := by
  refine Twins.intro sound (Children.nodup_forgetPlaceholder twins.distinct_left _ _)
    (Children.nodup_forgetPlaceholder twins.distinct_right _ _) fun other member => ?_
  by_cases same : other = key
  · subst same
    have genuine : ∀ ground : Ground, ground.Genuine place other := fun ground position repeated =>
      absurd repeated (named position)
    have level : (ground.backing place).child? other ≠ none →
        (ground'.backing place).child? other = (ground.backing place).child? other := fun present =>
      (keeps.backing place).same other (here present) (genuine ground)
    obtain ⟨source, related⟩ := twins.meets (genuine ground)
    have transferred : ∃ source, TwinsAt place ground' other source
        (ground.meets place left.children other) (ground.meets place right.children other) := by
      refine ⟨source, related.transfer (fun outer layout equal found => ?_) (genuine ground')
        keeps.admits⟩
      refine keeps.derived (here fun absent => ?_) (genuine ground) equal found
      rw [equal, Ground.backing, Content.child?_map, found] at absent
      cases absent
    rw [meets_forgetPlaceholder named level, meets_forgetPlaceholder named level, ← related.flag]
    cases placeholder : (ground.meets place left.children other).2 with
    | false => exact transferred
    | true =>
      rw [← related.twins.isBlank_eq (related.level placeholder admits)]
      cases (ground.meets place left.children other).1.isBlank with
      | false => exact transferred
      | true => exact Twins.found sound (genuine ground')
  · have unchanged : ∀ children : Children Value,
        (children.forgetPlaceholder key Value.isBlank).find? other = children.find? other := by
      intro children
      rw [Children.find?_forgetPlaceholder, if_neg same]
    exact twins.keep keeps (others other same) (unchanged _) (unchanged _) member

/-- Twins that forget the same keys. -/
theorem filterKeys {kept : ChildKey → Prop} {keep : ChildKey → Bool}
    (twins : Twins place ground left right) (sound : ground'.Sound)
    (keeps : ground.Keeps kept ground') (only : ∀ key, keep key = true → kept key) :
    Twins place ground' ⟨ground'.storage place, left.children.filterKeys keep⟩
      ⟨ground'.storage place, right.children.filterKeys keep⟩ := by
  refine Twins.intro sound (Children.nodup_filterKeys twins.distinct_left _)
    (Children.nodup_filterKeys twins.distinct_right _) fun other member => ?_
  have stays : keep other = true := by
    rw [Children.keys_filterKeys, Children.keys_filterKeys, List.mem_filter, List.mem_filter]
      at member
    exact member.elim And.right And.right
  have unchanged : ∀ children : Children Value,
      (children.filterKeys keep).find? other = children.find? other := by
    intro children
    rw [Children.find?_filterKeys, if_pos stays]
  exact twins.keep keeps (only other stays) (unchanged _) (unchanged _) member

end Twins

theorem Level.filterKeys {storage : Storage Value} {first second : Children Value}
    (level : Level ⟨storage, first⟩ ⟨storage, second⟩) (keep : ChildKey → Bool) :
    Level ⟨storage, first.filterKeys keep⟩ ⟨storage, second.filterKeys keep⟩ := by
  intro null key
  show (first.filterKeys keep).find? key = none ↔ (second.filterKeys keep).find? key = none
  rw [Children.find?_filterKeys, Children.find?_filterKeys]
  by_cases kept : keep key = true
  · rw [if_pos kept, if_pos kept]
    exact level null key
  · rw [if_neg kept, if_neg kept]

end JsonOverlay
