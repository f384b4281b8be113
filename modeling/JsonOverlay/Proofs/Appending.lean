/-
This file says what it means that a child is appended to a level. It comes to stand behind all
others, under a name in an object, and every other child stays at its key. What the children are
does not matter: appending goes with changing them all.
-/

import JsonOverlay.Proofs.Content

namespace JsonOverlay

/-! ### One more child -/

namespace Content

variable {α : Type} {key : ChildKey} {child : α}

/-- More members at the end leave those before under their keys. -/
theorem child?_append_members {members : List (String × α)} (more : List (String × α))
    (found : (object members).child? key = some child) :
    (object (members ++ more)).child? key = some child := by
  cases key with
  | member name =>
    have early : members.lookup name = some child := found
    show (members ++ more).lookup name = some child
    rw [List.lookup_append, early]
    rfl
  | repeated position =>
    obtain ⟨entry, present, same⟩ := Option.map_eq_some_iff.mp found
    have bound := (List.getElem?_eq_some_iff.mp present).1
    show ((members ++ more)[position]?).map Prod.snd = some child
    rw [List.getElem?_append_left bound, present, Option.map_some, same]
  | element index => cases found

/-- More elements at the end leave those before under their indices. -/
theorem child?_append_items {items : List α} (more : List α)
    (found : (array items).child? key = some child) :
    (array (items ++ more)).child? key = some child := by
  cases key with
  | element index =>
    have present : items[index]? = some child := found
    have bound := (List.getElem?_eq_some_iff.mp present).1
    show (items ++ more)[index]? = some child
    rw [List.getElem?_append_left bound, present]
  | member name => cases found
  | repeated position => cases found

/-- A level with one more child, which comes last. -/
structure Extends (content extended : Content α) (key : ChildKey) (child : α) : Prop where
  keys : extended.keys = content.keys ++ [key]
  same : ∀ other ∈ content.keys, extended.child? other = content.child? other
  last : extended.child? key = some child

/-- The key of a member that is added behind members with some names. -/
def keyBehind (names : List String) (name : String) : ChildKey :=
  if name ∈ names then .repeated names.length else .member name

theorem extends_object (members : List (String × α)) (name : String) (child : α) :
    Extends (object members) (object (members ++ [(name, child)]))
      (keyBehind (members.map Prod.fst) name) child := by
  refine ⟨?_, fun other inside => ?_, ?_⟩
  · rw [keys, List.map_append]
    exact memberKeys_append _ _
  · obtain ⟨found, -, present⟩ := exists_child_of_mem_keys inside
    rw [present, child?_append_members _ present]
  · unfold keyBehind
    split
    · show ((members ++ [(name, child)])[(members.map Prod.fst).length]?).map Prod.snd = _
      simp
    · rename_i new
      exact lookup_append_cons new

theorem extends_array (items : List α) (child : α) :
    Extends (array items) (array (items ++ [child])) (.element items.length) child := by
  refine ⟨?_, fun other inside => ?_, ?_⟩
  · rw [keys, List.length_append, List.length_singleton]
    exact elementKeys_succ _
  · obtain ⟨found, -, present⟩ := exists_child_of_mem_keys inside
    rw [present, child?_append_items _ present]
  · show (items ++ [child])[items.length]? = some child
    simp

end Content

/-! ### Appending -/

/-- Where a child is appended: behind the members of an object, under a name, or behind the
elements of an array. -/
inductive Appending where
  | member (name : String)
  | element

namespace Appending

variable {α β : Type}

/-- The type that a value must have. -/
def kind : Appending → Kind
  | member _ => .object
  | element => .array

/-- The key under which the child is looked for. -/
def key (content : Content α) : Appending → ChildKey
  | member name => .member name
  | element => .element content.size

/-- A level with one child more, which stands behind all others. -/
def extend? (content : Content α) (child : α) : Appending → Option (Content α)
  | member name =>
    match content with
    | .object members => some (.object (members ++ [(name, child)]))
    | _ => none
  | element =>
    match content with
    | .array items => some (.array (items ++ [child]))
    | _ => none

variable {appending : Appending} {content extended : Content α} {child : α}

/-- The key by which the level with the child knows it. A name may have come up before, and then
the child is known by its position. -/
def newKey (content : Content α) : Appending → ChildKey
  | member name => Content.keyBehind content.memberNames name
  | element => .element content.size

@[simp]
theorem key_map (appending : Appending) (change : α → β) (content : Content α) :
    appending.key (content.map change) = appending.key content := by
  cases appending with
  | member name => rfl
  | element => exact congrArg ChildKey.element (Content.size_map change content)

@[simp]
theorem newKey_map (appending : Appending) (change : α → β) (content : Content α) :
    appending.newKey (content.map change) = appending.newKey content := by
  cases appending with
  | member name =>
    exact congrArg (Content.keyBehind · name) (Content.memberNames_map change content)
  | element => exact congrArg ChildKey.element (Content.size_map change content)

theorem key_ne_repeated (appending : Appending) (content : Content α) (position : Nat) :
    appending.key content ≠ .repeated position := by
  cases appending <;> rintro ⟨⟩

/-- Appending does not rest on what the children are. -/
theorem extend?_map (appending : Appending) (change : α → β) (content : Content α) (child : α) :
    appending.extend? (content.map change) (change child) =
      (appending.extend? content child).map (Content.map change) := by
  cases appending <;> cases content <;> simp [extend?, Content.map]

/-! ### When a level can be extended -/

/-- The type of a level decides whether it can be extended. -/
theorem exists_extend? (fits : content.kind = appending.kind) (child : α) :
    ∃ extended, appending.extend? content child = some extended := by
  cases appending <;> cases content <;> cases fits
  · exact ⟨_, rfl⟩
  · exact ⟨_, rfl⟩

theorem extend?_of_ne (other : content.kind ≠ appending.kind) (child : α) :
    appending.extend? content child = none := by
  cases appending <;> cases content <;> first | rfl | exact absurd rfl other

theorem kind_of_extend? (more : appending.extend? content child = some extended) :
    content.kind = appending.kind := by
  by_contra other
  rw [extend?_of_ne other] at more
  cases more

/-! ### A level that was extended -/

/-- The child comes to stand behind all others. -/
theorem extends_of_extend? (more : appending.extend? content child = some extended) :
    content.Extends extended (appending.newKey content) child := by
  cases appending with
  | member name =>
    cases content <;> cases more
    exact Content.extends_object _ name child
  | element =>
    cases content <;> cases more
    exact Content.extends_array _ child

theorem kind_eq_of_extend? (more : appending.extend? content child = some extended) :
    extended.kind = content.kind := by
  cases appending <;> cases content <;> cases more <;> rfl

theorem children_of_extend? (more : appending.extend? content child = some extended) :
    extended.children = content.children ++ [child] := by
  cases appending <;> cases content <;> cases more
  · exact List.map_append
  · rfl

/-- The children that were there stay under all their keys. -/
theorem child?_of_extend? {key : ChildKey} {other : α}
    (more : appending.extend? content child = some extended)
    (found : content.child? key = some other) : extended.child? key = some other := by
  cases appending <;> cases content <;> cases more
  · exact Content.child?_append_members _ found
  · exact Content.child?_append_items _ found

/-- Where the child is looked for there is one, if only an earlier one with its name. -/
theorem child?_key_ne_none (more : appending.extend? content child = some extended) :
    extended.child? (appending.key content) ≠ none := by
  cases appending with
  | member name =>
    cases content <;> cases more
    rw [key, Content.child?, ne_eq, Content.member?_eq_none_iff]
    simp [Content.memberNames]
  | element =>
    cases content <;> cases more
    simp [key, Content.size, Content.child?, Content.element?]

theorem newKey_eq_of_outline_eq {first : Content α} {second : Content β}
    (appending : Appending) (same : first.outline = second.outline) :
    appending.newKey first = appending.newKey second := by
  have keys := congrArg appending.newKey same
  simpa only [Content.outline, newKey_map] using keys

/-- Two levels with the same outline have the same outline after a child was appended to both. -/
theorem outline_eq_of_extend? {second second' : Content β} {other : β}
    (same : content.outline = second.outline)
    (more : appending.extend? content child = some extended)
    (more' : appending.extend? second other = some second') :
    extended.outline = second'.outline := by
  have outlines : appending.extend? content.outline () = some extended.outline :=
    (appending.extend?_map _ content child).trans (congrArg _ more)
  have outlines' : appending.extend? second.outline () = some second'.outline :=
    (appending.extend?_map _ second other).trans (congrArg _ more')
  rw [same, outlines'] at outlines
  exact (Option.some.inj outlines).symm

end Appending

end JsonOverlay
