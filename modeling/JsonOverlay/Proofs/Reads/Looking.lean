/-
This file shows that lookups keep twins twins, be they made in both or in one alone. What a
lookup meets at any key is the same after another lookup, so the tables of looked-up
children may differ in what they have and still answer alike.
-/

import JsonOverlay.Proofs.Reads.Twins

namespace JsonOverlay

variable {heap : Heap} {place : ArenaId} {ground : Ground} {key : ChildKey}
  {children before after : Children Value} {left right : Value}

/-! ### Tables -/

/-- A table in which one more key was looked up. -/
structure Looked (place : ArenaId) (ground : Ground) (key : ChildKey)
    (before after : Children Value) : Prop where
  distinct : after.keys.Nodup
  find?_eq : ∀ other, after.find? other =
    if other = key then some (ground.meets place before key) else before.find? other

namespace Ground

/-- A lookup finds what it meets. -/
theorem Held.outcome_plan (held : ground.Held heap place) (children : Children Value)
    (key : ChildKey) :
    (Value.plan ⟨ground.storage place, children⟩ heap key).outcome (children.find? key) =
      ground.meets place children key := by
  unfold Value.plan meets
  rw [held.backing_eq]
  cases children.find? key with
  | none =>
    simp only [found]
    cases (ground.backing place).child? key <;> rfl
  | some found =>
    obtain ⟨child, placeholder⟩ := found
    simp only
    cases Value.isShown key child placeholder <;> cases (ground.backing place).child? key <;> rfl

theorem Held.looked_look (held : ground.Held heap place) (distinct : before.keys.Nodup)
    (key : ChildKey) :
    Looked place ground key before (Value.look ⟨ground.storage place, before⟩ heap key).children where
  distinct := Children.nodup_resolve distinct key _
  find?_eq other := by
    rw [Value.look, Children.find?_resolve, held.outcome_plan]

theorem Held.looked_reach (held : ground.Held heap place) (distinct : before.keys.Nodup)
    (key : ChildKey) :
    Looked place ground key before (Value.reach ⟨ground.storage place, before⟩ heap key).children where
  distinct := Children.nodup_resolveForWriting distinct key _
  find?_eq other := by
    rw [Value.reach, Children.find?_resolveForWriting, held.outcome_plan]

/-- What is shown, or has no child behind it, is what a lookup comes to. -/
theorem meets_of_settled {child : Value} {placeholder : Bool}
    (found : children.find? key = some (child, placeholder))
    (settled : Value.isShown key child placeholder = true ∨
      (ground.backing place).child? key = none) :
    ground.meets place children key = (child, placeholder) := by
  rw [meets, found]
  simp only
  rcases settled with shown | missing
  · rw [shown]
  · rw [missing]
    cases Value.isShown key child placeholder <;> rfl

/-- A placeholder to which nothing was done gives way to a child. -/
theorem meets_of_hidden {child : Value} {placeholder : Bool}
    (found : children.find? key = some (child, placeholder))
    (hidden : Value.isShown key child placeholder = false)
    (present : (ground.backing place).child? key ≠ none) :
    ground.meets place children key = ground.found place key := by
  obtain ⟨fresh, behind⟩ := Option.ne_none_iff_exists'.mp present
  rw [meets, found, Ground.found]
  simp only [hidden, behind]

theorem settled_found (key : ChildKey) :
    Value.isShown key (ground.found place key).1 (ground.found place key).2 = true ∨
      (ground.backing place).child? key = none := by
  unfold found
  cases missing : (ground.backing place).child? key with
  | none => exact .inr rfl
  | some child => exact .inl (by cases key <;> rfl)

/-- What a lookup comes to, the same lookup comes to again. -/
theorem meets_of_find? (same : after.find? key = some (ground.meets place before key)) :
    ground.meets place after key = ground.meets place before key := by
  cases earlier : before.find? key with
  | none =>
    rw [meets_of_none earlier] at same ⊢
    exact meets_of_settled same (settled_found key)
  | some found =>
    obtain ⟨child, placeholder⟩ := found
    by_cases settled : Value.isShown key child placeholder = true ∨
        (ground.backing place).child? key = none
    · rw [meets_of_settled earlier settled] at same ⊢
      exact meets_of_settled same settled
    · rw [not_or, Bool.not_eq_true] at settled
      rw [meets_of_hidden earlier settled.1 settled.2] at same ⊢
      exact meets_of_settled same (settled_found key)

end Ground

theorem Looked.meets_eq (looked : Looked place ground key before after) (other : ChildKey) :
    ground.meets place after other = ground.meets place before other := by
  have found := looked.find?_eq other
  by_cases same : other = key
  · subst same
    rw [if_pos rfl] at found
    exact Ground.meets_of_find? found
  · rw [if_neg same] at found
    rw [Ground.meets, Ground.meets, found]

theorem Looked.mem_keys (looked : Looked place ground key before after) {other : ChildKey} :
    other ∈ after.keys ↔ other = key ∨ other ∈ before.keys := by
  rw [Children.mem_keys_iff_find?, Children.mem_keys_iff_find?, looked.find?_eq]
  by_cases same : other = key
  · simp [same]
  · simp [same]

/-! ### Twins -/

namespace Twins

theorem level_symm {source : Ground} {first second : Value}
    (twins : Twins place source first second) (level : Level first second) : Level second first := by
  intro null other
  rw [twins.storage_right, ← twins.storage_left] at null
  exact (level null other).symm

theorem symm (twins : Twins place ground left right) : Twins place ground right left := by
  induction twins with
  | level source sound distinctLeft distinctRight below pairs inductionHypothesis =>
    refine .level source sound distinctRight distinctLeft
      (fun key member => inductionHypothesis key member.symm) fun key member => ?_
    obtain ⟨flag, derived, genuine, level⟩ := pairs key member.symm
    exact ⟨flag.symm, derived, genuine, fun placeholder admits =>
      (below key member.symm).level_symm (level (flag.trans placeholder) admits)⟩

/-- A lookup in one of two twins alone. -/
theorem looked_left (twins : Twins place ground ⟨ground.storage place, before⟩ right)
    (looked : Looked place ground key before after) (genuine : ground.Genuine place key) :
    Twins place ground ⟨ground.storage place, after⟩ right := by
  obtain ⟨storage, children⟩ := right
  obtain rfl : storage = ground.storage place := twins.storage_right
  refine intro twins.sound looked.distinct twins.distinct_right fun other member => ?_
  rw [looked.meets_eq]
  refine twins.meets ?_
  rcases member with inAfter | inRight
  · rcases looked.mem_keys.mp inAfter with rfl | inBefore
    · exact genuine
    · obtain ⟨source, at_other⟩ := twins.exists_at (.inl inBefore)
      exact at_other.genuine
  · obtain ⟨source, at_other⟩ := twins.exists_at (.inr inRight)
    exact at_other.genuine

/-- And the same twin as it was before the lookup. -/
theorem of_looked_left (twins : Twins place ground ⟨ground.storage place, after⟩ right)
    (looked : Looked place ground key before after) (distinct : before.keys.Nodup) :
    Twins place ground ⟨ground.storage place, before⟩ right := by
  obtain ⟨storage, children⟩ := right
  obtain rfl : storage = ground.storage place := twins.storage_right
  refine intro twins.sound distinct twins.distinct_right fun other member => ?_
  rw [← looked.meets_eq]
  exact twins.exists_at (member.imp (fun inBefore => looked.mem_keys.mpr (.inr inBefore)) id)

theorem look_left (twins : Twins place ground left right) (held : ground.Held heap place)
    (genuine : ground.Genuine place key) : Twins place ground (left.look heap key) right := by
  obtain ⟨storage, children⟩ := left
  obtain rfl : storage = ground.storage place := twins.storage_left
  exact twins.looked_left (held.looked_look twins.distinct_left key) genuine

theorem look_right (twins : Twins place ground left right) (held : ground.Held heap place)
    (genuine : ground.Genuine place key) : Twins place ground left (right.look heap key) :=
  (twins.symm.look_left held genuine).symm

theorem isBlank_eq (twins : Twins place ground left right) (level : Level left right) :
    left.isBlank = right.isBlank := by
  have storages := twins.storage_left.trans twins.storage_right.symm
  unfold Value.isBlank
  rw [← storages]
  split
  · rename_i null
    rw [Bool.eq_iff_iff, Children.isEmpty_iff, Children.isEmpty_iff]
    exact forall_congr' (level null)
  · rfl

end Twins

/-! ### Another child at one key -/

theorem Content.admits_of_child? {α : Type} {content : Content α} {child : α}
    (found : content.child? key = some child) :
    content.admits key ∨ ∃ position, key = .repeated position := by
  cases key with
  | repeated position => exact .inr ⟨position, rfl⟩
  | member name => cases content <;> first | exact .inl trivial | cases found
  | element index => cases content <;> first | exact .inl trivial | cases found

theorem Content.admits_congr {α β : Type} {first : Content α} {second : Content β}
    (same : first.kind = second.kind) : first.admits key ↔ second.admits key := by
  cases first <;> cases second <;> first | (cases same; done) | (cases key <;> exact Iff.rfl)

/-- Twins at a key of two tables stay so over another ground that has the same there. -/
theorem TwinsAt.transfer {ground' source : Ground} {first second : Value × Bool}
    (twins : TwinsAt place ground key source first second)
    (derived : ∀ outer layout, ground = .node outer → outer.content.child? key = some layout →
      ∃ outer', ground' = .node outer' ∧ outer'.content.child? key = some layout)
    (genuine : ground'.Genuine place key)
    (admits : (ground'.backing place).admits key → (ground.backing place).admits key) :
    TwinsAt place ground' key source first second := by
  refine ⟨⟨twins.flag, fun layout same => ?_, genuine, fun placeholder admitted =>
    twins.level placeholder (admits admitted)⟩, twins.twins⟩
  obtain ⟨outer, equal, found⟩ := twins.derived layout same
  exact derived outer layout equal found

/-- Twins that were put into two tables at a key. -/
theorem Twins.exists_at_of_find? {source : Ground} {left right : Children Value}
    {first second : Value} {placeholder : Bool} (twins : Twins place source first second)
    (sound : ground.Sound) (genuine : ground.Genuine place key)
    (foundLeft : left.find? key = some (first, placeholder))
    (foundRight : right.find? key = some (second, placeholder))
    (derived : ∀ layout, source = .node layout →
      ∃ outer, ground = .node outer ∧ outer.content.child? key = some layout)
    (level : placeholder = true → (ground.backing place).admits key → Level first second) :
    ∃ source, TwinsAt place ground key source (ground.meets place left key)
      (ground.meets place right key) := by
  have put : TwinsAt place ground key source (first, placeholder) (second, placeholder) :=
    ⟨⟨rfl, derived, genuine, level⟩, twins⟩
  cases present : (ground.backing place).child? key with
  | none =>
    rw [Ground.meets_of_settled foundLeft (.inr present),
      Ground.meets_of_settled foundRight (.inr present)]
    exact ⟨source, put⟩
  | some child =>
    have same : Value.isShown key first placeholder = Value.isShown key second placeholder := by
      cases placeholder with
      | false => cases key <;> rfl
      | true =>
        rcases Content.admits_of_child? present with admits | ⟨position, rfl⟩
        · have blank := twins.isBlank_eq (level rfl admits)
          cases key <;> simp only [Value.isShown, blank]
        · rfl
    cases shown : Value.isShown key first placeholder with
    | true =>
      rw [Ground.meets_of_settled foundLeft (.inl shown),
        Ground.meets_of_settled foundRight (.inl (same ▸ shown))]
      exact ⟨source, put⟩
    | false =>
      have behind : (ground.backing place).child? key ≠ none := by simp [present]
      rw [Ground.meets_of_hidden foundLeft shown behind,
        Ground.meets_of_hidden foundRight (same ▸ shown) behind]
      exact Twins.found sound genuine

/-- A level that has the same children as another at the keys that are kept. -/
structure Content.Keeps {α : Type} (kept : ChildKey → Prop) (content content' : Content α) :
    Prop where
  kind : content'.kind = content.kind
  keys : ∀ key, kept key → key ∈ content.keys → key ∈ content'.keys
  same : ∀ key, kept key → (∀ position, key = .repeated position → key ∈ content.keys) →
    content'.child? key = content.child? key

theorem Content.Keeps.map {α β : Type} {kept : ChildKey → Prop} {content content' : Content α}
    (keeps : content.Keeps kept content') (change : α → β) :
    (content.map change).Keeps kept (content'.map change) where
  kind := by rw [kind_map, kind_map, keeps.kind]
  keys key inKept inside := by
    rw [keys_map] at inside ⊢
    exact keeps.keys key inKept inside
  same key inKept genuine := by
    rw [keys_map] at genuine
    rw [child?_map, child?_map, keeps.same key inKept genuine]

/-- A ground of the same sort that has the same children at the keys that are kept. -/
inductive Ground.Keeps (kept : ChildKey → Prop) : Ground → Ground → Prop where
  | node {outer outer' : Layout} (level : outer.content.Keeps kept outer'.content) :
      Keeps kept (.node outer) (.node outer')
  | free {content content' : Content Value} (level : content.Keeps kept content') :
      Keeps kept (.free content) (.free content')

namespace Ground.Keeps

variable {kept : ChildKey → Prop} {ground' : Ground}

/-- Whether there is a child at a key is seen in the layout and behind the value alike. -/
theorem node_of_backing {outer outer' : Layout} {place : ArenaId} {key : ChildKey}
    (level : outer.content.Keeps (fun other => other = key → outer.content.child? key ≠ none)
      outer'.content) :
    Keeps (fun other => other = key → ((Ground.node outer).backing place).child? key ≠ none)
      (.node outer) (.node outer') := by
  have same : ((Ground.node outer).backing place).child? key ≠ none ↔
      outer.content.child? key ≠ none := by
    rw [Ground.backing, Content.child?_map, ne_eq, Option.map_eq_none_iff]
  simp only [same]
  exact .node level

theorem refl (kept : ChildKey → Prop) (ground : Ground) : Keeps kept ground ground := by
  cases ground with
  | node outer => exact .node ⟨rfl, fun _ _ => id, fun _ _ _ => rfl⟩
  | free content => exact .free ⟨rfl, fun _ _ => id, fun _ _ _ => rfl⟩

theorem backing (keeps : ground.Keeps kept ground') (place : ArenaId) :
    (ground.backing place).Keeps kept (ground'.backing place) := by
  cases keeps with
  | node level => exact level.map _
  | free level => exact level

theorem admits (keeps : ground.Keeps kept ground')
    (admitted : (ground'.backing place).admits key) : (ground.backing place).admits key :=
  (Content.admits_congr (keeps.backing place).kind).mp admitted

theorem genuine (keeps : ground.Keeps kept ground') (inKept : kept key)
    (genuine : ground.Genuine place key) : ground'.Genuine place key := fun position repeated =>
  (keeps.backing place).keys key inKept (genuine position repeated)

theorem derived (keeps : ground.Keeps kept ground') (inKept : kept key)
    (genuine : ground.Genuine place key) {outer layout : Layout} (equal : ground = .node outer)
    (found : outer.content.child? key = some layout) :
    ∃ outer', ground' = .node outer' ∧ outer'.content.child? key = some layout := by
  subst equal
  cases keeps with
  | @node _ outer' level =>
    rw [Genuine, Ground.backing, Content.keys_map] at genuine
    exact ⟨outer', rfl, (level.same key inKept genuine).trans found⟩

end Ground.Keeps

variable {ground' source : Ground} {tableLeft tableRight : Children Value} {kept : ChildKey → Prop}

/-- Twins at a key that is kept, where the tables are the same as well. -/
theorem Twins.keep (twins : Twins place ground left right) (keeps : ground.Keeps kept ground')
    (inKept : kept key) (same : tableLeft.find? key = left.children.find? key)
    (same' : tableRight.find? key = right.children.find? key)
    (member : key ∈ tableLeft.keys ∨ key ∈ tableRight.keys) :
    ∃ source, TwinsAt place ground' key source (ground'.meets place tableLeft key)
      (ground'.meets place tableRight key) := by
  rw [Children.mem_keys_iff_find?, Children.mem_keys_iff_find?, same, same',
    ← Children.mem_keys_iff_find?, ← Children.mem_keys_iff_find?] at member
  obtain ⟨source, here⟩ := twins.exists_at member
  have behind := (keeps.backing place).same key inKept here.genuine
  have met : ∀ {table old : Children Value}, table.find? key = old.find? key →
      ground'.meets place table key = ground.meets place old key := by
    intro table old equal
    simp only [Ground.meets, Ground.found, equal, behind]
  rw [met same, met same']
  exact ⟨source, here.transfer (fun outer layout => keeps.derived inKept here.genuine)
    (keeps.genuine inKept here.genuine) keeps.admits⟩

/-- Twins with other twins at one key. -/
theorem Twins.replace {first second : Value} {placeholder : Bool}
    (twins : Twins place ground left right) (keeps : ground.Keeps (· ≠ key) ground')
    (sound : ground'.Sound) (genuine : ground'.Genuine place key)
    (distinctLeft : tableLeft.keys.Nodup) (distinctRight : tableRight.keys.Nodup)
    (foundLeft : ∀ other, tableLeft.find? other =
      if other = key then some (first, placeholder) else left.children.find? other)
    (foundRight : ∀ other, tableRight.find? other =
      if other = key then some (second, placeholder) else right.children.find? other)
    (new : Twins place source first second)
    (derived : ∀ layout, source = .node layout →
      ∃ outer, ground' = .node outer ∧ outer.content.child? key = some layout)
    (level : placeholder = true → (ground'.backing place).admits key → Level first second) :
    Twins place ground' ⟨ground'.storage place, tableLeft⟩ ⟨ground'.storage place, tableRight⟩ := by
  refine Twins.intro sound distinctLeft distinctRight fun other member => ?_
  have left := foundLeft other
  have right := foundRight other
  by_cases here : other = key
  · subst here
    rw [if_pos rfl] at left right
    exact new.exists_at_of_find? sound genuine left right derived level
  · rw [if_neg here] at left right
    exact twins.keep keeps here left right member

end JsonOverlay
