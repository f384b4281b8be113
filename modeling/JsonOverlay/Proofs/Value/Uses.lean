/-
This file follows a child that was looked up through everything that is done with the value that it
was looked up in. Lookups of any keys, writes through what was handed out, members and elements
that are added, and other members that are removed leave the child in the table, whatever becomes
of the documents meanwhile. What it holds is what was last written to it.
-/

import JsonOverlay.Proofs.Value.Append
import JsonOverlay.Proofs.Value.Cached
import JsonOverlay.Proofs.Value.Standing
import JsonOverlay.Proofs.Value.Traced

namespace JsonOverlay.Value

/-! ### Uses of a value -/

/-- Something that is done with a value: a lookup for reading or for writing, a write to the child
at a key or to one of its versions, or an operation on the value itself. -/
inductive Use where
  | look (key : ChildKey)
  | reach (key : ChildKey)
  | write (key : ChildKey) (child : Value)
  | writeVersion (key : ChildKey) (serial : Nat) (child : Value)
  | operate (operation : Operation)

namespace Use

/-- The documents and the value after a use. -/
def run (heap : Heap) (value : Value) : Use → Heap × Value
  | look key => (heap, value.look heap key)
  | reach key => (heap, value.reach heap key)
  | write key child => (heap, value.writeChild key child)
  | writeVersion key serial child =>
    (heap, { value with children := value.children.writeVersion key serial child })
  | operate operation => ((operation.run heap value).heap, (operation.run heap value).value)

/-- A use leaves the child at a key in the table unless it is a placeholder: it is no assignment to
the value and does not remove that child. -/
def Spares (key : ChildKey) : Use → Prop
  | operate operation => operation.Spares key
  | _ => True

/-- What a use writes to a version of the child at a key. -/
def written? (key : ChildKey) (serial : Nat) : Use → Option Value
  | write other child => if other = key then some child else none
  | writeVersion other version child =>
    if other = key ∧ version = serial then some child else none
  | _ => none

/-- There is no child behind a value at a key when it is used, nor afterwards. The books of the
arenas are right, as they are in every workspace that a program leads to: storing a new child takes
no slot of a node that is there. -/
structure Misses (heap : Heap) (value : Value) (key : ChildKey) (use : Use) : Prop where
  sound : heap.Sound
  before : (value.backing heap).child? key = none
  after : ((use.run heap value).2.backing (use.run heap value).1).child? key = none

/-- A use leaves the child at a key as it is in the table: it spares it, and a placeholder is shown
at that time or still stands for a child that is missing. -/
structure Leaves (key : ChildKey) (placeholder : Bool) (heap : Heap) (value : Value) (use : Use) :
    Prop where
  spares : use.Spares key
  stands : placeholder = false ∨ value.shownChild? key ≠ none ∨ use.Misses heap value key

end Use

/-- A value after some uses. Each meets the documents as they are at its time. -/
def used (value : Value) : List (Heap × Use) → Value
  | [] => value
  | (heap, use) :: rest => (use.run heap value).2.used rest

/-- What a version of the child at a key holds after some uses, given what it held before. -/
def held (key : ChildKey) (serial : Nat) (child : Value) : List (Heap × Use) → Value
  | [] => child
  | (_, use) :: rest => held key serial ((use.written? key serial).getD child) rest

/-- Whenever a value is used, a condition holds. -/
def Whenever (condition : Heap → Value → Use → Prop) (value : Value) : List (Heap × Use) → Prop
  | [] => True
  | (heap, use) :: rest =>
    condition heap value use ∧ Whenever condition (use.run heap value).2 rest

variable {heap now : Heap} {value after : Value} {key : ChildKey} {entry : Entry Value} {use : Use}
  {uses : List (Heap × Use)}

/-! ### One use -/

/-- The entry of a key after a use that leaves the child in the table: the same version, with what
was written to it. -/
def Stays (value : Value) (key : ChildKey) (entry : Entry Value) (child : Value) : Prop :=
  ∃ older, value.children.get? key =
    some ⟨entry.placeholder, ⟨entry.current.serial, child⟩, older⟩

theorem stays_of_get?_eq (found : value.children.get? key = some entry) :
    value.Stays key entry entry.current.value := ⟨entry.older, found⟩

/-- A lookup leaves a child that it would find. -/
theorem LooksUp.stays {other : ChildKey} (looks : LooksUp heap other value after)
    (cached : value.Cached heap key) (found : value.children.get? key = some entry) :
    after.Stays key entry entry.current.value := by
  cases looks with
  | look => exact stays_of_get?_eq ((cached.get?_look other).trans found)
  | reach =>
    by_cases same : key = other
    · subst same
      refine ⟨[], ?_⟩
      rw [Value.reach, cached.plan_eq]
      exact Children.get?_resolveForWriting_keep found
    · exact stays_of_get?_eq ((LooksUp.get?_of_ne .reach same).trans found)

/-- What is asked to be dropped is a placeholder to which nothing was done. -/
theorem stays_forgetPlaceholder {other : ChildKey}
    (kept : other = key → entry.placeholder = true → entry.current.value.isBlank = false)
    (found : value.children.get? key = some entry) :
    (value.forgetPlaceholder other).Stays key entry entry.current.value := by
  refine ⟨entry.older, ?_⟩
  rw [Value.forgetPlaceholder, Children.forgetPlaceholder]
  split
  · rename_i child known
    split
    · rename_i blank
      have different : key ≠ other := by
        rintro rfl
        rw [Children.find?, found] at known
        obtain ⟨rfl, placeholder⟩ := Prod.mk.inj (Option.some.inj known)
        rw [kept rfl placeholder] at blank
        cases blank
      rw [Children.forget, Children.get?_filterKeys, if_pos (bne_iff_ne.mpr different), found]
    · exact found
  · exact found

/-- A member is dropped where another name is not. -/
theorem stays_forgetMember {storage : Storage Value} {name : String}
    (spares : (Operation.removeMember name).Spares key)
    (found : value.children.get? key = some entry) :
    (⟨storage, value.children.forgetMember name⟩ : Value).Stays key entry entry.current.value := by
  refine ⟨entry.older, (Children.get?_forgetMember _ name key).trans ?_⟩
  cases key with
  | member other => exact (if_neg fun same => spares.1 (congrArg _ same)).trans found
  | repeated position => exact absurd rfl (spares.2 position)
  | element index => exact found

theorem isBlank_eq_false_of_isShown {child : Value}
    (direct : ∀ position, key ≠ .repeated position) (shown : isShown key child true = true) :
    child.isBlank = false := by
  cases key with
  | repeated position => exact absurd rfl (direct position)
  | _ => simpa [isShown] using shown

/-- What is behind an attached value after a tree was stored and its node was changed. -/
theorem backing_stored {reference : NodeRef} {arena : Arena} {old : Node} (sound : heap.Sound)
    (attached : value.storage = .attached reference)
    (present : heap.arena? reference.arena = some arena)
    (level : arena.get? reference.node = some old) (tree : Tree) (node : Node)
    (children : Children Value) :
    (⟨value.storage, children⟩ : Value).backing
        (heap.put reference.arena ((arena.store tree).2.assign reference.node node)) =
      node.map fun child => .attached ⟨reference.arena, child⟩ := by
  have stays := ((sound _ _ present).gains_store tree).same _ _ level
  have stored : (⟨value.storage, children⟩ : Value).storage = .attached reference := attached
  refine backing_attached stored ?_
  rw [Heap.node?, Heap.arena?_put present, if_pos rfl, Option.bind_some,
    Arena.get?_assign stays, if_pos rfl]

end JsonOverlay.Value

namespace JsonOverlay

/-! ### Operations -/

namespace Operation

variable {heap after : Heap} {value changed : Value} {operation : Operation} {key : ChildKey}
  {entry : Entry Value}

/-- An operation that spares a child leaves it in the table: it is shown, or still missing. -/
theorem Effect.stays (effect : operation.Effect heap value after changed)
    (spares : operation.Spares key) (found : value.children.get? key = some entry)
    (stands : Value.isShown key entry.current.value entry.placeholder = true ∨
      heap.Sound ∧ (changed.backing after).child? key = none) :
    changed.Stays key entry entry.current.value := by
  have kept {storage : Storage Value} {other : ChildKey}
      (direct : ∀ position, other ≠ .repeated position)
      (appears : heap.Sound → ∀ children : Children Value,
        ((⟨storage, children⟩ : Value).backing after).child? other ≠ none)
      (same : changed = Value.forgetPlaceholder ⟨storage, value.children⟩ other) :
      (Value.forgetPlaceholder ⟨storage, value.children⟩ other).Stays key entry
        entry.current.value := by
    refine Value.stays_forgetPlaceholder (fun equal placeholder => ?_) found
    subst equal
    rcases stands with shown | ⟨sound, missing⟩
    · rw [placeholder] at shown
      exact Value.isBlank_eq_false_of_isShown direct shown
    · exact absurd (same ▸ missing) (appears sound _)
  cases effect with
  | refused => exact Value.stays_of_get?_eq found
  | assigned | setDetached | setDropped | setAttached => exact spares.elim
  | @memberDetached name operand _ members =>
    have more : (Appending.member name).extend? (.object members) operand = some _ := rfl
    exact kept (fun _ => nofun) (fun _ _ => Appending.child?_key_ne_none more) rfl
  | @memberAttached name _ _ _ _ members attached present level =>
    have more (child : NodeId) :
        (Appending.member name).extend? (.object members) child = some _ := rfl
    refine kept (fun _ => nofun) (fun sound children => ?_) rfl
    rw [Value.withMember, Value.backing_stored sound attached present level, Content.child?_map, ne_eq,
      Option.map_eq_none_iff]
    exact Appending.child?_key_ne_none (more _)
  | @elementDetached operand _ items =>
    have more : Appending.element.extend? (.array items) operand = some _ := rfl
    exact kept (fun _ => nofun) (fun _ _ => Appending.child?_key_ne_none more) rfl
  | @elementAttached _ _ _ _ items attached present level =>
    have more (child : NodeId) : Appending.element.extend? (.array items) child = some _ := rfl
    refine kept (fun _ => nofun) (fun sound children => ?_) rfl
    rw [Value.withElement, Value.backing_stored sound attached present level, Content.child?_map, ne_eq,
      Option.map_eq_none_iff]
    exact Appending.child?_key_ne_none (more _)
  | removedDetached | removedNothing | removedAttached =>
    exact Value.stays_forgetMember spares found

end Operation

namespace Value

variable {heap now : Heap} {value later : Value} {key : ChildKey} {entry : Entry Value} {use : Use}
  {uses : List (Heap × Use)} {child : Value}

theorem shownChild?_of_get? (found : value.children.get? key = some entry) :
    value.shownChild? key =
      if isShown key entry.current.value entry.placeholder then some entry.current.value else none := by
  rw [shownChild?, Children.find?, found]
  rfl

theorem isShown_of_stands (found : value.children.get? key = some entry)
    (stands : entry.placeholder = false ∨ value.shownChild? key ≠ none) :
    isShown key entry.current.value entry.placeholder = true := by
  rcases stands with present | shown
  · rw [present]
    exact isShown_of_not_placeholder key _
  · rw [shownChild?_of_get? found] at shown
    exact by_contra fun hidden => shown (if_neg hidden)

/-- What was looked up while it was there, and what is shown, is found again in any case; what was
missing is while it is missing. -/
theorem cached_of_stands (found : value.children.get? key = some entry)
    (stands : entry.placeholder = false ∨ value.shownChild? key ≠ none ∨
      (value.backing heap).child? key = none) : value.Cached heap key := by
  refine ⟨entry, found, ?_⟩
  rcases stands with present | shown | missing
  · exact .inl (isShown_of_stands found (.inl present))
  · exact .inl (isShown_of_stands found (.inr shown))
  · exact .inr missing

/-- The child at a key is written to, or another one. -/
theorem stays_writeChild (found : value.children.get? key = some entry) (other : ChildKey)
    (child : Value) :
    (value.writeChild other child).Stays key entry
      (if other = key then child else entry.current.value) := by
  refine ⟨entry.older, (Children.get?_write value.children other child key).trans ?_⟩
  rw [found]
  by_cases same : key = other
  · rw [if_pos same, if_pos same.symm]
    rfl
  · rw [if_neg same, if_neg (Ne.symm same)]

/-- A version of the child at a key is written to, or of another one. -/
theorem stays_writeVersion (found : value.children.get? key = some entry) (other : ChildKey)
    (serial : Nat) (child : Value) :
    ({ value with children := value.children.writeVersion other serial child } : Value).Stays key entry
      (if other = key ∧ serial = entry.current.serial then child else entry.current.value) := by
  by_cases same : key = other
  · subst same
    by_cases current : serial = entry.current.serial
    · subst current
      rw [if_pos ⟨rfl, rfl⟩]
      exact Children.get?_writeVersion_current found child
    · rw [if_neg fun both => current both.2, Stays, Children.writeVersion, Children.get?_adjust,
        if_pos rfl, found, Option.map_some]
      simp only [if_neg (Ne.symm current)]
      exact ⟨_, rfl⟩
  · refine ⟨entry.older, ?_⟩
    rw [if_neg fun both => same both.1.symm, ← found]
    exact Children.get?_writeVersion_of_ne same _ serial child

theorem Use.getD_written?_write (other : ChildKey) (child current : Value) (serial : Nat) :
    ((write other child).written? key serial).getD current =
      if other = key then child else current := by
  by_cases same : other = key <;> simp [written?, same]

theorem Use.getD_written?_writeVersion (other : ChildKey) (version : Nat) (child current : Value)
    (serial : Nat) :
    ((writeVersion other version child).written? key serial).getD current =
      if other = key ∧ version = serial then child else current := by
  by_cases same : other = key ∧ version = serial <;> simp [written?, same]

/-- A use leaves a child in the table, with what it writes to it. -/
theorem Use.stays (found : value.children.get? key = some entry)
    (leaves : use.Leaves key entry.placeholder heap value) :
    (use.run heap value).2.Stays key entry
      ((use.written? key entry.current.serial).getD entry.current.value) := by
  have cached : value.Cached heap key :=
    cached_of_stands found (leaves.stands.imp_right (Or.imp_right Misses.before))
  cases use with
  | look other => exact LooksUp.stays .look cached found
  | reach other => exact LooksUp.stays .reach cached found
  | write other child =>
    rw [getD_written?_write]
    exact stays_writeChild found other child
  | writeVersion other serial child =>
    rw [getD_written?_writeVersion]
    exact stays_writeVersion found other serial child
  | operate operation =>
    refine (operation.effect_run heap value).stays leaves.spares found ?_
    rcases leaves.stands with present | shown | misses
    · exact .inl (isShown_of_stands found (.inl present))
    · exact .inl (isShown_of_stands found (.inr shown))
    · exact .inr ⟨misses.sound, misses.after⟩

/-! ### Many uses -/

/-- Uses that leave a child in the table leave it there, with what was last written to it. -/
theorem stays_used (found : value.children.get? key = some entry)
    (leaves : value.Whenever (Use.Leaves key entry.placeholder) uses) :
    (value.used uses).Stays key entry (held key entry.current.serial entry.current.value uses) := by
  induction uses generalizing value entry with
  | nil => exact stays_of_get?_eq found
  | cons first rest inductionHypothesis =>
    obtain ⟨older, stays⟩ := Use.stays found leaves.1
    exact inductionHypothesis stays leaves.2

/-- A child that stayed is what a lookup comes to. -/
theorem Stays.child_eq (stays : value.Stays key entry child)
    (stands : entry.placeholder = false ∨ value.shownChild? key ≠ none ∨
      (value.backing now).child? key = none) (looks : LooksUp now key value later) :
    later.child key = ⟨entry.current.serial, child⟩ := by
  obtain ⟨older, found⟩ := stays
  obtain ⟨_, again⟩ := looks.stays (cached_of_stands found stands) found
  exact Value.child_eq again

/-- A child goes on to be what it is while nothing else is assigned to it: to look something up in it
or to write below it leaves it the same. -/
theorem storage_held {serial : Nat} (same : ∀ use ∈ uses, ∀ written,
      use.2.written? key serial = some written → written.storage = child.storage) :
    (held key serial child uses).storage = child.storage := by
  induction uses generalizing child with
  | nil => rfl
  | cons first rest inductionHypothesis =>
    obtain ⟨here, later⟩ := List.forall_mem_cons.mp same
    have kept : ((first.2.written? key serial).getD child).storage = child.storage := by
      cases written : first.2.written? key serial with
      | none => rfl
      | some found => exact here found written
    refine (inductionHypothesis fun use member found write => ?_).trans kept
    exact (later use member found write).trans kept.symm

theorem held_append {serial : Nat} (before rest : List (Heap × Use)) :
    held key serial child (before ++ rest) = held key serial (held key serial child before) rest := by
  induction before generalizing child with
  | nil => rfl
  | cons first before inductionHypothesis => exact inductionHypothesis

/-- What was assigned to a child is what it goes on to be, whatever was done before. -/
theorem storage_held_assigned {serial : Nat} {time : Heap} {assigned : Value}
    (before : List (Heap × Use)) {rest : List (Heap × Use)}
    (same : ∀ use ∈ rest, ∀ written, use.2.written? key serial = some written →
      written.storage = assigned.storage) :
    (held key serial child (before ++ (time, .write key assigned) :: rest)).storage =
      assigned.storage := by
  rw [held_append, held, Use.getD_written?_write, if_pos rfl]
  exact storage_held same

/-- A walk over members uses the object by looking up their keys. -/
theorem used_walk (heap : Heap) (count : Nat) (cursor : MemberCursor) (value : Value) :
    (MemberCursor.walk heap count cursor value).2.2 =
      value.used (((cursor.pending.take count).map Prod.snd).map fun key => (heap, .look key)) := by
  induction count generalizing cursor value with
  | zero => rfl
  | succ count inductionHypothesis =>
    obtain ⟨pending⟩ := cursor
    cases pending with
    | nil => rfl
    | cons first rest => exact inductionHypothesis ⟨rest⟩ (value.look heap first.2)

/-- A walk over elements uses the array by looking up their indices. -/
theorem used_lookAll (heap : Heap) (value : Value) (indices : List UInt64) :
    (ArrayCursor.lookAll heap value indices).2 =
      value.used (indices.map fun index => (heap, .look (.element index.toNat))) := by
  induction indices generalizing value with
  | nil => rfl
  | cons index rest inductionHypothesis =>
    exact inductionHypothesis (value.look heap (.element index.toNat))

/-! ### The entry that a lookup makes -/

/-- A child that is not shown is a placeholder. -/
theorem placeholder_of_hidden (found : value.children.get? key = some entry)
    (hidden : value.shownChild? key = none) :
    isShown key entry.current.value entry.placeholder = false ∧ entry.placeholder = true := by
  have blank : ¬ isShown key entry.current.value entry.placeholder = true := by
    intro shown
    rw [shownChild?_of_get? found, if_pos shown] at hidden
    cases hidden
  refine ⟨Bool.eq_false_iff.mpr blank, Bool.eq_true_of_not_eq_false fun present => ?_⟩
  exact blank (isShown_of_stands found (.inl present))

theorem plan_of_hidden {fresh : Value} (hidden : value.shownChild? key = none)
    (behind : (value.backing heap).child? key = some fresh) :
    value.plan heap key = .insert fresh.duplicate false := by
  rw [plan, behind, Children.find?]
  cases found : value.children.get? key with
  | none => rfl
  | some entry =>
    dsimp only [Option.map_some]
    rw [(placeholder_of_hidden found hidden).1]

theorem LooksUp.get?_of_insert {placeholder : Bool} (looks : LooksUp heap key value later)
    (planned : value.plan heap key = .insert child placeholder) :
    ∃ older, later.children.get? key =
      some ⟨placeholder, ⟨value.children.nextSerial, child⟩, older⟩ := by
  cases looks with
  | look =>
    rw [Value.look, planned]
    exact Children.get?_resolve_insert _ key _ _
  | reach =>
    rw [Value.reach, planned]
    exact ⟨[], Children.get?_resolveForWriting_insert _ key _ _⟩

/-- A lookup that finds nothing that is shown makes an entry, which is a placeholder if there is no
child behind the value, and else takes over that child as a new version. -/
theorem LooksUp.exists_entry (looks : LooksUp heap key value later)
    (hidden : value.shownChild? key = none) :
    ∃ entry, later.children.get? key = some entry ∧
      (entry.placeholder = true ↔ (value.backing heap).child? key = none) ∧
      ∀ fresh, (value.backing heap).child? key = some fresh →
        entry.current = ⟨value.children.nextSerial, fresh.duplicate⟩ := by
  cases behind : (value.backing heap).child? key with
  | none =>
    suffices made : ∃ entry, later.children.get? key = some entry ∧ entry.placeholder = true by
      obtain ⟨entry, found, placeholder⟩ := made
      exact ⟨entry, found, iff_of_true placeholder rfl, fun _ => nofun⟩
    cases found : value.children.get? key with
    | none =>
      have planned : value.plan heap key = .insert null true := by
        rw [plan, behind, Children.find?, found]
        rfl
      obtain ⟨older, made⟩ := looks.get?_of_insert planned
      exact ⟨_, made, rfl⟩
    | some entry =>
      obtain ⟨older, still⟩ := looks.stays ⟨entry, found, .inr behind⟩ found
      exact ⟨_, still, (placeholder_of_hidden found hidden).2⟩
  | some fresh =>
    obtain ⟨older, found⟩ := looks.get?_of_insert (plan_of_hidden hidden behind)
    refine ⟨_, found, iff_of_false Bool.false_ne_true (Option.some_ne_none fresh), fun _ same => ?_⟩
    cases same
    rfl

end Value

end JsonOverlay
