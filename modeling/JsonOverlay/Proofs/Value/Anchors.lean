/-
This file follows a reference whose versions are all present ones, of children that were there when
they were looked up. Reading leaves it as it is. So does writing, along a path that parts from its
keys or leads beyond, or one that ends above with something that spares the next key.
-/

import JsonOverlay.Proofs.Value.Uses

namespace JsonOverlay

/-- The key that a step stands for, whatever it is followed from. -/
def Step.key? : Step → Option ChildKey
  | member name => some (.member name)
  | element index => some (.element index)
  | nth _ => none

namespace Value

variable {heap now : Heap} {value after child written : Value} {key other : ChildKey}
  {entry : Entry Value} {reference rest : Reference} {holds : Storage Value → Prop}
  {ends : List ChildKey → Prop} {keys : List ChildKey} {β : Type}

/-! ### Anchored references -/

/-- A reference leads to a value with a certain storage, through the present versions of children
that are no placeholders. -/
def Anchors (holds : Storage Value → Prop) : Reference → Value → Prop
  | [], value => holds value.storage
  | (key, serial) :: rest, value => ∃ entry, value.children.get? key = some entry ∧
      entry.placeholder = false ∧ entry.current.serial = serial ∧
        Anchors holds rest entry.current.value

/-- What is anchored at a value is so still if the child that comes next stays, and what is below
it is anchored there. -/
theorem Anchors.renew (anchors : value.Anchors holds reference)
    (storage : after.storage = value.storage)
    (stays : ∀ {key entry rest}, reference = (key, entry.current.serial) :: rest →
      value.children.get? key = some entry → entry.placeholder = false →
        entry.current.value.Anchors holds rest →
          ∃ child, after.Stays key entry child ∧ child.Anchors holds rest) :
    after.Anchors holds reference := by
  cases reference with
  | nil =>
    rw [Anchors, storage]
    exact anchors
  | cons first rest =>
    obtain ⟨key, serial⟩ := first
    obtain ⟨entry, found, present, rfl, below⟩ := anchors
    obtain ⟨child, ⟨older, still⟩, anchored⟩ := stays rfl found present below
    exact ⟨_, still, present, rfl, anchored⟩

theorem cached_of_present (found : value.children.get? key = some entry)
    (present : entry.placeholder = false) : value.Cached heap key :=
  cached_of_stands found (.inl present)

/-- An anchored reference means a value. -/
theorem Anchors.at? (anchors : value.Anchors holds reference) :
    ∃ child, value.at? reference = some child ∧ holds child.storage := by
  induction reference generalizing value with
  | nil => exact ⟨value, rfl, anchors⟩
  | cons first rest inductionHypothesis =>
    obtain ⟨key, serial⟩ := first
    obtain ⟨entry, found, -, rfl, below⟩ := anchors
    obtain ⟨child, means, right⟩ := inductionHypothesis below
    refine ⟨child, ?_, right⟩
    rw [Value.at?, Children.version?_current found]
    exact means

/-- What an anchored reference means may be told apart from how it is anchored. -/
theorem anchors_of_at? (anchors : value.Anchors (fun _ => True) reference)
    (means : value.at? reference = some child) (right : holds child.storage) :
    value.Anchors holds reference := by
  induction reference generalizing value with
  | nil =>
    cases means
    exact right
  | cons first rest inductionHypothesis =>
    obtain ⟨key, serial⟩ := first
    obtain ⟨entry, found, present, rfl, below⟩ := anchors
    rw [Value.at?, Children.version?_current found] at means
    exact ⟨entry, found, present, rfl, inductionHypothesis below means⟩

/-- A path by names and indices leads to an anchored reference. -/
theorem Anchors.read {path : List Step} (anchors : value.Anchors holds reference)
    (leads : path.map Step.key? = reference.map fun version => some version.1) :
    (value.read heap path).2 = some reference := by
  induction path generalizing value reference with
  | nil =>
    rw [List.map_nil, eq_comm, List.map_eq_nil_iff] at leads
    rw [leads]
    rfl
  | cons step path inductionHypothesis =>
    obtain _ | ⟨⟨key, serial⟩, rest⟩ := reference
    · cases leads
    obtain ⟨entry, found, present, rfl, below⟩ := anchors
    obtain ⟨first, later⟩ := List.cons.inj leads
    have looked : value.look heap key = value := (cached_of_present found present).look_eq
    have named : step.keys? (value.backing heap) = some ([], key) := by
      cases step with
      | nth => cases first
      | _ => cases first; rfl
    rw [Value.read, named]
    simp only [List.nil_append, List.foldl_cons, List.foldl_nil, looked, child_eq found,
      inductionHypothesis below later, Option.map_some]

/-- So does a path for writing. -/
theorem Anchors.endpoint (anchors : value.Anchors holds reference) :
    value.at? reference = some (value.endpoint heap (reference.map Prod.fst)) := by
  induction reference generalizing value with
  | nil => rfl
  | cons first rest inductionHypothesis =>
    obtain ⟨key, serial⟩ := first
    obtain ⟨entry, found, present, rfl, below⟩ := anchors
    have looks : LooksUp heap key value (value.reach heap key) := .reach
    obtain ⟨older, reached⟩ := looks.stays (cached_of_present found present) found
    rw [Value.at?, Children.version?_current found, Option.bind_some, inductionHypothesis below]
    show _ = some (((value.reach heap key).child key).value.endpoint heap _)
    rw [child_eq reached]

/-! ### Reading -/

/-- Lookups at any depth leave an anchored reference as it is. -/
theorem Anchors.evolves (anchors : value.Anchors holds reference)
    (evolves : value.Evolves heap (fun _ _ => False) after) : after.Anchors holds reference := by
  induction evolves generalizing reference with
  | refl => exact anchors
  | trans _ _ first second => exact second (first anchors)
  | change changes => exact changes.elim
  | look other =>
    refine anchors.renew rfl fun _ found present below => ⟨_, ?_, below⟩
    exact LooksUp.look.stays (cached_of_present found present) found
  | reach other =>
    refine anchors.renew rfl fun _ found present below => ⟨_, ?_, below⟩
    exact LooksUp.reach.stays (cached_of_present found present) found
  | @child value written other _ inductionHypothesis =>
    refine anchors.renew rfl fun _ found _ below => ⟨_, stays_writeChild found other written, ?_⟩
    split
    · rename_i same
      subst same
      rw [child_eq found] at inductionHypothesis
      exact inductionHypothesis below
    · exact below
  | @version value child written other serial known _ inductionHypothesis =>
    refine anchors.renew rfl fun _ found _ below =>
      ⟨_, stays_writeVersion found other serial written, ?_⟩
    split
    · rename_i same
      obtain ⟨rfl, rfl⟩ := same
      rw [Children.version?_current found, Option.some.injEq] at known
      subst known
      exact inductionHypothesis below
    · exact below

/-! ### Paths for writing -/

/-- A path for writing leaves alone the children on another path: they part, or the first leads
beyond the other, or it ends above, and what is left of the other from there meets a condition. -/
def Clears (ends : List ChildKey → Prop) : List ChildKey → List ChildKey → Prop
  | [], path => ends path
  | other :: keys, key :: path => other = key → Clears ends keys path
  | _ :: _, [] => True

/-- Something is written to a child that was reached, and leaves alone what is anchored below. -/
theorem Anchors.writeChild (anchors : value.Anchors holds reference)
    (below : ∀ serial rest, reference = (other, serial) :: rest →
      ((value.reach now other).child other).value.Anchors holds rest →
        written.Anchors holds rest) :
    ((value.reach now other).writeChild other written).Anchors holds reference := by
  refine anchors.renew rfl fun same found present inside => ?_
  have looks : LooksUp now other value (value.reach now other) := .reach
  obtain ⟨older, reached⟩ := looks.stays (cached_of_present found present) found
  refine ⟨_, stays_writeChild reached other written, ?_⟩
  split
  · rename_i here
    subst here
    rw [child_eq reached] at below
    exact below _ _ same inside
  · exact inside

theorem Anchors.edit {change : Heap → Value → Edited β}
    (leaves : ∀ value reference, ends (reference.map Prod.fst) → Anchors holds reference value →
      Anchors holds reference (change now value).value)
    (clears : Clears ends keys (reference.map Prod.fst)) (anchors : value.Anchors holds reference) :
    (value.edit now change keys).value.Anchors holds reference := by
  induction keys generalizing value reference with
  | nil => exact leaves value reference clears anchors
  | cons other keys inductionHypothesis =>
    refine anchors.writeChild fun serial rest same => ?_
    subst same
    exact inductionHypothesis (clears rfl)

theorem Anchors.pointer_edit {change : Heap → Value → Edited β} {tokens : List String}
    (leaves : ∀ value reference, ends (reference.map Prod.fst) → Anchors holds reference value →
      Anchors holds reference (change now value).value)
    (clears : ∀ keys, List.Forall₂ Names tokens keys → Clears ends keys (reference.map Prod.fst))
    (anchors : value.Anchors holds reference) :
    (Pointer.edit now value change tokens).value.Anchors holds reference := by
  induction tokens generalizing value reference with
  | nil => exact leaves value reference (clears [] .nil) anchors
  | cons token rest inductionHypothesis =>
    unfold Pointer.edit
    split
    · exact anchors
    · rename_i other found
      have named : Names token other := ⟨_, found⟩
      refine anchors.writeChild fun serial below same => ?_
      subst same
      exact inductionHypothesis fun keys spelled => clears (other :: keys) (.cons named spelled) rfl

/-- An operation that spares the next key leaves what is anchored there. At the end of the
reference it may change anything. -/
theorem Anchors.operate {operation : Operation} (anchors : value.Anchors holds reference)
    (spares : ∀ key ∈ (reference.map Prod.fst).head?, operation.Spares key)
    (free : reference = [] → ∀ storage, holds storage) :
    (operation.run now value).value.Anchors holds reference := by
  cases reference with
  | nil => exact free rfl _
  | cons first rest =>
    obtain ⟨key, serial⟩ := first
    obtain ⟨entry, found, present, rfl, below⟩ := anchors
    have leaves : (Use.operate operation).Leaves key entry.placeholder now value :=
      ⟨spares key rfl, .inl present⟩
    obtain ⟨older, stays⟩ := Use.stays found leaves
    exact ⟨_, stays, present, rfl, below⟩

end Value

end JsonOverlay
