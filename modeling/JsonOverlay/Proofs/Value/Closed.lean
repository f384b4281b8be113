/-
This file says which properties of values go through everything that is done to a value. Such
a property passes down to the content behind a value and to every version of every child in
its table, and it is kept by the few changes of a table and of content that lookups, paths,
pointers and operations are made of.
-/

import JsonOverlay.Proofs.Value.Evolution
import JsonOverlay.Proofs.Value.Visible
import JsonOverlay.Proofs.Value.Write

namespace JsonOverlay

/-! ### All versions in a table -/

/-- Every version of every child in a table has a property that may depend on its key. -/
def Children.AllAt {α : Type} (property : ChildKey → α → Prop) (children : Children α) : Prop :=
  ∀ member ∈ children.entries, ∀ version ∈ member.2.current :: member.2.older,
    property member.1 version.value

/-- Every version of every child in a table has a property. -/
abbrev Children.All {α : Type} (property : α → Prop) (children : Children α) : Prop :=
  children.AllAt fun _ => property

/-- The child that a plan puts in has a property. -/
def Plan.All {α : Type} (property : α → Prop) : Plan α → Prop
  | .keep => True
  | .insert value _ => property value

namespace Children

variable {α : Type} {property : ChildKey → α → Prop} {children fewer : Children α}
  {key : ChildKey} {entry : Entry α} {value : α} {plan : Plan α}

theorem AllAt.get? (all : children.AllAt property) (found : children.get? key = some entry) :
    ∀ version ∈ entry.current :: entry.older, property key version.value := by
  obtain ⟨before, behind, parts, -⟩ := List.lookup_eq_some_iff.mp found
  refine all (key, entry) ?_
  rw [parts]
  exact List.mem_append_right _ List.mem_cons_self

theorem AllAt.version? (all : children.AllAt property) {serial : Nat}
    (found : children.version? key serial = some value) : property key value := by
  obtain ⟨entry, present, inEntry⟩ := Option.bind_eq_some_iff.mp found
  obtain ⟨version, searched, rfl⟩ := Option.map_eq_some_iff.mp inEntry
  exact all.get? present version (List.mem_of_find?_eq_some searched)

theorem AllAt.of_subset (all : children.AllAt property)
    (inside : fewer.entries ⊆ children.entries) : fewer.AllAt property :=
  fun member present => all member (inside present)

theorem AllAt.filterKeys (all : children.AllAt property) (keep : ChildKey → Bool) :
    (children.filterKeys keep).AllAt property :=
  all.of_subset fun _ => List.mem_of_mem_filter

theorem AllAt.adjust (all : children.AllAt property) (key : ChildKey) {change : Entry α → Entry α}
    (keeps : ∀ entry, (∀ version ∈ entry.current :: entry.older, property key version.value) →
      ∀ version ∈ (change entry).current :: (change entry).older, property key version.value) :
    (children.adjust key change).AllAt property := by
  intro member present
  obtain ⟨⟨other, entry⟩, before, rfl⟩ := List.mem_map.mp present
  dsimp only
  split
  · rename_i same
    subst same
    exact keeps entry (all _ before)
  · exact all _ before

theorem AllAt.append (all : children.AllAt property) (key : ChildKey) (known : property key value)
    (placeholder : Bool) : (children.append key value placeholder).AllAt property := by
  intro member present
  rcases List.mem_append.mp present with before | last
  · exact all member before
  · rw [List.mem_singleton.mp last]
    exact List.forall_mem_singleton.mpr known

theorem AllAt.resolve [Inhabited α] (all : children.AllAt property) (key : ChildKey)
    (planned : plan.All (property key)) (missing : property key default) :
    (children.resolve key plan).AllAt property := by
  unfold Children.resolve
  split
  · exact all
  · rename_i fresh placeholder _
    have new : property key fresh := planned
    have stacked : (children.adjust key fun entry => ⟨placeholder, ⟨children.nextSerial, fresh⟩,
        entry.current :: entry.older⟩).AllAt property :=
      all.adjust key fun entry known => List.forall_mem_cons.mpr ⟨new, known⟩
    exact stacked
  · exact all.append key missing true
  · exact all.append key planned _

theorem AllAt.resolveForWriting [Inhabited α] (all : children.AllAt property) (key : ChildKey)
    (planned : plan.All (property key)) (missing : property key default) :
    (children.resolveForWriting key plan).AllAt property := by
  rw [Children.resolveForWriting_eq]
  exact (all.resolve key planned missing).adjust key fun entry known =>
    List.forall_mem_singleton.mpr (known _ List.mem_cons_self)

theorem AllAt.write (all : children.AllAt property) (key : ChildKey) (known : property key value) :
    (children.write key value).AllAt property :=
  all.adjust key fun _ before =>
    List.forall_mem_cons.mpr ⟨known, (List.forall_mem_cons.mp before).2⟩

theorem AllAt.writeVersion (all : children.AllAt property) (key : ChildKey) (serial : Nat)
    (known : property key value) : (children.writeVersion key serial value).AllAt property := by
  have change (version : Version α) (before : property key version.value) :
      property key
        (if version.serial = serial then { version with value } else version).value := by
    split
    · exact known
    · exact before
  refine all.adjust key fun entry before => ?_
  obtain ⟨current, older⟩ := List.forall_mem_cons.mp before
  refine List.forall_mem_cons.mpr ⟨change _ current, fun version present => ?_⟩
  obtain ⟨old, member, rfl⟩ := List.mem_map.mp present
  exact change old (older old member)

theorem AllAt.latest (all : children.AllAt property) : children.latest.AllAt property := by
  intro member present
  obtain ⟨⟨key, entry⟩, before, rfl⟩ := List.mem_map.mp present
  exact List.forall_mem_singleton.mpr (all _ before _ List.mem_cons_self)

/-- Forgetting every key is filtering with none to keep. -/
theorem clear_eq_filterKeys (children : Children α) :
    children.clear = children.filterKeys fun _ => false := by
  simp only [clear, filterKeys, List.filter_false]

end Children

namespace Value

/-! ### Closed properties -/

/-- A property that passes down from a value to everything below it and is kept by changes of
its table and its content. -/
structure Closed (property : Value → Prop) : Prop where
  detached {content : Content Value} (payload : ∀ child ∈ content.children, property child) :
    property (detached content)
  backing {value : Value} (holds : property value) (heap : Heap) :
    ∀ child ∈ (value.backing heap).children, property child
  versions {value : Value} (holds : property value) : value.children.All property
  duplicate {value : Value} (holds : property value) : property value.duplicate
  resolve {value : Value} {plan : Plan Value} (holds : property value) (key : ChildKey)
    (planned : plan.All property) :
    property { value with children := value.children.resolve key plan }
  resolveForWriting {value : Value} {plan : Plan Value} (holds : property value) (key : ChildKey)
    (planned : plan.All property) :
    property { value with children := value.children.resolveForWriting key plan }
  writeChild {value written : Value} (holds : property value) (key : ChildKey)
    (below : property written) : property (value.writeChild key written)
  writeVersion {value written : Value} (holds : property value) (key : ChildKey) (serial : Nat)
    (below : property written) :
    property { value with children := value.children.writeVersion key serial written }
  filterKeys {value : Value} (holds : property value) (keep : ChildKey → Bool) :
    property { value with children := value.children.filterKeys keep }
  withContent {value : Value} {content : Content Value} (holds : property value)
    (payload : ∀ child ∈ content.children, property child) :
    property { value with storage := .detached content }

section

variable {property : Value → Prop} {heap after : Heap} {value operand changed : Value}
  {name : String} {allocator : Allocator}

theorem Closed.null (closed : Closed property) : property null :=
  closed.detached fun _ absurd => by cases absurd

theorem Closed.ofTree (closed : Closed property) (tree : Tree) : property (ofTree tree) := by
  induction tree using Tree.induction_levels with
  | level tree inductionHypothesis =>
    rw [ofTree_eq]
    refine closed.detached fun child member => ?_
    rw [Content.children_map] at member
    obtain ⟨below, present, rfl⟩ := List.mem_map.mp member
    exact inductionHypothesis below present

/-! ### Lookups -/

theorem Closed.plan (closed : Closed property) (holds : property value) (heap : Heap)
    (key : ChildKey) : (value.plan heap key).All property := by
  have fresh (child : Value) (found : (value.backing heap).child? key = some child) :
      property child.duplicate :=
    closed.duplicate (closed.backing holds heap child (Content.mem_children_of_child? found))
  unfold Value.plan
  dsimp only
  split
  · split
    · exact fresh _ (by assumption)
    · exact closed.null
  · split
    · exact fresh _ (by assumption)
    · trivial

theorem Closed.look (closed : Closed property) (holds : property value) (heap : Heap)
    (key : ChildKey) : property (value.look heap key) :=
  closed.resolve holds key (closed.plan holds heap key)

theorem Closed.reach (closed : Closed property) (holds : property value) (heap : Heap)
    (key : ChildKey) : property (value.reach heap key) :=
  closed.resolveForWriting holds key (closed.plan holds heap key)

theorem Closed.child (closed : Closed property) (holds : property value) (key : ChildKey) :
    property (value.child key).value := by
  unfold Value.child
  split
  · exact (closed.versions holds).get? (by assumption) _ List.mem_cons_self
  · exact closed.null

theorem Closed.at? (closed : Closed property) (holds : property value) {reference : Reference}
    {found : Value} (means : value.at? reference = some found) : property found := by
  induction reference generalizing value with
  | nil =>
    cases means
    exact holds
  | cons first rest inductionHypothesis =>
    obtain ⟨child, version, below⟩ := Option.bind_eq_some_iff.mp means
    exact inductionHypothesis ((closed.versions holds).version? version) below

/-- What becomes of a value along paths has the property if the changes at their ends keep it. -/
theorem Closed.evolves (closed : Closed property) {change : Value → Value → Prop}
    (keeps : ∀ value after, change value after → property value → property after)
    (evolves : value.Evolves heap change changed) (holds : property value) : property changed := by
  induction evolves with
  | refl => exact holds
  | trans _ _ firstHypothesis restHypothesis => exact restHypothesis (firstHypothesis holds)
  | look key => exact closed.look holds heap key
  | reach key => exact closed.reach holds heap key
  | child _ belowHypothesis =>
    exact closed.writeChild holds _ (belowHypothesis (closed.child holds _))
  | version found _ belowHypothesis =>
    exact closed.writeVersion holds _ _ (belowHypothesis ((closed.versions holds).version? found))
  | change changes => exact keeps _ _ changes holds

theorem Closed.looked (closed : Closed property)
    (evolves : value.Evolves heap (fun _ _ => False) changed) (holds : property value) :
    property changed :=
  closed.evolves (fun _ _ absurd => absurd.elim) evolves holds

/-- The value at the end of a path that is followed for writing. -/
theorem Closed.endpoint (closed : Closed property) (holds : property value) (heap : Heap)
    (keys : List ChildKey) : property (value.endpoint heap keys) := by
  induction keys generalizing value with
  | nil => exact holds
  | cons key rest inductionHypothesis =>
    exact inductionHypothesis (closed.child (closed.reach holds heap key) key)

/-! ### Operations -/

theorem Closed.forgetPlaceholder (closed : Closed property) (holds : property value)
    (key : ChildKey) : property (value.forgetPlaceholder key) := by
  obtain ⟨storage, children⟩ := value
  unfold Value.forgetPlaceholder Children.forgetPlaceholder
  split
  · split
    · exact closed.filterKeys holds _
    · exact holds
  · exact holds

/-- What is behind a detached value has the property, and so it does with one more child. -/
theorem Closed.withChild (closed : Closed property) (holds : property value)
    (added : property operand) {before content : Content Value}
    (storage : value.storage = .detached before)
    (children : content.children = before.children ++ [operand]) :
    property { value with storage := .detached content } := by
  refine closed.withContent holds fun child member => ?_
  have behind : value.backing .empty = before := by
    rw [Value.backing, storage]
  rw [children] at member
  rcases List.mem_append.mp member with old | last
  · exact closed.backing holds .empty child (by rwa [behind])
  · rw [List.mem_singleton.mp last]
    exact added

end

end Value

/-- The operand of an operation, if it has one, has a property. -/
def Operation.Takes (property : Value → Prop) : Operation → Prop
  | assign operand | addMember _ operand _ | pushBack operand _ => property operand
  | set _ | removeMember _ => True

/-- What an operation leaves behind has a property that the value and the operand had. -/
theorem Operation.Effect.closed {property : Value → Prop} {heap after : Heap}
    {value changed : Value} {operation : Operation}
    (effect : operation.Effect heap value after changed) (closed : Value.Closed property)
    (takes : operation.Takes property) (holds : property value) : property changed := by
  have forgotten (name : String) :
      property { value with children := value.children.forgetMember name } :=
    closed.filterKeys holds _
  have cleared : property { value with children := value.children.clear } := by
    rw [Children.clear_eq_filterKeys]
    exact closed.filterKeys holds _
  cases effect with
  | refused => exact holds
  | assigned => exact takes
  | setDetached =>
    refine closed.withContent cleared fun child member => ?_
    rw [Content.ofLeaf, Content.children_map] at member
    obtain ⟨leaf, -, -⟩ := List.mem_map.mp member
    exact leaf.elim
  | setDropped | setAttached => exact cleared
  | memberDetached detached =>
    refine closed.forgetPlaceholder (closed.withChild holds takes detached ?_) _
    rw [Content.children, List.map_append]
    rfl
  | elementDetached detached =>
    exact closed.forgetPlaceholder (closed.withChild holds takes detached rfl) _
  | memberAttached | elementAttached => exact closed.forgetPlaceholder holds _
  | @removedDetached name members detached =>
    refine closed.withContent (forgotten name) fun child member => ?_
    have behind : value.backing heap = .object members := by
      rw [Value.backing, detached]
    refine closed.backing holds heap child ?_
    rw [behind]
    exact List.map_subset _ (fun _ => List.mem_of_mem_filter) member
  | removedNothing | removedAttached => exact forgotten _

end JsonOverlay
