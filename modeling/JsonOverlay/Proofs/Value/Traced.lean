/-
This file follows the children in the tables of values that are attached to nodes. Each is null
or attached to what was a child of the node when it was looked up. It need not be looked up again
for that to stay so: as far as both nodes are live, the one is a child of the other whatever was
done to the document through other values, and it is the child that its key stands for, unless
the key is a position and members before it were removed.
-/

import JsonOverlay.Proofs.Value.Ages
import JsonOverlay.Proofs.Value.Lookups

namespace JsonOverlay

namespace Value

/-! ### Properties at every depth -/

/-- A value has a property, and so has everything below it: what is behind a detached value, and
all versions of the children in its table. -/
inductive Everywhere (here : Value → Prop) : Value → Prop where
  | level {storage : Storage Value} {children : Children Value} (top : here ⟨storage, children⟩)
      (payload : ∀ content, storage = .detached content →
        ∀ child ∈ content.children, Everywhere here child)
      (versions : ∀ member ∈ children.entries, ∀ version ∈ member.2.current :: member.2.older,
        Everywhere here version.value) :
      Everywhere here ⟨storage, children⟩

variable {first second both here : Value → Prop} {value after child written : Value}

theorem Everywhere.top (everywhere : value.Everywhere here) : here value := by
  cases everywhere
  assumption

theorem Everywhere.versions (everywhere : value.Everywhere here) :
    value.children.All (Everywhere here) := by
  cases everywhere
  assumption

theorem Everywhere.and (left : value.Everywhere first) (right : value.Everywhere second)
    (each : ∀ value, first value → second value → both value) : value.Everywhere both := by
  induction left with
  | level top _ _ payloadHypothesis versionsHypothesis =>
    cases right with
    | level top' payload versions =>
      exact .level (each _ top top')
        (fun content detached child member =>
          payloadHypothesis content detached child member (payload content detached child member))
        fun member held version present =>
          versionsHypothesis member held version present (versions member held version present)

/-- Nothing is below a value that is attached to a node and through which nothing was looked up. -/
theorem everywhere_attached {node : NodeRef} {children : Children Value}
    (top : here ⟨.attached node, children⟩) (nothing : children.entries = []) :
    Everywhere here ⟨.attached node, children⟩ := by
  refine .level top (fun content absurd => ?_) fun member present => ?_
  · cases absurd
  · rw [nothing] at present
    cases present

theorem Everywhere.mono (everywhere : value.Everywhere first)
    (each : ∀ value, first value → second value) : value.Everywhere second :=
  everywhere.and everywhere fun value holds _ => each value holds

theorem Everywhere.at? (everywhere : value.Everywhere here) {reference : Reference}
    (means : value.at? reference = some child) : child.Everywhere here := by
  induction reference generalizing value with
  | nil =>
    cases means
    exact everywhere
  | cons first rest inductionHypothesis =>
    obtain ⟨between, version, below⟩ := Option.bind_eq_some_iff.mp means
    exact inductionHypothesis (everywhere.versions.version? version) below

end Value

/-! ### Children of nodes -/

variable {heap before after : Heap} {sure : ChildKey → Prop} {moved : NodeRef → ChildKey → Prop}
  {node : NodeRef} {content : Content NodeId} {key : ChildKey}

/-- A child that a value attached to a node has under a key. If it is attached itself, it is so in
the same arena; as long as both nodes are live the one is a child of the other, and the one that
the key stands for if that is sure. -/
def Heap.Linked (heap : Heap) (sure : ChildKey → Prop) (node : NodeRef) (key : ChildKey)
    (child : Value) : Prop :=
  ∀ other, child.storage = .attached other → heap.Known other ∧ other.arena = node.arena ∧
    ∀ content, heap.node? node = some content → heap.node? other ≠ none →
      other.node ∈ content.children ∧ (sure key → content.child? key = some other.node)

theorem Heap.Linked.aged {child : Value} (linked : before.Linked sure node key child)
    (ages : before.Ages moved after) (known : before.Known node)
    (still : sure key → ¬ moved node key) : after.Linked sure node key child := by
  rintro ⟨place, id⟩ attached
  obtain ⟨issued, rfl, near⟩ := linked ⟨place, id⟩ attached
  refine ⟨ages.known issued, rfl, fun level present live => ?_⟩
  have early : before.node? node ≠ none :=
    ages.node?_ne_none known (by rw [present]; exact Option.some_ne_none level)
  obtain ⟨content, found⟩ := Option.ne_none_iff_exists'.mp early
  obtain ⟨member, placed⟩ := near content found (ages.node?_ne_none issued live)
  have kept := ages.children found present issued live
  exact ⟨kept.1 member, fun certain => kept.2 key (still certain) (placed certain)⟩

namespace Value

variable {value changed child written : Value}

/-- A value is attached to a node that was issued, to whose children those in its table are
attached, or it is detached and null. -/
structure Sited (heap : Heap) (sure : ChildKey → Prop) (value : Value) : Prop where
  null : ∀ content, value.storage = .detached content → content = .null
  known : ∀ node, value.storage = .attached node → heap.Known node
  linked : ∀ node, value.storage = .attached node → value.children.AllAt (heap.Linked sure node)

/-- A value and everything below it is attached to nodes as their children are, or null. -/
abbrev Traced (heap : Heap) (sure : ChildKey → Prop) (value : Value) : Prop :=
  value.Everywhere (Sited heap sure)

/-- In the table of a value, no child is known under a key that moved. -/
def Settled (moved : NodeRef → ChildKey → Prop) (value : Value) : Prop :=
  ∀ node key, value.storage = .attached node → key ∈ value.children.keys → ¬ moved node key

theorem Sited.aged (sited : value.Sited before sure) (ages : before.Ages moved after)
    (settled : value.Settled fun node key => sure key ∧ moved node key) : value.Sited after sure where
  null := sited.null
  known node attached := ages.known (sited.known node attached)
  linked node attached member present version inside :=
    (sited.linked node attached member present version inside).aged ages (sited.known node attached)
      fun certain moves =>
        settled node member.1 attached (List.mem_map_of_mem present) ⟨certain, moves⟩

/-- Whatever is done to a document, children stay children. -/
theorem Traced.aged (traced : value.Traced before sure) (ages : before.Ages moved after)
    (settled : value.Everywhere (Settled fun node key => sure key ∧ moved node key)) :
    value.Traced after sure :=
  traced.and settled fun _ sited settled => sited.aged ages settled

/-! ### Tables -/

/-- A child that a value may have in its table under a key. -/
def Fits (heap : Heap) (sure : ChildKey → Prop) (value : Value) (key : ChildKey)
    (child : Value) : Prop :=
  child.Traced heap sure ∧ ∀ node, value.storage = .attached node → heap.Linked sure node key child

theorem traced_null : null.Traced heap sure := by
  refine .level ⟨fun content same => ?_, fun node absurd => ?_, fun node absurd => ?_⟩
    (fun content same child member => ?_) fun member absurd => ?_
  · cases same
    rfl
  · cases absurd
  · cases absurd
  · cases same
    cases member
  · cases absurd

theorem traced_attached (known : heap.Known node) : (attached node).Traced heap sure := by
  refine everywhere_attached ⟨fun content absurd => ?_, fun other same => ?_,
    fun other _ member absurd => ?_⟩ rfl
  · cases absurd
  · cases same
    exact known
  · cases absurd

theorem fits_null (value : Value) (key : ChildKey) : value.Fits heap sure key null :=
  ⟨traced_null, fun _ _ _ absurd => by cases absurd⟩

/-- What takes the place of a child keeps where that was attached. -/
theorem Fits.replaced (fits : value.Fits heap sure key child) (traced : written.Traced heap sure)
    (storage : written.storage = child.storage) : value.Fits heap sure key written :=
  ⟨traced, fun node attached other same => fits.2 node attached other (storage ▸ same)⟩

theorem Traced.fits (traced : value.Traced heap sure) :
    value.children.AllAt (value.Fits heap sure) :=
  fun member present version inside => ⟨traced.versions member present version inside,
    fun node attached => traced.top.linked node attached member present version inside⟩

theorem Traced.withTable {children : Children Value} (traced : value.Traced heap sure)
    (fits : children.AllAt (value.Fits heap sure)) : Traced heap sure { value with children } := by
  cases traced with
  | level top payload versions =>
    exact .level ⟨top.null, top.known, fun node attached member present version inside =>
        (fits member present version inside).2 node attached⟩ payload
      fun member present version inside => (fits member present version inside).1

theorem Traced.duplicate (traced : value.Traced heap sure) : value.duplicate.Traced heap sure :=
  traced.withTable traced.fits.latest

/-- The child in a table at a key, or null if there is none. -/
theorem Traced.fits_child (traced : value.Traced heap sure) (key : ChildKey) :
    value.Fits heap sure key (value.child key).value := by
  unfold Value.child
  split
  · rename_i entry found
    exact traced.fits.get? found entry.current List.mem_cons_self
  · exact value.fits_null key

theorem Traced.fits_shown (traced : value.Traced heap sure)
    (shown : value.shownChild? key = some child) : value.Fits heap sure key child := by
  unfold shownChild? at shown
  split at shown
  · rename_i found placeholder present
    split at shown
    · rw [← Option.some.inj shown, ← child_of_find? present]
      exact traced.fits_child key
    · cases shown
  · cases shown

/-! ### Lookups -/

theorem backing_attached (attached : value.storage = .attached node)
    (live : heap.node? node = some content) :
    value.backing heap = content.map fun child => .attached ⟨node.arena, child⟩ := by
  rw [backing, attached]
  simp only [live]

/-- The child behind a value at a key fits there. -/
theorem Traced.fits_backing (traced : value.Traced heap sure) (tended : heap.Tended)
    (found : (value.backing heap).child? key = some child) :
    value.Fits heap sure key child.duplicate := by
  cases storage : value.storage with
  | detached content =>
    rw [backing, storage, traced.top.null content storage] at found
    cases key <;> cases found
  | attached node =>
    cases live : heap.node? node with
    | none =>
      rw [backing, storage] at found
      simp only [live] at found
      cases key <;> cases found
    | some content =>
      rw [backing_attached storage live, Content.child?_map] at found
      obtain ⟨id, there, rfl⟩ := Option.map_eq_some_iff.mp found
      have member := Content.mem_children_of_child? there
      have known := tended.known_child live member
      refine ⟨(traced_attached known).duplicate, fun other same child attached => ?_⟩
      cases storage.symm.trans same
      cases attached
      refine ⟨known, rfl, fun level present _ => ?_⟩
      obtain rfl : content = level := Option.some.inj (live.symm.trans present)
      exact ⟨member, fun _ => there⟩

theorem Traced.plan (traced : value.Traced heap sure) (tended : heap.Tended) (key : ChildKey) :
    (value.plan heap key).All (value.Fits heap sure key) := by
  unfold Value.plan
  dsimp only
  split
  · split
    · exact traced.fits_backing tended (by assumption)
    · exact value.fits_null key
  · split
    · exact traced.fits_backing tended (by assumption)
    · trivial

/-- A value after something was forgotten that was looked up through it. -/
structure Forgets (value changed : Value) : Prop where
  storage_eq : changed.storage = value.storage
  entries_subset : changed.children.entries ⊆ value.children.entries

/-- What becomes of a value along paths at whose ends something is forgotten at most. -/
theorem Traced.evolves {change : Value → Value → Prop} (traced : value.Traced heap sure)
    (tended : heap.Tended) (forgets : ∀ value changed, change value changed → value.Forgets changed)
    (evolves : value.Evolves heap change changed) : changed.Traced heap sure := by
  -- A lookup puts in what is behind the value, and a path puts a child back where it was: both fit.
  induction evolves with
  | refl => exact traced
  | trans _ _ firstHypothesis restHypothesis => exact restHypothesis (firstHypothesis traced)
  | look key =>
    exact traced.withTable (traced.fits.resolve key (traced.plan tended key) (fits_null _ key))
  | reach key =>
    exact traced.withTable
      (traced.fits.resolveForWriting key (traced.plan tended key) (fits_null _ key))
  | @child value written key below belowHypothesis =>
    have fits := traced.fits_child key
    exact traced.withTable (traced.fits.write key (fits.replaced (belowHypothesis fits.1)
      (below.storage_eq fun _ _ changes => (forgets _ _ changes).storage_eq)))
  | version found below belowHypothesis =>
    have fits := traced.fits.version? found
    exact traced.withTable (traced.fits.writeVersion _ _ (fits.replaced (belowHypothesis fits.1)
      (below.storage_eq fun _ _ changes => (forgets _ _ changes).storage_eq)))
  | @change value changed changes =>
    obtain ⟨storage, children⟩ := changed
    obtain ⟨rfl, fewer⟩ := forgets _ _ changes
    exact traced.withTable (traced.fits.of_subset fewer)

theorem Traced.looked (traced : value.Traced heap sure) (tended : heap.Tended)
    (evolves : value.Evolves heap (fun _ _ => False) changed) : changed.Traced heap sure :=
  traced.evolves tended (fun _ _ absurd => absurd.elim) evolves

theorem Traced.endpoint (traced : value.Traced heap sure) (tended : heap.Tended)
    (keys : List ChildKey) : (value.endpoint heap keys).Traced heap sure := by
  induction keys generalizing value with
  | nil => exact traced
  | cons key rest inductionHypothesis =>
    exact inductionHypothesis ((traced.looked tended (.reach key)).fits_child key).1

/-! ### Operations -/

theorem Forgets.refl (value : Value) : value.Forgets value :=
  ⟨rfl, fun _ member => member⟩

theorem forgets_forgetPlaceholder (value : Value) (key : ChildKey) :
    value.Forgets (value.forgetPlaceholder key) := by
  refine ⟨rfl, ?_⟩
  unfold forgetPlaceholder Children.forgetPlaceholder
  split
  · split
    · exact fun _ => List.mem_of_mem_filter
    · exact fun _ member => member
  · exact fun _ member => member

end Value

/-- An operation is done to the document that a value is attached to, or it is refused. Nothing
is put into the value itself. -/
def Operation.Structural (value : Value) : Operation → Prop
  | assign _ => False
  | set _ => value.isAttached = true
  | _ => True

/-- A structural operation leaves a value where it is, and something is forgotten at most. -/
theorem Operation.Effect.forgets {heap after : Heap} {value changed : Value}
    {operation : Operation} (effect : operation.Effect heap value after changed)
    (structural : operation.Structural value)
    (null : ∀ content, value.storage = .detached content → content = .null) :
    value.Forgets changed := by
  cases effect with
  | refused => exact .refl value
  | assigned => exact structural.elim
  | setDetached detached =>
    have attached : value.isAttached = true := structural
    rw [Value.isAttached, detached] at attached
    cases attached
  | setDropped | setAttached => exact ⟨rfl, List.nil_subset _⟩
  | memberDetached detached | elementDetached detached | removedDetached detached =>
    cases null _ detached
  | memberAttached | elementAttached => exact value.forgets_forgetPlaceholder _
  | removedNothing | removedAttached => exact ⟨rfl, fun _ => List.mem_of_mem_filter⟩

/-! ### What is shown -/

namespace Value

variable {value after child : Value}

/-- A child is null, or attached to a node that is gone, or to one of an arena that is as it
should be. -/
def Stands (heap : Heap) (place : ArenaId) (right : NodeId → Prop) (child : Value) : Prop :=
  match child.storage with
  | .attached node => heap.node? node = none ∨ node.arena = place ∧ right node.node
  | .detached content => content = .null

theorem Stands.mono {place : ArenaId} {right weaker : NodeId → Prop}
    (stands : child.Stands heap place right) (each : ∀ id, right id → weaker id) :
    child.Stands heap place weaker := by
  unfold Stands at stands ⊢
  split at stands
  · exact stands.imp id fun inside => ⟨inside.1, each _ inside.2⟩
  · exact stands

/-- A child that a value shows at a key, in its shape or by a lookup for reading or writing. -/
inductive Shows (heap : Heap) (key : ChildKey) (value : Value) : Value → Prop where
  | shape {child : Value} {position : Nat} (atKey : (value.backing heap).keys[position]? = some key)
      (atChild : (value.shape heap).children[position]? = some child) : Shows heap key value child
  | lookup {after : Value} (looks : LooksUp heap key value after) :
      Shows heap key value (after.child key).value

theorem Lookups.evolves {change : Value → Value → Prop} (lookups : Lookups heap value after) :
    value.Evolves heap change after := by
  have once {key : ChildKey} {value between : Value} (looks : LooksUp heap key value between) :
      value.Evolves heap change between := by
    cases looks with
    | look => exact .look key
    | reach => exact .reach key
  induction lookups with
  | nothing => exact .refl
  | here first _ restHypothesis => exact (once first).trans restHypothesis
  | deeper first _ _ insideHypothesis restHypothesis =>
    exact ((once first).trans (.child insideHypothesis)).trans restHypothesis

theorem Fits.stands (fits : value.Fits heap sure key child) (attached : value.storage = .attached node)
    (live : heap.node? node = some content) :
    child.Stands heap node.arena fun id => id ∈ content.children ∧
      (sure key → content.child? key = some id) := by
  unfold Stands
  split
  · rename_i other storage
    obtain ⟨-, place, near⟩ := fits.2 node attached other storage
    by_cases gone : heap.node? other = none
    · exact .inl gone
    · exact .inr ⟨place, near content live gone⟩
  · rename_i level storage
    exact fits.1.top.null level storage

/-- A child that a value attached to a live node shows is null, or its node is gone, or it is
attached to a child of the node: to that which the key stands for, if the key is sure. -/
theorem Traced.stands (traced : value.Traced heap sure) (tended : heap.Tended)
    (attached : value.storage = .attached node) (live : heap.node? node = some content)
    (shows : value.Shows heap key child) :
    child.Stands heap node.arena fun id => id ∈ content.children ∧
      (sure key → content.child? key = some id) := by
  cases shows with
  | @lookup after looks =>
    have looked : after.Traced heap sure :=
      traced.looked tended (Lookups.here looks .nothing).evolves
    exact (looked.fits_child key).stands (looks.storage_eq.trans attached) live
  | @shape _ position atKey atChild =>
    rw [shape, Content.children_overlaid, List.getElem?_zipWith] at atChild
    have behind := Content.getElem?_children atKey
    simp only [atKey, behind] at atChild
    cases fresh : (value.backing heap).child? key with
    | none =>
      rw [fresh] at atChild
      cases atChild
    | some original =>
      rw [fresh] at atChild
      simp only [Option.some.injEq] at atChild
      cases shown : value.shownChild? key with
      | none =>
        rw [shown, Option.getD_none] at atChild
        exact atChild ▸ (traced.fits_backing tended fresh).stands attached live
      | some inTable =>
        rw [shown, Option.getD_some] at atChild
        exact atChild ▸ (traced.fits_shown shown).stands attached live

end Value

end JsonOverlay
