/-
This file follows the handles in a value: the nodes that it and everything below it are
attached to. What a value shows depends on the arenas that its handles lead into and on no
others. A detached copy has no handles, so it shows the same whatever becomes of the heap.
-/

import JsonOverlay.Proofs.Value.Closed

namespace JsonOverlay.Value

/-! ### Where handles lead -/

/-- All handles in a value lead into certain arenas: its own, those of the content behind it
and those of all versions of the children in its table, at any depth. -/
inductive Leads (into : ArenaId → Prop) : Value → Prop where
  | level {storage : Storage Value} {children : Children Value}
      (here : ∀ node, storage = .attached node → into node.arena)
      (payload : ∀ content, storage = .detached content →
        ∀ child ∈ content.children, Leads into child)
      (versions : ∀ member ∈ children.entries, ∀ version ∈ member.2.current :: member.2.older,
        Leads into version.value) :
      Leads into ⟨storage, children⟩

/-- No handle in a value leads into an arena. -/
abbrev Avoids (value : Value) (id : ArenaId) : Prop := value.Leads (· ≠ id)

variable {into wider : ArenaId → Prop} {before after : Heap} {value : Value}
  {content : Content Value} {children : Children Value} {node : NodeRef}

theorem Leads.here (leads : value.Leads into) (attached : value.storage = .attached node) :
    into node.arena := by
  cases leads with
  | level here payload versions => exact here node attached

theorem Leads.payload (leads : value.Leads into) (detached : value.storage = .detached content) :
    ∀ child ∈ content.children, child.Leads into := by
  cases leads with
  | level here payload versions => exact payload content detached

theorem Leads.versions (leads : value.Leads into) : value.children.All (Leads into) := by
  cases leads
  assumption

theorem Leads.withChildren (leads : value.Leads into) (versions : children.All (Leads into)) :
    Leads into { value with children } :=
  .level (fun _ => leads.here) (fun _ => leads.payload) versions

theorem Leads.withContent (leads : value.Leads into)
    (payload : ∀ child ∈ content.children, child.Leads into) :
    Leads into { value with storage := .detached content } := by
  refine .level (fun _ absurd => by cases absurd) (fun other same => ?_) leads.versions
  cases same
  exact payload

theorem leads_attached (inside : into node.arena) : (attached node).Leads into := by
  refine .level (fun other same => ?_) (fun _ absurd => by cases absurd) fun _ absurd => by
    cases absurd
  cases same
  exact inside

theorem leads_detached (payload : ∀ child ∈ content.children, child.Leads into) :
    (detached content).Leads into := by
  refine .level (fun _ absurd => by cases absurd) (fun other same => ?_) fun _ absurd => by
    cases absurd
  cases same
  exact payload

/-- The children of a node are in its arena. -/
theorem Leads.backing (leads : value.Leads into) (heap : Heap) :
    ∀ child ∈ (value.backing heap).children, child.Leads into := by
  unfold Value.backing
  split
  · rename_i content detached
    exact leads.payload detached
  · rename_i reference attached
    have inside : into reference.arena := leads.here attached
    split
    · rw [Content.children_map]
      intro child member
      obtain ⟨id, -, rfl⟩ := List.mem_map.mp member
      exact leads_attached inside
    · exact fun _ absurd => by cases absurd

/-- Lookups and edits of a value bring no handles into it but those of an operand. -/
theorem closed_leads (into : ArenaId → Prop) : Closed (Leads into) where
  detached := leads_detached
  backing := Leads.backing
  versions := Leads.versions
  duplicate leads := leads.withChildren leads.versions.latest
  resolve leads key planned :=
    leads.withChildren (leads.versions.resolve key planned (leads_detached fun _ absurd => by
      cases absurd))
  resolveForWriting leads key planned :=
    leads.withChildren (leads.versions.resolveForWriting key planned
      (leads_detached fun _ absurd => by cases absurd))
  writeChild leads key below := leads.withChildren (leads.versions.write key below)
  writeVersion leads key serial below :=
    leads.withChildren (leads.versions.writeVersion key serial below)
  filterKeys leads keep := leads.withChildren (leads.versions.filterKeys keep)
  withContent := Leads.withContent

theorem Leads.mono (leads : value.Leads into) (inside : ∀ id, into id → wider id) :
    value.Leads wider := by
  induction leads with
  | level here _ _ payloadHypothesis versionsHypothesis =>
    exact .level (fun node attached => inside _ (here node attached)) payloadHypothesis
      versionsHypothesis

theorem Leads.and (first : value.Leads into) (second : value.Leads wider) :
    value.Leads fun id => into id ∧ wider id := by
  induction first with
  | level here _ _ payloadHypothesis versionsHypothesis =>
    refine .level (fun node attached => ⟨here node attached, second.here attached⟩)
      (fun content detached child member => ?_) fun member held version present => ?_
    · exact payloadHypothesis content detached child member (second.payload detached child member)
    · exact versionsHypothesis member held version present
        (second.versions member held version present)

/-! ### What a value shows -/

theorem visibleEntries_congr {entries : List (ChildKey × Entry Value)}
    (same : ∀ member ∈ entries,
      member.2.current.value.visible after = member.2.current.value.visible before) :
    visibleEntries after entries = visibleEntries before entries := by
  induction entries with
  | nil => rfl
  | cons first rest inductionHypothesis =>
    obtain ⟨key, placeholder, ⟨serial, child⟩, older⟩ := first
    obtain ⟨here, others⟩ := List.forall_mem_cons.mp same
    rw [visibleEntries, visibleEntries, inductionHypothesis others]
    split
    · exact congrArg (fun tree => (key, tree) :: visibleEntries before rest) here
    · rfl

/-- What a value shows depends only on the arenas that its handles lead into. -/
theorem Leads.visible_congr (leads : value.Leads into)
    (same : ∀ id, into id → after.arena? id = before.arena? id) :
    value.visible after = value.visible before := by
  induction leads with
  | @level storage children here _ _ payloadHypothesis versionsHypothesis =>
    have behind : visibleStorage after storage = visibleStorage before storage := by
      cases storage with
      | attached node =>
        rw [visibleStorage, visibleStorage, Heap.tree, Heap.tree, same _ (here node rfl)]
      | detached content =>
        rw [visibleStorage, visibleStorage, visibleContent_eq, visibleContent_eq]
        exact congrArg Tree.ofContent (Content.map_congr (payloadHypothesis content rfl))
    have table : visibleChildren after children = visibleChildren before children := by
      obtain ⟨entries, nextSerial⟩ := children
      exact visibleEntries_congr fun member held =>
        versionsHypothesis member held _ List.mem_cons_self
    rw [visible, visible, behind, table]

/-! ### Detached copies -/

/-- A copy shows what was visible when it was made, whatever the heap is by then. -/
@[simp]
theorem visible_deepCopy (value : Value) (heap later : Heap) :
    (value.deepCopy heap).visible later = value.visible heap :=
  visible_ofTree later _

end JsonOverlay.Value
