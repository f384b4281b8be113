/-
This file takes apart the tree that a value shows. Its top level is the level behind the
value with the shown entries of the table laid over it; below that, the trees of the
entries and of the content behind follow in the same way. A detached copy of a tree shows
that tree.
-/

import JsonOverlay.Proofs.Children
import JsonOverlay.Proofs.Tree
import JsonOverlay.Value.Lookup

namespace JsonOverlay.Value

variable {heap : Heap} {children : Children Value} {value child : Value} {key : ChildKey}

/-! ### Content -/

theorem visibleItems_eq_map (heap : Heap) (items : List Value) :
    visibleItems heap items = items.map (visible heap) := by
  induction items with
  | nil => rfl
  | cons item rest inductionHypothesis => rw [visibleItems, inductionHypothesis, List.map_cons]

theorem visibleMembers_eq_map (heap : Heap) (members : List (String × Value)) :
    visibleMembers heap members = members.map fun (name, child) => (name, visible heap child) := by
  induction members with
  | nil => rfl
  | cons member rest inductionHypothesis =>
    obtain ⟨name, child⟩ := member
    rw [visibleMembers, inductionHypothesis, List.map_cons]

theorem visibleContent_eq (heap : Heap) (content : Content Value) :
    visibleContent heap content = Tree.ofContent (content.map (visible heap)) := by
  cases content <;>
    simp only [visibleContent, Content.map, Tree.ofContent, visibleItems_eq_map,
      visibleMembers_eq_map]

/-! ### The table -/

theorem lookup_visibleEntries_of_notMem {entries : List (ChildKey × Entry Value)} {key : ChildKey}
    (absent : key ∉ entries.map Prod.fst) : (visibleEntries heap entries).lookup key = none := by
  induction entries with
  | nil => rfl
  | cons first rest inductionHypothesis =>
    obtain ⟨other, placeholder, ⟨serial, child⟩, older⟩ := first
    rw [List.map_cons, List.mem_cons, not_or] at absent
    rw [visibleEntries]
    split
    · rw [List.lookup_cons, beq_false_of_ne absent.1]
      exact inductionHypothesis absent.2
    · exact inductionHypothesis absent.2

/-- The trees in a table by key: those of the entries that are shown. -/
theorem lookup_visibleChildren (distinct : children.keys.Nodup) (key : ChildKey) :
    (visibleChildren heap children).lookup key =
      (children.get? key).bind fun entry =>
        if isShown key entry.current.value entry.placeholder then
          some (visible heap entry.current.value) else none := by
  obtain ⟨entries, nextSerial⟩ := children
  show (visibleEntries heap entries).lookup key = (entries.lookup key).bind _
  have names : (entries.map Prod.fst).Nodup := distinct
  clear distinct
  induction entries with
  | nil => rfl
  | cons first rest inductionHypothesis =>
    obtain ⟨other, placeholder, ⟨serial, child⟩, older⟩ := first
    rw [List.map_cons, List.nodup_cons] at names
    rw [visibleEntries]
    by_cases same : key = other
    · subst same
      rw [List.lookup_cons_self, Option.bind_some]
      split
      · rw [List.lookup_cons_self]
      · exact lookup_visibleEntries_of_notMem names.1
    · rw [List.lookup_cons, beq_false_of_ne same, ← inductionHypothesis names.2]
      split
      · rw [List.lookup_cons, beq_false_of_ne same]
      · rfl

/-- Only placeholders may be hidden. -/
theorem isShown_of_not_placeholder (key : ChildKey) (child : Value) :
    isShown key child false = true := by
  cases key <;> rfl

theorem map_shownChild? {β : Type} (value : Value) (key : ChildKey) (use : Value → β) :
    (value.shownChild? key).map use =
      (value.children.get? key).bind fun entry =>
        if isShown key entry.current.value entry.placeholder then
          some (use entry.current.value) else none := by
  rw [shownChild?, Children.find?]
  cases value.children.get? key with
  | none => rfl
  | some entry =>
    simp only [Option.map_some, Option.bind_some]
    split <;> rfl

/-! ### The child at a key -/

theorem exists_get?_of_find? {placeholder : Bool}
    (found : value.children.find? key = some (child, placeholder)) :
    ∃ entry, value.children.get? key = some entry ∧ entry.current.value = child ∧
      entry.placeholder = placeholder := by
  obtain ⟨entry, present, same⟩ := Option.map_eq_some_iff.mp found
  exact ⟨entry, present, (Prod.mk.inj same).1, (Prod.mk.inj same).2⟩

theorem child_eq {entry : Entry Value} (found : value.children.get? key = some entry) :
    value.child key = entry.current := by
  rw [Value.child, found]

theorem child_of_find? {placeholder : Bool}
    (found : value.children.find? key = some (child, placeholder)) :
    (value.child key).value = child := by
  obtain ⟨entry, present, same, -⟩ := exists_get?_of_find? found
  rw [child_eq present, same]

/-- A reference below a child that was written back. -/
theorem at?_writeChild {entry : Entry Value} (found : value.children.get? key = some entry)
    (child : Value) (reference : Reference) :
    (value.writeChild key child).at? ((key, entry.current.serial) :: reference) =
      child.at? reference := by
  have new := Children.get?_write value.children key child key
  rw [if_pos rfl, found, Option.map_some] at new
  rw [at?, writeChild, Children.version?_current new, Option.bind_some]

/-! ### The tree of a value -/

/-- The tree behind a value, in which looked-up children are in place below the top. -/
def behind (value : Value) (heap : Heap) : Tree := visibleStorage heap value.storage

/-- The top level of what a value shows. -/
theorem content_visible (distinct : value.children.keys.Nodup) :
    (value.visible heap).content =
      (value.behind heap).content.overlaid fun key => (value.shownChild? key).map (visible heap) := by
  obtain ⟨storage, children⟩ := value
  rw [visible, overlay, Tree.content_ofContent]
  refine Content.overlaid_congr fun key _ => ?_
  rw [map_shownChild?]
  exact lookup_visibleChildren distinct key

theorem behind_detached (heap : Heap) (content : Content Value) (children : Children Value) :
    behind ⟨.detached content, children⟩ heap = Tree.ofContent (content.map (visible heap)) :=
  visibleContent_eq heap content

theorem behind_attached (heap : Heap) (node : NodeRef) (children : Children Value) :
    behind ⟨.attached node, children⟩ heap = heap.tree node := rfl

/-- With nothing looked up a value shows what is behind it. -/
theorem visible_of_entries_eq_nil (nothing : value.children.entries = []) :
    value.visible heap = value.behind heap := by
  have distinct : value.children.keys.Nodup := by
    rw [Children.keys, nothing]
    exact List.nodup_nil
  refine Tree.content_injective ?_
  rw [content_visible distinct]
  refine Content.overlaid_of_none fun key _ => ?_
  rw [map_shownChild?, Children.get?, nothing]
  rfl

theorem visible_detached (heap : Heap) (content : Content Value) :
    (detached content).visible heap = Tree.ofContent (content.map (visible heap)) :=
  (visible_of_entries_eq_nil rfl).trans (behind_detached heap content {})

theorem visible_attached (heap : Heap) (node : NodeRef) :
    (attached node).visible heap = heap.tree node :=
  visible_of_entries_eq_nil rfl

/-- Another handle shows what the value shows. -/
@[simp]
theorem visible_duplicate (value : Value) (heap : Heap) :
    value.duplicate.visible heap = value.visible heap := by
  obtain ⟨storage, entries, nextSerial⟩ := value
  have same : visibleEntries heap (entries.map fun (key, entry) => (key, { entry with older := [] })) =
      visibleEntries heap entries := by
    induction entries with
    | nil => rfl
    | cons first rest inductionHypothesis =>
      obtain ⟨key, placeholder, ⟨serial, child⟩, older⟩ := first
      rw [List.map_cons, visibleEntries, visibleEntries, inductionHypothesis]
  simp only [duplicate, Children.latest, visible, visibleChildren, same]

/-! ### Copies of trees -/

theorem ofTrees_eq_map (items : List Tree) : ofTrees items = items.map ofTree := by
  induction items with
  | nil => rfl
  | cons item rest inductionHypothesis => rw [ofTrees, inductionHypothesis, List.map_cons]

theorem ofNamedTrees_eq_map (members : List (String × Tree)) :
    ofNamedTrees members = members.map fun (name, child) => (name, ofTree child) := by
  induction members with
  | nil => rfl
  | cons member rest inductionHypothesis =>
    obtain ⟨name, child⟩ := member
    rw [ofNamedTrees, inductionHypothesis, List.map_cons]

theorem ofTree_eq (tree : Tree) : ofTree tree = detached (tree.content.map ofTree) := by
  cases tree <;>
    simp only [ofTree, Tree.content, Content.map, ofTrees_eq_map, ofNamedTrees_eq_map]

/-- A detached copy of a tree shows the tree. -/
@[simp]
theorem visible_ofTree (heap : Heap) (tree : Tree) : (ofTree tree).visible heap = tree := by
  induction tree using Tree.induction_levels with
  | level tree inductionHypothesis =>
    have below : tree.content.map (visible heap ∘ ofTree) = tree.content.map fun child => child :=
      Content.map_congr inductionHypothesis
    rw [ofTree_eq, visible_detached, Content.map_map, below, Content.map_id, Tree.ofContent_content]

end JsonOverlay.Value
