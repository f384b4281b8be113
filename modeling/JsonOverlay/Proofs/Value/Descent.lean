/-
This file shows that going down through what values show comes to an end. A child in a table may
be attached to a node around the one that the value is attached to, so the tree of nodes alone
does not bound the way down. But each step down leads to a part of the value itself, or for good
into the tree of nodes. So every recursion through the levels of values has exactly one solution,
and at a value that is the recursion over the tree that the value shows.
-/

import JsonOverlay.Proofs.Tree.Fold
import JsonOverlay.Proofs.Value.Lookups

namespace JsonOverlay.Value

variable {α β σ ε : Type} {heap : Heap} {value child other : Value} {level : Content β → β}
  {walk : Value → β}

/-! ### The children that a value shows -/

/-- The first value is a child that the second shows. -/
def ShownIn (heap : Heap) (child value : Value) : Prop := child ∈ (value.shape heap).children

/-- A child that is shown is behind the value or in the table. -/
theorem ShownIn.cases (shown : ShownIn heap child value) :
    child ∈ (value.backing heap).children ∨ ∃ key, value.shownChild? key = some child := by
  obtain ⟨key, member, found⟩ := Content.exists_key_of_mem_children shown
  rw [shape, Content.keys_overlaid] at member
  rw [shape, Content.child?_overlaid _ member] at found
  obtain ⟨fresh, behind, rfl⟩ := Option.map_eq_some_iff.mp found
  cases inTable : value.shownChild? key with
  | none => exact .inl (Content.mem_children_of_child? behind)
  | some child => exact .inr ⟨key, inTable⟩

theorem exists_get?_of_shownChild? {key : ChildKey} (shown : value.shownChild? key = some child) :
    ∃ entry, value.children.get? key = some entry ∧ entry.current.value = child := by
  unfold shownChild? at shown
  split at shown
  · rename_i found placeholder present
    split at shown
    · obtain ⟨entry, there, same, -⟩ := exists_get?_of_find? present
      exact ⟨entry, there, same.trans (Option.some.inj shown)⟩
    · cases shown
  · cases shown

theorem Keyed.shown (keyed : value.Keyed) (shown : ShownIn heap child value) : child.Keyed := by
  rcases shown.cases with behind | ⟨key, inTable⟩
  · exact keyed.backing heap child behind
  · obtain ⟨entry, found, rfl⟩ := exists_get?_of_shownChild? inTable
    exact keyed.versions.get? found _ List.mem_cons_self

/-! ### The way down -/

/-- Every version of every child in the table of a value is smaller than the value. -/
theorem sizeOf_versions_lt (value : Value) :
    value.children.All fun child => sizeOf child < sizeOf value := by
  obtain ⟨storage, entries, nextSerial⟩ := value
  rintro ⟨key, placeholder, current, older⟩ member version among
  have inEntries := List.sizeOf_lt_of_mem member
  have inEntry : sizeOf version.value < sizeOf (Entry.mk placeholder current older) := by
    obtain ⟨serial, child⟩ := version
    rcases List.mem_cons.mp among with rfl | earlier
    · simp only [Entry.mk.sizeOf_spec, Version.mk.sizeOf_spec]
      omega
    · have inOlder := List.sizeOf_lt_of_mem earlier
      simp only [Entry.mk.sizeOf_spec, Version.mk.sizeOf_spec] at inOlder ⊢
      omega
  simp only [Value.mk.sizeOf_spec, Children.mk.sizeOf_spec, Prod.mk.sizeOf_spec] at inEntries ⊢
  omega

theorem sizeOf_payload_lt {content : Content Value} (detached : value.storage = .detached content)
    (member : child ∈ content.children) : sizeOf child < sizeOf value := by
  obtain ⟨storage, children⟩ := value
  cases detached
  have smaller := Content.sizeOf_lt_of_mem_children member
  simp only [Value.mk.sizeOf_spec, Storage.detached.sizeOf_spec]
  omega

/-- How far down it goes from a value. A value that is attached to a node and carries nothing goes
down the tree under the node; any other value goes down to smaller values first. -/
noncomputable def rank (heap : Heap) (value : Value) : Nat × Nat :=
  match value.storage, value.children.entries with
  | .attached reference, [] => (0, (heap.tree reference).depth)
  | _, _ => (sizeOf value, 0)

theorem rank_attached (heap : Heap) (reference : NodeRef) :
    (attached reference).rank heap = (0, (heap.tree reference).depth) := rfl

/-- A value that carries nothing beside its node comes after every value that does. -/
theorem rank_cases (heap : Heap) (value : Value) :
    (∃ reference, value.storage = .attached reference ∧ value.children.entries = [] ∧
      value.rank heap = (0, (heap.tree reference).depth)) ∨
    value.rank heap = (sizeOf value, 0) := by
  obtain ⟨reference | content, entries | ⟨first, rest⟩, nextSerial⟩ := value
  · exact .inl ⟨reference, rfl, rfl, rfl⟩
  all_goals exact .inr rfl

theorem sizeOf_pos (value : Value) : 0 < sizeOf value := by
  obtain ⟨storage, children⟩ := value
  simp only [Value.mk.sizeOf_spec]
  omega

/-- A smaller value ranks below one that carries something. -/
theorem rank_lt_of_sizeOf_lt (smaller : sizeOf child < sizeOf value) :
    Prod.Lex (· < ·) (· < ·) (child.rank heap) (sizeOf value, 0) := by
  rcases rank_cases heap child with ⟨reference, -, -, rank⟩ | rank
  · rw [rank]
    exact .left _ _ value.sizeOf_pos
  · rw [rank]
    exact .left _ _ smaller

/-- The children behind a value that is attached to a node. -/
theorem exists_node_of_mem_backing {reference : NodeRef}
    (storage : value.storage = .attached reference)
    (behind : child ∈ (value.backing heap).children) :
    ∃ node id, heap.node? reference = some node ∧ id ∈ node.children ∧
      child = attached ⟨reference.arena, id⟩ := by
  rw [backing, storage] at behind
  dsimp only at behind
  cases found : heap.node? reference with
  | none =>
    rw [found] at behind
    cases behind
  | some node =>
    rw [found, Content.children_map] at behind
    obtain ⟨id, member, rfl⟩ := List.mem_map.mp behind
    exact ⟨node, id, rfl, member, rfl⟩

/-- The tree under a child of a node is less deep than that under the node. -/
theorem depth_tree_lt (levelled : heap.Levelled) {reference : NodeRef} {node : Node} {id : NodeId}
    (found : heap.node? reference = some node) (member : id ∈ node.children) :
    (heap.tree ⟨reference.arena, id⟩).depth < (heap.tree reference).depth := by
  refine Tree.depth_lt_of_mem_children ?_
  rw [levelled, found, Content.children_map]
  exact List.mem_map_of_mem member

/-- Each step down leads to a value of lower rank. -/
theorem rank_lt_of_shownIn (levelled : heap.Levelled) (shown : ShownIn heap child value) :
    Prod.Lex (· < ·) (· < ·) (child.rank heap) (value.rank heap) := by
  rcases shown.cases with behind | ⟨key, inTable⟩
  · cases storage : value.storage with
    | detached content =>
      have rank : value.rank heap = (sizeOf value, 0) := by
        rw [Value.rank, storage]
      rw [backing, storage] at behind
      rw [rank]
      exact rank_lt_of_sizeOf_lt (sizeOf_payload_lt storage behind)
    | attached reference =>
      obtain ⟨node, id, found, member, rfl⟩ := exists_node_of_mem_backing storage behind
      rw [rank_attached]
      rcases rank_cases heap value with ⟨same, attached, -, rank⟩ | rank
      · rw [storage] at attached
        cases attached
        rw [rank]
        exact .right _ (depth_tree_lt levelled found member)
      · rw [rank]
        exact .left _ _ value.sizeOf_pos
  · obtain ⟨entry, found, rfl⟩ := exists_get?_of_shownChild? inTable
    have rank : value.rank heap = (sizeOf value, 0) := by
      rcases rank_cases heap value with ⟨-, -, nothing, -⟩ | rank
      · rw [Children.get?, nothing] at found
        cases found
      · exact rank
    rw [rank]
    exact rank_lt_of_sizeOf_lt (value.sizeOf_versions_lt.get? found _ List.mem_cons_self)

theorem wellFounded_shownIn (levelled : heap.Levelled) : WellFounded (ShownIn heap) :=
  Subrelation.wf (rank_lt_of_shownIn levelled)
    (InvImage.wf (rank heap) (WellFounded.prod_lex Nat.lt_wfRel.wf Nat.lt_wfRel.wf))

/-! ### Recursion through the levels of values -/

/-- A recursion: what it comes to at a value is what is done at one level, in which it has come
to the children already. -/
def Walks (heap : Heap) (level : Content β → β) (walk : Value → β) : Prop :=
  ∀ value, walk value = level ((value.shape heap).map walk)

open Classical in
theorem exists_walks (levelled : heap.Levelled) (level : Content β → β) :
    ∃ walk, Walks heap level walk := by
  -- Only children that are shown are gone on to; for the others nothing is asked.
  let walk : Value → β := (wellFounded_shownIn levelled).fix fun value walk =>
    level ((value.shape heap).map fun child =>
      if shown : ShownIn heap child value then walk child shown else level .null)
  refine ⟨walk, fun value => ?_⟩
  refine ((wellFounded_shownIn levelled).fix_eq _ value).trans ?_
  exact congrArg level (Content.map_congr fun child shown => dif_pos shown)

theorem Walks.unique {first second : Value → β} (walks : Walks heap level first)
    (levelled : heap.Levelled) (others : Walks heap level second) : first = second := by
  funext value
  induction value using (wellFounded_shownIn levelled).induction with
  | _ value inductionHypothesis =>
    rw [walks value, others value, Content.map_congr inductionHypothesis]

/-- A recursion has exactly one solution. -/
theorem existsUnique_walks (levelled : heap.Levelled) (level : Content β → β) :
    ∃! walk, Walks heap level walk := by
  obtain ⟨walk, walks⟩ := exists_walks levelled level
  exact ⟨walk, walks, fun _ others => others.unique levelled walks⟩

/-- At a value a recursion comes to what it does on the tree that the value shows. -/
theorem Walks.eq_fold (walks : Walks heap level walk) (levelled : heap.Levelled)
    (keyed : value.Keyed) : walk value = (value.visible heap).fold level := by
  induction value using (wellFounded_shownIn levelled).induction with
  | _ value inductionHypothesis =>
    rw [walks value, Tree.fold_eq, content_visible_eq levelled keyed, Content.map_map]
    exact congrArg level
      (Content.map_congr fun child shown => inductionHypothesis child shown (keyed.shown shown))

/-! ### Copying and comparing -/

theorem ofTree_eq_fold (tree : Tree) : ofTree tree = tree.fold detached :=
  Tree.eq_fold ofTree_eq tree

/-- The comparison of a level with another value, given those of its children. -/
def equalLevel (heap : Heap) (tests : Content (Value → Bool)) (other : Value) : Bool :=
  tests.passes (other.shape heap)

/-- Two values compare as the trees that they show. -/
theorem fold_equalLevel (levelled : heap.Levelled) (tree : Tree) (keyed : other.Keyed) :
    tree.fold (equalLevel heap) other = tree.equal (other.visible heap) := by
  induction tree using Tree.induction_levels generalizing other with
  | level tree inductionHypothesis =>
    rw [Tree.fold_eq, equalLevel, Tree.equal_eq_passes, content_visible_eq levelled keyed]
    exact Content.passes_map fun test member child shown =>
      inductionHypothesis test member (keyed.shown shown)

/-- A comparison tells whether the trees that two values show are equal. -/
theorem Walks.eq_equal {test : Value → Value → Bool}
    (walks : Walks heap (equalLevel heap) test) (levelled : heap.Levelled) (keyed : value.Keyed)
    (otherKeyed : other.Keyed) :
    test value other = (value.visible heap).equal (other.visible heap) := by
  rw [walks.eq_fold levelled keyed, fold_equalLevel levelled _ otherKeyed]

end JsonOverlay.Value
