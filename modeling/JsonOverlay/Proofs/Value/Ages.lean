/-
This file follows the nodes of all documents through the operations on values. An operation
keeps what was issued apart from what is live, and leaves every node that stays live those of
its children that stay live. It leaves them under their keys as well, but for the members that
are known by position in an object from which members are removed.
-/

import JsonOverlay.Proofs.Arena.Ages
import JsonOverlay.Proofs.Value.Write

namespace JsonOverlay

namespace Content

variable {α : Type} {key : ChildKey} {child : α}

/-- A member that is found by another name, or is not the first of its name, stays when a name is
removed, and is still found by its own name. -/
theorem child?_filter_members {members : List (String × α)} {name : String}
    (named : key.isPositional = false) (found : (object members).child? key = some child)
    (spared : child ∉ (members.filter fun (other, _) => other == name).map Prod.snd) :
    (object (members.filter fun (other, _) => other != name)).child? key = some child := by
  cases key with
  | member other =>
    have early : members.lookup other = some child := found
    have different : (other != name) = true := by
      refine bne_iff_ne.mpr fun same => spared ?_
      obtain ⟨before, behind, parts, -⟩ := List.lookup_eq_some_iff.mp early
      refine List.mem_map.mpr ⟨(other, child), List.mem_filter.mpr ⟨?_, beq_iff_eq.mpr same⟩, rfl⟩
      rw [parts]
      exact List.mem_append_right _ List.mem_cons_self
    show (members.filter fun member => member.1 != name).lookup other = some child
    rw [lookup_filter_fst (fun other => other != name), if_pos different, early]
  | repeated position => cases named
  | element index => cases found

end Content

/-! ### Work on an arena -/

namespace Arena

variable {arena : Arena} {id : NodeId} {members : List (String × NodeId)}
  {items : List NodeId}

theorem Tended.replace (tended : arena.Tended) (moved : NodeId → ChildKey → Prop) {id : NodeId}
    {content : Content Empty} (rises : arena.Rises (arena.replace id content.ofLeaf).2) :
    Worked moved arena (arena.replace id content.ofLeaf).2 := by
  cases found : arena.get? id with
  | none =>
    rw [Arena.replace, found]
    exact ⟨tended, .refl moved arena⟩
  | some old =>
    have leaf : ∀ child, child ∉ (content.ofLeaf : Node).children := by
      intro child member
      rw [Content.ofLeaf, Content.children_map] at member
      obtain ⟨absurd, -, -⟩ := List.mem_map.mp member
      exact absurd.elim
    rw [replace_of_found found] at rises ⊢
    exact tended.reassign found (fun child member => absurd member (leaf child)) rises
      (fun child member spared => absurd member spared)
      fun key child _ present spared => absurd (Content.mem_children_of_child? present) spared

/-- Storing a tree and appending it to the children of a node. -/
theorem Tended.append {old node : Node} (tended : arena.Tended)
    (moved : NodeId → ChildKey → Prop) (found : arena.get? id = some old) (appending : Appending)
    (tree : Tree) (more : appending.extend? old (arena.store tree).1 = some node) :
    Worked moved arena ((arena.store tree).2.assign id node) := by
  have stored := tended.store tree
  have grown := Appending.children_of_extend? more
  have issued : ∀ child ∈ node.children, (arena.store tree).2.Known child := by
    rw [grown]
    exact List.forall_mem_append.mpr
      ⟨fun child member => (stored.ages moved).known (tended.known id old found child member),
        stored.known⟩
  have worked : Worked moved (arena.store tree).2
      (((arena.store tree).2.assign id node).freeAll []) :=
    stored.tended.reassign (stored.same id old found) issued
      (fun index => by rw [Arena.freeAll, generationAt_assign])
      (fun child member _ => grown ▸ List.mem_append_left _ member)
      (fun key child _ present _ => Appending.child?_of_extend? more present)
  rw [Arena.freeAll] at worked
  exact ⟨worked.tended, (stored.ages moved).trans worked.ages⟩

theorem Tended.withoutMember {moved : NodeId → ChildKey → Prop} (tended : arena.Tended)
    (found : arena.get? id = some (.object members)) {name : String}
    (rises : arena.Rises (Value.withoutMember arena id members name))
    (moves : ∀ key, key.isPositional = true → moved id key) :
    Worked moved arena (Value.withoutMember arena id members name) := by
  have issued (kept : String × NodeId → Bool) :
      ∀ child ∈ (Content.object (members.filter kept)).children, arena.Known child :=
    fun child member => tended.known id _ found child
      (List.map_subset Prod.snd (fun _ => List.mem_of_mem_filter) member)
  rw [Value.withoutMember, foldl_free] at rises ⊢
  refine tended.reassign found (issued _) rises (fun child member spared => ?_)
    fun key child still present spared => ?_
  · obtain ⟨⟨other, id⟩, inside, rfl⟩ := List.mem_map.mp member
    by_cases same : other = name
    · refine absurd ?_ spared
      exact List.mem_map.mpr ⟨_, List.mem_filter.mpr ⟨inside, beq_iff_eq.mpr same⟩, rfl⟩
    · exact List.mem_map.mpr ⟨_, List.mem_filter.mpr ⟨inside, bne_iff_ne.mpr same⟩, rfl⟩
  · exact Content.child?_filter_members (Bool.eq_false_iff.mpr fun positional =>
      still (moves key positional)) present spared

end Arena

/-! ### Work on the heap -/

namespace Heap

variable {before after heap : Heap} {moved : NodeRef → ChildKey → Prop} {node : NodeRef}
  {content later : Content NodeId} {key : ChildKey}

/-- A node was issued in an arena that was made. The node and the arena may be gone. -/
def Known (heap : Heap) (node : NodeRef) : Prop :=
  node.arena.index < heap.arenas.size ∧
    ∀ arena, heap.arena? node.arena = some arena → arena.Known node.node

/-- All arenas were looked after. -/
def Tended (heap : Heap) : Prop :=
  ∀ id arena, heap.arena? id = some arena → arena.Tended

/-- No slot of an arena has come around to an earlier generation. -/
def Rises (before after : Heap) : Prop :=
  ∀ id old arena, before.arena? id = some old → after.arena? id = some arena → old.Rises arena

/-- Every arena that was there has aged, if it is still there. -/
structure Ages (moved : NodeRef → ChildKey → Prop) (before after : Heap) : Prop where
  size_le : before.arenas.size ≤ after.arenas.size
  arenas : ∀ id arena, id.index < before.arenas.size → after.arena? id = some arena →
    ∃ old, before.arena? id = some old ∧ Arena.Ages (fun node => moved ⟨id, node⟩) old arena

theorem node?_eq_some : heap.node? node = some content ↔
    ∃ arena, heap.arena? node.arena = some arena ∧ arena.get? node.node = some content :=
  Option.bind_eq_some_iff

theorem known_of_node? (found : heap.node? node = some content) : heap.Known node := by
  obtain ⟨arena, present, level⟩ := node?_eq_some.mp found
  refine ⟨index_lt_of_arena? present, fun other same => ?_⟩
  rw [present, Option.some.injEq] at same
  exact same ▸ Arena.known_of_get? level

theorem Tended.known_child (tended : heap.Tended) (found : heap.node? node = some content)
    {child : NodeId} (member : child ∈ content.children) : heap.Known ⟨node.arena, child⟩ := by
  obtain ⟨arena, present, level⟩ := node?_eq_some.mp found
  refine ⟨index_lt_of_arena? present, fun other same => ?_⟩
  rw [present, Option.some.injEq] at same
  subst same
  exact (tended node.arena arena present).known node.node content level child member

theorem Ages.known (ages : before.Ages moved after) (known : before.Known node) :
    after.Known node := by
  refine ⟨known.1.trans_le ages.size_le, fun arena present => ?_⟩
  obtain ⟨old, was, aged⟩ := ages.arenas node.arena arena known.1 present
  exact aged.known (known.2 old was)

/-- What was issued is live only if it was so before. -/
theorem Ages.node?_ne_none (ages : before.Ages moved after) (known : before.Known node)
    (live : after.node? node ≠ none) : before.node? node ≠ none := by
  obtain ⟨level, found⟩ := Option.ne_none_iff_exists'.mp live
  obtain ⟨arena, present, there⟩ := node?_eq_some.mp found
  obtain ⟨old, was, aged⟩ := ages.arenas node.arena arena known.1 present
  obtain ⟨content, early⟩ := Arena.contains_iff.mp
    (aged.contains (known.2 old was) (Arena.contains_iff.mpr ⟨level, there⟩))
  exact Option.ne_none_iff_exists'.mpr ⟨content, node?_eq_some.mpr ⟨old, was, early⟩⟩

/-- A node that stays live keeps a child that stays live, under the keys that did not move. -/
theorem Ages.children (ages : before.Ages moved after) (found : before.node? node = some content)
    (present : after.node? node = some later) {child : NodeId}
    (known : before.Known ⟨node.arena, child⟩) (live : after.node? ⟨node.arena, child⟩ ≠ none) :
    (child ∈ content.children → child ∈ later.children) ∧
      ∀ key, ¬ moved node key → content.child? key = some child → later.child? key = some child := by
  obtain ⟨level, there⟩ := Option.ne_none_iff_exists'.mp live
  obtain ⟨old, was, early⟩ := node?_eq_some.mp found
  obtain ⟨arena, is, late⟩ := node?_eq_some.mp present
  obtain ⟨arena', is', childLevel⟩ := node?_eq_some.mp there
  obtain rfl : arena = arena' := Option.some.inj (is.symm.trans is')
  obtain ⟨old', was', aged⟩ := ages.arenas node.arena arena (index_lt_of_arena? was) is
  obtain rfl : old = old' := Option.some.inj (was.symm.trans was')
  exact aged.children node.node content later child early late (known.2 old was)
    (Arena.contains_iff.mpr ⟨level, childLevel⟩)

/-- Where a node has the level that it had, no key has moved. -/
theorem Ages.of_changed (ages : before.Ages moved after) :
    before.Ages (fun node key => moved node key ∧ after.node? node ≠ before.node? node) after := by
  refine ⟨ages.size_le, fun id arena bound present => ?_⟩
  obtain ⟨old, was, aged⟩ := ages.arenas id arena bound present
  refine ⟨old, was, aged.rises, aged.kept,
    fun node level later child found there known live => ?_⟩
  obtain ⟨listed, placed⟩ := aged.children node level later child found there known live
  refine ⟨listed, fun key still member => ?_⟩
  by_cases same : after.node? ⟨id, node⟩ = before.node? ⟨id, node⟩
  · rw [node?_eq_some.mpr ⟨arena, present, there⟩, node?_eq_some.mpr ⟨old, was, found⟩,
      Option.some.injEq] at same
    rw [same]
    exact member
  · exact placed key (fun moves => still ⟨moves, same⟩) member

/-- A heap that was looked after and has aged. -/
structure Worked (moved : NodeRef → ChildKey → Prop) (before after : Heap) : Prop where
  tended : after.Tended
  ages : before.Ages moved after

theorem Tended.worked_self (tended : heap.Tended) (moved : NodeRef → ChildKey → Prop) :
    heap.Worked moved heap :=
  ⟨tended, Nat.le_refl _, fun _ arena _ found => ⟨arena, found, .refl _ arena⟩⟩

theorem Tended.worked_put (tended : heap.Tended) {id : ArenaId} {old arena : Arena}
    (found : heap.arena? id = some old) (rises : heap.Rises (heap.put id arena))
    (worked : old.Rises arena → Arena.Worked (fun node => moved ⟨id, node⟩) old arena) :
    heap.Worked moved (heap.put id arena) := by
  obtain ⟨after, ages⟩ := worked (rises id old arena found (by rw [arena?_put found, if_pos rfl]))
  refine ⟨fun other result present => ?_, by simp [put], fun other result bound present => ?_⟩
  · rw [arena?_put found] at present
    split at present
    · rw [← Option.some.inj present]
      exact after
    · exact tended other result present
  · rw [arena?_put found] at present
    split at present
    · rename_i same
      subst same
      rw [← Option.some.inj present]
      exact ⟨old, found, ages⟩
    · exact ⟨result, present, .refl _ result⟩

end Heap

/-! ### Operations -/

/-- An operation keeps a heap looked after. The keys of members by their positions may have moved
in an object from which members are removed, and no others. -/
theorem Operation.Effect.worked {heap after : Heap} {value changed : Value} {operation : Operation}
    {moved : NodeRef → ChildKey → Prop} (effect : operation.Effect heap value after changed)
    (tended : heap.Tended) (rises : heap.Rises after)
    (moves : ∀ name node key, operation = .removeMember name → value.storage = .attached node →
      key.isPositional = true → moved node key) : heap.Worked moved after := by
  cases effect with
  | setAttached _ found =>
    exact tended.worked_put found rises fun risen => (tended _ _ found).replace _ risen
  | @memberAttached name _ _ _ _ _ _ found level =>
    exact tended.worked_put found rises fun _ =>
      (tended _ _ found).append _ level (.member name) _ rfl
  | elementAttached _ found level =>
    exact tended.worked_put found rises fun _ => (tended _ _ found).append _ level .element _ rfl
  | removedAttached attached found level =>
    exact tended.worked_put found rises fun risen => (tended _ _ found).withoutMember level risen
      fun key => moves _ _ key rfl attached
  | _ => exact tended.worked_self moved

end JsonOverlay
