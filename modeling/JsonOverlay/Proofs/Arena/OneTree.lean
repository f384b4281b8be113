/-
This file says when an arena is exactly one tree, and that it is one whenever it consists
of a single layout: the arena holds the layout, the layout is under the root, and nothing
else is live. Operations keep this up. A change inside the layout grafts a new layout into
it, and whatever was live outside the change stays live inside the result.
-/

import JsonOverlay.Proofs.Arena.Operations

namespace JsonOverlay

variable {arena before after : Arena} {layout old new : Layout}

/-! ### The tree of an arena -/

namespace Arena

/-- The child at a position of a live node. -/
def childAt? (arena : Arena) (parent : NodeId) (position : Nat) : Option NodeId :=
  (arena.get? parent).bind fun node => node.children[position]?

/-- Going from a node to one of its children any number of times. -/
inductive Reaches (arena : Arena) (start : NodeId) : NodeId → Prop where
  | start : arena.Reaches start start
  | child {parent child : NodeId} {position : Nat} (reached : arena.Reaches start parent)
      (found : arena.childAt? parent position = some child) : arena.Reaches start child

/-- The live nodes of an arena form a tree under a root: no child is dead, none is shared or
repeated, nothing is cut off from the root, and the nodes are counted right. -/
structure IsTree (arena : Arena) (root : NodeId) : Prop where
  root_eq : arena.root = some root
  root_live : arena.contains root = true
  child_live : ∀ parent position child,
    arena.childAt? parent position = some child → arena.contains child = true
  root_orphan : ∀ parent position, arena.childAt? parent position ≠ some root
  place_unique : ∀ id, arena.contains id = true → id ≠ root →
    ∃! place : NodeId × Nat, arena.childAt? place.1 place.2 = some id
  reaches : ∀ id, arena.contains id = true → arena.Reaches root id
  live_eq : arena.live = (arena.tree root).count

/-- An arena that consists of a single layout. -/
structure Rooted (arena : Arena) (layout : Layout) : Prop where
  sound : arena.Sound
  holds : arena.Holds layout
  distinct : layout.ids.Nodup
  root : arena.root = some layout.id
  complete : ∀ id, arena.contains id = true → id ∈ layout.ids
  live : arena.live = layout.ids.length

end Arena

/-! ### Places in a layout -/

namespace Layout

/-- An identifier occurs below one child only. -/
theorem position_unique {first second : Layout} {i j : Nat} {id : NodeId}
    (distinct : layout.ids.Nodup) (atFirst : layout.content.children[i]? = some first)
    (atSecond : layout.content.children[j]? = some second) (inFirst : id ∈ first.ids)
    (inSecond : id ∈ second.ids) : i = j := by
  rw [ids_eq, List.nodup_cons, List.nodup_flatMap, List.pairwise_iff_getElem] at distinct
  obtain ⟨boundFirst, rfl⟩ := List.getElem?_eq_some_iff.mp atFirst
  obtain ⟨boundSecond, rfl⟩ := List.getElem?_eq_some_iff.mp atSecond
  have apart := distinct.2.2
  rcases Nat.lt_trichotomy i j with less | same | more
  · exact absurd inSecond (apart i j boundFirst boundSecond less inFirst)
  · exact same
  · exact absurd inFirst (apart j i boundSecond boundFirst more inSecond)

/-- An identifier occurs below the child of one key only. -/
theorem key_unique {first second : Layout} {key other : ChildKey} {id : NodeId}
    (distinct : layout.ids.Nodup) (member : key ∈ layout.content.keys)
    (memberOther : other ∈ layout.content.keys) (found : layout.content.child? key = some first)
    (foundOther : layout.content.child? other = some second) (inFirst : id ∈ first.ids)
    (inSecond : id ∈ second.ids) : key = other := by
  obtain ⟨i, atKey, atFirst⟩ := Content.exists_position_of_mem_keys member found
  obtain ⟨j, atOther, atSecond⟩ := Content.exists_position_of_mem_keys memberOther foundOther
  have same := position_unique distinct atFirst atSecond inFirst inSecond
  rw [same, atOther, Option.some.injEq] at atKey
  exact atKey.symm

/-- A child anywhere inside a layout is not its top. -/
theorem Within.id_ne {parent child : Layout} (within : Within parent layout)
    (distinct : layout.ids.Nodup) (member : child ∈ parent.content.children) :
    child.id ≠ layout.id := by
  intro same
  cases within with
  | self => exact id_notMem_child distinct member (same ▸ child.id_mem_ids)
  | deeper present deep =>
    exact id_notMem_child distinct present
      (same ▸ deep.ids_subset (mem_ids_of_child member child.id_mem_ids))

/-- Only the top has the children of the top. -/
theorem Within.eq_top {parent child twin : Layout} {i j : Nat} (within : Within parent layout)
    (distinct : layout.ids.Nodup) (atTop : layout.content.children[i]? = some child)
    (atParent : parent.content.children[j]? = some twin) (same : twin.id = child.id) :
    parent = layout := by
  cases within with
  | self => rfl
  | @deeper _ next present deep =>
    have below := List.mem_of_getElem? atParent
    obtain ⟨k, atNext⟩ := List.getElem?_of_mem present
    have position := position_unique distinct atTop atNext child.id_mem_ids
      (same ▸ deep.ids_subset (mem_ids_of_child below twin.id_mem_ids))
    rw [← position, atTop, Option.some.injEq] at atNext
    subst atNext
    exact absurd same (deep.id_ne (nodup_child distinct present) below)

/-- The parent of a node inside a layout, and the position under it, are determined by the
identifier of the node. -/
theorem Within.parent_unique {first second child twin : Layout} {i j : Nat}
    (distinct : layout.ids.Nodup) (within : Within first layout) (withinOther : Within second layout)
    (atFirst : first.content.children[i]? = some child)
    (atSecond : second.content.children[j]? = some twin) (same : twin.id = child.id) :
    first = second ∧ i = j := by
  induction within with
  | @self =>
    have top := withinOther.eq_top distinct atFirst atSecond same
    subst top
    exact ⟨rfl, position_unique distinct atFirst atSecond child.id_mem_ids
      (same ▸ twin.id_mem_ids)⟩
  | @deeper outer next present deep inductionHypothesis =>
    cases withinOther with
    | self =>
      have top := (Within.deeper present deep).eq_top distinct atSecond atFirst same.symm
      subst top
      exact ⟨rfl, position_unique distinct atFirst atSecond child.id_mem_ids
        (same ▸ twin.id_mem_ids)⟩
    | @deeper _ other presentOther deepOther =>
      obtain ⟨k, atNext⟩ := List.getElem?_of_mem present
      obtain ⟨l, atOther⟩ := List.getElem?_of_mem presentOther
      have position := position_unique distinct atNext atOther
        (deep.ids_subset (mem_ids_of_child (List.mem_of_getElem? atFirst) child.id_mem_ids))
        (same ▸ deepOther.ids_subset
          (mem_ids_of_child (List.mem_of_getElem? atSecond) twin.id_mem_ids))
      rw [← position, atNext, Option.some.injEq] at atOther
      subst atOther
      exact inductionHypothesis (nodup_child distinct present) deepOther

/-- Every identifier but the topmost is that of a child somewhere inside. -/
theorem exists_parent {id : NodeId} (member : id ∈ layout.ids) (below : id ≠ layout.id) :
    ∃ parent child : Layout, ∃ position : Nat, Within parent layout ∧
      parent.content.children[position]? = some child ∧ child.id = id := by
  induction layout using induction_levels with
  | level layout inductionHypothesis =>
    rw [ids_eq, List.mem_cons, List.mem_flatMap] at member
    obtain ⟨next, present, inside⟩ := member.resolve_left below
    by_cases top : id = next.id
    · obtain ⟨position, found⟩ := List.getElem?_of_mem present
      exact ⟨layout, next, position, .self, found, top.symm⟩
    · obtain ⟨parent, child, position, within, found, equal⟩ :=
        inductionHypothesis next present inside top
      exact ⟨parent, child, position, .deeper present within, found, equal⟩

end Layout

/-! ### Arenas of a single layout -/

namespace Arena

/-- The places of an arena inside a layout that it holds are the places of the layout. -/
theorem Holds.childAt?_eq (holds : arena.Holds layout) {parent : Layout}
    (within : Layout.Within parent layout) (position : Nat) :
    arena.childAt? parent.id position = (parent.content.children[position]?).map Layout.id := by
  rw [childAt?, (within.holds holds).found, Option.bind_some, Content.children_map,
    List.getElem?_map]

/-- A place of an arena that consists of one layout is a place of the layout. -/
theorem Rooted.exists_of_childAt? (rooted : arena.Rooted layout) {id child : NodeId} {position : Nat}
    (found : arena.childAt? id position = some child) :
    ∃ parent below : Layout, Layout.Within parent layout ∧ parent.id = id ∧
      parent.content.children[position]? = some below ∧ below.id = child := by
  obtain ⟨node, present, _⟩ := Option.bind_eq_some_iff.mp found
  obtain ⟨parent, within, rfl⟩ := Layout.exists_within_of_mem_ids
    (rooted.complete id (contains_iff.mpr ⟨node, present⟩))
  rw [rooted.holds.childAt?_eq within] at found
  obtain ⟨below, position, equal⟩ := Option.map_eq_some_iff.mp found
  exact ⟨parent, below, within, rfl, position, equal⟩

/-- All of a held layout is reached from its top. -/
theorem Holds.reaches (holds : arena.Holds layout) {inner : Layout}
    (within : Layout.Within inner layout) : ∀ {start : NodeId}, arena.Reaches start layout.id →
      arena.Reaches start inner.id := by
  intro start reached
  induction within with
  | self => exact reached
  | @deeper outer next present deep inductionHypothesis =>
    obtain ⟨position, found⟩ := List.getElem?_of_mem present
    have place : arena.childAt? outer.id position = some next.id := by
      rw [holds.childAt?_eq .self, found]
      rfl
    exact inductionHypothesis (holds.child present) (.child reached place)

/-- An arena that consists of a single layout is one tree. -/
theorem Rooted.isTree (rooted : arena.Rooted layout) : arena.IsTree layout.id where
  root_eq := rooted.root
  root_live := rooted.holds.contains layout.id_mem_ids
  child_live := by
    intro id position child found
    obtain ⟨parent, below, within, -, place, rfl⟩ := rooted.exists_of_childAt? found
    exact rooted.holds.contains (within.ids_subset
      (Layout.mem_ids_of_child (List.mem_of_getElem? place) below.id_mem_ids))
  root_orphan := by
    intro id position found
    obtain ⟨parent, below, within, -, place, equal⟩ := rooted.exists_of_childAt? found
    exact within.id_ne rooted.distinct (List.mem_of_getElem? place) equal
  place_unique := by
    intro id live below
    obtain ⟨parent, child, position, within, place, rfl⟩ :=
      Layout.exists_parent (rooted.complete id live) below
    refine ⟨(parent.id, position), ?_, ?_⟩
    · show arena.childAt? parent.id position = some child.id
      rw [rooted.holds.childAt?_eq within, place]
      rfl
    · rintro ⟨otherId, otherPosition⟩ found
      obtain ⟨other, twin, withinOther, rfl, placeOther, same⟩ := rooted.exists_of_childAt? found
      obtain ⟨rfl, rfl⟩ := Layout.Within.parent_unique rooted.distinct within withinOther place
        placeOther same
      rfl
  reaches := by
    intro id live
    obtain ⟨inner, within, rfl⟩ := Layout.exists_within_of_mem_ids (rooted.complete id live)
    exact rooted.holds.reaches within .start
  live_eq := by
    rw [rooted.live, Layout.length_ids, rooted.holds.tree_eq rooted.distinct]

/-! ### Keeping to a single layout -/

/-- A new arena with a tree at its root consists of one layout of the tree. -/
theorem rooted_store_empty (tree : Tree) (room : (empty.store tree).2.slots.size ≤ slotLimit) :
    ∃ layout : Layout, layout.id = (empty.store tree).1 ∧ layout.tree = tree ∧
      ((empty.store tree).2.setRoot (empty.store tree).1).Rooted layout := by
  obtain ⟨layout, id, shown, grown⟩ := grown_store tree sound_empty room
  have ids : [layout].flatMap Layout.ids = layout.ids := List.flatMap_singleton _ _
  refine ⟨layout, id, shown, grown.sound.setRoot _, ?_, ?_, ?_, ?_, ?_⟩
  · exact (grown.holds layout (by simp)).congr fun _ _ => rfl
  · rw [← ids]
    exact grown.distinct
  · rw [id]
    rfl
  · intro id live
    by_contra outside
    obtain ⟨node, found⟩ := contains_iff.mp live
    have nothing : (empty.store tree).2.get? id = empty.get? id :=
      grown.kept id (by rwa [ids])
    have same : (empty.store tree).2.get? id = some node := found
    rw [nothing] at same
    simp [empty, get?] at same
  · have counted := grown.live
    rw [ids] at counted
    show (empty.store tree).2.live = _
    rw [counted]
    exact Nat.zero_add _

/-- A change inside the only layout of an arena leaves a single layout. -/
theorem Rooted.reshaped (rooted : before.Rooted layout) (within : Layout.Within old layout)
    (reshaped : Reshaped before old new after) : after.Rooted (layout.graft new) := by
  have whole := Reshaped.graft rooted.holds rooted.distinct within reshaped
  refine ⟨whole.sound, whole.holds, whole.distinct, ?_, fun id live => ?_, ?_⟩
  · rw [whole.root, rooted.root, Layout.id_graft]
  · by_contra outside
    obtain ⟨node, found⟩ := contains_iff.mp live
    by_cases inside : id ∈ layout.ids
    · rw [whole.gone id inside outside] at found
      cases found
    · rw [whole.kept id inside outside] at found
      exact inside (rooted.complete id (contains_iff.mpr ⟨node, found⟩))
  · have counted := whole.live
    rw [rooted.live] at counted
    omega

end Arena

end JsonOverlay
