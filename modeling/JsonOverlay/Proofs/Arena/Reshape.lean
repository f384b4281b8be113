/-
This file follows one change through a whole arena. An operation on a document gives one
node a new level: it may drop children, whose nodes are freed, or add one, whose nodes are
stored. Seen from the layout of that node, an old layout gives way to a new one with the
same topmost identifier. The layout of anything above the node then changes by the same
amount, with the new layout grafted in where the old one was.
-/

import JsonOverlay.Proofs.Arena.Growth
import Mathlib.Data.List.Pairwise

namespace JsonOverlay

namespace Layout

/-! ### Layouts inside a layout -/

/-- A layout that is found in another one at some depth. -/
inductive Within (inner : Layout) : Layout → Prop where
  | self : Within inner inner
  | deeper {outer child : Layout} (member : child ∈ outer.content.children)
      (within : Within inner child) : Within inner outer

theorem Within.ids_subset {inner outer : Layout} (within : Within inner outer) :
    inner.ids ⊆ outer.ids := by
  induction within with
  | self => exact fun _ member => member
  | deeper member _ inductionHypothesis =>
    exact fun _ inside => mem_ids_of_child member (inductionHypothesis inside)

/-- Every identifier of a layout is the topmost one of a layout inside. -/
theorem exists_within_of_mem_ids {outer : Layout} {id : NodeId} (member : id ∈ outer.ids) :
    ∃ inner : Layout, Within inner outer ∧ inner.id = id := by
  induction outer using induction_levels with
  | level outer inductionHypothesis =>
    rw [ids_eq, List.mem_cons, List.mem_flatMap] at member
    rcases member with rfl | ⟨child, present, below⟩
    · exact ⟨outer, .self, rfl⟩
    · obtain ⟨inner, within, equal⟩ := inductionHypothesis child present below
      exact ⟨inner, .deeper present within, equal⟩

theorem Within.nodup {inner outer : Layout} (within : Within inner outer)
    (distinct : outer.ids.Nodup) : inner.ids.Nodup := by
  induction within with
  | self => exact distinct
  | deeper member _ inductionHypothesis => exact inductionHypothesis (nodup_child distinct member)

theorem Within.holds {arena : Arena} {inner outer : Layout} (within : Within inner outer)
    (holds : arena.Holds outer) : arena.Holds inner := by
  induction within with
  | self => exact holds
  | deeper member _ inductionHypothesis => exact inductionHypothesis (holds.child member)

/-! ### Grafting -/

/-- The layout with another one put in the place of the one with its identifier. -/
def graft (layout new : Layout) : Layout :=
  layout.fold fun id content => if id = new.id then new else ⟨id, content⟩

theorem graft_eq (layout new : Layout) :
    layout.graft new =
      if layout.id = new.id then new
      else ⟨layout.id, layout.content.map fun child => child.graft new⟩ := by
  rw [graft, fold_eq]
  rfl

@[simp]
theorem id_graft (layout new : Layout) : (layout.graft new).id = layout.id := by
  rw [graft_eq]
  split
  · rename_i same
    exact same.symm
  · rfl

theorem graft_of_id_eq {layout new : Layout} (same : layout.id = new.id) :
    layout.graft new = new := by
  rw [graft_eq, if_pos same]

/-- Grafting changes nothing where the identifier does not occur. -/
theorem graft_of_notMem {layout new : Layout} (absent : new.id ∉ layout.ids) :
    layout.graft new = layout := by
  induction layout using induction_levels with
  | level layout inductionHypothesis =>
    have other : layout.id ≠ new.id := fun same => absent (same ▸ layout.id_mem_ids)
    rw [graft_eq, if_neg other]
    have unchanged : (layout.content.map fun child => child.graft new) =
        layout.content.map fun child => child :=
      Content.map_congr fun child member =>
        inductionHypothesis child member fun below => absent (mem_ids_of_child member below)
    rw [unchanged, Content.map_id]
    cases layout
    rfl

/-- Grafting below a child changes that child alone. -/
theorem graft_of_child {outer child new : Layout} (distinct : outer.ids.Nodup)
    {front back : List Layout} (children : outer.content.children = front ++ child :: back)
    (inside : new.id ∈ child.ids) :
    outer.graft new = ⟨outer.id, outer.content.map fun child => child.graft new⟩ ∧
      (outer.content.map fun child => child.graft new).children =
        front ++ child.graft new :: back := by
  rw [ids_eq, children, List.flatMap_append, List.flatMap_cons, List.nodup_cons,
    List.nodup_append', List.nodup_append'] at distinct
  obtain ⟨top, -, ⟨-, -, behind⟩, before⟩ := distinct
  refine ⟨?_, ?_⟩
  · rw [graft_eq, if_neg]
    intro same
    exact top (List.mem_append_right _ (List.mem_append_left _ (same ▸ inside)))
  · have front' : front.map (fun child => child.graft new) = front :=
      (List.map_congr_left fun other member => graft_of_notMem fun below =>
        before (List.mem_flatMap.mpr ⟨other, member, below⟩)
          (List.mem_append_left _ inside)).trans (List.map_id front)
    have back' : back.map (fun child => child.graft new) = back :=
      (List.map_congr_left fun other member => graft_of_notMem fun below =>
        behind inside (List.mem_flatMap.mpr ⟨other, member, below⟩)).trans (List.map_id back)
    rw [Content.children_map, children, List.map_append, List.map_cons, front', back']

end Layout

namespace Arena

variable {before after : Arena} {old new : Layout}

/-! ### One layout in the place of another -/

/-- An arena in which one layout has given way to another with the same topmost
identifier: identifiers of the new layout alone were dead, those of the old one alone are
dead, and all others find what they found. -/
structure Reshaped (before : Arena) (old new : Layout) (after : Arena) : Prop where
  id_eq : new.id = old.id
  holds : after.Holds new
  distinct : new.ids.Nodup
  fresh : ∀ id ∈ new.ids, id ∉ old.ids → before.get? id = none
  gone : ∀ id ∈ old.ids, id ∉ new.ids → after.get? id = none
  kept : ∀ id ∉ old.ids, id ∉ new.ids → after.get? id = before.get? id
  sound : after.Sound
  root : after.root = before.root
  live : after.live + old.ids.length = before.live + new.ids.length

/-- A live identifier outside the old layout is outside the new one. -/
theorem Reshaped.notMem_new (reshaped : Reshaped before old new after) {id : NodeId}
    (live : before.contains id = true) (outside : id ∉ old.ids) : id ∉ new.ids := by
  intro inside
  obtain ⟨node, found⟩ := contains_iff.mp live
  rw [reshaped.fresh id inside outside] at found
  cases found

/-- A live identifier outside the old layout finds what it found. -/
theorem Reshaped.get?_eq (reshaped : Reshaped before old new after) {id : NodeId}
    (live : before.contains id = true) (outside : id ∉ old.ids) :
    after.get? id = before.get? id :=
  reshaped.kept id outside (reshaped.notMem_new live outside)

/-- A held layout apart from the old one stays held. -/
theorem Reshaped.holds_of_holds (reshaped : Reshaped before old new after) {layout : Layout}
    (holds : before.Holds layout) (apart : ∀ id ∈ layout.ids, id ∉ old.ids) :
    after.Holds layout :=
  holds.congr fun id member => reshaped.get?_eq (holds.contains member) (apart id member)

/-- A part of a list without repetition gives way to one that is new to the rest. -/
theorem nodup_exchange {top : NodeId} {front inside inside' back : List NodeId}
    (distinct : (top :: (front ++ (inside ++ back))).Nodup) (distinct' : inside'.Nodup)
    (apart : ∀ id ∈ top :: (front ++ (inside ++ back)), id ∉ inside → id ∉ inside') :
    (top :: (front ++ (inside' ++ back))).Nodup := by
  rw [List.nodup_cons, List.nodup_append', List.nodup_append'] at distinct ⊢
  obtain ⟨new, frontDistinct, ⟨-, backDistinct, behind⟩, ahead⟩ := distinct
  simp only [List.mem_append, not_or] at new
  refine ⟨?_, frontDistinct, ⟨distinct', backDistinct, ?_⟩, ?_⟩
  · simp only [List.mem_append, not_or]
    exact ⟨new.1, apart top List.mem_cons_self new.2.1, new.2.2⟩
  · intro id early late
    exact apart id (by grind) (fun there => behind there late) early
  · intro id early late
    rcases List.mem_append.mp late with exchanged | later
    · exact apart id (by grind) (fun there => ahead early (List.mem_append_left _ there)) exchanged
    · exact ahead early (List.mem_append_right _ later)

/-- What happens to a child happens to the layout above it. -/
theorem Reshaped.graft_child {outer child : Layout} (holds : before.Holds outer)
    (distinct : outer.ids.Nodup) (member : child ∈ outer.content.children)
    (inside : new.id ∈ child.ids) (reshaped : Reshaped before child (child.graft new) after) :
    Reshaped before outer (outer.graft new) after := by
  obtain ⟨front, back, children⟩ := List.append_of_mem member
  obtain ⟨grafted, children'⟩ := Layout.graft_of_child distinct children inside
  have ids : outer.ids = outer.id ::
      (front.flatMap Layout.ids ++ (child.ids ++ back.flatMap Layout.ids)) := by
    rw [Layout.ids_eq, children, List.flatMap_append, List.flatMap_cons]
  have ids' : (outer.graft new).ids = outer.id ::
      (front.flatMap Layout.ids ++ ((child.graft new).ids ++ back.flatMap Layout.ids)) := by
    rw [grafted, Layout.ids_eq, children', List.flatMap_append, List.flatMap_cons]
  have apart : ∀ id ∈ outer.ids, id ∉ child.ids → id ∉ (child.graft new).ids :=
    fun id member => reshaped.notMem_new (holds.contains member)
  refine ⟨Layout.id_graft outer new, ?_, ?_, ?_, ?_, ?_, reshaped.sound, reshaped.root, ?_⟩
  · rw [grafted]
    refine .level ?_ fun other present => ?_
    · rw [Content.map_map, reshaped.get?_eq (holds.contains outer.id_mem_ids)
        (Layout.id_notMem_child distinct member), holds.found]
      exact congrArg some (Content.map_congr fun child _ => (Layout.id_graft child new).symm)
    · rw [children', List.mem_append, List.mem_cons] at present
      have sibling : other ∈ front ∨ other ∈ back → after.Holds other := by
        intro side
        refine reshaped.holds_of_holds (holds.child (by rw [children]; grind)) fun id below => ?_
        rw [ids, List.nodup_cons, List.nodup_append', List.nodup_append'] at distinct
        obtain ⟨-, -, ⟨-, -, behind⟩, ahead⟩ := distinct
        rcases side with early | late
        · exact fun there => ahead (List.mem_flatMap.mpr ⟨other, early, below⟩)
            (List.mem_append_left _ there)
        · exact fun there => behind there (List.mem_flatMap.mpr ⟨other, late, below⟩)
      rcases present with early | rfl | late
      · exact sibling (.inl early)
      · exact reshaped.holds
      · exact sibling (.inr late)
  · rw [ids']
    rw [ids] at distinct apart
    exact nodup_exchange distinct reshaped.distinct apart
  · intro id member outside
    rw [ids'] at member
    rw [ids] at outside
    exact reshaped.fresh id (by grind) (by grind)
  · intro id member outside
    rw [ids] at member
    rw [ids'] at outside
    exact reshaped.gone id (by grind) (by grind)
  · intro id outside outside'
    rw [ids] at outside
    rw [ids'] at outside'
    exact reshaped.kept id (by grind) (by grind)
  · have counted := reshaped.live
    rw [ids, ids']
    simp only [List.length_cons, List.length_append]
    omega

/-- What happens to a layout somewhere inside happens to the whole. -/
theorem Reshaped.graft {outer : Layout} (holds : before.Holds outer) (distinct : outer.ids.Nodup)
    (within : Layout.Within old outer) (reshaped : Reshaped before old new after) :
    Reshaped before outer (outer.graft new) after := by
  induction within with
  | self =>
    rw [Layout.graft_of_id_eq reshaped.id_eq.symm]
    exact reshaped
  | @deeper outer child member within inductionHypothesis =>
    refine Reshaped.graft_child holds distinct member ?_
      (inductionHypothesis (holds.child member) (Layout.nodup_child distinct member))
    rw [reshaped.id_eq]
    exact within.ids_subset old.id_mem_ids

/-! ### Dropping and adding children -/

variable {arena filled : Arena} {inner : Layout} {content : Content Layout}

/-- Giving a node a level that keeps some of its children, and freeing the others. -/
theorem reshaped_prune (sound : arena.Sound) (holds : arena.Holds inner)
    (distinct : inner.ids.Nodup) {removed : List Layout}
    (parts : (content.children ++ removed).Perm inner.content.children) :
    Reshaped arena inner ⟨inner.id, content⟩
      ((arena.assign inner.id (content.map Layout.id)).freeAll (removed.map Layout.id)) := by
  have order : (content.children.flatMap Layout.ids ++ removed.flatMap Layout.ids).Perm
      (inner.content.children.flatMap Layout.ids) := by
    rw [← List.flatMap_append]
    exact parts.flatMap_right _
  have split := distinct
  rw [Layout.ids_eq, List.nodup_cons, ← order.nodup_iff, List.nodup_append', ← order.mem_iff,
    List.mem_append, not_or] at split
  obtain ⟨⟨topKept, topRemoved⟩, keptDistinct, removedDistinct, apart⟩ := split
  have below : ∀ id, id ∈ inner.ids ↔ id = inner.id ∨ id ∈ content.children.flatMap Layout.ids ∨
      id ∈ removed.flatMap Layout.ids := by
    intro id
    rw [Layout.ids_eq, List.mem_cons, ← order.mem_iff, List.mem_append]
  have spared : ∀ layout ∈ content.children ++ removed,
      (arena.assign inner.id (content.map Layout.id)).Holds layout := by
    intro layout member
    have child := parts.mem_iff.mp member
    refine (holds.child child).congr fun id inside => ?_
    rw [get?_assign holds.found, if_neg]
    rintro rfl
    exact Layout.id_notMem_child distinct child inside
  have released := released_freeAll (sound.assign holds.found (content.map Layout.id))
    (fun layout member => spared layout (List.mem_append_right _ member)) removedDistinct
  have ids : (⟨inner.id, content⟩ : Layout).ids =
      inner.id :: content.children.flatMap Layout.ids := Layout.ids_eq _
  refine ⟨rfl, .level ?_ fun child member => ?_, ?_, ?_, ?_, ?_, released.sound, by simp, ?_⟩
  · rw [released.kept _ topRemoved, get?_assign holds.found, if_pos rfl]
  · refine released.holds_of_holds (spared child (List.mem_append_left _ member)) fun id inside => ?_
    exact apart (List.mem_flatMap.mpr ⟨child, member, inside⟩)
  · rw [ids, List.nodup_cons]
    exact ⟨topKept, keptDistinct⟩
  · intro id member outside
    rw [ids, List.mem_cons] at member
    rw [below] at outside
    grind
  · intro id member outside
    rw [ids, List.mem_cons] at outside
    rw [below] at member
    exact released.gone id (by grind)
  · intro id outside _
    rw [below, not_or, not_or] at outside
    rw [released.kept id outside.2.2, get?_assign holds.found, if_neg outside.1]
  · have counted := released.live
    have sizes := order.length_eq
    rw [live_assign] at counted
    rw [List.length_append] at sizes
    rw [ids, Layout.ids_eq, List.length_cons, List.length_cons]
    omega

/-- Storing a layout and giving a node a level that has it as one more child. -/
theorem reshaped_extend (holds : arena.Holds inner) (distinct : inner.ids.Nodup) {added : Layout}
    (grown : Grown arena [added] filled)
    (parts : (added :: inner.content.children).Perm content.children) :
    Reshaped arena inner ⟨inner.id, content⟩
      (filled.assign inner.id (content.map Layout.id)) := by
  have fresh : ∀ id ∈ added.ids, arena.get? id = none := fun id member =>
    grown.fresh id (by simpa using member)
  have apart : ∀ id ∈ inner.ids, id ∉ added.ids := by
    intro id member new
    obtain ⟨node, found⟩ := contains_iff.mp (holds.contains member)
    rw [fresh id new] at found
    cases found
  have still := grown.holds_of_holds holds
  have order : (added.ids ++ inner.content.children.flatMap Layout.ids).Perm
      (content.children.flatMap Layout.ids) := by
    rw [← List.flatMap_cons]
    exact parts.flatMap_right _
  have ids : (⟨inner.id, content⟩ : Layout).ids =
      inner.id :: content.children.flatMap Layout.ids := Layout.ids_eq _
  have mem_ids : ∀ id, id ∈ (⟨inner.id, content⟩ : Layout).ids ↔ id ∈ inner.ids ∨ id ∈ added.ids := by
    intro id
    rw [ids, Layout.ids_eq inner, List.mem_cons, List.mem_cons, ← order.mem_iff, List.mem_append]
    tauto
  refine ⟨rfl, .level ?_ fun child member => ?_, ?_, ?_, ?_, ?_, grown.sound.assign still.found _,
    ?_, ?_⟩
  · rw [get?_assign still.found, if_pos rfl]
  · have inside : filled.Holds child ∧ inner.id ∉ child.ids := by
      rcases List.mem_cons.mp (parts.mem_iff.mpr member) with rfl | before
      · exact ⟨grown.holds child (by simp), apart _ inner.id_mem_ids⟩
      · exact ⟨still.child before, Layout.id_notMem_child distinct before⟩
    refine inside.1.congr fun id below => ?_
    rw [get?_assign still.found, if_neg]
    rintro rfl
    exact inside.2 below
  · have split := distinct
    rw [Layout.ids_eq, List.nodup_cons] at split
    rw [ids, List.nodup_cons, ← order.mem_iff, ← order.nodup_iff, List.mem_append, not_or,
      List.nodup_append']
    refine ⟨⟨apart _ inner.id_mem_ids, split.1⟩, by simpa using grown.distinct, split.2, ?_⟩
    intro id new old
    exact apart id (by rw [Layout.ids_eq]; exact List.mem_cons_of_mem _ old) new
  · intro id member outside
    exact fresh id (((mem_ids id).mp member).resolve_left outside)
  · intro id member outside
    exact absurd ((mem_ids id).mpr (.inl member)) outside
  · intro id outside outside'
    rw [mem_ids, not_or] at outside'
    have other : id ≠ inner.id := fun same => outside (same ▸ inner.id_mem_ids)
    rw [get?_assign still.found, if_neg other]
    exact grown.kept id (by simpa using outside'.2)
  · rw [root_assign, grown.root]
  · have counted := grown.live
    have sizes := order.length_eq
    rw [List.flatMap_singleton] at counted
    rw [List.length_append] at sizes
    rw [live_assign, counted, ids, Layout.ids_eq inner, List.length_cons, List.length_cons]
    omega

end Arena

end JsonOverlay
