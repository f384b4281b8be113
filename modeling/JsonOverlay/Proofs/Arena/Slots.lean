/-
This file says what each operation on a single slot does to an arena as seen through its
identifiers: it changes what one identifier finds and leaves every other identifier as it
was. That an identifier is new when a slot is used again rests on the bookkeeping, which
every operation keeps: the vacant slots are listed once each and hold no node, and the
number of live nodes is counted right.
-/

import JsonOverlay.Arena
import Mathlib.Data.List.Nodup

namespace JsonOverlay.Arena

variable {arena : Arena} {id other : NodeId} {node old : Node}

/-- The number of slots that identifiers can tell apart. -/
def slotLimit : Nat := 2 ^ 32

/-! ### Reading a slot -/

theorem get?_of_slot {slot : Slot} (present : arena.slots[id.index.toNat]? = some slot) :
    arena.get? id = if slot.generation = id.generation then slot.node else none := by
  simp only [get?, present]

theorem get?_of_missing (missing : arena.slots[id.index.toNat]? = none) :
    arena.get? id = none := by
  simp only [get?, missing]

/-- A slot without a node is found by no identifier. -/
theorem get?_of_emptySlot {slot : Slot} (present : arena.slots[id.index.toNat]? = some slot)
    (empty : slot.node = none) : arena.get? id = none := by
  rw [get?_of_slot present, empty, ite_self]

theorem contains_iff : arena.contains id = true ↔ ∃ node, arena.get? id = some node :=
  Option.isSome_iff_exists

/-- Two live identifiers with the same slot are the same. -/
theorem eq_of_index_eq (found : arena.get? id = some node) (foundOther : arena.get? other = some old)
    (same : other.index = id.index) : other = id := by
  obtain ⟨_, slot⟩ := get?_eq_some found
  obtain ⟨_, slotOther⟩ := get?_eq_some foundOther
  have generations : other.generation = id.generation := by
    simp only [same] at slotOther
    exact congrArg Slot.generation (slotOther.symm.trans slot)
  cases id
  cases other
  simp_all

/-- An identifier that shares its slot with another live one finds nothing. -/
theorem get?_of_index_eq (found : arena.get? id = some node) (same : other.index = id.index)
    (different : other ≠ id) : arena.get? other = none := by
  cases foundOther : arena.get? other with
  | none => rfl
  | some _ => exact absurd (eq_of_index_eq found foundOther same) different

/-! ### Overwriting a slot -/

@[simp]
theorem size_slots_fill (slot : Slot) : (arena.fill id slot).slots.size = arena.slots.size := by
  simp [fill]

theorem slots_fill_self (id : NodeId) (slot : Slot) (bound : id.index.toNat < arena.slots.size) :
    (arena.fill id slot).slots[id.index.toNat]? = some slot := by
  simp [fill, bound]

theorem slots_fill_other (id : NodeId) (slot : Slot) {index : Nat} (different : id.index.toNat ≠ index) :
    (arena.fill id slot).slots[index]? = arena.slots[index]? := by
  simp [fill, Array.getElem?_setIfInBounds_ne different]

theorem toNat_index_ne (different : other.index ≠ id.index) :
    id.index.toNat ≠ other.index.toNat :=
  fun same => different (UInt32.toNat_inj.mp same.symm)

theorem get?_fill_self (id : NodeId) (slot : Slot) (bound : id.index.toNat < arena.slots.size)
    (same : other.index = id.index) :
    (arena.fill id slot).get? other =
      if slot.generation = other.generation then slot.node else none :=
  get?_of_slot (by rw [same]; exact slots_fill_self id slot bound)

theorem get?_fill_other (id : NodeId) (slot : Slot) (different : other.index ≠ id.index) :
    (arena.fill id slot).get? other = arena.get? other := by
  simp only [get?, slots_fill_other id slot (toNat_index_ne different)]

/-- Overwriting a live node changes what its identifier finds and nothing else. -/
theorem get?_assign (found : arena.get? id = some old) (node : Node) (other : NodeId) :
    (arena.assign id node).get? other = if other = id then some node else arena.get? other := by
  obtain ⟨bound, _⟩ := get?_eq_some found
  rw [assign, if_pos (contains_iff.mpr ⟨old, found⟩)]
  by_cases same : other.index = id.index
  · rw [get?_fill_self id _ bound same]
    by_cases equal : other = id
    · rw [if_pos equal, equal, if_pos rfl]
    · rw [if_neg equal, get?_of_index_eq found same equal, if_neg]
      intro generations
      exact equal (by cases id; cases other; simp_all)
  · rw [get?_fill_other id _ same, if_neg fun equal => same (congrArg NodeId.index equal)]

/-- Freeing a single node makes its identifier find nothing and changes no other. -/
theorem get?_vacate (found : arena.get? id = some node) (other : NodeId) :
    (arena.vacate id).get? other = if other = id then none else arena.get? other := by
  obtain ⟨bound, _⟩ := get?_eq_some found
  show (arena.fill id ⟨id.generation + 1, none⟩).get? other = _
  by_cases same : other.index = id.index
  · rw [get?_fill_self id _ bound same, ite_self]
    by_cases equal : other = id
    · rw [if_pos equal]
    · rw [if_neg equal, get?_of_index_eq found same equal]
  · rw [get?_fill_other id _ same, if_neg fun equal => same (congrArg NodeId.index equal)]

/-! ### The bookkeeping -/

/-- The bookkeeping of an arena is right: the vacant slots are those without a node, each
listed once, and the live nodes are counted. -/
structure Sound (arena : Arena) : Prop where
  vacant_nodup : arena.vacant.Nodup
  vacant_iff : ∀ index : UInt32, index ∈ arena.vacant ↔
    ∃ slot, arena.slots[index.toNat]? = some slot ∧ slot.node = none
  live_eq : arena.live = arena.occupied

theorem sound_empty : Sound empty where
  vacant_nodup := List.nodup_nil
  vacant_iff index := by simp [empty]
  live_eq := rfl

theorem Sound.setRoot (sound : arena.Sound) (root : NodeId) : (arena.setRoot root).Sound :=
  ⟨sound.vacant_nodup, sound.vacant_iff, sound.live_eq⟩

/-- Overwriting the slot of a node changes the number of nodes only by that slot. -/
theorem occupied_fill (id : NodeId) (slot : Slot) {before : Slot}
    (bound : id.index.toNat < arena.slots.size)
    (present : arena.slots[id.index.toNat] = before) :
    (arena.fill id slot).occupied + (if before.node.isSome then 1 else 0) =
      arena.occupied + if slot.node.isSome then 1 else 0 := by
  have positive : before.node.isSome = true → 0 < arena.occupied := fun some =>
    Array.countP_pos_iff.mpr ⟨_, Array.getElem_mem bound, by rw [present]; exact some⟩
  simp only [occupied, fill, Array.setIfInBounds, dif_pos bound, Array.countP_set, present] at *
  split <;> rename_i full <;> simp only [full] at positive ⊢ <;> grind

theorem Sound.assign (sound : arena.Sound) (found : arena.get? id = some old) (node : Node) :
    (arena.assign id node).Sound := by
  obtain ⟨bound, slot⟩ := get?_eq_some found
  rw [Arena.assign, if_pos (contains_iff.mpr ⟨old, found⟩)]
  refine ⟨sound.vacant_nodup, fun index => ?_, ?_⟩
  · rw [show (arena.fill id ⟨id.generation, some node⟩).vacant = arena.vacant from rfl,
      sound.vacant_iff]
    by_cases same : id.index.toNat = index.toNat
    · rw [← same, slots_fill_self id _ bound, Array.getElem?_eq_getElem bound, slot]
      simp
    · rw [slots_fill_other id _ same]
  · have counted := occupied_fill id ⟨id.generation, some node⟩ bound slot
    simp only [Option.isSome_some, if_true] at counted
    show arena.live = _
    rw [sound.live_eq]
    omega

theorem Sound.vacate (sound : arena.Sound) (found : arena.get? id = some node) :
    (arena.vacate id).Sound := by
  obtain ⟨bound, slot⟩ := get?_eq_some found
  have occupiedSlot : id.index ∉ arena.vacant := by
    rw [sound.vacant_iff, Array.getElem?_eq_getElem bound, slot]
    simp
  refine ⟨List.nodup_cons.mpr ⟨occupiedSlot, sound.vacant_nodup⟩, fun index => ?_, ?_⟩
  · show index ∈ id.index :: arena.vacant ↔
      ∃ slot, (arena.fill id ⟨id.generation + 1, none⟩).slots[index.toNat]? = some slot ∧ _
    by_cases same : index = id.index
    · subst same
      rw [slots_fill_self id _ bound]
      simp
    · rw [slots_fill_other id _ fun equal => same (UInt32.toNat_inj.mp equal.symm), List.mem_cons,
        sound.vacant_iff]
      simp [same]
  · have counted := occupied_fill id ⟨id.generation + 1, none⟩ bound slot
    simp only [Option.isSome_some, Option.isSome_none, if_true, Bool.false_eq_true, if_false]
      at counted
    show arena.live - 1 = (arena.fill id ⟨id.generation + 1, none⟩).occupied
    rw [sound.live_eq]
    omega

/-- A sound arena counts a node for every identifier that is freed. -/
theorem Sound.live_vacate (sound : arena.Sound) (found : arena.get? id = some node) :
    (arena.vacate id).live + 1 = arena.live := by
  have counted := occupied_vacate found
  have positive : 0 < arena.live := by rw [sound.live_eq]; omega
  show arena.live - 1 + 1 = arena.live
  omega

/-! ### Storing a node -/

@[simp]
theorem root_alloc (arena : Arena) (node : Node) : (arena.alloc node).2.root = arena.root := by
  unfold alloc
  split <;> rfl

@[simp]
theorem live_alloc (arena : Arena) (node : Node) :
    (arena.alloc node).2.live = arena.live + 1 := by
  unfold alloc
  split <;> rfl

theorem size_slots_le_alloc (arena : Arena) (node : Node) :
    arena.slots.size ≤ (arena.alloc node).2.slots.size := by
  unfold alloc
  split
  · exact Nat.le_of_eq (size_slots_fill _).symm
  · simp

/-- A slot that was freed is used again in its present generation. -/
theorem alloc_of_vacant {index : UInt32} {rest : List UInt32} {slot : Slot}
    (vacant : arena.vacant = index :: rest) (present : arena.slots[index.toNat]? = some slot)
    (node : Node) :
    arena.alloc node = (⟨index, slot.generation⟩,
      { arena.fill ⟨index, slot.generation⟩ ⟨slot.generation, some node⟩ with
        vacant := rest, live := arena.live + 1 }) := by
  simp only [alloc, vacant, present, Option.map_some, Option.getD_some]

theorem alloc_of_full (full : arena.vacant = []) (node : Node) :
    arena.alloc node = (⟨UInt32.ofNat arena.slots.size, 0⟩,
      { arena with slots := arena.slots.push ⟨0, some node⟩, live := arena.live + 1 }) := by
  simp only [alloc, full]

/-- Storing in a slot that was freed keeps the bookkeeping right. -/
theorem Sound.alloc_reused {index : UInt32} {rest : List UInt32} (sound : arena.Sound)
    (vacant : arena.vacant = index :: rest) (node : Node) : (arena.alloc node).2.Sound := by
  obtain ⟨slot, present, empty⟩ := (sound.vacant_iff index).mp (by rw [vacant]; simp)
  obtain ⟨bound, value⟩ := Array.getElem?_eq_some_iff.mp present
  rw [alloc_of_vacant vacant present]
  have distinct := vacant ▸ sound.vacant_nodup
  refine ⟨(List.nodup_cons.mp distinct).2, fun other => ?_, ?_⟩
  · show other ∈ rest ↔ ∃ found,
      (arena.fill ⟨index, slot.generation⟩ ⟨slot.generation, some node⟩).slots[other.toNat]? =
        some found ∧ found.node = none
    by_cases same : other = index
    · subst same
      rw [slots_fill_self ⟨other, slot.generation⟩ _ bound]
      simpa using (List.nodup_cons.mp distinct).1
    · rw [slots_fill_other ⟨index, slot.generation⟩ _
        fun equal => same (UInt32.toNat_inj.mp equal.symm), ← sound.vacant_iff, vacant]
      simp [same]
  · have counted := occupied_fill ⟨index, slot.generation⟩ ⟨slot.generation, some node⟩
      bound value
    simp only [Option.isSome_some, Option.isSome_none, empty, if_true, Bool.false_eq_true,
      if_false] at counted
    show arena.live + 1 = (arena.fill ⟨index, slot.generation⟩ ⟨slot.generation, some node⟩).occupied
    rw [sound.live_eq]
    omega

/-- Storing in a new slot keeps the bookkeeping right, however many slots there are. -/
theorem Sound.alloc_new (sound : arena.Sound) (vacant : arena.vacant = []) (node : Node) :
    (arena.alloc node).2.Sound := by
  rw [alloc_of_full vacant]
  refine ⟨by simp [vacant], fun index => ?_, ?_⟩
  · show index ∈ arena.vacant ↔
      ∃ slot, (arena.slots.push ⟨0, some node⟩)[index.toNat]? = some slot ∧ slot.node = none
    rw [sound.vacant_iff, Array.getElem?_push]
    by_cases last : index.toNat = arena.slots.size
    · rw [if_pos last, last]
      simp
    · rw [if_neg last]
  · show arena.live + 1 = (arena.slots.push _).countP _
    rw [Array.countP_push, sound.live_eq, occupied]
    simp

theorem Sound.alloc (sound : arena.Sound) (node : Node) : (arena.alloc node).2.Sound := by
  cases vacant : arena.vacant with
  | nil => exact sound.alloc_new vacant node
  | cons index rest => exact sound.alloc_reused vacant node

/-- What storing a node in a sound arena does: the identifier it answers was dead, it finds
the node afterwards, and no other identifier finds anything else than before. -/
structure Stores (arena : Arena) (node : Node) (id : NodeId) (stored : Arena) : Prop where
  fresh : arena.get? id = none
  get?_eq : ∀ other, stored.get? other = if other = id then some node else arena.get? other
  sound : stored.Sound

/-- Storing in a slot that was freed. -/
theorem stores_reused {index : UInt32} {rest : List UInt32} (sound : arena.Sound)
    (vacant : arena.vacant = index :: rest) (node : Node) :
    arena.Stores node (arena.alloc node).1 (arena.alloc node).2 := by
  have sound' := sound.alloc node
  obtain ⟨slot, present, empty⟩ := (sound.vacant_iff index).mp (by rw [vacant]; simp)
  obtain ⟨bound, -⟩ := Array.getElem?_eq_some_iff.mp present
  rw [alloc_of_vacant vacant present] at sound' ⊢
  refine ⟨get?_of_emptySlot present empty, fun other => ?_, sound'⟩
  show (arena.fill ⟨index, slot.generation⟩ ⟨slot.generation, some node⟩).get? other = _
  by_cases same : other.index = index
  · rw [get?_fill_self ⟨index, slot.generation⟩ _ bound same]
    by_cases equal : other = ⟨index, slot.generation⟩
    · rw [if_pos equal, equal, if_pos rfl]
    · rw [if_neg equal, get?_of_emptySlot (by rw [same]; exact present) empty, if_neg]
      intro generations
      exact equal (by cases other; simp_all)
  · rw [get?_fill_other ⟨index, slot.generation⟩ _ same,
      if_neg fun equal => same (congrArg NodeId.index equal)]

/-- Storing in a new slot, as long as its number can be told apart from all others. -/
theorem stores_new (sound : arena.Sound) (vacant : arena.vacant = []) (node : Node)
    (room : (arena.alloc node).2.slots.size ≤ slotLimit) :
    arena.Stores node (arena.alloc node).1 (arena.alloc node).2 := by
  have sound' := sound.alloc node
  rw [alloc_of_full vacant] at room sound' ⊢
  simp only [Array.size_push] at room
  have position : (UInt32.ofNat arena.slots.size).toNat = arena.slots.size :=
    UInt32.toNat_ofNat_of_lt' (Nat.lt_of_succ_le room)
  have missing : arena.slots[(UInt32.ofNat arena.slots.size).toNat]? = none := by
    rw [position]
    simp
  refine ⟨get?_of_missing missing, fun other => ?_, sound'⟩
  by_cases same : other.index = UInt32.ofNat arena.slots.size
  · have present : (arena.slots.push ⟨0, some node⟩)[other.index.toNat]? =
        some (⟨0, some node⟩ : Slot) := by
      rw [same, position]
      simp
    rw [get?_of_slot present]
    by_cases equal : other = ⟨UInt32.ofNat arena.slots.size, 0⟩
    · rw [if_pos equal, equal, if_pos rfl]
    · rw [if_neg equal, get?_of_missing (by rw [same]; exact missing), if_neg]
      intro generations
      exact equal (by cases other; simp_all)
  · have outside : other.index.toNat ≠ arena.slots.size := by
      intro equal
      exact same (UInt32.toNat_inj.mp (equal.trans position.symm))
    rw [if_neg fun equal => same (congrArg NodeId.index equal)]
    simp only [get?, Array.getElem?_push, if_neg outside]

theorem stores_alloc (sound : arena.Sound) (node : Node)
    (room : (arena.alloc node).2.slots.size ≤ slotLimit) :
    arena.Stores node (arena.alloc node).1 (arena.alloc node).2 := by
  cases vacant : arena.vacant with
  | nil => exact stores_new sound vacant node room
  | cons index rest => exact stores_reused sound vacant node

/-! ### Freeing one after the other -/

theorem freeAll_of_missing (missing : arena.get? id = none) (waiting : List NodeId) :
    arena.freeAll (id :: waiting) = arena.freeAll waiting := by
  rw [freeAll]
  split <;> simp_all

theorem freeAll_of_found (found : arena.get? id = some node) (waiting : List NodeId) :
    arena.freeAll (id :: waiting) =
      (arena.vacate id).freeAll (node.children.reverse ++ waiting) := by
  rw [freeAll]
  split <;> simp_all

/-- Freeing identifiers in two parts. -/
theorem freeAll_append (arena : Arena) (first second : List NodeId) :
    arena.freeAll (first ++ second) = (arena.freeAll first).freeAll second := by
  fun_induction freeAll arena first with
  | case1 => rfl
  | case2 arena id waiting missing inductionHypothesis =>
    rw [List.cons_append, freeAll_of_missing missing, inductionHypothesis]
  | case3 arena id waiting node found inductionHypothesis =>
    rw [List.cons_append, freeAll_of_found found, ← List.append_assoc, inductionHypothesis]

theorem foldl_free (arena : Arena) (ids : List NodeId) :
    ids.foldl free arena = arena.freeAll ids := by
  induction ids generalizing arena with
  | nil => rw [List.foldl_nil, freeAll]
  | cons id rest inductionHypothesis =>
    rw [List.foldl_cons, inductionHypothesis, free, ← freeAll_append, List.singleton_append]

/-- What holds of an arena and is kept when single nodes are freed holds after all freeing. -/
theorem freeAll_induction {motive : Arena → Prop}
    (vacate : ∀ arena id node, arena.get? id = some node → motive arena → motive (arena.vacate id))
    (start : motive arena) (ids : List NodeId) : motive (arena.freeAll ids) := by
  fun_induction freeAll arena ids with
  | case1 arena => exact start
  | case2 arena id waiting missing inductionHypothesis => exact inductionHypothesis start
  | case3 arena id waiting node found inductionHypothesis =>
    exact inductionHypothesis (vacate arena id node found start)

theorem Sound.freeAll (sound : arena.Sound) (ids : List NodeId) : (arena.freeAll ids).Sound :=
  freeAll_induction (fun _ _ _ found before => before.vacate found) sound ids

@[simp]
theorem size_slots_freeAll (arena : Arena) (ids : List NodeId) :
    (arena.freeAll ids).slots.size = arena.slots.size :=
  freeAll_induction (motive := fun later => later.slots.size = arena.slots.size)
    (fun _ _ _ _ same => (size_slots_fill _).trans same) rfl ids

@[simp]
theorem root_freeAll (arena : Arena) (ids : List NodeId) :
    (arena.freeAll ids).root = arena.root :=
  freeAll_induction (motive := fun later => later.root = arena.root)
    (fun _ _ _ _ same => same) rfl ids

@[simp]
theorem size_slots_assign (arena : Arena) (id : NodeId) (node : Node) :
    (arena.assign id node).slots.size = arena.slots.size := by
  unfold assign
  split
  · exact size_slots_fill _
  · rfl

@[simp]
theorem root_assign (arena : Arena) (id : NodeId) (node : Node) :
    (arena.assign id node).root = arena.root := by
  unfold assign
  split <;> rfl

@[simp]
theorem live_assign (arena : Arena) (id : NodeId) (node : Node) :
    (arena.assign id node).live = arena.live := by
  unfold assign
  split <;> rfl

end JsonOverlay.Arena
