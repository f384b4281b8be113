/-
This file follows an arena through a run of operations with any arguments, and keeps a
ledger of the run: which identifiers were issued, whose nodes were released, and what was
stored last under each. Slots are used again, so that identifiers stay apart rests on
generations. As long as they do not come around, the generation of a slot is the number of
releases from it, and every identifier that was released is from an earlier generation.
-/

import JsonOverlay.Proofs.Arena.Slots
import Mathlib.Algebra.Order.Ring.Nat
import Mathlib.Data.List.Induction

namespace JsonOverlay.Arena

/-! ### Runs -/

/-- One operation on an arena. Identifiers and nodes may be anything. -/
inductive Instruction where
  | alloc (node : Node)
  | free (id : NodeId)
  | replace (id : NodeId) (node : Node)
  | assign (id : NodeId) (node : Node)
  | setRoot (id : NodeId)
deriving DecidableEq, Repr

/-- Carries out one operation. -/
def step (arena : Arena) : Instruction → Arena
  | .alloc node => (arena.alloc node).2
  | .free id => arena.free id
  | .replace id node => (arena.replace id node).2
  | .assign id node => arena.assign id node
  | .setRoot id => arena.setRoot id

/-- Carries out a run of operations. -/
def run (arena : Arena) (program : List Instruction) : Arena := program.foldl step arena

/-- The identifiers whose nodes are freed with some identifiers, in the order in which that
happens. -/
def freed (arena : Arena) : List NodeId → List NodeId
  | [] => []
  | id :: waiting =>
    match _found : arena.get? id with
    | none => freed arena waiting
    | some node => id :: freed (arena.vacate id) (node.children.reverse ++ waiting)
termination_by pending => (arena.occupied, pending.length)
decreasing_by
  · exact Prod.Lex.right _ (by simp)
  · exact Prod.Lex.left _ _ (occupied_vacate _found)

section

variable {arena : Arena} {id : NodeId} {node : Node}

theorem freed_of_missing (missing : arena.get? id = none) (waiting : List NodeId) :
    arena.freed (id :: waiting) = arena.freed waiting := by
  rw [freed]
  split <;> simp_all

theorem freed_of_found (found : arena.get? id = some node) (waiting : List NodeId) :
    arena.freed (id :: waiting) =
      id :: (arena.vacate id).freed (node.children.reverse ++ waiting) := by
  rw [freed]
  split <;> simp_all

/-- Freeing is freeing one node after the other. -/
theorem foldl_vacate_freed (arena : Arena) (ids : List NodeId) :
    (arena.freed ids).foldl vacate arena = arena.freeAll ids := by
  fun_induction freeAll arena ids with
  | case1 arena => rw [freed, List.foldl_nil]
  | case2 arena id waiting missing inductionHypothesis =>
    rw [freed_of_missing missing, inductionHypothesis]
  | case3 arena id waiting node found inductionHypothesis =>
    rw [freed_of_found found, List.foldl_cons, inductionHypothesis]

end

/-! ### Generations -/

/-- The generation of a slot, zero if there is no such slot yet. -/
def generationAt (arena : Arena) (index : UInt32) : Nat :=
  ((arena.slots[index.toNat]?).map fun slot => slot.generation.toNat).getD 0

section

variable {arena : Arena} {id : NodeId} {node old : Node} {index : UInt32}

theorem generation_eq (found : arena.get? id = some node) :
    id.generation.toNat = arena.generationAt id.index := by
  obtain ⟨bound, slot⟩ := get?_eq_some found
  rw [generationAt, Array.getElem?_eq_getElem bound, slot]
  rfl

/-- An identifier of an earlier generation finds nothing. -/
theorem get?_of_generation_lt (earlier : id.generation.toNat < arena.generationAt id.index) :
    arena.get? id = none := by
  cases found : arena.get? id with
  | none => rfl
  | some node => exact absurd (generation_eq found) (Nat.ne_of_lt earlier)

theorem generationAt_fill (bound : id.index.toNat < arena.slots.size) (slot : Slot)
    (index : UInt32) :
    (arena.fill id slot).generationAt index =
      if index = id.index then slot.generation.toNat else arena.generationAt index := by
  by_cases same : index = id.index
  · rw [if_pos same, generationAt, same, slots_fill_self id slot bound]
    rfl
  · rw [if_neg same, generationAt, generationAt, slots_fill_other id slot]
    exact fun equal => same (UInt32.toNat_inj.mp equal.symm)

theorem generationAt_assign (arena : Arena) (id : NodeId) (node : Node) (index : UInt32) :
    (arena.assign id node).generationAt index = arena.generationAt index := by
  unfold assign
  split
  · rename_i live
    obtain ⟨old, found⟩ := contains_iff.mp live
    rw [generationAt_fill (get?_eq_some found).1]
    split
    · rename_i same
      rw [same, ← generation_eq found]
    · rfl
  · rfl

/-- Freeing a node moves its slot to the next generation, unless it was in the last one. -/
theorem generationAt_vacate (found : arena.get? id = some node) (index : UInt32) :
    (arena.vacate id).generationAt index =
      if index = id.index then (arena.generationAt index + 1) % 2 ^ 32
      else arena.generationAt index := by
  have filled : (arena.vacate id).generationAt index =
      (arena.fill id ⟨id.generation + 1, none⟩).generationAt index := rfl
  rw [filled, generationAt_fill (get?_eq_some found).1]
  by_cases same : index = id.index
  · rw [if_pos same, if_pos same, same, ← generation_eq found, UInt32.toNat_add]
    rfl
  · rw [if_neg same, if_neg same]

/-- Storing a node moves no slot to another generation. -/
theorem generationAt_alloc_eq
    (inside : ∀ index ∈ arena.vacant, ∃ slot, arena.slots[index.toNat]? = some slot)
    (node : Node) (index : UInt32) :
    (arena.alloc node).2.generationAt index = arena.generationAt index := by
  cases vacant : arena.vacant with
  | cons first rest =>
    obtain ⟨slot, present⟩ := inside first (by rw [vacant]; exact List.mem_cons_self)
    have bound : (⟨first, slot.generation⟩ : NodeId).index.toNat < arena.slots.size :=
      (Array.getElem?_eq_some_iff.mp present).1
    rw [alloc_of_vacant vacant present]
    refine (generationAt_fill bound ⟨slot.generation, some node⟩ index).trans ?_
    split
    · rename_i same
      rw [same, generationAt, present]
      rfl
    · rfl
  | nil =>
    rw [alloc_of_full vacant, generationAt, generationAt, Array.getElem?_push]
    split
    · rename_i last
      rw [last, Array.getElem?_eq_none (Nat.le_refl _)]
      rfl
    · rfl

/-- The identifier of a new node is of the present generation of its slot, and no slot goes
to another generation. -/
theorem generationAt_alloc (sound : arena.Sound) (node : Node)
    (room : (arena.alloc node).2.slots.size ≤ slotLimit) :
    (arena.alloc node).1.generation.toNat = arena.generationAt (arena.alloc node).1.index ∧
      ∀ index, (arena.alloc node).2.generationAt index = arena.generationAt index := by
  have found : (arena.alloc node).2.get? (arena.alloc node).1 = some node := by
    rw [(stores_alloc sound node room).get?_eq, if_pos rfl]
  have kept := generationAt_alloc_eq
    (fun index vacant => ((sound.vacant_iff index).mp vacant).imp fun _ slot => slot.1) node
  exact ⟨(generation_eq found).trans (kept _), kept⟩

end

/-! ### Ledgers -/

/-- An arena with what happened to it, the latest first: the identifiers that were issued,
those whose nodes were released, and the nodes that were stored. -/
structure Ledger where
  arena : Arena := .empty
  issued : List NodeId := []
  released : List NodeId := []
  stored : List (NodeId × Node) := []

namespace Ledger

def alloc (ledger : Ledger) (node : Node) : Ledger where
  arena := (ledger.arena.alloc node).2
  issued := (ledger.arena.alloc node).1 :: ledger.issued
  released := ledger.released
  stored := ((ledger.arena.alloc node).1, node) :: ledger.stored

def assign (ledger : Ledger) (id : NodeId) (node : Node) : Ledger :=
  if ledger.arena.contains id then
    { ledger with arena := ledger.arena.assign id node, stored := (id, node) :: ledger.stored }
  else ledger

/-- Frees a single live node. -/
def vacate (ledger : Ledger) (id : NodeId) : Ledger :=
  { ledger with arena := ledger.arena.vacate id, released := id :: ledger.released }

def freeAll (ledger : Ledger) (ids : List NodeId) : Ledger :=
  (ledger.arena.freed ids).foldl vacate ledger

/-- Carries out one operation. -/
def step (ledger : Ledger) : Instruction → Ledger
  | .alloc node => ledger.alloc node
  | .free id => ledger.freeAll [id]
  | .replace id node =>
    match ledger.arena.get? id with
    | none => ledger
    | some old => (ledger.assign id node).freeAll old.children
  | .assign id node => ledger.assign id node
  | .setRoot id => { ledger with arena := ledger.arena.setRoot id }

/-- The ledger of a run from an empty arena. -/
def ofRun (program : List Instruction) : Ledger := program.foldl step {}

/-- How often a slot was released. -/
def releases (ledger : Ledger) (index : UInt32) : Nat :=
  ledger.released.countP fun id => id.index == index

/-- No slot was released so often that its generations came around. -/
def Rare (ledger : Ledger) : Prop := ∀ index, ledger.releases index < 2 ^ 32

variable {ledger before after : Ledger} {id : NodeId} {node old : Node}

theorem rare_of_length_lt (few : ledger.released.length < 2 ^ 32) : ledger.Rare :=
  fun _ => Nat.lt_of_le_of_lt List.countP_le_length few

/-! ### The arena of a ledger -/

theorem arena_assign (ledger : Ledger) (id : NodeId) (node : Node) :
    (ledger.assign id node).arena = ledger.arena.assign id node := by
  unfold assign Arena.assign
  split <;> simp_all

theorem arena_foldl_vacate (ledger : Ledger) (ids : List NodeId) :
    (ids.foldl vacate ledger).arena = ids.foldl Arena.vacate ledger.arena := by
  induction ids generalizing ledger with
  | nil => rfl
  | cons id rest inductionHypothesis =>
    rw [List.foldl_cons, List.foldl_cons, inductionHypothesis]
    rfl

theorem arena_freeAll (ledger : Ledger) (ids : List NodeId) :
    (ledger.freeAll ids).arena = ledger.arena.freeAll ids := by
  rw [freeAll, arena_foldl_vacate, foldl_vacate_freed]

theorem arena_step (ledger : Ledger) (instruction : Instruction) :
    (ledger.step instruction).arena = ledger.arena.step instruction := by
  cases instruction with
  | alloc node => rfl
  | free id => exact ledger.arena_freeAll [id]
  | assign id node => exact ledger.arena_assign id node
  | setRoot id => rfl
  | replace id node =>
    cases found : ledger.arena.get? id with
    | none => simp only [step, Arena.step, Arena.replace, found]
    | some old =>
      simp only [step, Arena.step, Arena.replace, found]
      rw [arena_freeAll, arena_assign, foldl_free]

theorem ofRun_concat (program : List Instruction) (instruction : Instruction) :
    ofRun (program ++ [instruction]) = (ofRun program).step instruction := by
  rw [ofRun, List.foldl_append]
  rfl

theorem arena_ofRun (program : List Instruction) : (ofRun program).arena = empty.run program := by
  induction program using List.reverseRecOn with
  | nil => rfl
  | append_singleton program instruction inductionHypothesis =>
    rw [ofRun_concat, arena_step, inductionHypothesis, run, run, List.foldl_append]
    rfl

/-! ### Entries stay in a ledger -/

/-- A ledger in which more was written down since. -/
structure Continues (before after : Ledger) : Prop where
  issued : before.issued <:+ after.issued
  released : before.released <:+ after.released
  size : before.arena.slots.size ≤ after.arena.slots.size

theorem Continues.refl (ledger : Ledger) : Continues ledger ledger :=
  ⟨List.suffix_refl _, List.suffix_refl _, Nat.le_refl _⟩

theorem Continues.trans {between : Ledger} (first : Continues before between)
    (second : Continues between after) : Continues before after :=
  ⟨first.issued.trans second.issued, first.released.trans second.released,
    first.size.trans second.size⟩

theorem Continues.rare (continues : Continues before after) (rare : after.Rare) : before.Rare :=
  fun index => (List.Sublist.countP_le continues.released.sublist).trans_lt (rare index)

theorem continues_alloc (ledger : Ledger) (node : Node) : Continues ledger (ledger.alloc node) :=
  ⟨List.suffix_cons _ _, List.suffix_refl _, size_slots_le_alloc _ _⟩

theorem continues_assign (ledger : Ledger) (id : NodeId) (node : Node) :
    Continues ledger (ledger.assign id node) := by
  unfold assign
  split
  · exact ⟨List.suffix_refl _, List.suffix_refl _, (size_slots_assign _ _ _).ge⟩
  · exact .refl ledger

theorem continues_vacate (ledger : Ledger) (id : NodeId) : Continues ledger (ledger.vacate id) :=
  ⟨List.suffix_refl _, List.suffix_cons _ _, (size_slots_fill _).ge⟩

theorem continues_foldl_vacate (ledger : Ledger) (ids : List NodeId) :
    Continues ledger (ids.foldl vacate ledger) := by
  induction ids generalizing ledger with
  | nil => exact .refl ledger
  | cons id rest inductionHypothesis =>
    exact (ledger.continues_vacate id).trans (inductionHypothesis _)

theorem continues_step (ledger : Ledger) (instruction : Instruction) :
    Continues ledger (ledger.step instruction) := by
  cases instruction with
  | alloc node => exact ledger.continues_alloc node
  | free id => exact ledger.continues_foldl_vacate _
  | assign id node => exact ledger.continues_assign id node
  | setRoot id => exact ⟨List.suffix_refl _, List.suffix_refl _, Nat.le_refl _⟩
  | replace id node =>
    rw [step]
    split
    · exact .refl ledger
    · exact (ledger.continues_assign id node).trans (continues_foldl_vacate _ _)

theorem continues_run (program later : List Instruction) :
    Continues (ofRun program) (ofRun (program ++ later)) := by
  induction later using List.reverseRecOn with
  | nil => rw [List.append_nil]; exact .refl _
  | append_singleton later instruction inductionHypothesis =>
    rw [← List.append_assoc, ofRun_concat]
    exact inductionHypothesis.trans (continues_step _ instruction)

/-! ### What a ledger says about its arena -/

/-- A ledger is true of its arena: slots are in the generation that their releases have
brought them to, what was released is from an earlier generation, and whatever else was
issued is live with the node that was stored under it last. -/
structure Valid (ledger : Ledger) : Prop where
  sound : ledger.arena.Sound
  distinct : ledger.issued.Nodup
  generations : ∀ index, ledger.arena.generationAt index = ledger.releases index
  earlier : ∀ id ∈ ledger.released, id.generation.toNat < ledger.releases id.index
  settled : ∀ id ∈ ledger.issued, id ∈ ledger.released ∨ ledger.arena.contains id = true
  latest : ∀ id node, ledger.arena.get? id = some node → ledger.stored.lookup id = some node

theorem valid_empty : Valid {} where
  sound := sound_empty
  distinct := List.nodup_nil
  generations _ := rfl
  earlier _ absurd := by cases absurd
  settled _ absurd := by cases absurd
  latest _ _ absurd := by cases absurd

/-- What was released finds nothing. -/
theorem Valid.get?_eq_none (valid : ledger.Valid) (released : id ∈ ledger.released) :
    ledger.arena.get? id = none := by
  refine get?_of_generation_lt ?_
  rw [valid.generations]
  exact valid.earlier id released

theorem Valid.alloc (valid : ledger.Valid)
    (room : (ledger.alloc node).arena.slots.size ≤ slotLimit) : (ledger.alloc node).Valid := by
  have stores := stores_alloc valid.sound node room
  obtain ⟨present, kept⟩ := generationAt_alloc valid.sound node room
  have new : (ledger.arena.alloc node).1 ∉ ledger.issued := by
    intro issued
    rcases valid.settled _ issued with released | live
    · have less := valid.earlier _ released
      rw [← valid.generations, ← present] at less
      exact Nat.lt_irrefl _ less
    · obtain ⟨old, found⟩ := contains_iff.mp live
      rw [stores.fresh] at found
      cases found
  refine ⟨stores.sound, List.nodup_cons.mpr ⟨new, valid.distinct⟩, fun index => ?_, valid.earlier,
    fun id issued => ?_, fun id other found => ?_⟩
  · exact (kept index).trans (valid.generations index)
  · rcases List.mem_cons.mp issued with rfl | before
    · exact .inr (contains_iff.mpr ⟨node, (stores.get?_eq _).trans (if_pos rfl)⟩)
    · refine (valid.settled id before).imp (fun released => released) fun live => ?_
      obtain ⟨old, found⟩ := contains_iff.mp live
      have other : id ≠ (ledger.arena.alloc node).1 := fun same => new (same ▸ before)
      exact contains_iff.mpr ⟨old, (stores.get?_eq id).trans ((if_neg other).trans found)⟩
  · have looked := (stores.get?_eq id).symm.trans found
    show List.lookup id ((_, node) :: ledger.stored) = some other
    by_cases same : id = (ledger.arena.alloc node).1
    · rw [if_pos same] at looked
      rw [same, List.lookup_cons_self, looked]
    · rw [if_neg same] at looked
      rw [List.lookup_cons, beq_false_of_ne same]
      exact valid.latest id other looked

theorem Valid.assign (valid : ledger.Valid) (id : NodeId) (node : Node) :
    (ledger.assign id node).Valid := by
  unfold Ledger.assign
  split
  · rename_i live
    obtain ⟨old, found⟩ := contains_iff.mp live
    refine ⟨valid.sound.assign found node, valid.distinct, fun index => ?_, valid.earlier,
      fun other issued => ?_, fun other content present => ?_⟩
    · exact (generationAt_assign _ _ _ index).trans (valid.generations index)
    · refine (valid.settled other issued).imp (fun released => released) fun before => ?_
      obtain ⟨content, there⟩ := contains_iff.mp before
      refine contains_iff.mpr ?_
      rw [get?_assign found]
      split
      · exact ⟨node, rfl⟩
      · exact ⟨content, there⟩
    · have looked := (get?_assign found node other).symm.trans present
      show List.lookup other ((id, node) :: ledger.stored) = some content
      by_cases same : other = id
      · rw [if_pos same] at looked
        rw [same, List.lookup_cons_self, looked]
      · rw [if_neg same] at looked
        rw [List.lookup_cons, beq_false_of_ne same]
        exact valid.latest other content looked
  · exact valid

theorem releases_vacate (ledger : Ledger) (id : NodeId) (index : UInt32) :
    (ledger.vacate id).releases index =
      ledger.releases index + if index = id.index then 1 else 0 := by
  rw [releases, vacate, List.countP_cons, releases]
  by_cases same : index = id.index
  · rw [if_pos same, if_pos (beq_iff_eq.mpr same.symm)]
  · rw [if_neg same, if_neg fun equal => same (beq_iff_eq.mp equal).symm]

theorem Valid.vacate (valid : ledger.Valid) (found : ledger.arena.get? id = some node)
    (rare : (ledger.vacate id).Rare) : (ledger.vacate id).Valid := by
  have find? := fun other => get?_vacate found other
  refine ⟨valid.sound.vacate found, valid.distinct, fun index => ?_, fun other released => ?_,
    fun other issued => ?_, fun other content present => ?_⟩
  · have moved := generationAt_vacate found index
    have few := rare index
    rw [releases_vacate] at few ⊢
    refine moved.trans ?_
    rw [valid.generations]
    by_cases same : index = id.index
    · simp only [if_pos same] at few ⊢
      exact Nat.mod_eq_of_lt few
    · rw [if_neg same, if_neg same, Nat.add_zero]
  · rw [releases_vacate]
    rcases List.mem_cons.mp released with rfl | before
    · rw [generation_eq found, valid.generations, if_pos rfl]
      exact Nat.lt_succ_self _
    · exact (valid.earlier other before).trans_le (Nat.le_add_right _ _)
  · rcases valid.settled other issued with released | live
    · exact .inl (List.mem_cons_of_mem _ released)
    · by_cases same : other = id
      · exact .inl (same ▸ List.mem_cons_self)
      · obtain ⟨content, there⟩ := contains_iff.mp live
        exact .inr (contains_iff.mpr ⟨content, (find? other).trans ((if_neg same).trans there)⟩)
  · have looked := (find? other).symm.trans present
    by_cases same : other = id
    · rw [if_pos same] at looked
      cases looked
    · rw [if_neg same] at looked
      exact valid.latest other content looked

theorem freeAll_nil (ledger : Ledger) : ledger.freeAll [] = ledger := by
  rw [freeAll, freed, List.foldl_nil]

theorem freeAll_of_missing (missing : ledger.arena.get? id = none) (waiting : List NodeId) :
    ledger.freeAll (id :: waiting) = ledger.freeAll waiting := by
  rw [freeAll, freed_of_missing missing, freeAll]

theorem freeAll_of_found (found : ledger.arena.get? id = some node) (waiting : List NodeId) :
    ledger.freeAll (id :: waiting) =
      (ledger.vacate id).freeAll (node.children.reverse ++ waiting) := by
  rw [freeAll, freed_of_found found, List.foldl_cons, freeAll]
  rfl

theorem Valid.freeAll (valid : ledger.Valid) (ids : List NodeId) (rare : (ledger.freeAll ids).Rare) :
    (ledger.freeAll ids).Valid := by
  generalize same : ledger.arena = arena
  fun_induction Arena.freeAll arena ids generalizing ledger with
  | case1 arena =>
    rw [Ledger.freeAll_nil]
    exact valid
  | case2 arena id waiting missing inductionHypothesis =>
    subst same
    rw [freeAll_of_missing missing] at rare ⊢
    exact inductionHypothesis valid rare rfl
  | case3 arena id waiting node found inductionHypothesis =>
    subst same
    rw [freeAll_of_found found] at rare ⊢
    exact inductionHypothesis
      (valid.vacate found ((continues_foldl_vacate _ _).rare rare)) rare rfl

theorem Valid.step (valid : ledger.Valid) (instruction : Instruction)
    (room : (ledger.step instruction).arena.slots.size ≤ slotLimit)
    (rare : (ledger.step instruction).Rare) : (ledger.step instruction).Valid := by
  cases instruction with
  | alloc node => exact valid.alloc room
  | free id => exact valid.freeAll [id] rare
  | assign id node => exact valid.assign id node
  | setRoot id =>
    exact ⟨valid.sound.setRoot id, valid.distinct, valid.generations, valid.earlier,
      valid.settled, valid.latest⟩
  | replace id node =>
    rw [Ledger.step] at rare ⊢
    split
    · exact valid
    · rename_i old found
      simp only [found] at rare
      exact (valid.assign id node).freeAll old.children rare

/-- The ledger of a run is true of the arena at its end. -/
theorem valid_ofRun (program : List Instruction)
    (room : (ofRun program).arena.slots.size ≤ slotLimit) (rare : (ofRun program).Rare) :
    (ofRun program).Valid := by
  induction program using List.reverseRecOn with
  | nil => exact valid_empty
  | append_singleton program instruction inductionHypothesis =>
    have continues := continues_run program [instruction]
    have valid := inductionHypothesis (continues.size.trans room) (continues.rare rare)
    rw [ofRun_concat] at room rare ⊢
    exact valid.step instruction room rare

end Ledger

/-! ### Identifiers -/

/-- An identifier that finds nothing in an arena, whatever is done with it. -/
structure Absent (arena : Arena) (id : NodeId) : Prop where
  get? : arena.get? id = none
  contains : arena.contains id = false
  member? : ∀ name, arena.member? id name = none
  element? : ∀ index, arena.element? id index = none
  free : arena.free id = arena
  replace : ∀ node, arena.replace id node = (false, arena)
  assign : ∀ node, arena.assign id node = arena

theorem absent_of_get? {arena : Arena} {id : NodeId} (missing : arena.get? id = none) :
    arena.Absent id where
  get? := missing
  contains := by rw [contains, missing]; rfl
  member? name := by rw [member?, missing]; rfl
  element? index := by rw [element?, missing]; rfl
  free := by rw [free, freeAll_of_missing missing, freeAll]
  replace node := by rw [replace, missing]
  assign node := by rw [assign, contains, missing]; rfl

/-- Over any run from an empty arena, no identifier is issued twice. One whose node was
released is absent from then on for good, and until then it finds the node that was stored
under it last. -/
theorem identifiers_unique (program later : List Instruction)
    (room : (empty.run (program ++ later)).slots.size ≤ slotLimit)
    (rare : (Ledger.ofRun (program ++ later)).Rare) :
    (Ledger.ofRun (program ++ later)).issued.Nodup ∧
      (∀ id ∈ (Ledger.ofRun program).issued, id ∈ (Ledger.ofRun program).released →
        (empty.run (program ++ later)).Absent id) ∧
      ∀ id ∈ (Ledger.ofRun program).issued, id ∉ (Ledger.ofRun program).released →
        ∃ node, (Ledger.ofRun program).stored.lookup id = some node ∧
          (empty.run program).get? id = some node := by
  rw [← Ledger.arena_ofRun] at room
  have continues := Ledger.continues_run program later
  have last := Ledger.valid_ofRun (program ++ later) room rare
  have valid := Ledger.valid_ofRun program (continues.size.trans room) (continues.rare rare)
  refine ⟨last.distinct, fun id _ released => ?_, fun id issued kept => ?_⟩
  · rw [← Ledger.arena_ofRun]
    exact absent_of_get? (last.get?_eq_none (continues.released.subset released))
  · obtain ⟨node, found⟩ := contains_iff.mp ((valid.settled id issued).resolve_left kept)
    rw [← Ledger.arena_ofRun]
    exact ⟨node, valid.latest id node found, found⟩

/-- An array with its element is freed, one of the two slots is used again, and the array is
freed once more. -/
def freeTwice : List Instruction :=
  [.alloc .null, .alloc (.array [⟨0, 0⟩]), .free ⟨1, 0⟩, .alloc (.bool true), .free ⟨1, 0⟩]

/-- The other slot is used again as well, with identifiers at hand that are no longer live or
were never issued. -/
def useAgain : List Instruction :=
  [.alloc .null, .assign ⟨0, 0⟩ .null, .replace ⟨1, 0⟩ .null, .free ⟨7, 3⟩,
    .replace ⟨0, 1⟩ (.array [⟨1, 1⟩, ⟨0, 0⟩, ⟨0, 1⟩])]

theorem ofRun_freeTwice :
    Ledger.ofRun freeTwice =
      (((Ledger.ofRun (freeTwice.take 2)).vacate ⟨1, 0⟩).vacate ⟨0, 0⟩).alloc (.bool true) := by
  have cascade : (Ledger.ofRun (freeTwice.take 2)).freeAll [⟨1, 0⟩] =
      ((Ledger.ofRun (freeTwice.take 2)).vacate ⟨1, 0⟩).vacate ⟨0, 0⟩ :=
    (Ledger.freeAll_of_found rfl []).trans
      ((Ledger.freeAll_of_found rfl []).trans (Ledger.freeAll_nil _))
  have unrolled : Ledger.ofRun freeTwice =
      (((Ledger.ofRun (freeTwice.take 2)).freeAll [⟨1, 0⟩]).alloc (.bool true)).freeAll [⟨1, 0⟩] :=
    rfl
  rw [unrolled, cascade]
  exact (Ledger.freeAll_of_missing rfl []).trans (Ledger.freeAll_nil _)

theorem ofRun_useAgain :
    Ledger.ofRun (freeTwice ++ useAgain) =
      ((Ledger.ofRun freeTwice).alloc .null).assign ⟨0, 1⟩ (.array [⟨1, 1⟩, ⟨0, 0⟩, ⟨0, 1⟩]) := by
  have split : Ledger.ofRun (freeTwice ++ useAgain) =
      useAgain.foldl Ledger.step (Ledger.ofRun freeTwice) := List.foldl_append
  rw [split, ofRun_freeTwice]
  generalize same : (((Ledger.ofRun (freeTwice.take 2)).vacate ⟨1, 0⟩).vacate ⟨0, 0⟩).alloc
    (.bool true) = ledger
  have foreign : (ledger.alloc .null).freeAll [⟨7, 3⟩] = ledger.alloc .null := by
    subst same
    exact (Ledger.freeAll_of_missing rfl []).trans (Ledger.freeAll_nil _)
  have unrolled : useAgain.foldl Ledger.step ledger =
      ((ledger.alloc .null).freeAll [⟨7, 3⟩]).step
        (.replace ⟨0, 1⟩ (.array [⟨1, 1⟩, ⟨0, 0⟩, ⟨0, 1⟩])) := by
    subst same
    rfl
  have replaced : (ledger.alloc .null).step (.replace ⟨0, 1⟩ (.array [⟨1, 1⟩, ⟨0, 0⟩, ⟨0, 1⟩])) =
      ((ledger.alloc .null).assign ⟨0, 1⟩ (.array [⟨1, 1⟩, ⟨0, 0⟩, ⟨0, 1⟩])).freeAll [] := by
    subst same
    rfl
  rw [unrolled, foreign, replaced, Ledger.freeAll_nil]

theorem identifiers_unique_freeTwice :
    (empty.run (freeTwice ++ useAgain)).slots.size ≤ slotLimit ∧
      (Ledger.ofRun (freeTwice ++ useAgain)).Rare ∧
      (Ledger.ofRun (freeTwice ++ useAgain)).issued.Nodup ∧
      (empty.run (freeTwice ++ useAgain)).Absent ⟨1, 0⟩ ∧
      (empty.run (freeTwice ++ useAgain)).Absent ⟨0, 0⟩ ∧
      ∃ node, (Ledger.ofRun freeTwice).stored.lookup ⟨0, 1⟩ = some node ∧
        (empty.run freeTwice).get? ⟨0, 1⟩ = some node := by
  have size : (Ledger.ofRun (freeTwice ++ useAgain)).arena.slots.size = 2 := by
    rw [ofRun_useAgain, ofRun_freeTwice]
    rfl
  have few : (Ledger.ofRun (freeTwice ++ useAgain)).released.length = 2 := by
    rw [ofRun_useAgain, ofRun_freeTwice]
    rfl
  have room : (empty.run (freeTwice ++ useAgain)).slots.size ≤ slotLimit := by
    rw [← Ledger.arena_ofRun, size]
    decide
  have rare : (Ledger.ofRun (freeTwice ++ useAgain)).Rare :=
    Ledger.rare_of_length_lt (by rw [few]; decide)
  obtain ⟨distinct, absent, present⟩ := identifiers_unique freeTwice useAgain room rare
  rw [ofRun_freeTwice] at absent present ⊢
  exact ⟨room, rare, distinct, absent _ (by decide) (by decide), absent _ (by decide) (by decide),
    present _ (by decide) (by decide)⟩

end JsonOverlay.Arena
