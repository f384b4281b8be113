/-
This file shows that an arena keeps its books right through every run of operations, whatever
identifiers and nodes these are given. Child lists may repeat identifiers, lead in circles or to
slots that were used again: a slot is made vacant only when a node is taken out of it, so it is
listed once, and the count goes down only where there is something to count.
-/

import JsonOverlay.Proofs.Arena.Ledger

namespace JsonOverlay.Arena

variable {arena : Arena} {id : NodeId} {node old : Node}

/-! ### Runs -/

theorem Sound.step (sound : arena.Sound) (instruction : Instruction) :
    (arena.step instruction).Sound := by
  have assigned (id : NodeId) (node : Node) : (arena.assign id node).Sound := by
    cases found : arena.get? id with
    | none => rw [(absent_of_get? found).assign]; exact sound
    | some old => exact sound.assign found node
  cases instruction with
  | alloc node => exact sound.alloc node
  | free id => exact sound.freeAll [id]
  | assign id node => exact assigned id node
  | setRoot id => exact sound.setRoot id
  | replace id node =>
    cases found : arena.get? id with
    | none => rw [Arena.step, (absent_of_get? found).replace]; exact sound
    | some old =>
      rw [Arena.step, Arena.replace, found]
      dsimp only
      rw [foldl_free]
      exact (assigned id node).freeAll old.children

theorem sound_run (program : List Instruction) : (empty.run program).Sound := by
  have run (arena : Arena) (sound : arena.Sound) : (arena.run program).Sound := by
    induction program generalizing arena with
    | nil => exact sound
    | cons instruction rest inductionHypothesis =>
      exact inductionHypothesis _ (sound.step instruction)
  exact run empty sound_empty

/-! ### Counting down -/

theorem Sound.live_pos (sound : arena.Sound) (found : arena.get? id = some node) :
    0 < arena.live := by
  have counted := sound.live_vacate found
  omega

/-- Whenever freeing takes a node out, there is a live node to count down from. -/
def CountsDown (arena : Arena) (ids : List NodeId) : Prop :=
  ∀ passed id waiting, arena.freed ids = passed ++ id :: waiting →
    0 < (passed.foldl vacate arena).live

theorem Sound.countsDown (sound : arena.Sound) (ids : List NodeId) : arena.CountsDown ids := by
  intro passed id waiting order
  fun_induction freed arena ids generalizing passed with
  | case1 arena => exact absurd order (by simp)
  | case2 arena first rest missing inductionHypothesis =>
    exact inductionHypothesis sound passed order
  | case3 arena first rest node found inductionHypothesis =>
    cases passed with
    | nil => exact sound.live_pos found
    | cons head passed =>
      obtain ⟨rfl, rest⟩ := List.cons.inj order
      exact inductionHypothesis (sound.vacate found) passed rest

/-- Freeing counts down once for each node that it takes out. -/
theorem Sound.live_freeAll (sound : arena.Sound) (ids : List NodeId) :
    (arena.freeAll ids).live + (arena.freed ids).length = arena.live := by
  fun_induction freed arena ids with
  | case1 arena => rw [Arena.freeAll]; rfl
  | case2 arena id waiting missing inductionHypothesis =>
    rw [freeAll_of_missing missing]
    exact inductionHypothesis sound
  | case3 arena id waiting node found inductionHypothesis =>
    have counted := sound.live_vacate found
    have below := inductionHypothesis (sound.vacate found)
    rw [freeAll_of_found found, List.length_cons]
    omega

/-! ### Storing -/

/-- What storing a node comes to: it goes into a slot that held none, under an identifier that
finds it afterwards, and no other identifier finds anything else than before. A new slot is made
only if no slot is vacant. -/
structure Places (arena : Arena) (node : Node) (id : NodeId) (stored : Arena) : Prop where
  unoccupied : ∀ slot, arena.slots[id.index.toNat]? = some slot → slot.node = none
  get?_eq : ∀ other, stored.get? other = if other = id then some node else arena.get? other
  size_eq : stored.slots.size = if arena.vacant = [] then arena.slots.size + 1 else arena.slots.size

theorem Sound.places_alloc (sound : arena.Sound) (node : Node)
    (room : (arena.alloc node).2.slots.size ≤ slotLimit) :
    arena.Places node (arena.alloc node).1 (arena.alloc node).2 := by
  refine ⟨fun slot present => ?_, (stores_alloc sound node room).get?_eq, ?_⟩
  · cases vacant : arena.vacant with
    | nil =>
      rw [alloc_of_full vacant] at room present
      rw [Array.size_push] at room
      rw [UInt32.toNat_ofNat_of_lt' (Nat.lt_of_succ_le room), Array.getElem?_eq_none (Nat.le_refl _)]
        at present
      cases present
    | cons index rest =>
      obtain ⟨free, held, empty⟩ := (sound.vacant_iff index).mp (by rw [vacant]; exact List.mem_cons_self)
      rw [alloc_of_vacant vacant held, held] at present
      rw [← Option.some.inj present]
      exact empty
  · cases vacant : arena.vacant with
    | nil => rw [if_pos rfl, alloc_of_full vacant, Array.size_push]
    | cons index rest =>
      obtain ⟨free, held, -⟩ := (sound.vacant_iff index).mp (by rw [vacant]; exact List.mem_cons_self)
      rw [if_neg (by simp), alloc_of_vacant vacant held]
      exact size_slots_fill _

/-- After every run from an empty arena the vacant slots are those without a node, each listed
once, and the nodes are counted right: the arena counts as empty if no slot holds a node, and
freeing never counts down from nothing, be it a node or the old children of one that is replaced.
As long as its slots can be told apart, the arena stores the next node in a slot that is free,
where its identifier finds it, and makes a new slot only if none is vacant. -/
theorem bookkeeping_exact (program : List Instruction) :
    (empty.run program).Sound ∧
      ((empty.run program).isEmpty = true ↔
        ∀ slot ∈ (empty.run program).slots, slot.node = none) ∧
      (∀ id, (empty.run program).CountsDown [id]) ∧
      (∀ id node old, (empty.run program).get? id = some old →
        ((empty.run program).assign id node).CountsDown old.children) ∧
      ∀ node, ((empty.run program).alloc node).2.slots.size ≤ slotLimit →
        (empty.run program).Places node ((empty.run program).alloc node).1
          ((empty.run program).alloc node).2 := by
  have sound := sound_run program
  refine ⟨sound, ?_, fun id => sound.countsDown [id],
    fun id node old found => (sound.assign found node).countsDown old.children,
    sound.places_alloc⟩
  rw [isEmpty, sound.live_eq, beq_iff_eq, occupied, Array.countP_eq_zero]
  simp

/-- An array that lists an element twice and itself in between. -/
def tangle : List Instruction := [.alloc .null, .alloc (.array [⟨0, 0⟩, ⟨1, 0⟩, ⟨0, 0⟩])]

/-- Each of the two nodes is taken out once. -/
theorem freeAll_tangle :
    (empty.run tangle).freeAll [⟨1, 0⟩] = ((empty.run tangle).vacate ⟨1, 0⟩).vacate ⟨0, 0⟩ :=
  (freeAll_of_found rfl []).trans ((freeAll_of_found rfl _).trans
    ((freeAll_of_missing rfl _).trans ((freeAll_of_missing rfl []).trans (freeAll.eq_1 _))))

theorem bookkeeping_exact_tangle :
    (empty.run tangle).get? ⟨1, 0⟩ = some (.array [⟨0, 0⟩, ⟨1, 0⟩, ⟨0, 0⟩]) ∧
      ((empty.run tangle).assign ⟨1, 0⟩ (.array [⟨1, 0⟩])).CountsDown
        [⟨0, 0⟩, ⟨1, 0⟩, ⟨0, 0⟩] ∧
      (empty.run (tangle ++ [.free ⟨1, 0⟩])).vacant = [0, 1] ∧
      ((empty.run (tangle ++ [.free ⟨1, 0⟩])).alloc .null).1 = ⟨0, 1⟩ ∧
      (empty.run (tangle ++ [.free ⟨1, 0⟩])).Places .null ⟨0, 1⟩
        ((empty.run (tangle ++ [.free ⟨1, 0⟩])).alloc .null).2 := by
  have freed : empty.run (tangle ++ [.free ⟨1, 0⟩]) =
      ((empty.run tangle).vacate ⟨1, 0⟩).vacate ⟨0, 0⟩ := freeAll_tangle
  have found : (empty.run tangle).get? ⟨1, 0⟩ =
      some (.array [⟨0, 0⟩, ⟨1, 0⟩, ⟨0, 0⟩]) := rfl
  obtain ⟨-, -, -, replaced, -⟩ := bookkeeping_exact tangle
  obtain ⟨-, -, -, -, stored⟩ := bookkeeping_exact (tangle ++ [.free ⟨1, 0⟩])
  have id : ((empty.run (tangle ++ [.free ⟨1, 0⟩])).alloc .null).1 = ⟨0, 1⟩ := by
    rw [freed]
    rfl
  have placed := stored .null (by rw [freed]; decide)
  rw [id] at placed
  refine ⟨found, replaced _ _ _ found, ?_, id, placed⟩
  rw [freed]
  rfl

end JsonOverlay.Arena
