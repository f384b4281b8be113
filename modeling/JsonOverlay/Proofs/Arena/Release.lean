/-
This file says what freeing releases: the live nodes that are reached from the identifiers to be
freed, each once. No node is marked on the way, but it is taken out when its turn comes, and from
then on its identifier finds nothing. So the work ends on every graph, and a path to a node that
leads past one that is already gone may as well start at a child of that one.
-/

import JsonOverlay.Proofs.Arena.Bookkeeping
import JsonOverlay.Proofs.Arena.OneTree
import Mathlib.Logic.Function.Iterate

namespace JsonOverlay.Arena

variable {arena : Arena} {id start other : NodeId} {ids waiting : List NodeId} {node old : Node}

/-! ### What is reached -/

/-- A live node that is reached from one of some identifiers through children of live nodes. -/
def Reached (arena : Arena) (ids : List NodeId) (id : NodeId) : Prop :=
  arena.contains id = true ∧ ∃ start ∈ ids, arena.Reaches start id

theorem reaches_of_child (found : arena.get? start = some node) {child : NodeId}
    (member : child ∈ node.children) (reached : arena.Reaches child id) :
    arena.Reaches start id := by
  induction reached with
  | start =>
    obtain ⟨position, place⟩ := List.getElem?_of_mem member
    exact .child .start (by rw [childAt?, found]; exact place)
  | child _ place inductionHypothesis => exact .child inductionHypothesis place

/-- An identifier that finds nothing leads nowhere. -/
theorem Reaches.eq_of_missing (missing : arena.get? start = none)
    (reached : arena.Reaches start id) : id = start := by
  induction reached with
  | start => rfl
  | child _ place inductionHypothesis =>
    rw [inductionHypothesis, childAt?, missing] at place
    cases place

theorem reaches_of_vacate (found : arena.get? id = some node)
    (reached : (arena.vacate id).Reaches start other) : arena.Reaches start other := by
  induction reached with
  | start => exact .start
  | child _ place inductionHypothesis =>
    obtain ⟨level, there, atPosition⟩ := Option.bind_eq_some_iff.mp place
    rw [get?_vacate found] at there
    split at there
    · cases there
    · exact .child inductionHypothesis (by rw [childAt?, there]; exact atPosition)

/-- Without a node, whatever else was reached is reached from its children or from what was
waiting with it. -/
theorem Reaches.without (found : arena.get? id = some node) (member : start ∈ id :: waiting)
    (reached : arena.Reaches start other) :
    other = id ∨ ∃ start ∈ node.children.reverse ++ waiting, (arena.vacate id).Reaches start other := by
  induction reached with
  | start =>
    exact (List.mem_cons.mp member).imp_right fun later =>
      ⟨start, List.mem_append_right _ later, .start⟩
  | @child parent child position _ place inductionHypothesis =>
    obtain ⟨level, there, atPosition⟩ := Option.bind_eq_some_iff.mp place
    by_cases same : parent = id
    · rw [same, found, Option.some.injEq] at there
      subst there
      exact .inr ⟨child, List.mem_append_left _ (List.mem_reverse.mpr
        (List.mem_of_getElem? atPosition)), .start⟩
    · obtain ⟨first, present, path⟩ := inductionHypothesis.resolve_left same
      have last : (arena.vacate id).childAt? parent position = some child := by
        rw [childAt?, get?_vacate found, if_neg same, there]
        exact atPosition
      exact .inr ⟨first, present, .child path last⟩

theorem contains_vacate (found : arena.get? id = some node) :
    (arena.vacate id).contains other = true ↔ other ≠ id ∧ arena.contains other = true := by
  rw [contains, get?_vacate found]
  by_cases same : other = id
  · simp [same]
  · simp [same, contains]

/-- Freeing takes out the live nodes that are reached. -/
theorem mem_freed_iff (arena : Arena) (ids : List NodeId) (other : NodeId) :
    other ∈ arena.freed ids ↔ arena.Reached ids other := by
  fun_induction freed arena ids with
  | case1 arena => simp [Reached]
  | case2 arena id waiting missing inductionHypothesis =>
    rw [inductionHypothesis]
    refine and_congr_right fun live => ⟨?_, ?_⟩
    · rintro ⟨start, member, path⟩
      exact ⟨start, List.mem_cons_of_mem _ member, path⟩
    · rintro ⟨start, member, path⟩
      rcases List.mem_cons.mp member with rfl | later
      · rw [path.eq_of_missing missing, contains, missing] at live
        cases live
      · exact ⟨start, later, path⟩
  | case3 arena id waiting node found inductionHypothesis =>
    rw [List.mem_cons, inductionHypothesis]
    constructor
    · rintro (rfl | ⟨live, start, member, path⟩)
      · exact ⟨contains_iff.mpr ⟨node, found⟩, other, List.mem_cons_self, .start⟩
      · refine ⟨((contains_vacate found).mp live).2, ?_⟩
        have early := reaches_of_vacate found path
        rcases List.mem_append.mp member with child | later
        · exact ⟨id, List.mem_cons_self, reaches_of_child found (List.mem_reverse.mp child) early⟩
        · exact ⟨start, List.mem_cons_of_mem _ later, early⟩
    · rintro ⟨live, start, member, path⟩
      by_cases same : other = id
      · exact .inl same
      · exact .inr ⟨(contains_vacate found).mpr ⟨same, live⟩,
          (path.without found member).resolve_left same⟩

theorem nodup_freed (arena : Arena) (ids : List NodeId) : (arena.freed ids).Nodup := by
  fun_induction freed arena ids with
  | case1 arena => exact List.nodup_nil
  | case2 arena id waiting missing inductionHypothesis => exact inductionHypothesis
  | case3 arena id waiting node found inductionHypothesis =>
    refine List.nodup_cons.mpr ⟨fun again => ?_, inductionHypothesis⟩
    have live := ((mem_freed_iff _ _ _).mp again).1
    exact ((contains_vacate found).mp live).1 rfl

/-! ### The work -/

/-- The children of a node, none if an identifier finds nothing. -/
def childrenOf (arena : Arena) (id : NodeId) : List NodeId :=
  ((arena.get? id).map Content.children).getD []

/-- One turn of the work on a list of identifiers to be freed. -/
def turn : Arena × List NodeId → Arena × List NodeId
  | (arena, []) => (arena, [])
  | (arena, id :: waiting) =>
    match arena.get? id with
    | none => (arena, waiting)
    | some node => (arena.vacate id, node.children.reverse ++ waiting)

/-- The work is done after a turn for each identifier that was on the list: those at the start,
and the children of all nodes that are taken out. -/
theorem iterate_turn (arena : Arena) (ids : List NodeId) :
    turn^[(ids ++ (arena.freed ids).flatMap arena.childrenOf).length] (arena, ids) =
      (arena.freeAll ids, []) := by
  fun_induction freed arena ids with
  | case1 arena => rw [freeAll]; rfl
  | case2 arena id waiting missing inductionHypothesis =>
    have first : turn (arena, id :: waiting) = (arena, waiting) := by
      simp only [turn, missing]
    rw [freeAll_of_missing missing, List.cons_append, List.length_cons, Function.iterate_succ_apply,
      first]
    exact inductionHypothesis
  | case3 arena id waiting node found inductionHypothesis =>
    have first : turn (arena, id :: waiting) =
        (arena.vacate id, node.children.reverse ++ waiting) := by
      simp only [turn, found]
    -- What is taken out later has the children that it has now.
    have same : ((arena.vacate id).freed (node.children.reverse ++ waiting)).flatMap
        (arena.vacate id).childrenOf =
          ((arena.vacate id).freed (node.children.reverse ++ waiting)).flatMap arena.childrenOf := by
      refine List.flatMap_congr fun other member => ?_
      have live := ((mem_freed_iff _ _ _).mp member).1
      rw [childrenOf, get?_vacate found, if_neg ((contains_vacate found).mp live).1, childrenOf]
    have turns : (id :: waiting ++ (id :: (arena.vacate id).freed
        (node.children.reverse ++ waiting)).flatMap arena.childrenOf).length =
          (node.children.reverse ++ waiting ++ ((arena.vacate id).freed
            (node.children.reverse ++ waiting)).flatMap (arena.vacate id).childrenOf).length + 1 := by
      rw [same, List.flatMap_cons, childrenOf, found]
      simp only [List.length_append, List.length_cons, List.length_reverse, Option.map_some,
        Option.getD_some]
      omega
    rw [freeAll_of_found found, turns, Function.iterate_succ_apply, first]
    exact inductionHypothesis

/-! ### What is left -/

/-- What freeing some identifiers does to an arena. The live nodes that are reached from them are
released, each once and in a certain order; their slots go on to the next generation, become
vacant in that order, and are no longer counted. Nothing else changes, and the work ends. -/
structure Releases (before : Arena) (ids released : List NodeId) (after : Arena) : Prop where
  distinct : released.Nodup
  mem_iff : ∀ id, id ∈ released ↔ before.Reached ids id
  ends : turn^[(ids ++ released.flatMap before.childrenOf).length] (before, ids) = (after, [])
  emptied : ∀ id ∈ released, after.slots[id.index.toNat]? = some ⟨id.generation + 1, none⟩
  untouched : ∀ position, (∀ id ∈ released, id.index.toNat ≠ position) →
    after.slots[position]? = before.slots[position]?
  vacant_eq : after.vacant = (released.map NodeId.index).reverse ++ before.vacant
  vacant_nodup : after.vacant.Nodup
  live_eq : after.live + released.length = before.live
  root_eq : after.root = before.root

theorem vacant_freeAll (arena : Arena) (ids : List NodeId) :
    (arena.freeAll ids).vacant = ((arena.freed ids).map NodeId.index).reverse ++ arena.vacant := by
  fun_induction freed arena ids with
  | case1 arena => rw [freeAll]; rfl
  | case2 arena id waiting missing inductionHypothesis =>
    rw [freeAll_of_missing missing, inductionHypothesis]
  | case3 arena id waiting node found inductionHypothesis =>
    rw [freeAll_of_found found, inductionHypothesis, List.map_cons, List.reverse_cons,
      List.append_assoc]
    rfl

theorem slots_freeAll_of_notMem {position : Nat}
    (elsewhere : ∀ id ∈ arena.freed ids, id.index.toNat ≠ position) :
    (arena.freeAll ids).slots[position]? = arena.slots[position]? := by
  fun_induction freed arena ids with
  | case1 arena => rw [freeAll]
  | case2 arena id waiting missing inductionHypothesis =>
    rw [freeAll_of_missing missing, inductionHypothesis elsewhere]
  | case3 arena id waiting node found inductionHypothesis =>
    obtain ⟨here, below⟩ := List.forall_mem_cons.mp elsewhere
    rw [freeAll_of_found found, inductionHypothesis below]
    exact slots_fill_other id _ here

theorem slots_freeAll_of_mem (member : id ∈ arena.freed ids) :
    (arena.freeAll ids).slots[id.index.toNat]? = some ⟨id.generation + 1, none⟩ := by
  fun_induction freed arena ids with
  | case1 arena => cases member
  | case2 arena first waiting missing inductionHypothesis =>
    rw [freeAll_of_missing missing, inductionHypothesis member]
  | case3 arena first waiting node found inductionHypothesis =>
    rw [freeAll_of_found found]
    rcases List.mem_cons.mp member with rfl | later
    · rw [slots_freeAll_of_notMem]
      · exact slots_fill_self id _ (get?_eq_some found).1
      · intro other present same
        obtain ⟨different, live⟩ := (contains_vacate found).mp ((mem_freed_iff _ _ _).mp present).1
        obtain ⟨content, there⟩ := contains_iff.mp live
        exact different (eq_of_index_eq found there (UInt32.toNat_inj.mp same))
    · exact inductionHypothesis later

theorem Sound.releases (sound : arena.Sound) (ids : List NodeId) :
    arena.Releases ids (arena.freed ids) (arena.freeAll ids) where
  distinct := arena.nodup_freed ids
  mem_iff := arena.mem_freed_iff ids
  ends := arena.iterate_turn ids
  emptied _ := slots_freeAll_of_mem
  untouched _ := slots_freeAll_of_notMem
  vacant_eq := arena.vacant_freeAll ids
  vacant_nodup := (sound.freeAll ids).vacant_nodup
  live_eq := sound.live_freeAll ids
  root_eq := arena.root_freeAll ids

/-- After every run from an empty arena, freeing an identifier releases exactly the live nodes that
are reached from it. Replacing a node is refused without effect exactly if there is none; if there
is one, the new node takes its place, and then exactly what is reached from the old children is
released. -/
theorem free_releases_reached (program : List Instruction) (id : NodeId) :
    (∃ released, (empty.run program).Releases [id] released ((empty.run program).free id)) ∧
      ∀ node, ((empty.run program).replace id node = (false, empty.run program) ↔
          (empty.run program).contains id = false) ∧
        ∀ old, (empty.run program).get? id = some old →
          ((empty.run program).replace id node).1 = true ∧
            (∀ other, ((empty.run program).assign id node).get? other =
              if other = id then some node else (empty.run program).get? other) ∧
            ∃ released, ((empty.run program).assign id node).Releases old.children released
              ((empty.run program).replace id node).2 := by
  have sound := sound_run program
  refine ⟨⟨_, sound.releases [id]⟩, fun node => ⟨⟨fun refused => ?_, fun dead => ?_⟩,
    fun old found => ?_⟩⟩
  · cases found : (empty.run program).get? id with
    | none => rw [contains, found]; rfl
    | some old =>
      rw [replace, found] at refused
      cases congrArg Prod.fst refused
  · cases found : (empty.run program).get? id with
    | none => exact (absent_of_get? found).replace node
    | some old =>
      rw [contains, found] at dead
      cases dead
  · have replaced : (empty.run program).replace id node =
        (true, ((empty.run program).assign id node).freeAll old.children) := by
      rw [replace, found, ← foldl_free]
    rw [replaced]
    exact ⟨rfl, get?_assign found node, _, (sound.assign found node).releases old.children⟩

/-- A new array that stands where the old one listed itself goes with the old children. -/
theorem free_releases_reached_tangle :
    (∃ released, (empty.run tangle).Releases [⟨1, 0⟩] released ((empty.run tangle).free ⟨1, 0⟩) ∧
        ⟨0, 0⟩ ∈ released) ∧
      (empty.run tangle).get? ⟨1, 0⟩ = some (.array [⟨0, 0⟩, ⟨1, 0⟩, ⟨0, 0⟩]) ∧
      ((empty.run tangle).replace ⟨1, 0⟩ (.array [])).1 = true ∧
      ∃ released, ((empty.run tangle).assign ⟨1, 0⟩ (.array [])).Releases
          [⟨0, 0⟩, ⟨1, 0⟩, ⟨0, 0⟩] released ((empty.run tangle).replace ⟨1, 0⟩ (.array [])).2 ∧
        ⟨1, 0⟩ ∈ released := by
  have found : (empty.run tangle).get? ⟨1, 0⟩ =
      some (.array [⟨0, 0⟩, ⟨1, 0⟩, ⟨0, 0⟩]) := rfl
  obtain ⟨⟨released, releases⟩, replacing⟩ := free_releases_reached tangle ⟨1, 0⟩
  obtain ⟨replaced, -, below, releasesBelow⟩ := (replacing (.array [])).2 _ found
  have child : (empty.run tangle).childAt? ⟨1, 0⟩ 0 = some ⟨0, 0⟩ := rfl
  exact ⟨⟨released, releases, (releases.mem_iff _).mpr
      ⟨rfl, ⟨1, 0⟩, List.mem_cons_self, .child .start child⟩⟩,
    found, replaced, below, releasesBelow, (releasesBelow.mem_iff _).mpr
      ⟨rfl, ⟨1, 0⟩, List.mem_cons_of_mem _ List.mem_cons_self, .start⟩⟩

end JsonOverlay.Arena
