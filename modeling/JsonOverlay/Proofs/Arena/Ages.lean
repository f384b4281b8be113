/-
This file follows identifiers through the work on an arena. An identifier that was issued
is live, or its slot has gone on to a later generation; it never comes to find the node that
took its place, as long as generations do not come around. A node that stays live keeps those
of its children that stay live, in the order in which it had them unless members before them
were removed.
-/

import JsonOverlay.Arena.Tree
import JsonOverlay.Proofs.Arena.Ledger
import JsonOverlay.Proofs.Content

namespace JsonOverlay

/-- Whether a key stands for a member by its position. -/
def ChildKey.isPositional : ChildKey → Bool
  | repeated _ => true
  | _ => false

namespace Arena

variable {arena before between after : Arena} {id other : NodeId} {node old : Node}
  {moved : NodeId → ChildKey → Prop}

/-! ### Identifiers that were issued -/

/-- No slot has come around to an earlier generation. -/
def Rises (before after : Arena) : Prop :=
  ∀ index, before.generationAt index ≤ after.generationAt index

/-- An identifier was issued: it is live, or its slot has gone on to a later generation. -/
def Known (arena : Arena) (id : NodeId) : Prop :=
  arena.contains id = true ∨ id.generation.toNat < arena.generationAt id.index

theorem known_of_get? (found : arena.get? id = some node) : arena.Known id :=
  .inl (contains_iff.mpr ⟨node, found⟩)

/-- An arena after some work. Identifiers that were issued stay so, and those that found
nothing find nothing; a node that is still live has its children, as far as these are live,
and has them under the keys that did not move. -/
structure Ages (moved : NodeId → ChildKey → Prop) (before after : Arena) : Prop where
  rises : before.Rises after
  kept : ∀ id, before.contains id = true → after.Known id
  children : ∀ id node later child, before.get? id = some node → after.get? id = some later →
    before.Known child → after.contains child = true →
      (child ∈ node.children → child ∈ later.children) ∧
      ∀ key, ¬ moved id key → node.child? key = some child → later.child? key = some child

theorem Ages.known (ages : Ages moved before after) (known : before.Known id) : after.Known id :=
  known.elim (ages.kept id) fun earlier => .inr (earlier.trans_le (ages.rises _))

/-- An identifier that was issued is live only if it was so before. -/
theorem Ages.contains (ages : Ages moved before after) (known : before.Known id)
    (live : after.contains id = true) : before.contains id = true := by
  refine known.resolve_right fun earlier => ?_
  have missing := get?_of_generation_lt (earlier.trans_le (ages.rises _))
  rw [Arena.contains, missing] at live
  cases live

/-- Work that changes no live node. -/
theorem ages_of_get? (rises : before.Rises after)
    (kept : ∀ id, before.contains id = true → after.Known id)
    (same : ∀ id later, before.contains id = true → after.get? id = some later →
      before.get? id = some later) : Ages moved before after := by
  refine ⟨rises, kept, fun id node later child found present _ _ => ?_⟩
  have equal := (same id later (contains_iff.mpr ⟨node, found⟩) present).symm.trans found
  rw [Option.some.injEq] at equal
  subst equal
  exact ⟨fun member => member, fun _ _ there => there⟩

theorem Ages.refl (moved : NodeId → ChildKey → Prop) (arena : Arena) : Ages moved arena arena :=
  ages_of_get? (fun _ => Nat.le_refl _) (fun _ => .inl) fun _ _ _ found => found

theorem Ages.trans (first : Ages moved before between) (second : Ages moved between after) :
    Ages moved before after := by
  refine ⟨fun index => (first.rises index).trans (second.rises index),
    fun id live => second.known (first.kept id live),
    fun id node last child found present known live => ?_⟩
  have live' := first.known (known_of_get? found)
  obtain ⟨later, found'⟩ := contains_iff.mp (second.contains live' (contains_iff.mpr ⟨last, present⟩))
  have known' := first.known known
  have early := first.children id node later child found found' known (second.contains known' live)
  have late := second.children id later last child found' present known' live
  exact ⟨late.1 ∘ early.1, fun key still there => late.2 key still (early.2 key still there)⟩

/-! ### Arenas that were looked after -/

/-- The vacant slots of an arena hold no node and have been used, and the children of live nodes
were issued. -/
structure Tended (arena : Arena) : Prop where
  vacant_nodup : arena.vacant.Nodup
  vacant_empty : ∀ index ∈ arena.vacant,
    ∃ slot, arena.slots[index.toNat]? = some slot ∧ slot.node = none
  empty_used : ∀ (index : UInt32) slot, arena.slots[index.toNat]? = some slot →
    slot.node = none → slot.generation ≠ 0
  known : ∀ id node, arena.get? id = some node → ∀ child ∈ node.children, arena.Known child

theorem tended_empty : Tended empty where
  vacant_nodup := List.nodup_nil
  vacant_empty _ absurd := by cases absurd
  empty_used index slot absurd := by simp [empty] at absurd
  known _ _ absurd := by cases absurd

theorem Tended.setRoot (tended : arena.Tended) (root : NodeId) : (arena.setRoot root).Tended :=
  ⟨tended.vacant_nodup, tended.vacant_empty, tended.empty_used, tended.known⟩

/-! ### Storing -/

/-- What storing a node does to an arena that was looked after, however many slots it has:
the node is all that is found that was not found before, and the identifier counts as
issued. -/
structure Issues (arena : Arena) (node : Node) (id : NodeId) (stored : Arena) : Prop where
  known : stored.Known id
  found : ∀ other later, stored.get? other = some later →
    later = node ∨ arena.get? other = some later
  same : ∀ other old, arena.get? other = some old → stored.get? other = some old
  vacant_nodup : stored.vacant.Nodup
  vacant_empty : ∀ index ∈ stored.vacant,
    ∃ slot, stored.slots[index.toNat]? = some slot ∧ slot.node = none
  empty_used : ∀ (index : UInt32) slot, stored.slots[index.toNat]? = some slot →
    slot.node = none → slot.generation ≠ 0

/-- A slot that held no node is filled, and it is no longer among the vacant ones. -/
structure Fills (arena : Arena) (node : Node) (place : Nat) (generation : UInt32)
    (stored : Arena) : Prop where
  slots_eq : ∀ index, stored.slots[index]? =
    if index = place then some ⟨generation, some node⟩ else arena.slots[index]?
  empty : ∀ slot, arena.slots[place]? = some slot → slot.node = none
  vacant_eq : stored.vacant = arena.vacant.tail
  left : ∀ index ∈ arena.vacant.tail, index.toNat ≠ place

section Filling

variable {place : Nat} {generation : UInt32} {stored : Arena}

theorem Tended.fills_reused {index : UInt32} {rest : List UInt32} (tended : arena.Tended)
    (vacant : arena.vacant = index :: rest) (node : Node) :
    ∃ generation, (arena.alloc node).1 = ⟨index, generation⟩ ∧
      arena.Fills node index.toNat generation (arena.alloc node).2 := by
  obtain ⟨slot, present, empty⟩ := tended.vacant_empty index (by rw [vacant]; exact List.mem_cons_self)
  have bound : index.toNat < arena.slots.size := (Array.getElem?_eq_some_iff.mp present).1
  have distinct := vacant ▸ tended.vacant_nodup
  rw [alloc_of_vacant vacant present]
  refine ⟨slot.generation, rfl, fun other => ?_, fun held found => ?_, by rw [vacant]; rfl,
    fun other member same => ?_⟩
  · split
    · rename_i same
      rw [same]
      exact slots_fill_self ⟨index, slot.generation⟩ _ bound
    · rename_i different
      exact slots_fill_other ⟨index, slot.generation⟩ _ (Ne.symm different)
  · rw [← Option.some.inj (present.symm.trans found)]
    exact empty
  · rw [vacant, UInt32.toNat_inj.mp same] at member
    exact (List.nodup_cons.mp distinct).1 member

theorem fills_new (full : arena.vacant = []) (node : Node) :
    arena.Fills node arena.slots.size 0 (arena.alloc node).2 := by
  rw [alloc_of_full full]
  refine ⟨fun index => Array.getElem?_push, fun slot absurd => ?_, by rw [full]; rfl,
    fun index absurd => ?_⟩
  · rw [Array.getElem?_eq_none (Nat.le_refl _)] at absurd
    cases absurd
  · rw [full] at absurd
    cases absurd

theorem Fills.get?_self (fills : arena.Fills node place generation stored)
    (here : id.index.toNat = place) :
    stored.get? id = if generation = id.generation then some node else none :=
  get?_of_slot ((fills.slots_eq _).trans (if_pos here))

theorem Fills.get?_other (fills : arena.Fills node place generation stored)
    (elsewhere : id.index.toNat ≠ place) : stored.get? id = arena.get? id := by
  simp only [get?, fills.slots_eq, if_neg elsewhere]

theorem Fills.issues (fills : arena.Fills node place generation stored)
    (tended : arena.Tended) (known : stored.Known id) : arena.Issues node id stored := by
  refine ⟨known, fun other later found => ?_, fun other old found => ?_, ?_, fun index member => ?_,
    fun index slot held none => ?_⟩
  · by_cases here : other.index.toNat = place
    · rw [fills.get?_self here] at found
      split at found
      · exact .inl (Option.some.inj found).symm
      · cases found
    · exact .inr ((fills.get?_other here).symm.trans found)
  · refine (fills.get?_other fun here => ?_).trans found
    obtain ⟨bound, slot⟩ := get?_eq_some found
    rw [here] at bound
    have absurd := fills.empty _ (Array.getElem?_eq_getElem bound)
    simp only [← here, slot, reduceCtorEq] at absurd
  · rw [fills.vacant_eq]
    exact tended.vacant_nodup.tail
  · rw [fills.vacant_eq] at member
    rw [fills.slots_eq, if_neg (fills.left index member)]
    exact tended.vacant_empty index (List.mem_of_mem_tail member)
  · rw [fills.slots_eq] at held
    split at held
    · cases held
      cases none
    · exact tended.empty_used index slot held none

/-- The identifier of a new slot was issued. Past the greatest index it is that of an older slot. -/
theorem Tended.known_new (tended : arena.Tended)
    (fills : arena.Fills node arena.slots.size 0 stored) :
    stored.Known ⟨UInt32.ofNat arena.slots.size, 0⟩ := by
  have inside : (UInt32.ofNat arena.slots.size).toNat ≤ arena.slots.size := by
    rw [UInt32.toNat_ofNat']
    exact Nat.mod_le _ _
  rcases Nat.eq_or_lt_of_le inside with last | bound
  · exact known_of_get? ((fills.get?_self last).trans (if_pos rfl))
  · have held := fills.slots_eq (UInt32.ofNat arena.slots.size).toNat
    rw [if_neg bound.ne, Array.getElem?_eq_getElem bound] at held
    generalize reused : arena.slots[(UInt32.ofNat arena.slots.size).toNat] = slot at held
    by_cases first : slot.generation = 0
    · obtain ⟨content, holds⟩ := Option.ne_none_iff_exists'.mp fun none =>
        tended.empty_used _ slot (Array.getElem?_eq_some_iff.mpr ⟨bound, reused⟩) none first
      exact known_of_get? ((get?_of_slot held).trans ((if_pos first).trans holds))
    · refine .inr ?_
      rw [generationAt, held]
      exact Nat.pos_of_ne_zero fun zero => first (UInt32.toNat_inj.mp zero)

theorem Tended.issues_alloc (tended : arena.Tended) (node : Node) :
    arena.Issues node (arena.alloc node).1 (arena.alloc node).2 := by
  cases vacant : arena.vacant with
  | nil =>
    have fills := fills_new vacant node
    have id : (arena.alloc node).1 = ⟨UInt32.ofNat arena.slots.size, 0⟩ := by
      rw [alloc_of_full vacant]
    exact fills.issues tended (id ▸ tended.known_new fills)
  | cons index rest =>
    obtain ⟨generation, id, fills⟩ := tended.fills_reused vacant node
    refine fills.issues tended (known_of_get? ((fills.get?_self ?_).trans (if_pos ?_)))
    · rw [id]
    · rw [id]

end Filling

theorem Tended.generationAt_alloc (tended : arena.Tended) (node : Node) (index : UInt32) :
    (arena.alloc node).2.generationAt index = arena.generationAt index :=
  generationAt_alloc_eq (fun index vacant =>
    (tended.vacant_empty index vacant).imp fun _ slot => slot.1) node index

/-- What storing leads to: the arena was looked after, it is the one before with some nodes
more and the same generations, and some identifiers were issued. -/
structure Extended (before : Arena) (ids : List NodeId) (after : Arena) : Prop where
  tended : after.Tended
  ages : ∀ moved, Ages moved before after
  same : ∀ id node, before.get? id = some node → after.get? id = some node
  known : ∀ id ∈ ids, after.Known id
  generation : ∀ index, after.generationAt index = before.generationAt index

theorem Extended.alloc {ids : List NodeId} (extended : Extended before ids between) (node : Node)
    (children : node.children = ids) :
    Extended before [(between.alloc node).1] (between.alloc node).2 := by
  have issues := extended.tended.issues_alloc node
  have generation := extended.tended.generationAt_alloc node
  have ages (moved : NodeId → ChildKey → Prop) : Ages moved between (between.alloc node).2 := by
    refine ages_of_get? (fun index => (generation index).ge) (fun id live => ?_)
      fun id later live present => ?_
    · obtain ⟨old, found⟩ := contains_iff.mp live
      exact known_of_get? (issues.same id old found)
    · obtain ⟨old, found⟩ := contains_iff.mp live
      rw [found, ← issues.same id old found]
      exact present
  refine ⟨⟨issues.vacant_nodup, issues.vacant_empty, issues.empty_used,
    fun id later found child member => ?_⟩, fun moved => (extended.ages moved).trans (ages moved),
    fun id old found => issues.same id old (extended.same id old found), fun id new => ?_,
    fun index => (generation index).trans (extended.generation index)⟩
  · refine (ages fun _ _ => True).known ?_
    rcases issues.found id later found with rfl | before
    · exact extended.known child (children ▸ member)
    · exact extended.tended.known id later before child member
  · rw [List.mem_singleton.mp new]
    exact issues.known

theorem Extended.append {first second : List NodeId} (early : Extended before first between)
    (late : Extended between second after) : Extended before (first ++ second) after where
  tended := late.tended
  ages moved := (early.ages moved).trans (late.ages moved)
  same id node found := late.same id node (early.same id node found)
  known := List.forall_mem_append.mpr
    ⟨fun id member => (late.ages fun _ _ => True).known (early.known id member), late.known⟩
  generation index := (late.generation index).trans (early.generation index)

theorem Tended.extended_nil (tended : arena.Tended) : Extended arena [] arena where
  tended := tended
  ages moved := .refl moved arena
  same _ _ found := found
  known _ absurd := by cases absurd
  generation _ := rfl

mutual

theorem Tended.store {arena : Arena} (tended : arena.Tended) : (tree : Tree) →
    Extended arena [(arena.store tree).1] (arena.store tree).2
  | .null | .bool _ | .number _ | .string _ => tended.extended_nil.alloc _ rfl
  | .array items => (tended.storeItems items).alloc _ rfl
  | .object members => (tended.storeMembers members).alloc _ rfl

theorem Tended.storeItems {arena : Arena} (tended : arena.Tended) : (items : List Tree) →
    Extended arena (storeItems arena items).1 (storeItems arena items).2
  | [] => tended.extended_nil
  | item :: rest =>
    have first := tended.store item
    first.append (first.tended.storeItems rest)

theorem Tended.storeMembers {arena : Arena} (tended : arena.Tended) :
    (members : List (String × Tree)) →
      Extended arena ((storeMembers arena members).1.map Prod.snd)
        (storeMembers arena members).2
  | [] => tended.extended_nil
  | (_, child) :: rest =>
    have first := tended.store child
    first.append (first.tended.storeMembers rest)

end

/-- The arena of a new document. -/
theorem tended_ofTree (tree : Tree) : (ofTree tree).Tended :=
  (tended_empty.store tree).tended.setRoot _

theorem known_root_ofTree (tree : Tree) : (ofTree tree).Known (empty.store tree).1 :=
  (tended_empty.store tree).known _ (List.mem_singleton.mpr rfl)

/-! ### Freeing -/

theorem get?_freeAll_of_none (missing : arena.get? id = none) (ids : List NodeId) :
    (arena.freeAll ids).get? id = none := by
  refine freeAll_induction (motive := fun arena => arena.get? id = none)
    (fun arena other node found missing => ?_) missing ids
  rw [get?_vacate found, missing, ite_self]

/-- What identifiers that are freed stood for is gone. -/
theorem get?_freeAll_of_mem {ids : List NodeId} (member : id ∈ ids) :
    (arena.freeAll ids).get? id = none := by
  induction ids generalizing arena with
  | nil => cases member
  | cons first rest inductionHypothesis =>
    cases found : arena.get? first with
    | none =>
      rcases List.mem_cons.mp member with rfl | later
      · exact get?_freeAll_of_none found _
      · rw [freeAll_of_missing found]
        exact inductionHypothesis later
    | some node =>
      rw [freeAll_of_found found]
      rcases List.mem_cons.mp member with rfl | later
      · exact get?_freeAll_of_none (by rw [get?_vacate found, if_pos rfl]) _
      · rw [freeAll_append]
        exact inductionHypothesis later

theorem ages_vacate (moved : NodeId → ChildKey → Prop) (found : arena.get? id = some node)
    (bounded : id.generation.toNat + 1 < 2 ^ 32) : Ages moved arena (arena.vacate id) := by
  have generation (index : UInt32) : (arena.vacate id).generationAt index =
      arena.generationAt index + if index = id.index then 1 else 0 := by
    rw [generationAt_vacate found]
    split
    · rename_i same
      rw [same, ← generation_eq found]
      exact Nat.mod_eq_of_lt bounded
    · rfl
  refine ages_of_get? (fun index => (Nat.le_add_right _ _).trans_eq (generation index).symm)
    (fun other live => ?_) fun other later _ present => ?_
  · obtain ⟨content, there⟩ := contains_iff.mp live
    by_cases same : other = id
    · subst same
      refine .inr ?_
      rw [generation, if_pos rfl, generation_eq found]
      exact Nat.lt_succ_self _
    · exact known_of_get? ((get?_vacate found other).trans ((if_neg same).trans there))
  · rw [get?_vacate found] at present
    split at present
    · cases present
    · exact present

theorem Tended.vacate (tended : arena.Tended) (found : arena.get? id = some node)
    (bounded : id.generation.toNat + 1 < 2 ^ 32) : (arena.vacate id).Tended := by
  obtain ⟨bound, slot⟩ := get?_eq_some found
  have held : arena.slots[id.index.toNat]? = some ⟨id.generation, some node⟩ := by
    rw [Array.getElem?_eq_getElem bound, slot]
  have ages := ages_vacate (fun _ _ => False) found bounded
  have elsewhere (index : UInt32) (different : index ≠ id.index) :
      (arena.vacate id).slots[index.toNat]? = arena.slots[index.toNat]? :=
    slots_fill_other id _ fun equal => different (UInt32.toNat_inj.mp equal).symm
  have here : (arena.vacate id).slots[id.index.toNat]? = some ⟨id.generation + 1, none⟩ :=
    slots_fill_self id _ bound
  refine ⟨List.nodup_cons.mpr ⟨fun member => ?_, tended.vacant_nodup⟩, fun index member => ?_,
    fun index free there none => ?_, fun other content there child member => ?_⟩
  · obtain ⟨free, there, none⟩ := tended.vacant_empty _ member
    rw [← Option.some.inj (held.symm.trans there)] at none
    cases none
  · by_cases same : index = id.index
    · exact ⟨_, by rw [same]; exact here, rfl⟩
    · rw [elsewhere index same]
      exact tended.vacant_empty index ((List.mem_cons.mp member).resolve_left same)
  · by_cases same : index = id.index
    · subst same
      rw [← Option.some.inj (here.symm.trans there)]
      intro zero
      have next := congrArg UInt32.toNat zero
      rw [UInt32.toNat_add] at next
      have wrapped : (id.generation.toNat + 1) % 2 ^ 32 = 0 := next
      rw [Nat.mod_eq_of_lt bounded] at wrapped
      cases wrapped
    · exact tended.empty_used index free ((elsewhere index same).symm.trans there) none
  · rw [get?_vacate found] at there
    split at there
    · cases there
    · exact ages.known (tended.known other content there child member)

/-- A slot without a node is left alone when others are freed. -/
theorem slots_freeAll {index : UInt32} {slot : Slot}
    (present : arena.slots[index.toNat]? = some slot) (empty : slot.node = none)
    (ids : List NodeId) : (arena.freeAll ids).slots[index.toNat]? = some slot := by
  refine freeAll_induction (motive := fun later => later.slots[index.toNat]? = some slot)
    (fun later id node found same => ?_) present ids
  refine (slots_fill_other id _ fun equal => ?_).trans same
  obtain ⟨bound, held⟩ := get?_eq_some found
  rw [← equal, Array.getElem?_eq_getElem bound, held] at same
  cases same
  cases empty

/-- An arena that was looked after and has aged. -/
structure Worked (moved : NodeId → ChildKey → Prop) (before after : Arena) : Prop where
  tended : after.Tended
  ages : Ages moved before after

theorem Tended.freeAll (tended : arena.Tended) (moved : NodeId → ChildKey → Prop)
    {ids : List NodeId} (rises : arena.Rises (arena.freeAll ids)) : Worked moved arena (arena.freeAll ids) := by
  fun_induction Arena.freeAll arena ids with
  | case1 arena => exact ⟨tended, .refl moved arena⟩
  | case2 arena id waiting missing inductionHypothesis => exact inductionHypothesis tended rises
  | case3 arena id waiting node found inductionHypothesis =>
    -- The slot stays empty, so it would have come around for good.
    have empty : (arena.vacate id).slots[id.index.toNat]? = some ⟨id.generation + 1, none⟩ :=
      slots_fill_self id _ (get?_eq_some found).1
    have last := slots_freeAll empty rfl (node.children.reverse ++ waiting)
    have next := generationAt_vacate found id.index
    rw [if_pos rfl, ← generation_eq found, generationAt, empty, ← last] at next
    have risen := rises id.index
    rw [← generation_eq found, generationAt, next] at risen
    have bounded : id.generation.toNat + 1 < 2 ^ 32 := by
      have small := id.generation.toNat_lt
      omega
    have worked := inductionHypothesis (tended.vacate found bounded) fun index => ?_
    · exact ⟨worked.tended, (ages_vacate moved found bounded).trans worked.ages⟩
    · rw [generationAt_vacate found]
      split
      · rename_i same
        rw [same, ← generation_eq found, generationAt, next]
      · exact rises index

/-! ### A new level -/

theorem contains_assign (found : arena.get? id = some old) (node : Node) (other : NodeId) :
    (arena.assign id node).contains other = arena.contains other := by
  rw [contains, contains, get?_assign found]
  split
  · rename_i same
    rw [same, found]
    rfl
  · rfl

theorem known_assign (found : arena.get? id = some old) (node : Node) (other : NodeId) :
    (arena.assign id node).Known other ↔ arena.Known other := by
  rw [Known, Known, contains_assign found, generationAt_assign]

theorem Tended.assign (tended : arena.Tended) (found : arena.get? id = some old)
    (issued : ∀ child ∈ node.children, arena.Known child) : (arena.assign id node).Tended := by
  obtain ⟨bound, slot⟩ := get?_eq_some found
  have held : arena.slots[id.index.toNat]? = some ⟨id.generation, some old⟩ := by
    rw [Array.getElem?_eq_getElem bound, slot]
  have filled : arena.assign id node = arena.fill id ⟨id.generation, some node⟩ :=
    if_pos (contains_iff.mpr ⟨old, found⟩)
  refine ⟨?_, fun index member => ?_, fun index free there none => ?_,
    fun other content there child member => (known_assign found node child).mpr ?_⟩
  · rw [filled]
    exact tended.vacant_nodup
  · rw [filled] at member ⊢
    obtain ⟨free, there, none⟩ := tended.vacant_empty index member
    refine ⟨free, (slots_fill_other id _ fun same => ?_).trans there, none⟩
    rw [← same] at there
    rw [← Option.some.inj (held.symm.trans there)] at none
    cases none
  · rw [filled] at there
    by_cases same : id.index.toNat = index.toNat
    · rw [← same, slots_fill_self id _ bound] at there
      cases there
      cases none
    · exact tended.empty_used index free ((slots_fill_other id _ same).symm.trans there) none
  · rw [get?_assign found] at there
    split at there
    · cases there
      exact issued child member
    · exact tended.known other content there child member

/-- Giving a node a new level and then freeing some of its old children. The others are in the
new level, under the keys that did not move. -/
theorem Tended.reassign (tended : arena.Tended) (found : arena.get? id = some old)
    (issued : ∀ child ∈ node.children, arena.Known child) {ids : List NodeId}
    (rises : arena.Rises ((arena.assign id node).freeAll ids))
    (left : ∀ child ∈ old.children, child ∉ ids → child ∈ node.children)
    (placed : ∀ key child, ¬ moved id key → old.child? key = some child → child ∉ ids →
      node.child? key = some child) :
    Worked moved arena ((arena.assign id node).freeAll ids) := by
  obtain ⟨tendedAfter, ages⟩ := (tended.assign found issued).freeAll moved fun index =>
    (generationAt_assign arena id node index).trans_le (rises index)
  refine ⟨tendedAfter, ⟨rises, fun other live => ?_,
    fun other content later child there present known live => ?_⟩⟩
  · exact ages.kept other ((contains_assign found node other).trans live)
  · have known' := (known_assign found node child).mpr known
    by_cases same : other = id
    · subst same
      have equal := found.symm.trans there
      rw [Option.some.injEq] at equal
      subst equal
      have kept := ages.children other node later child
        ((get?_assign found node other).trans (if_pos rfl)) present known' live
      have spared : child ∉ ids := fun freed => by
        rw [contains, get?_freeAll_of_mem freed] at live
        cases live
      exact ⟨fun member => kept.1 (left child member spared),
        fun key still member => kept.2 key still (placed key child still member spared)⟩
    · exact ages.children other content later child
        ((get?_assign found node other).trans ((if_neg same).trans there)) present known' live

end Arena

end JsonOverlay
