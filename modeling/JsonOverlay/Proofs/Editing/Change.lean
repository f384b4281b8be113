/-
This file shows that each change to a value of a document does what it does to the plain
tree that the value shows. An added child comes behind all others, where no entry can be. A
removed name takes its entry along, and the entries of members known by position as well,
which show nothing but what is behind them. A new level leaves no entry at all.
-/

import JsonOverlay.Proofs.Editing.Edit
import JsonOverlay.Proofs.Value.Write

namespace JsonOverlay

namespace Shows

variable {heap after : Heap} {place : ArenaId} {origin origin' source : Origin} {value : Value}
  {tree tree' : Tree} {children : Children Value} {key : ChildKey} {name : String}

/-! ### A new level behind the table -/

/-- The relation for a value that keeps some of its entries over another level. -/
theorem transfer (related : Shows place origin value tree) (distinct : children.keys.Nodup)
    (outline : tree'.content.outline = origin'.content.outline)
    (kept : ∀ key entry, children.get? key = some entry →
      value.children.get? key = some entry ∧ key ∈ origin'.content.keys ∧
        origin'.content.child? key = origin.content.child? key ∧
        tree'.content.child? key = tree.content.child? key)
    (missing : ∀ key ∈ origin'.content.keys, children.get? key = none →
      tree'.content.child? key = origin'.tree.content.child? key) :
    Shows place origin' ⟨origin'.storage place, children⟩ tree' := by
  refine intro ⟨distinct, ?_, ?_⟩ outline ?_ missing
  · exact fun key entry found => (kept key entry found).2.1
  · exact fun key entry found => related.tidy.placed key entry (kept key entry found).1
  · intro key entry found
    obtain ⟨before, -, same, sameTree⟩ := kept key entry found
    obtain ⟨source, shown, there⟩ := related.at_entry before
    refine ⟨source, shown, there.shows, ?_, fun layout stored => ?_, fun position repeated => ?_⟩
    · rw [sameTree, there.child]
    · rw [same, there.derived layout stored]
    · rw [Origin.child?_content_tree, same, ← Origin.child?_content_tree,
        there.fixed position repeated]

/-- A value without entries shows what is behind it. -/
theorem of_clear (origin : Origin) (children : Children Value) :
    Shows place origin ⟨origin.storage place, children.clear⟩ origin.tree :=
  intro (tidy_clear _ _) origin.outline_content_tree (fun key entry found => by cases found)
    fun _ _ _ => rfl

/-- One more child behind the others, where the table has no entry. -/
theorem extend (related : Shows place origin value tree)
    (more : Content.Extends origin.content origin'.content key source)
    (moreTree : Content.Extends tree.content tree'.content key source.tree)
    (outline : tree'.content.outline = origin'.content.outline) :
    Shows place origin' ⟨origin'.storage place, value.children⟩ tree' := by
  refine related.transfer related.tidy.distinct outline (fun other entry found => ?_)
    fun other inside absent => ?_
  · have member := related.tidy.known other entry found
    refine ⟨found, ?_, more.same other member, moreTree.same other (related.keys_eq ▸ member)⟩
    rw [more.keys]
    exact List.mem_append_left _ member
  · rw [Origin.child?_content_tree]
    by_cases member : other ∈ origin.content.keys
    · rw [moreTree.same other (related.keys_eq ▸ member), related.at_missing member absent,
        more.same other member, Origin.child?_content_tree]
    · rw [more.keys, List.mem_append, List.mem_singleton] at inside
      rw [inside.resolve_left member, moreTree.last, more.last, Option.map_some]

/-- Members known by position show what is behind them. -/
theorem child?_repeated (related : Shows place origin value tree) {position : Nat}
    (inside : .repeated position ∈ origin.content.keys) :
    tree.content.child? (.repeated position) =
      origin.tree.content.child? (.repeated position) := by
  cases found : value.children.get? (.repeated position) with
  | none => exact related.at_missing inside found
  | some entry =>
    obtain ⟨source, shown, there⟩ := related.at_entry found
    exact there.child.trans (there.fixed position rfl).symm

section

variable {members : List (String × Origin)} {shown : List (String × Tree)} {key : ChildKey}

/-- The entries that are kept when a name is forgotten are for members with other names. -/
theorem kept_forgetMember {entry : Entry Value} (related : Shows place origin value (.object shown))
    (object : origin.content = .object members)
    (object' : origin'.content = .object (Content.withoutName name members))
    (kept : (value.children.forgetMember name).get? key = some entry) :
    value.children.get? key = some entry ∧ key ∈ origin'.content.keys ∧
      origin'.content.child? key = origin.content.child? key ∧
      (Tree.object (Content.withoutName name shown)).content.child? key =
        (Tree.object shown).content.child? key := by
  rw [Children.get?_forgetMember] at kept
  cases key with
  | member other =>
    by_cases same : other = name
    · simp only [same, if_true] at kept
      cases kept
    · simp only [same, if_false] at kept
      have inside := related.tidy.known _ entry kept
      refine ⟨kept, ?_, ?_, Content.lookup_withoutName same shown⟩
      · rw [object']
        exact Content.member_mem_keys_withoutName.mpr ⟨same, object ▸ inside⟩
      · rw [object, object']
        exact Content.lookup_withoutName same members
  | repeated position => cases kept
  | element index =>
    have inside := related.tidy.known _ entry kept
    rw [object] at inside
    exact absurd inside element_notMem_memberKeysFrom

/-- Without an entry the remaining members show what is behind them. -/
theorem missing_forgetMember (related : Shows place origin value (.object shown))
    (object : origin.content = .object members)
    (object' : origin'.content = .object (Content.withoutName name members))
    (inside : key ∈ origin'.content.keys)
    (absent : (value.children.forgetMember name).get? key = none) :
    (Tree.object (Content.withoutName name shown)).content.child? key =
      origin'.tree.content.child? key := by
  have names : shown.map Prod.fst = members.map Prod.fst :=
    Content.outline_object_eq_iff.mp (object ▸ related.outline_eq)
  have level : origin.tree.content = .object (members.map fun (other, child) =>
      (other, child.tree)) := by
    rw [Origin.content_tree, object]
    rfl
  have level' : origin'.tree.content = .object (Content.withoutName name
      (members.map fun (other, child) => (other, child.tree))) := by
    rw [Origin.content_tree, object', Content.withoutName_map]
    rfl
  rw [object'] at inside
  rw [level']
  rw [Children.get?_forgetMember] at absent
  cases key with
  | member other =>
    obtain ⟨different, before⟩ := Content.member_mem_keys_withoutName.mp inside
    simp only [different, if_false] at absent
    have same := related.at_missing (object ▸ before) absent
    rw [level] at same
    exact (Content.lookup_withoutName different shown).trans
      (same.trans (Content.lookup_withoutName different _).symm)
  | repeated position =>
    refine Content.child?_withoutName_of_agree ?_ (fun position there => ?_) ?_
    · rw [names, List.map_map]
      rfl
    · rw [← level]
      exact related.child?_repeated (related.keys_eq ▸ there)
    · show _ ∈ memberKeys ((Content.withoutName name shown).map Prod.fst)
      rw [Content.names_withoutName, names, ← Content.names_withoutName]
      exact inside
  | element index => exact absurd inside element_notMem_memberKeysFrom

/-- All members with a name gone, with the entries that the table forgets for that. -/
theorem withoutMember (related : Shows place origin value (.object shown))
    (object : origin.content = .object members)
    (object' : origin'.content = .object (Content.withoutName name members)) :
    Shows place origin' ⟨origin'.storage place, value.children.forgetMember name⟩
      (.object (Content.withoutName name shown)) := by
  have names : shown.map Prod.fst = members.map Prod.fst :=
    Content.outline_object_eq_iff.mp (object ▸ related.outline_eq)
  refine related.transfer (Children.nodup_filterKeys related.tidy.distinct _) ?_
    (fun key entry kept => related.kept_forgetMember object object' kept)
    fun key inside absent => related.missing_forgetMember object object' inside absent
  rw [object']
  refine Content.outline_object_eq_iff.mpr ?_
  rw [Content.names_withoutName, Content.names_withoutName, names]

end

/-- A name forgotten where there are no members. -/
theorem forgetMember (related : Shows place origin value tree)
    (other : origin.content.kind ≠ .object) (name : String) :
    Shows place origin ⟨origin.storage place, value.children.forgetMember name⟩ tree := by
  refine related.transfer (Children.nodup_filterKeys related.tidy.distinct _) related.outline_eq
    (fun key entry kept => ?_) fun key inside absent => ?_
  · have found : value.children.get? key = some entry := by
      rw [Children.forgetMember, Children.get?_filterKeys] at kept
      exact (Option.ite_none_right_eq_some.mp kept).2
    exact ⟨found, related.tidy.known key entry found, rfl, rfl⟩
  · obtain ⟨index, rfl⟩ := Content.exists_eq_element_of_mem_keys other inside
    rw [Children.get?_forgetMember] at absent
    exact related.at_missing inside absent

end Shows

/-! ### What each operation leaves behind a value -/

theorem Tidy.forgetPlaceholder {keys : List ChildKey} {children : Children Value}
    (tidy : Tidy keys children) (key : ChildKey) :
    children.forgetPlaceholder key Value.isBlank = children := by
  unfold Children.forgetPlaceholder Children.find?
  cases found : children.get? key with
  | none => rfl
  | some entry =>
    have placed := tidy.placed key entry found
    simp only [Option.map_some, placed]

namespace Origin

variable {heap : Heap} {place : ArenaId} {origin : Origin} {children : Children Value}
  {appending : Appending} {operand : Tree}

theorem exists_content_eq_object {members : List (String × Origin)} {layout : Layout}
    (object : (stored layout).content = .object members) :
    ∃ inner, layout.content = .object inner ∧
      members = inner.map fun (name, child) => (name, stored child) := by
  cases level : layout.content <;> simp only [content, level, Content.map, reduceCtorEq] at object
  exact ⟨_, rfl, (Content.object.inj object).symm⟩

/-- Appending to a value of the right type. -/
theorem Held.append (held : origin.Held heap place) (tidy : Tidy origin.content.keys children)
    (fits : origin.content.kind = appending.kind)
    (room : (appending.run heap ⟨origin.storage place, children⟩ (Value.ofTree operand)
      ⟨some place⟩).heap.HasRoom place) :
    ∃ after origin' added, appending.run heap ⟨origin.storage place, children⟩
        (Value.ofTree operand) ⟨some place⟩ = ⟨after, ⟨origin'.storage place, children⟩, .done⟩ ∧
      Moves heap place after origin origin' ∧
        appending.extend? origin.content added = some origin'.content ∧ added.tree = operand := by
  cases origin with
  | loose tree =>
    obtain ⟨extended, more⟩ :=
      Appending.exists_extend? ((Content.kind_map loose tree.content).symm.trans fits) operand
    refine ⟨heap, .loose (Tree.ofContent extended), .loose operand, ?_, .loosened _ _, ?_, rfl⟩
    · rw [storage, Appending.run_detached, Appending.extend?_map, more]
      simp only [Option.map_some, Value.forgetPlaceholder, tidy.forgetPlaceholder, storage,
        Tree.content_ofContent]
    · rw [content, content, Appending.extend?_map, more, Tree.content_ofContent, Option.map_some]
  | stored layout =>
    obtain ⟨after, added, extended, equation, shown, more, reshaped⟩ := Appending.run_of_fits held
      (Allocator.owns_self _ _) ((Content.kind_map stored layout.content).symm.trans fits) room
    have equation := equation children
    rw [tidy.forgetPlaceholder] at equation
    rw [Value.visible_ofTree] at shown
    refine ⟨after, .stored ⟨layout.id, extended⟩, .stored added, equation, .reshaped reshaped, ?_,
      shown⟩
    rw [content, content, Appending.extend?_map, more, Option.map_some]

/-- Nothing is appended to a value of another type. -/
theorem Held.append_refused (held : origin.Held heap place)
    (other : origin.content.kind ≠ appending.kind) :
    appending.run heap ⟨origin.storage place, children⟩ (Value.ofTree operand) ⟨some place⟩ =
      ⟨heap, ⟨origin.storage place, children⟩,
        .refused (appending.refusal origin.content.kind)⟩ := by
  cases origin with
  | loose tree =>
    rw [content, Content.kind_map] at other ⊢
    rw [storage, Appending.run_detached, Appending.extend?_of_ne (by rwa [Content.kind_map]),
      Content.kind_map]
  | stored layout =>
    rw [content, Content.kind_map] at other ⊢
    exact Appending.run_of_other held (Allocator.owns_self _ _) other

/-- Removing members from an object. -/
theorem Held.removeMember {members : List (String × Origin)} (held : origin.Held heap place)
    (object : origin.content = .object members) (name : String) :
    ∃ after origin', Value.removeMember ⟨origin.storage place, children⟩ heap name =
        (members.countP fun (other, _) => other == name, after,
          ⟨origin'.storage place, children.forgetMember name⟩) ∧
      Moves heap place after origin origin' ∧
        origin'.content = .object (Content.withoutName name members) := by
  cases origin with
  | loose tree =>
    cases tree with
    | object shown =>
      cases object
      refine ⟨heap, .loose (.object (Content.withoutName name shown)), ?_, .loosened _ _, ?_⟩
      · have count := Content.length_sub_withoutName name shown
        have kept := Content.withoutName_map name Value.ofTree shown
        simp only [Content.withoutName] at count kept
        simp only [Value.removeMember, storage, Tree.content, Content.map, Content.withoutName, kept,
          List.length_map, count, List.countP_map, Function.comp_def]
      · exact congrArg Content.object (Content.withoutName_map name loose shown).symm
    | _ => cases object
  | stored layout =>
    obtain ⟨inner, level, rfl⟩ := exists_content_eq_object object
    obtain ⟨after, equation, reshaped⟩ := Value.removeMember_of_object held level name
    refine ⟨after, .stored ⟨layout.id, .object (Content.withoutName name inner)⟩, ?_,
      .reshaped reshaped, ?_⟩
    · refine (equation children).trans ?_
      rw [List.countP_map]
      rfl
    · exact congrArg Content.object (Content.withoutName_map name stored inner).symm

/-- From anything else nothing is removed. -/
theorem Held.removeMember_other (held : origin.Held heap place)
    (other : origin.content.kind ≠ .object) (name : String) :
    Value.removeMember ⟨origin.storage place, children⟩ heap name =
      (0, heap, ⟨origin.storage place, children.forgetMember name⟩) := by
  cases origin with
  | loose tree => cases tree <;> first | rfl | exact absurd rfl other
  | stored layout =>
    simp only [content, Content.kind_map] at other
    exact Value.removeMember_of_other held other name

/-- Giving a value a new level. -/
theorem Held.set (held : origin.Held heap place) (content : Content Empty) :
    ∃ after origin', Value.set ⟨origin.storage place, children⟩ heap content =
        (after, ⟨origin'.storage place, children.clear⟩) ∧
      Moves heap place after origin origin' ∧ origin'.tree = Tree.ofContent content.ofLeaf := by
  cases origin with
  | loose tree =>
    refine ⟨heap, .loose (Tree.ofContent content.ofLeaf), ?_, .loosened _ _, rfl⟩
    simp only [Value.set, storage, Tree.content_ofContent, Content.map_ofLeaf]
  | stored layout =>
    obtain ⟨after, equation, reshaped⟩ := Value.set_of_holds held content
    refine ⟨after, .stored ⟨layout.id, content.ofLeaf⟩, equation children, .reshaped reshaped, ?_⟩
    rw [tree, Layout.tree_eq, Content.map_ofLeaf]

end Origin

/-! ### Changes of plain trees -/

namespace Shows

variable {heap : Heap} {place : ArenaId} {origin : Origin} {value : Value} {tree : Tree}

theorem kind_eq (related : Shows place origin value tree) : tree.kind = origin.content.kind :=
  Content.kind_eq_of_outline_eq related.outline_eq

theorem exists_eq_object {members : List (String × Origin)} (related : Shows place origin value tree)
    (object : origin.content = .object members) :
    ∃ shown, tree = .object shown ∧ shown.map Prod.fst = members.map Prod.fst := by
  have kinds := related.kind_eq
  have outlines := related.outline_eq
  rw [object] at kinds outlines
  cases tree with
  | object shown => exact ⟨shown, rfl, Content.outline_object_eq_iff.mp outlines⟩
  | _ => cases kinds

end Shows

namespace Appending

/-- The change that appends a tree. -/
def change (operand : Tree) : Appending → Change
  | member name => .addMember name operand
  | element => .pushBack operand

theorem apply_change (appending : Appending) (operand tree : Tree) :
    (appending.change operand).apply tree =
      match appending.extend? tree.content operand with
      | some extended => (Tree.ofContent extended, .done)
      | none => (tree, .refused (appending.refusal tree.kind)) := by
  cases appending <;> cases tree <;> rfl

end Appending

theorem Change.apply_removeMember_of_ne {tree : Tree} (other : tree.kind ≠ .object) (name : String) :
    (removeMember name).apply tree = (tree, .removed 0) := by
  cases tree <;> first | rfl | exact absurd rfl other

variable {heap : Heap} {place : ArenaId}

theorem simulates_append (appending : Appending) (operand : Tree) :
    Simulates heap place (appending.operation (Value.ofTree operand) ⟨some place⟩).run
      (appending.change operand).apply := by
  intro origin value tree related held room
  obtain ⟨storage, children⟩ := value
  obtain rfl : storage = origin.storage place := related.storage_eq
  rw [Appending.apply_change]
  by_cases fits : origin.content.kind = appending.kind
  · obtain ⟨after, origin', added, equation, moves, more, same⟩ :=
      held.append related.tidy fits room
    obtain ⟨extended, moreTree⟩ :=
      Appending.exists_extend? (related.kind_eq.trans fits) operand
    have outline := Appending.outline_eq_of_extend? related.outline_eq moreTree more
    have last := Appending.extends_of_extend? moreTree
    rw [appending.newKey_eq_of_outline_eq related.outline_eq, ← same] at last
    rw [← Appending.run, equation, moreTree]
    rw [← Tree.content_ofContent extended] at outline last
    exact ⟨rfl, origin', moves, related.extend (Appending.extends_of_extend? more) last outline⟩
  · rw [← Appending.run, held.append_refused fits,
      Appending.extend?_of_ne (related.kind_eq.trans_ne fits), related.kind_eq]
    exact ⟨rfl, origin, .stays held, related⟩

theorem simulates_removeMember (name : String) :
    Simulates heap place (Operation.removeMember name).run (Change.removeMember name).apply := by
  intro origin value tree related held room
  obtain ⟨storage, children⟩ := value
  obtain rfl : storage = origin.storage place := related.storage_eq
  by_cases object : origin.content.kind = .object
  · cases level : origin.content <;> rw [level] at object <;> cases object
    rename_i members
    obtain ⟨shown, rfl, names⟩ := related.exists_eq_object level
    obtain ⟨after, origin', equation, moves, level'⟩ := held.removeMember level name
    rw [Operation.run, equation]
    refine ⟨?_, origin', moves, related.withoutMember level level'⟩
    have counts := congrArg (List.countP fun other => other == name) names
    rw [List.countP_map, List.countP_map] at counts
    exact congrArg Outcome.removed counts.symm
  · rw [Operation.run, held.removeMember_other object, Change.apply_removeMember_of_ne
      (related.kind_eq ▸ object)]
    exact ⟨rfl, origin, .stays held, related.forgetMember object name⟩

theorem simulates_set (content : Content Empty) :
    Simulates heap place (Operation.set content).run (Change.set content).apply := by
  intro origin value tree related held room
  obtain ⟨storage, children⟩ := value
  obtain rfl : storage = origin.storage place := related.storage_eq
  obtain ⟨after, origin', equation, moves, shown⟩ := held.set content
  rw [Operation.run, equation]
  refine ⟨rfl, origin', moves, ?_⟩
  rw [Change.apply, ← shown]
  exact Shows.of_clear origin' children

/-- An assigned tree stands for itself. -/
theorem simulates_assign (operand : Tree) :
    Simulates heap place (Operation.assign (Value.ofTree operand)).run
      (Change.assign operand).apply := by
  intro origin value tree related held room
  refine ⟨rfl, .loose operand, .loosened origin operand, ?_⟩
  have shows := Shows.fresh place (.loose operand)
  rw [Origin.fresh_loose] at shows
  exact shows

/-- Every change does to a value of a document what it does to a plain tree. -/
theorem Change.simulates (change : Change) :
    Simulates heap place (change.operation ⟨some place⟩).run change.apply := by
  cases change with
  | assign operand => exact simulates_assign operand
  | set content => exact simulates_set content
  | addMember name operand => exact simulates_append (.member name) operand
  | pushBack operand => exact simulates_append .element operand
  | removeMember name => exact simulates_removeMember name

end JsonOverlay
