/-
This file shows that lookups change nothing of what a value of a document shows, and that
they find what the plain tree has. A lookup at a key of the level leaves an entry there that
shows the child; following a path, a walk over members or elements, and a walk from the end
of a path repeat that at one key after the other.
-/

import JsonOverlay.Proofs.Editing.Origin
import JsonOverlay.Proofs.Editing.Plain

namespace JsonOverlay

/-! ### Steps of a path -/

/-- A step that names a child looks up keys of the level, and the last of them is the key of
the child. -/
theorem Content.exists_keys?_of_stepTo? {α : Type} {content : Content α} {child : α} {step : Step}
    (found : content.stepTo? step = some child) {level : Content Value}
    (outline : level.outline = content.outline) :
    ∃ passed key, step.keys? level = some (passed, key) ∧ (∀ other ∈ passed, other ∈ content.keys) ∧
      key ∈ content.keys ∧ content.child? key = some child := by
  cases step with
  | member name =>
    refine ⟨[], .member name, rfl, by simp, ?_, found⟩
    exact mem_keys_of_member? found
  | element index =>
    refine ⟨[], .element index, rfl, by simp, ?_, found⟩
    exact mem_keys_of_element? found
  | nth position =>
    have names : level.memberNames = content.memberNames := by
      have equal := congrArg Content.memberNames outline
      simpa [Content.outline] using equal
    cases content with
    | object members =>
      obtain ⟨member, present, rfl⟩ := Option.map_eq_some_iff.mp found
      obtain ⟨bound, value⟩ := List.getElem?_eq_some_iff.mp present
      have keysBound : position < (memberKeys (members.map Prod.fst)).length := by simpa using bound
      have children := map_child?_keys (object members)
      refine ⟨(memberKeys (members.map Prod.fst)).take position,
        (memberKeys (members.map Prod.fst))[position], ?_, fun other => List.mem_of_mem_take,
        List.getElem_mem keysBound, ?_⟩
      · rw [Step.keys?, names]
        simp only [memberNames, List.getElem?_eq_getElem keysBound, Option.map_some]
      · have at_position := congrArg (fun list => list[position]?) children
        simpa [keys, Content.children, bound, value] using at_position
    | _ => cases found

/-! ### The members that a walk goes through -/

namespace Content

variable {α : Type}

/-- The names of the members with their keys find the members in order. -/
theorem map_child?_zip_memberKeys (content : Content α) :
    ((content.memberNames.zip (memberKeys content.memberNames)).map fun (name, key) =>
        (name, content.child? key)) =
      content.members.map fun (name, child) => (name, some child) := by
  cases content with
  | object members =>
    have children := map_child?_keys (object members)
    have zipped : ((members.map Prod.fst).zip (memberKeys (members.map Prod.fst))).map
        (fun member => (member.1, (object members).child? member.2)) =
        (members.map Prod.fst).zip ((members.map Prod.snd).map some) :=
      (List.zip_map_right).symm.trans (congrArg _ children)
    refine zipped.trans ?_
    rw [List.map_map, List.zip_map']
    rfl
  | _ => rfl

theorem mem_keys_of_mem_zip {content : Content α} {member : String × ChildKey}
    (inside : member ∈ content.memberNames.zip (memberKeys content.memberNames)) :
    member.2 ∈ content.keys := by
  have among := (List.of_mem_zip inside).2
  cases content with
  | object members => exact among
  | _ => cases among

end Content

namespace Shows

variable {heap : Heap} {place : ArenaId} {origin : Origin} {value : Value} {tree : Tree}
  {children : Children Value} {key : ChildKey} {entry : Entry Value}

/-! ### One entry more, or another one -/

/-- The relation survives a new entry at one key, whatever happens to the child behind it. -/
theorem replace (related : Shows place origin value tree) (member : key ∈ origin.content.keys)
    {origin' source : Origin} {tree' shown : Tree}
    (outline : origin'.content.outline = origin.content.outline)
    (outlineTree : tree'.content.outline = tree.content.outline)
    (others : ∀ other ∈ origin.content.keys, other ≠ key →
      origin'.content.child? other = origin.content.child? other)
    (othersTree : ∀ other ∈ origin.content.keys, other ≠ key →
      tree'.content.child? other = tree.content.child? other)
    (distinct : children.keys.Nodup)
    (kept : ∀ other, other ≠ key → children.get? other = value.children.get? other)
    (new : children.get? key = some entry) (placed : entry.placeholder = false)
    (there : ShowsAt place origin' tree' key entry.current.value source shown) :
    Shows place origin' ⟨origin'.storage place, children⟩ tree' := by
  have keys : origin'.content.keys = origin.content.keys := Content.keys_eq_of_outline_eq outline
  have level : ∀ other ∈ origin.content.keys, other ≠ key →
      origin'.tree.content.child? other = origin.tree.content.child? other := by
    intro other inside different
    rw [Origin.child?_content_tree, Origin.child?_content_tree, others other inside different]
  refine intro ⟨distinct, ?_, ?_⟩ ?_ ?_ ?_
  · intro other found present
    rw [keys]
    by_cases same : other = key
    · exact same ▸ member
    · exact related.tidy.known other found (kept other same ▸ present)
  · intro other found present
    by_cases same : other = key
    · rw [same, new, Option.some.injEq] at present
      exact present ▸ placed
    · exact related.tidy.placed other found (kept other same ▸ present)
  · rw [outlineTree, related.outline_eq, outline]
  · intro other found present
    by_cases same : other = key
    · subst same
      rw [new, Option.some.injEq] at present
      subst present
      exact ⟨source, shown, there⟩
    · rw [kept other same] at present
      have inside := related.tidy.known other found present
      obtain ⟨source, shown, before⟩ := related.at_entry present
      refine ⟨source, shown, before.shows, ?_, fun layout stored => ?_, fun position repeated => ?_⟩
      · rw [othersTree other inside same, before.child]
      · rw [others other inside same, before.derived layout stored]
      · rw [level other inside same, before.fixed position repeated]
  · intro other inside missing
    rw [keys] at inside
    by_cases same : other = key
    · rw [same, new] at missing
      cases missing
    · rw [othersTree other inside same, level other inside same]
      exact related.at_missing inside (kept other same ▸ missing)

/-- The same where nothing changes but the table. -/
theorem replace_entry (related : Shows place origin value tree)
    (member : key ∈ origin.content.keys) {source : Origin} {shown : Tree}
    (distinct : children.keys.Nodup)
    (kept : ∀ other, other ≠ key → children.get? other = value.children.get? other)
    (new : children.get? key = some entry) (placed : entry.placeholder = false)
    (there : ShowsAt place origin tree key entry.current.value source shown) :
    Shows place origin ⟨value.storage, children⟩ tree := by
  rw [related.storage_eq]
  exact related.replace member rfl rfl (fun _ _ _ => rfl) (fun _ _ _ => rfl) distinct kept new
    placed there

/-! ### Looking up one key -/

theorem backing_eq (related : Shows place origin value tree) (held : origin.Held heap place) :
    value.backing heap = origin.content.map (Origin.fresh place) := by
  cases related
  exact held.backing_eq _

theorem plan_of_entry (related : Shows place origin value tree)
    (found : value.children.get? key = some entry) (heap : Heap) :
    value.plan heap key = .keep := by
  have placed := related.tidy.placed key entry found
  rw [Value.plan, Children.find?, found]
  simp only [Option.map_some, placed, Value.isShown_of_not_placeholder]

theorem exists_plan_of_missing (related : Shows place origin value tree)
    (held : origin.Held heap place) (member : key ∈ origin.content.keys)
    (missing : value.children.get? key = none) :
    ∃ child, origin.content.child? key = some child ∧
      value.plan heap key = .insert (child.fresh place) false := by
  obtain ⟨child, -, found⟩ := Content.exists_child_of_mem_keys member
  refine ⟨child, found, ?_⟩
  rw [Value.plan, Children.find?, missing, related.backing_eq held, Content.child?_map, found]
  rfl

/-- A child that was not looked up yet may enter the table as it is. -/
theorem at_fresh (related : Shows place origin value tree) {child : Origin}
    (member : key ∈ origin.content.keys) (missing : value.children.get? key = none)
    (found : origin.content.child? key = some child) :
    ShowsAt place origin tree key (child.fresh place) child child.tree where
  shows := Shows.fresh place child
  child := by rw [related.at_missing member missing, Origin.child?_content_tree, found]; rfl
  derived _ _ := found
  fixed _ _ := by rw [Origin.child?_content_tree, found]; rfl

/-- A lookup for reading changes nothing and leaves an entry. -/
theorem look (related : Shows place origin value tree) (held : origin.Held heap place)
    (member : key ∈ origin.content.keys) :
    Shows place origin (value.look heap key) tree ∧
      ∃ entry, (value.look heap key).children.get? key = some entry := by
  unfold Value.look
  cases found : value.children.get? key with
  | some entry =>
    rw [related.plan_of_entry found, Children.resolve_keep found]
    cases value
    exact ⟨related, entry, found⟩
  | none =>
    obtain ⟨child, present, plan⟩ := related.exists_plan_of_missing held member found
    rw [plan]
    obtain ⟨older, new⟩ := value.children.get?_resolve_insert key (child.fresh place) false
    refine ⟨?_, _, new⟩
    exact related.replace_entry member (Children.nodup_resolve related.tidy.distinct key _)
      (fun other different => Children.get?_resolve_of_ne different _) new rfl
      (related.at_fresh member found present)

/-- A lookup for writing changes nothing and leaves an entry. -/
theorem reach (related : Shows place origin value tree) (held : origin.Held heap place)
    (member : key ∈ origin.content.keys) :
    Shows place origin (value.reach heap key) tree ∧
      ∃ entry, (value.reach heap key).children.get? key = some entry := by
  unfold Value.reach
  have distinct := Children.nodup_resolveForWriting related.tidy.distinct key (value.plan heap key)
  have kept : ∀ other, other ≠ key →
      (value.children.resolveForWriting key (value.plan heap key)).get? other =
        value.children.get? other :=
    fun other different => Children.get?_resolveForWriting_of_ne different _
  cases found : value.children.get? key with
  | some entry =>
    rw [related.plan_of_entry found] at distinct kept ⊢
    have new := Children.get?_resolveForWriting_keep found
    obtain ⟨source, shown, there⟩ := related.at_entry found
    exact ⟨related.replace_entry member distinct kept new
      (related.tidy.placed key entry found) there, _, new⟩
  | none =>
    obtain ⟨child, present, plan⟩ := related.exists_plan_of_missing held member found
    rw [plan] at distinct kept ⊢
    have new := value.children.get?_resolveForWriting_insert key (child.fresh place) false
    exact ⟨related.replace_entry member distinct kept new rfl
      (related.at_fresh member found present), _, new⟩

/-! ### Writing to an entry -/

/-- Putting a child that shows the same in the place of an entry's child. -/
theorem writeChild_of_same (related : Shows place origin value tree)
    (found : value.children.get? key = some entry) {source : Origin} {shown : Tree}
    (there : ShowsAt place origin tree key entry.current.value source shown) {child : Value}
    (same : Shows place source child shown) :
    Shows place origin (value.writeChild key child) tree := by
  have new := Children.get?_write value.children key child key
  rw [if_pos rfl, found, Option.map_some] at new
  refine related.replace_entry (related.tidy.known key entry found)
    (Children.nodup_write related.tidy.distinct key child) (fun other different => ?_) new
    (related.tidy.placed key entry found) ⟨same, there.child, there.derived, there.fixed⟩
  rw [Children.get?_write, if_neg different]

/-! ### Following a path -/

theorem held_source (held : origin.Held heap place)
    {child : Value} {source : Origin} {shown : Tree}
    (there : ShowsAt place origin tree key child source shown) : source.Held heap place := by
  cases source with
  | loose tree => trivial
  | stored layout => exact held.child (there.derived layout rfl)

theorem lookEach (related : Shows place origin value tree) (held : origin.Held heap place)
    {keys : List ChildKey} (members : ∀ key ∈ keys, key ∈ origin.content.keys) :
    Shows place origin (keys.foldl (fun value key => value.look heap key) value) tree := by
  induction keys generalizing value with
  | nil => exact related
  | cons key rest inductionHypothesis =>
    exact inductionHypothesis (related.look held (members key List.mem_cons_self)).1
      fun other member => members other (List.mem_cons_of_mem _ member)

end Shows

/-- A reference into a value of a document means a value that shows a certain tree, and any
value that shows the same may take its place. -/
structure Refers (heap : Heap) (place : ArenaId) (origin : Origin) (tree : Tree) (value : Value)
    (reference : Reference) (found : Tree) : Prop where
  shows : Shows place origin value tree
  target : ∃ child source, value.at? reference = some child ∧ source.Held heap place ∧
    Shows place source child found ∧
    ∀ changed, Shows place source changed found →
      Shows place origin (value.writeAt (fun _ => changed) reference) tree

namespace Shows

variable {heap : Heap} {place : ArenaId} {origin : Origin} {value : Value} {tree : Tree}
  {children : Children Value} {key : ChildKey} {entry : Entry Value}

/-- A reference below the current child at a key is a reference into the value. -/
theorem refers_cons (related : Shows place origin value tree)
    (present : value.children.get? key = some entry) {source : Origin} {shown found : Tree}
    (there : ShowsAt place origin tree key entry.current.value source shown) {child : Value}
    {reference : Reference} (below : Refers heap place source shown child reference found) :
    Refers heap place origin tree (value.writeChild key child)
      ((key, entry.current.serial) :: reference) found := by
  have wrote := related.writeChild_of_same present there below.shows
  have new := Children.get?_write value.children key child key
  rw [if_pos rfl, present, Option.map_some] at new
  have version := Children.version?_current new
  obtain ⟨target, origin', means, held, shows, exchange⟩ := below.target
  refine ⟨wrote, target, origin', ?_, held, shows, fun changed same => ?_⟩
  · exact (Value.at?_writeChild present child reference).trans means
  · have written : (value.writeChild key child).writeAt (fun _ => changed)
        ((key, entry.current.serial) :: reference) =
        ⟨value.storage, (value.children.write key child).writeVersion key entry.current.serial
          (child.writeAt (fun _ => changed) reference)⟩ := by
      simp only [Value.writeAt, Value.writeChild, version]
    obtain ⟨older, newest⟩ := Children.get?_writeVersion_current new
      (child.writeAt (fun _ => changed) reference)
    have exchanged : ShowsAt place origin tree key
        (child.writeAt (fun _ => changed) reference) source shown :=
      ⟨exchange changed same, there.child, there.derived, there.fixed⟩
    rw [written]
    exact wrote.replace_entry (related.tidy.known key entry present)
      (Children.nodup_writeVersion wrote.tidy.distinct key _ _)
      (fun other different => Children.get?_writeVersion_of_ne different _ _ _) newest
      (related.tidy.placed key entry present) exchanged

/-- Following a path of the plain tree for reading changes nothing and finds what is at its
end. -/
theorem read (path : List Step) {found : Tree} (related : Shows place origin value tree)
    (held : origin.Held heap place) (follow : tree.follow? path = some found) :
    ∃ reference, (value.read heap path).2 = some reference ∧
      Refers heap place origin tree (value.read heap path).1 reference found := by
  induction path generalizing origin value tree with
  | nil =>
    cases follow
    exact ⟨[], rfl, related, value, origin, rfl, held, related, fun _ same => same⟩
  | cons step rest inductionHypothesis =>
    obtain ⟨child, stepped, later⟩ := Option.bind_eq_some_iff.mp follow
    have outline : (value.backing heap).outline = tree.content.outline := by
      rw [related.backing_eq held, Content.outline_map, related.outline_eq]
    obtain ⟨passed, key, keys, passedKeys, keyMember, childFound⟩ :=
      Content.exists_keys?_of_stepTo? stepped outline
    rw [related.keys_eq] at keyMember
    have passing := related.lookEach held fun other inside =>
      related.keys_eq ▸ passedKeys other inside
    obtain ⟨looked, entry, present⟩ := passing.look held keyMember
    obtain ⟨source, shown, there⟩ := looked.at_entry present
    have same : shown = child := Option.some.inj (there.child.symm.trans childFound)
    subst same
    obtain ⟨reference, answer, below⟩ :=
      inductionHypothesis there.shows (held_source held there) later
    simp only [Value.read, keys, List.foldl_append, List.foldl_cons, List.foldl_nil]
    rw [Value.child_eq present, answer]
    exact ⟨_, rfl, looked.refers_cons present there below⟩

/-! ### Walks -/

/-- Walking over some members of an object meets the names and trees of the plain members. -/
theorem walk (count : Nat) {pending : List (String × ChildKey)}
    (related : Shows place origin value tree) (held : origin.Held heap place)
    {shown : List (String × Tree)}
    (members : pending.map (fun member => (member.1, tree.content.child? member.2)) =
      shown.map fun member => (member.1, some member.2))
    (keys : ∀ member ∈ pending, member.2 ∈ origin.content.keys) :
    Shows place origin (MemberCursor.walk heap count ⟨pending⟩ value).2.2 tree ∧
      ((MemberCursor.walk heap count ⟨pending⟩ value).1.map fun visit =>
        (visit.name, visit.value.visible heap)) = shown.take count := by
  induction count generalizing value pending shown with
  | zero => exact ⟨related, rfl⟩
  | succ count inductionHypothesis =>
    cases pending with
    | nil =>
      rw [List.map_nil, eq_comm, List.map_eq_nil_iff] at members
      subst members
      exact ⟨related, rfl⟩
    | cons first rest =>
      obtain ⟨name, key⟩ := first
      cases shown with
      | nil => cases members
      | cons member later =>
        rw [List.map_cons, List.map_cons, List.cons.injEq, Prod.mk.injEq] at members
        obtain ⟨⟨sameName, sameChild⟩, sameRest⟩ := members
        obtain ⟨looked, entry, present⟩ := related.look held (keys _ List.mem_cons_self)
        obtain ⟨source, found, there⟩ := looked.at_entry present
        obtain ⟨unchanged, visits⟩ := inductionHypothesis looked sameRest
          fun other inside => keys other (List.mem_cons_of_mem _ inside)
        refine ⟨unchanged, ?_⟩
        simp only [MemberCursor.walk, MemberCursor.next?, List.map_cons, List.take_succ_cons, visits]
        rw [Value.child_eq present, there.shows.visible_eq (held_source held there)]
        have equal : found = member.2 := Option.some.inj (there.child.symm.trans sameChild)
        rw [equal, show name = member.1 from sameName]

/-- A walk from the start over an object meets its plain members. -/
theorem walk_start (count : Nat) (related : Shows place origin value tree)
    (held : origin.Held heap place) :
    Shows place origin
        (MemberCursor.walk heap count (MemberCursor.start value heap) value).2.2 tree ∧
      ((MemberCursor.walk heap count (MemberCursor.start value heap) value).1.map fun visit =>
        (visit.name, visit.value.visible heap)) = tree.content.members.take count := by
  have names : (value.backing heap).memberNames = tree.content.memberNames := by
    have outlines : (value.backing heap).outline = tree.content.outline := by
      rw [related.backing_eq held, Content.outline_map, related.outline_eq]
    have equal := congrArg Content.memberNames outlines
    simpa [Content.outline] using equal
  unfold MemberCursor.start
  rw [names]
  refine related.walk count held tree.content.map_child?_zip_memberKeys fun member inside => ?_
  rw [← related.keys_eq]
  exact Content.mem_keys_of_mem_zip inside

/-- Looking up elements in any order finds the plain elements. -/
theorem lookAll (indices : List UInt64) (related : Shows place origin value tree)
    (held : origin.Held heap place) {items : List Tree}
    (found : (indices.mapM fun index => tree.content.element? index.toNat) = some items) :
    Shows place origin (ArrayCursor.lookAll heap value indices).2 tree ∧
      (ArrayCursor.lookAll heap value indices).1.map (Value.visible heap) = items := by
  induction indices generalizing value items with
  | nil =>
    cases found
    exact ⟨related, rfl⟩
  | cons index rest inductionHypothesis =>
    rw [List.mapM_cons] at found
    obtain ⟨item, atIndex, rest'⟩ := Option.bind_eq_some_iff.mp found
    obtain ⟨later, laterFound, equal⟩ := Option.bind_eq_some_iff.mp rest'
    cases equal
    have member : ChildKey.element index.toNat ∈ origin.content.keys := by
      rw [← related.keys_eq]
      exact Content.mem_keys_of_element? atIndex
    obtain ⟨looked, entry, present⟩ := related.look held member
    obtain ⟨source, shown, there⟩ := looked.at_entry present
    obtain ⟨unchanged, others⟩ := inductionHypothesis looked laterFound
    refine ⟨unchanged, ?_⟩
    simp only [ArrayCursor.lookAll, List.map_cons, others]
    rw [Value.child_eq present, there.shows.visible_eq (held_source held there)]
    have equal : shown = item := Option.some.inj (there.child.symm.trans atIndex)
    rw [equal]

end Shows

end JsonOverlay
