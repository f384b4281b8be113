/-
This file describes levels of exchanged trees. A level keeps its type, its scalar and its children,
but for a double that is not finite, which becomes null, and for repeated names, of which each
stands where it stood first. Which child is found under such a name depends on what is kept: the
first, or the last.
-/

import JsonOverlay.Portable
import JsonOverlay.Proofs.Tree.Canonical
import JsonOverlay.Proofs.Tree.Fold
import JsonOverlay.Proofs.Tree.Names

namespace JsonOverlay

variable {α β : Type}

/-! ### What is kept of a level -/

namespace Content

/-- A level without its children as it is exchanged: a number as a reader would have represented
it, or null if it is not finite, and each name of an object once, where it stands first. -/
def exportOutline (content : Content α) : Content Unit :=
  match content with
  | .number value => (value.exported?.map number).getD null
  | .object members => object ((members.map Prod.fst).eraseDups.map fun name => (name, ()))
  | other => other.outline

/-- The last member with a name. -/
def lastMember? (content : Content α) (name : String) : Option α :=
  match content with
  | .object members => members.reverse.lookup name
  | _ => none

@[simp]
theorem exportOutline_map (change : α → β) (content : Content α) :
    (content.map change).exportOutline = content.exportOutline := by
  cases content <;> simp [map, exportOutline, outline, Function.comp_def]

theorem size_exportOutline (content : Content α) : content.exportOutline.size = content.size := by
  cases content with
  | number value =>
    rw [exportOutline]
    cases value.exported? <;> rfl
  | _ => simp [exportOutline, outline, map, size]

theorem memberNames_exportOutline (content : Content α) :
    content.exportOutline.memberNames = content.memberNames.eraseDups := by
  cases content with
  | number value =>
    rw [exportOutline]
    cases value.exported? <;> rfl
  | _ => simp [exportOutline, outline, map, memberNames, Function.comp_def]

theorem lastMember?_map (change : α → β) (content : Content α) (name : String) :
    (content.map change).lastMember? name = (content.lastMember? name).map change := by
  cases content with
  | object members =>
    rw [map, lastMember?, ← List.map_reverse, lookup_map_snd fun _ => change]
    rfl
  | _ => rfl

/-- Where the names are distinct, the first member with a name is the last one. -/
theorem lastMember?_of_nodup {content : Content α} (distinct : content.memberNames.Nodup)
    (name : String) : content.lastMember? name = content.member? name := by
  cases content with
  | object members =>
    rw [lastMember?, ← Tree.lookup_keepLast, Tree.keepLast_of_nodup distinct]
    rfl
  | _ => rfl

theorem size_eq_of_exportOutline_eq {content : Content α} {level : Content β}
    (same : content.outline = level.exportOutline) : content.size = level.size := by
  rw [← size_exportOutline level, ← same, outline, size_map]

theorem memberNames_eq_of_exportOutline_eq {content : Content α} {level : Content β}
    (same : content.outline = level.exportOutline) :
    content.memberNames = level.memberNames.eraseDups := by
  rw [← memberNames_exportOutline level, ← same, outline, memberNames_map]

theorem exists_element?_of_size_eq {content : Content α} {level : Content β} {index : Nat}
    {child : α} (size : content.size = level.size) (kept : content.element? index = some child) :
    ∃ item, level.element? index = some item := by
  refine Option.ne_none_iff_exists'.mp fun absent => ?_
  rw [element?_eq_none_iff, ← size, ← element?_eq_none_iff, kept] at absent
  cases absent

theorem exists_member?_of_memberNames_eq {content : Content α} {level : Content β} {name : String}
    {child : α} (names : content.memberNames = level.memberNames.eraseDups)
    (kept : content.member? name = some child) : ∃ item, level.member? name = some item := by
  refine Option.ne_none_iff_exists'.mp fun absent => ?_
  rw [member?_eq_none_iff, ← List.mem_eraseDups, ← names, ← member?_eq_none_iff, kept] at absent
  cases absent

/-- What an index finds in two levels with one outline is the same if it is where both find
something. -/
theorem element?_eq_of_outline_eq {first second : Content α} {index : Nat}
    (same : first.outline = second.outline)
    (pairs : ∀ child twin, first.element? index = some child →
      second.element? index = some twin → child = twin) :
    first.element? index = second.element? index := by
  cases found : first.element? index with
  | none =>
    rw [element?_eq_none_iff, size_eq_of_outline_eq same, ← element?_eq_none_iff] at found
    exact found.symm
  | some child =>
    obtain ⟨twin, other⟩ := exists_element?_of_size_eq (size_eq_of_outline_eq same) found
    rw [other, pairs child twin found other]

/-- What a name finds in two levels with one outline is the same if it is where both find
something. -/
theorem member?_eq_of_outline_eq {first second : Content α} {name : String}
    (same : first.outline = second.outline)
    (pairs : ∀ child twin, first.member? name = some child →
      second.member? name = some twin → child = twin) :
    first.member? name = second.member? name := by
  have names := memberNames_eq_of_outline_eq same
  cases found : first.member? name with
  | none =>
    rw [member?_eq_none_iff, names, ← member?_eq_none_iff] at found
    exact found.symm
  | some child =>
    cases other : second.member? name with
    | none =>
      rw [member?_eq_none_iff, ← names, ← member?_eq_none_iff, found] at other
      cases other
    | some twin => rw [pairs child twin found other]

/-- Two levels with one outline and distinct names are the same if the same is found in them. -/
theorem eq_of_lookups_eq {first second : Content α} (same : first.outline = second.outline)
    (distinct : first.memberNames.Nodup)
    (elements : ∀ index, first.element? index = second.element? index)
    (members : ∀ name, first.member? name = second.member? name) : first = second := by
  have names := memberNames_eq_of_outline_eq same
  cases first <;> cases second <;> simp only [outline, map, reduceCtorEq] at same
  case array.array => exact congrArg array (List.ext_getElem?_iff.mpr elements)
  case object.object => exact congrArg object (eq_of_lookup_eq names distinct members)
  all_goals simp_all only [bool.injEq, number.injEq, string.injEq]

end Content

namespace Portable

/-- The top level of an exchanged tree. -/
def content : Portable → Content Portable
  | null => .null
  | bool value => .bool value
  | number value => .number (.ofPortable value)
  | string value => .string value
  | array items => .array items
  | object members => .object members

/-! ### Numbers -/

theorem ofNumber_ofPortable (number : PortableNumber) :
    ofNumber (.ofPortable number) = .number number := by
  cases number with
  | unsigned value => rfl
  | negative value below => exact congrArg Portable.number (dif_pos below)
  | double value finite =>
    have same : PortableNumber.ofDouble? value = some (.double value finite) := dif_pos finite
    show ofNumber (.double value) = _
    rw [ofNumber, same]

theorem content_ofNumber (number : Number) :
    (ofNumber number).content = (number.exported?.map Content.number).getD .null := by
  rcases number with value | value | value
  · show Content.number (.ofPortable (.ofInt64 value)) = Content.number (Number.int value).canonical
    rw [PortableNumber.ofInt64, Number.canonical]
    split <;> rfl
  · rfl
  · rw [ofNumber, Number.exported?]
    by_cases finite : value.isFinite = true
    · have kept : PortableNumber.ofDouble? value = some (.double value finite) := dif_pos finite
      rw [kept, if_pos finite]
      rfl
    · have gone : PortableNumber.ofDouble? value = none := dif_neg finite
      rw [gone, if_neg finite]
      rfl

/-- A number that is exchanged is represented as a reader would have represented it. -/
theorem exported?_ofPortable (number : PortableNumber) :
    (Number.ofPortable number).exported? = some (.ofPortable number) := by
  cases number with
  | unsigned value => rfl
  | negative value below => exact congrArg some (if_pos below)
  | double value finite => exact if_pos finite

/-! ### Levels -/

/-- A level with distinct names is exchanged as it is. -/
theorem outline_eq_exportOutline {portable : Portable}
    (distinct : portable.content.memberNames.Nodup) :
    portable.content.outline = portable.content.exportOutline := by
  cases portable with
  | number value =>
    rw [content, Content.exportOutline, exported?_ofPortable]
    rfl
  | object members =>
    have kept : (members.map Prod.fst).eraseDups = members.map Prod.fst :=
      eraseDups_of_nodup distinct
    rw [content, Content.exportOutline, kept, List.map_map]
    rfl
  | _ => rfl

theorem ofLevelWith_content (portable : Portable) : ofLevelWith id portable.content = portable := by
  cases portable with
  | number value => exact ofNumber_ofPortable value
  | _ => rfl

theorem content_injective {first second : Portable} (same : first.content = second.content) :
    first = second := by
  rw [← ofLevelWith_content first, same, ofLevelWith_content]

/-- Exchanged trees with one outline and distinct names are the same if the same is found wherever
both find something. -/
theorem eq_of_pairs_eq {first second : Portable}
    (same : first.content.outline = second.content.outline)
    (distinct : first.content.memberNames.Nodup)
    (elements : ∀ index child twin, first.content.element? index = some child →
      second.content.element? index = some twin → child = twin)
    (members : ∀ name child twin, first.content.member? name = some child →
      second.content.member? name = some twin → child = twin) : first = second :=
  content_injective (Content.eq_of_lookups_eq same distinct
    (fun index => Content.element?_eq_of_outline_eq same (elements index))
    fun name => Content.member?_eq_of_outline_eq same (members name))

theorem treesOf_eq_map (items : List Portable) : treesOf items = items.map tree := by
  induction items with
  | nil => rfl
  | cons item rest inductionHypothesis => rw [treesOf, inductionHypothesis, List.map_cons]

theorem namedTreesOf_eq_map (members : List (String × Portable)) :
    namedTreesOf members = members.map fun (name, child) => (name, child.tree) := by
  induction members with
  | nil => rfl
  | cons member rest inductionHypothesis =>
    obtain ⟨name, child⟩ := member
    rw [namedTreesOf, inductionHypothesis, List.map_cons]

theorem content_tree (portable : Portable) :
    portable.tree.content = portable.content.map tree := by
  cases portable <;>
    simp only [tree, content, Tree.content, Content.map, treesOf_eq_map, namedTreesOf_eq_map]

theorem sizeOf_lt_of_mem_children {portable child : Portable}
    (member : child ∈ portable.content.children) : sizeOf child < sizeOf portable := by
  cases portable with
  | array items =>
    have smaller : sizeOf child < sizeOf items := List.sizeOf_lt_of_mem member
    simp only [array.sizeOf_spec]
    omega
  | object members =>
    obtain ⟨⟨name, found⟩, present, rfl⟩ := List.mem_map.mp member
    have smaller := List.sizeOf_lt_of_mem present
    simp only [Prod.mk.sizeOf_spec, object.sizeOf_spec] at smaller ⊢
    omega
  | _ => cases member

/-- Induction over the levels of an exchanged tree. -/
theorem induction_levels {motive : Portable → Prop}
    (level : ∀ portable : Portable, (∀ child ∈ portable.content.children, motive child) →
      motive portable) (portable : Portable) : motive portable :=
  level portable fun child _ => induction_levels level child
termination_by sizeOf portable
decreasing_by exact sizeOf_lt_of_mem_children (by assumption)

/-! ### Members with one name -/

theorem gather_eq_keepFirst (members : List (String × Portable)) :
    gather members = Tree.keepFirst members := by
  induction members using List.reverseRecOn with
  | nil => rfl
  | append_singleton members member inductionHypothesis =>
    have turn : gather (members ++ [member]) = insertNew (gather members) member :=
      List.foldl_append
    rw [turn, inductionHypothesis, insertNew, Tree.keepFirst_concat, Tree.lookup_keepFirst]
    by_cases known : member.1 ∈ members.map Prod.fst
    · rw [if_pos known, if_pos]
      exact Option.isSome_iff_ne_none.mpr (mt lookup_eq_none_iff_notMem.mp (not_not_intro known))
    · have new : member.1 ∉ (Tree.keepFirst members).map Prod.fst := by
        rwa [Tree.names_keepFirst, List.mem_eraseDups]
      rw [lookup_eq_none_iff_notMem.mpr known, if_neg known, Tree.put_of_notMem new]
      rfl

theorem names_gather (members : List (String × Portable)) :
    (gather members).map Prod.fst = (members.map Prod.fst).eraseDups := by
  rw [gather_eq_keepFirst, Tree.names_keepFirst]

theorem gather_subset (members : List (String × Portable)) : gather members ⊆ members := by
  rw [gather_eq_keepFirst]
  exact Tree.keepFirst_subset members

theorem map_gather (members : List (String × Portable)) :
    (gather members).map (fun (name, child) => (name, child.tree)) =
      Tree.keepFirst (members.map fun (name, child) => (name, child.tree)) := by
  rw [gather_eq_keepFirst, Tree.map_keepFirst]

variable {merge : List (String × Portable) → List (String × Portable)}

/-- Whatever is kept of repeated names, the names that are kept stand where they stood first. -/
theorem outline_ofLevelWith
    (names : ∀ members, (merge members).map Prod.fst = (members.map Prod.fst).eraseDups)
    (level : Content Portable) :
    (ofLevelWith merge level).content.outline = level.exportOutline := by
  cases level with
  | number value =>
    rw [ofLevelWith, content_ofNumber, Content.exportOutline]
    cases value.exported? <;> rfl
  | object members =>
    rw [Content.exportOutline, ← names]
    simp [ofLevelWith, content, Content.outline, Content.map]
  | _ => rfl

theorem element?_ofLevelWith (level : Content Portable) (index : Nat) :
    (ofLevelWith merge level).content.element? index = level.element? index := by
  cases level with
  | number value =>
    rw [ofLevelWith, content_ofNumber]
    cases value.exported? <;> rfl
  | _ => rfl

/-- Of members with one name the first is exchanged. -/
theorem member?_ofLevelWith_gather (level : Content Portable) (name : String) :
    (ofLevelWith gather level).content.member? name = level.member? name := by
  cases level with
  | number value =>
    rw [ofLevelWith, content_ofNumber]
    cases value.exported? <;> rfl
  | object members =>
    show (gather members).lookup name = members.lookup name
    rw [gather_eq_keepFirst, Tree.lookup_keepFirst]
  | _ => rfl

/-- A writer that builds a tree keeps the last of the members with one name. -/
theorem member?_ofLevelWith_keepLast (level : Content Portable) (name : String) :
    (ofLevelWith Tree.keepLast level).content.member? name = level.lastMember? name := by
  cases level with
  | number value =>
    rw [ofLevelWith, content_ofNumber]
    cases value.exported? <;> rfl
  | object members => exact Tree.lookup_keepLast members name
  | _ => rfl

theorem children_ofLevelWith_subset (inside : ∀ members, merge members ⊆ members)
    (level : Content Portable) :
    (ofLevelWith merge level).content.children ⊆ level.children := by
  cases level with
  | number value =>
    rw [ofLevelWith, content_ofNumber]
    cases value.exported? <;> exact List.nil_subset _
  | object members => exact List.map_subset _ (inside members)
  | _ => exact List.Subset.refl _

/-- The trees that a level is exchanged as show what its export does. -/
theorem tree_ofLevelWith {mergeTrees : List (String × Tree) → List (String × Tree)}
    (natural : ∀ members, (merge members).map (fun (name, child) => (name, child.tree)) =
      mergeTrees (members.map fun (name, child) => (name, child.tree)))
    (level : Content Portable) :
    (ofLevelWith merge level).tree = Tree.exportLevel mergeTrees (level.map tree) := by
  cases level with
  | number value =>
    rw [← Tree.ofContent_content (ofLevelWith merge _).tree, content_tree, ofLevelWith,
      content_ofNumber, Content.map, Tree.exportLevel]
    cases value.exported? <;> rfl
  | array items => exact congrArg Tree.array (treesOf_eq_map items)
  | object members =>
    exact congrArg Tree.object ((namedTreesOf_eq_map _).trans (natural members))
  | _ => rfl

end Portable

end JsonOverlay
