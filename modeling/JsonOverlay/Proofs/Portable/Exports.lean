/-
This file says what a tree is exchanged as, apart from how it is computed: level by level the same
type, the same scalar and the same children, but for doubles that are not finite, which become
null, and names that are repeated, of which the first member is kept. There is exactly one such
tree, its names are distinct, and an exchanged tree with distinct names is its own.
-/

import JsonOverlay.Proofs.Portable.Levels

namespace JsonOverlay

open Portable (gather ofLevelWith)

namespace Tree

/-! ### What a tree is exchanged as -/

/-- The second tree is what the first is exchanged as. -/
inductive ExportsTo : Tree → Portable → Prop where
  | level {tree : Tree} {portable : Portable}
      (outline : portable.content.outline = tree.content.exportOutline)
      (elements : ∀ index item child, tree.content.element? index = some item →
        portable.content.element? index = some child → ExportsTo item child)
      (members : ∀ name item child, tree.content.member? name = some item →
        portable.content.member? name = some child → ExportsTo item child) :
      ExportsTo tree portable

theorem portable_eq (tree : Tree) :
    tree.portable = ofLevelWith gather (tree.content.map portable) :=
  fold_eq _ tree

theorem outline_portable (tree : Tree) :
    tree.portable.content.outline = tree.content.exportOutline := by
  rw [portable_eq, Portable.outline_ofLevelWith Portable.names_gather, Content.exportOutline_map]

theorem element?_portable (tree : Tree) (index : Nat) :
    tree.portable.content.element? index = (tree.content.element? index).map portable := by
  rw [portable_eq, Portable.element?_ofLevelWith, Content.element?_map]

theorem member?_portable (tree : Tree) (name : String) :
    tree.portable.content.member? name = (tree.content.member? name).map portable := by
  rw [portable_eq, Portable.member?_ofLevelWith_gather, Content.member?_map]

theorem exportsTo_portable (tree : Tree) : tree.ExportsTo tree.portable := by
  induction tree using induction_levels with
  | level tree inductionHypothesis =>
    refine .level tree.outline_portable (fun index item child found kept => ?_)
      fun name item child found kept => ?_
    · rw [element?_portable, found] at kept
      cases kept
      exact inductionHypothesis item (Content.mem_children_of_element? found)
    · rw [member?_portable, found] at kept
      cases kept
      exact inductionHypothesis item (Content.mem_children_of_member? found)

/-- A tree is exchanged as one tree only. -/
theorem ExportsTo.unique {tree : Tree} {first second : Portable} (exports : tree.ExportsTo first)
    (others : tree.ExportsTo second) : first = second := by
  induction tree using induction_levels generalizing first second with
  | level tree inductionHypothesis =>
    obtain ⟨outline, elements, members⟩ := exports
    obtain ⟨otherOutline, otherElements, otherMembers⟩ := others
    have size := Content.size_eq_of_exportOutline_eq outline
    have names := Content.memberNames_eq_of_exportOutline_eq outline
    refine Portable.eq_of_pairs_eq (outline.trans otherOutline.symm) (names ▸ nodup_eraseDups _)
      (fun index child twin kept otherKept => ?_) fun name child twin kept otherKept => ?_
    · obtain ⟨item, found⟩ := Content.exists_element?_of_size_eq size kept
      exact inductionHypothesis item (Content.mem_children_of_element? found)
        (elements index item child found kept) (otherElements index item twin found otherKept)
    · obtain ⟨item, found⟩ := Content.exists_member?_of_memberNames_eq names kept
      exact inductionHypothesis item (Content.mem_children_of_member? found)
        (members name item child found kept) (otherMembers name item twin found otherKept)

theorem exportsTo_iff {tree : Tree} {portable : Portable} :
    tree.ExportsTo portable ↔ portable = tree.portable := by
  constructor
  · exact fun exports => exports.unique tree.exportsTo_portable
  · rintro rfl
    exact tree.exportsTo_portable

theorem nodup_memberNames_portable (tree : Tree) : tree.portable.content.memberNames.Nodup :=
  Content.memberNames_eq_of_exportOutline_eq tree.outline_portable ▸ nodup_eraseDups _

/-! ### Distinct names -/

/-- No object repeats a name. -/
inductive Distinct : Tree → Prop where
  | level {tree : Tree} (names : tree.content.memberNames.Nodup)
      (below : ∀ child ∈ tree.content.children, Distinct child) : Distinct tree

theorem distinct_iff {tree : Tree} : tree.Distinct ↔
    tree.content.memberNames.Nodup ∧ ∀ child ∈ tree.content.children, child.Distinct := by
  constructor
  · rintro ⟨names, below⟩
    exact ⟨names, below⟩
  · rintro ⟨names, below⟩
    exact .level names below

end Tree

namespace Portable

/-- No object repeats a name. -/
def Distinct (portable : Portable) : Prop := portable.tree.Distinct

theorem distinct_iff {portable : Portable} : portable.Distinct ↔
    portable.content.memberNames.Nodup ∧ ∀ child ∈ portable.content.children, child.Distinct := by
  rw [Distinct, Tree.distinct_iff, content_tree, Content.memberNames_map, Content.children_map,
    List.forall_mem_map]
  rfl

/-- The tree that an exchanged one with distinct names shows is exchanged as that again. -/
theorem Distinct.exportsTo {portable : Portable} (distinct : portable.Distinct) :
    portable.tree.ExportsTo portable := by
  induction portable using induction_levels with
  | level portable inductionHypothesis =>
    obtain ⟨names, below⟩ := distinct_iff.mp distinct
    refine .level ?_ (fun index item child found kept => ?_) fun name item child found kept => ?_
    · rw [content_tree, Content.exportOutline_map, outline_eq_exportOutline names]
    · rw [content_tree, Content.element?_map, kept] at found
      cases found
      have member := Content.mem_children_of_element? kept
      exact inductionHypothesis child member (below child member)
    · rw [content_tree, Content.member?_map, kept] at found
      cases found
      have member := Content.mem_children_of_member? kept
      exact inductionHypothesis child member (below child member)

/-- An exchanged tree comes back as it was. -/
theorem Distinct.portable_tree {portable : Portable} (distinct : portable.Distinct) :
    portable.tree.portable = portable :=
  (Tree.exportsTo_iff.mp distinct.exportsTo).symm

end Portable

namespace Tree

/-- What a tree is exchanged as repeats no name. -/
theorem distinct_portable (tree : Tree) : tree.portable.Distinct := by
  induction tree using induction_levels with
  | level tree inductionHypothesis =>
    refine Portable.distinct_iff.mpr ⟨nodup_memberNames_portable tree, fun child member => ?_⟩
    rw [portable_eq] at member
    have below := Portable.children_ofLevelWith_subset Portable.gather_subset _ member
    rw [Content.children_map] at below
    obtain ⟨item, present, rfl⟩ := List.mem_map.mp below
    exact inductionHypothesis item present

/-! ### What an exchanged tree shows -/

theorem tree_portable_eq (tree : Tree) : tree.portable.tree =
    exportLevel keepFirst (tree.content.map fun child => child.portable.tree) := by
  rw [portable_eq, Portable.tree_ofLevelWith Portable.map_gather, Content.map_map]
  rfl

theorem tree_portable (tree : Tree) : tree.portable.tree = tree.toExport := by
  rw [toExport, exportWith_eq_fold]
  exact eq_fold tree_portable_eq tree

theorem exported?_eq_canonical {number : Number}
    (finite : ∀ double, number = .double double → double.isFinite = true) :
    number.exported? = some number.canonical := by
  rcases number with value | value | value
  · rfl
  · rfl
  · exact if_pos (finite value rfl)

/-- Where names are distinct and doubles are finite, exporting a level only changes how its number
is represented. -/
theorem exportLevel_canonical {tree : Tree} (names : tree.content.memberNames.Nodup)
    (finite : ∀ double ∈ tree.doubles, double.isFinite = true) :
    exportLevel keepFirst (tree.content.map canonical) = tree.canonical := by
  cases tree with
  | number value =>
    have kept : value.exported? = some value.canonical := by
      refine exported?_eq_canonical ?_
      rintro double rfl
      exact finite double (List.mem_singleton_self double)
    rw [content, Content.map, exportLevel, kept]
    rfl
  | array items => exact congrArg array (canonicalItems_eq_map items).symm
  | object members =>
    have kept : keepFirst (canonicalMembers members) = canonicalMembers members := by
      rw [canonicalMembers_eq_map]
      exact keepFirst_of_nodup ((names_map canonical members).symm ▸ names)
    rw [content, Content.map, exportLevel, ← canonicalMembers_eq_map, kept]
    rfl
  | _ => rfl

/-- A tree with distinct names and finite doubles is exchanged as a tree that shows the same, up to
the representation of its integers. -/
theorem Distinct.tree_portable {tree : Tree} (distinct : tree.Distinct)
    (finite : ∀ double ∈ tree.doubles, double.isFinite = true) :
    tree.portable.tree = tree.canonical := by
  induction tree using induction_levels with
  | level tree inductionHypothesis =>
    obtain ⟨names, below⟩ := distinct_iff.mp distinct
    have children : tree.content.map (fun child => child.portable.tree) =
        tree.content.map canonical :=
      Content.map_congr fun child member => inductionHypothesis child member (below child member)
        fun double held => finite double (mem_doubles_of_mem_children member held)
    rw [tree_portable_eq, children, exportLevel_canonical names finite]

end Tree

end JsonOverlay
