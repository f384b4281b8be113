/-
This file compares the two ways in which a tree is exchanged. The direct one keeps the first of
the members with one name; a writer that builds a tree from what the tree says of itself keeps the
last. The outcomes are the same exactly if first and last members with one name are alike at every
level, as they are where no name is repeated. A reader of the text builds what that writer builds.
-/

import JsonOverlay.Proofs.Portable.Exports
import JsonOverlay.Proofs.Reader

namespace JsonOverlay

open Portable (ofDatum ofLevelWith)

namespace Portable

/-! ### What a writer builds from a description -/

theorem ofItems_eq_map (items : List Datum) : ofItems items = items.map ofDatum := by
  induction items with
  | nil => rfl
  | cons item rest inductionHypothesis => rw [ofItems, inductionHypothesis, List.map_cons]

theorem ofEntries_eq_map (entries : List (String × Datum)) :
    ofEntries entries = entries.map fun (name, child) => (name, ofDatum child) := by
  induction entries with
  | nil => rfl
  | cons entry rest inductionHypothesis =>
    obtain ⟨name, child⟩ := entry
    rw [ofEntries, inductionHypothesis, List.map_cons]

theorem ofDatum_ofLevel (level : Content Datum) :
    ofDatum (Datum.ofLevel level) = ofLevelWith Tree.keepLast (level.map ofDatum) := by
  cases level with
  | number value => cases value <;> rfl
  | array items => exact congrArg array (ofItems_eq_map items)
  | object members =>
    exact congrArg (fun entries => object (Tree.keepLast entries)) (ofEntries_eq_map members)
  | _ => rfl

/-- The representation of a number does not change what it is exchanged as. -/
theorem ofNumber_canonical (number : Number) : ofNumber number.canonical = ofNumber number := by
  rcases number with value | value | value
  · rw [Number.canonical]
    split
    · rfl
    · rename_i positive
      rw [ofNumber, PortableNumber.ofInt64, dif_neg positive]
      rfl
  · rfl
  · rfl

end Portable

namespace Tree

theorem ofDatum_datum_eq (tree : Tree) : ofDatum tree.datum =
    ofLevelWith keepLast (tree.content.map fun child => ofDatum child.datum) := by
  have level : tree.datum = Datum.ofLevel (tree.content.map datum) := fold_eq _ tree
  rw [level, Portable.ofDatum_ofLevel, Content.map_map]
  rfl

theorem tree_ofDatum_datum_eq (tree : Tree) : (ofDatum tree.datum).tree =
    exportLevel keepLast (tree.content.map fun child => (ofDatum child.datum).tree) := by
  rw [ofDatum_datum_eq, Portable.tree_ofLevelWith (map_keepLast Portable.tree), Content.map_map]
  rfl

/-- What a writer builds shows the export member by member. -/
theorem tree_ofDatum_datum (tree : Tree) : (ofDatum tree.datum).tree = tree.streamExport := by
  rw [streamExport, exportWith_eq_fold]
  exact eq_fold tree_ofDatum_datum_eq tree

/-! ### First and last members -/

/-- The first tree with the first of the members with one name is the second tree with the last,
as they are exchanged. -/
inductive Alike : Tree → Tree → Prop where
  | level {first last : Tree}
      (outline : first.content.exportOutline = last.content.exportOutline)
      (elements : ∀ index item twin, first.content.element? index = some item →
        last.content.element? index = some twin → Alike item twin)
      (members : ∀ name child twin, first.content.member? name = some child →
        last.content.lastMember? name = some twin → Alike child twin) :
      Alike first last

theorem outline_ofDatum_datum (tree : Tree) :
    (ofDatum tree.datum).content.outline = tree.content.exportOutline := by
  rw [ofDatum_datum_eq, Portable.outline_ofLevelWith names_keepLast, Content.exportOutline_map]

theorem element?_ofDatum_datum (tree : Tree) (index : Nat) :
    (ofDatum tree.datum).content.element? index =
      (tree.content.element? index).map fun child => ofDatum child.datum := by
  rw [ofDatum_datum_eq, Portable.element?_ofLevelWith, Content.element?_map]

theorem member?_ofDatum_datum (tree : Tree) (name : String) :
    (ofDatum tree.datum).content.member? name =
      (tree.content.lastMember? name).map fun child => ofDatum child.datum := by
  rw [ofDatum_datum_eq, Portable.member?_ofLevelWith_keepLast, Content.lastMember?_map]

theorem Alike.portable_eq {first last : Tree} (alike : first.Alike last) :
    first.portable = ofDatum last.datum := by
  induction alike with
  | @level first last outline _ _ elementsHypothesis membersHypothesis =>
    have same : first.portable.content.outline = (ofDatum last.datum).content.outline :=
      first.outline_portable.trans (outline.trans last.outline_ofDatum_datum.symm)
    refine Portable.eq_of_pairs_eq same first.nodup_memberNames_portable
      (fun index child twin kept otherKept => ?_) fun name child twin kept otherKept => ?_
    · rw [element?_portable] at kept
      rw [element?_ofDatum_datum] at otherKept
      obtain ⟨item, found, rfl⟩ := Option.map_eq_some_iff.mp kept
      obtain ⟨other, otherFound, rfl⟩ := Option.map_eq_some_iff.mp otherKept
      exact elementsHypothesis index item other found otherFound
    · rw [member?_portable] at kept
      rw [member?_ofDatum_datum] at otherKept
      obtain ⟨item, found, rfl⟩ := Option.map_eq_some_iff.mp kept
      obtain ⟨other, otherFound, rfl⟩ := Option.map_eq_some_iff.mp otherKept
      exact membersHypothesis name item other found otherFound

theorem alike_of_portable_eq {first last : Tree} (equal : first.portable = ofDatum last.datum) :
    first.Alike last := by
  induction first using induction_levels generalizing last with
  | level first inductionHypothesis =>
    refine .level ?_ (fun index item twin found otherFound => ?_)
      fun name child twin found otherFound => ?_
    · rw [← outline_portable, equal, outline_ofDatum_datum]
    · have same := congrArg (fun portable : Portable => portable.content.element? index) equal
      rw [element?_portable, element?_ofDatum_datum, found, otherFound] at same
      exact inductionHypothesis item (Content.mem_children_of_element? found)
        (Option.some.inj same)
    · have same := congrArg (fun portable : Portable => portable.content.member? name) equal
      rw [member?_portable, member?_ofDatum_datum, found, otherFound] at same
      exact inductionHypothesis child (Content.mem_children_of_member? found)
        (Option.some.inj same)

/-- The two ways of exchanging trees agree exactly if the trees are alike. -/
theorem portable_eq_ofDatum_iff {first last : Tree} :
    first.portable = ofDatum last.datum ↔ first.Alike last :=
  ⟨alike_of_portable_eq, Alike.portable_eq⟩

/-- A tree that repeats no name is alike itself. -/
theorem Distinct.alike {tree : Tree} (distinct : tree.Distinct) : tree.Alike tree := by
  induction tree using induction_levels with
  | level tree inductionHypothesis =>
    obtain ⟨names, below⟩ := distinct_iff.mp distinct
    refine .level rfl (fun index item twin found otherFound => ?_)
      fun name child twin found otherFound => ?_
    · rw [found] at otherFound
      cases otherFound
      have member := Content.mem_children_of_element? found
      exact inductionHypothesis item member (below item member)
    · rw [Content.lastMember?_of_nodup names, found] at otherFound
      cases otherFound
      have member := Content.mem_children_of_member? found
      exact inductionHypothesis child member (below child member)

/-! ### Reading the text -/

theorem ofLevelWith_canonical (merge : List (String × Portable) → List (String × Portable))
    (change : Tree → Portable) (tree : Tree) :
    ofLevelWith merge (tree.canonical.content.map change) =
      ofLevelWith merge (tree.content.map (change ∘ canonical)) := by
  cases tree with
  | number value => exact Portable.ofNumber_canonical value
  | array items =>
    simp only [canonical, content, Content.map, canonicalItems_eq_map, List.map_map]
  | object members =>
    simp only [canonical, content, Content.map, canonicalMembers_eq_map, List.map_map,
      Function.comp_def]
  | _ => rfl

/-- The representation of numbers does not change what a writer builds. -/
theorem ofDatum_datum_canonical (tree : Tree) :
    ofDatum tree.canonical.datum = ofDatum tree.datum := by
  induction tree using induction_levels with
  | level tree inductionHypothesis =>
    rw [ofDatum_datum_eq, ofLevelWith_canonical, ofDatum_datum_eq tree]
    exact congrArg _ (Content.map_congr inductionHypothesis)

/-- A reader of the text of a tree builds what a writer builds from its description. -/
theorem ofText_text (options : WriteOptions) (tree : Tree)
    (shallow : tree.depth ≤ Reader.greatestDepth)
    (doubles : ∀ double ∈ tree.doubles, options.numbers.ReadsBack (.double double)) :
    Portable.ofText (tree.text options) = .ok (ofDatum tree.datum) := by
  have read : parseStrict (tree.text options) = .ok tree.canonical := by
    rw [parseStrict, text_eq, Reader.readAll_render options tree shallow doubles]
  rw [Portable.ofText, read, ← ofDatum_datum_canonical]
  rfl

end Tree

end JsonOverlay
