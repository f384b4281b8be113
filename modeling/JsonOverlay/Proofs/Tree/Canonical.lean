/-
This file defines the tree that is left of a tree when its text is read again: every number
has the representation that a reader would have chosen, and all else is as it was. The two
trees are equal, provided that the doubles in them equal themselves.
-/

import JsonOverlay.Proofs.Tree

namespace JsonOverlay

namespace Number

theorem toNat_ofInt_toInt {value : Int64} (positive : ¬ value.toInt < 0) :
    ((UInt64.ofInt value.toInt).toNat : Int) = value.toInt := by
  have high := value.toInt_lt
  rw [UInt64.ofInt, UInt64.toNat_ofNat_of_lt' (show _ < 2 ^ 64 by omega)]
  omega

theorem integer?_canonical (number : Number) : number.canonical.integer? = number.integer? := by
  rcases number with value | value | value
  · rw [canonical]
    split
    · rfl
    · rename_i positive
      exact congrArg some (toNat_ofInt_toInt positive)
  · rfl
  · rfl

/-- A number equals its other representation, provided that it equals itself. -/
theorem equal_canonical (number : Number)
    (finite : ∀ double, number = .double double → double.isFinite = true) :
    number.equal number.canonical = true := by
  rcases number with value | value | value
  · exact beq_iff_eq.mpr (integer?_canonical (.int value)).symm
  · exact beq_self_eq_true _
  · have bound : value.magnitude < BinaryFormat.wide.infinity :=
      of_decide_eq_true (finite value rfl)
    have number : value.isNaN = false := decide_eq_false (by omega)
    simp [equal, canonical, Double.equal, number]

end Number

namespace Tree

mutual

/-- The tree with every number in the representation that a reader would have chosen. -/
def canonical : Tree → Tree
  | number value => number value.canonical
  | array items => array (canonicalItems items)
  | object members => object (canonicalMembers members)
  | other => other

/-- The elements of an array in the representation that a reader would have chosen. -/
def canonicalItems : List Tree → List Tree
  | [] => []
  | item :: rest => item.canonical :: canonicalItems rest

/-- The members of an object in the representation that a reader would have chosen. -/
def canonicalMembers : List (String × Tree) → List (String × Tree)
  | [] => []
  | (name, child) :: rest => (name, child.canonical) :: canonicalMembers rest

end

mutual

/-- The doubles in a tree. -/
def doubles : Tree → List Double
  | number (.double value) => [value]
  | array items => doublesOfItems items
  | object members => doublesOfMembers members
  | _ => []

/-- The doubles in the elements of an array. -/
def doublesOfItems : List Tree → List Double
  | [] => []
  | item :: rest => item.doubles ++ doublesOfItems rest

/-- The doubles in the members of an object. -/
def doublesOfMembers : List (String × Tree) → List Double
  | [] => []
  | (_, child) :: rest => child.doubles ++ doublesOfMembers rest

end

/-! ### Level by level -/

theorem canonicalItems_eq_map (items : List Tree) : canonicalItems items = items.map canonical := by
  induction items with
  | nil => rfl
  | cons item rest inductionHypothesis => rw [canonicalItems, inductionHypothesis, List.map_cons]

theorem canonicalMembers_eq_map (members : List (String × Tree)) :
    canonicalMembers members = members.map fun (name, child) => (name, child.canonical) := by
  induction members with
  | nil => rfl
  | cons member rest inductionHypothesis =>
    rw [canonicalMembers, inductionHypothesis, List.map_cons]

theorem children_content_canonical (tree : Tree) :
    tree.canonical.content.children = tree.content.children.map canonical := by
  cases tree with
  | array items => exact canonicalItems_eq_map items
  | object members =>
    simp [canonical, canonicalMembers_eq_map, content, Content.children, Function.comp_def]
  | _ => rfl

theorem doublesOfItems_eq_flatMap (items : List Tree) :
    doublesOfItems items = items.flatMap doubles := by
  induction items with
  | nil => rfl
  | cons item rest inductionHypothesis =>
    rw [doublesOfItems, inductionHypothesis, List.flatMap_cons]

theorem doublesOfMembers_eq_flatMap (members : List (String × Tree)) :
    doublesOfMembers members = (members.map Prod.snd).flatMap doubles := by
  induction members with
  | nil => rfl
  | cons member rest inductionHypothesis =>
    rw [doublesOfMembers, inductionHypothesis, List.map_cons, List.flatMap_cons]

/-- A double in a child is a double in the tree. -/
theorem mem_doubles_of_mem_children {tree child : Tree} {double : Double}
    (member : child ∈ tree.content.children) (held : double ∈ child.doubles) :
    double ∈ tree.doubles := by
  cases tree with
  | array items =>
    rw [doubles, doublesOfItems_eq_flatMap]
    exact List.mem_flatMap.mpr ⟨child, member, held⟩
  | object members =>
    rw [doubles, doublesOfMembers_eq_flatMap]
    exact List.mem_flatMap.mpr ⟨child, member, held⟩
  | _ => cases member

/-! ### What is kept -/

theorem length_canonicalItems (items : List Tree) :
    (canonicalItems items).length = items.length := by
  rw [canonicalItems_eq_map, List.length_map]

theorem length_canonicalMembers (members : List (String × Tree)) :
    (canonicalMembers members).length = members.length := by
  rw [canonicalMembers_eq_map, List.length_map]

theorem count_canonical (tree : Tree) : tree.canonical.count = tree.count := by
  induction tree using induction_levels with
  | level tree inductionHypothesis =>
    rw [count_eq, count_eq, children_content_canonical, List.map_map]
    exact congrArg (List.sum · + 1) (List.map_congr_left inductionHypothesis)

theorem equalItems_canonicalItems {items : List Tree}
    (same : ∀ item ∈ items, item.equal item.canonical = true) :
    equalItems items (canonicalItems items) = true := by
  induction items with
  | nil => rfl
  | cons item rest inductionHypothesis =>
    rw [canonicalItems, equalItems, same item List.mem_cons_self,
      inductionHypothesis fun item later => same item (List.mem_cons_of_mem _ later)]
    rfl

theorem equalMembers_canonicalMembers {members : List (String × Tree)}
    (same : ∀ child ∈ members.map Prod.snd, child.equal child.canonical = true) :
    equalMembers members (canonicalMembers members) = true := by
  induction members with
  | nil => rfl
  | cons member rest inductionHypothesis =>
    rw [canonicalMembers, equalMembers, same member.2 List.mem_cons_self,
      inductionHypothesis fun child later => same child (List.mem_cons_of_mem _ later)]
    simp

/-- A tree whose doubles are finite equals what is left of it. -/
theorem equal_canonical (tree : Tree)
    (finite : ∀ double ∈ tree.doubles, double.isFinite = true) :
    tree.equal tree.canonical = true := by
  induction tree using induction_levels with
  | level tree inductionHypothesis =>
    have below : ∀ child ∈ tree.content.children, child.equal child.canonical = true :=
      fun child member => inductionHypothesis child member fun double held =>
        finite double (mem_doubles_of_mem_children member held)
    cases tree with
    | null => rfl
    | bool value => exact beq_self_eq_true value
    | string value => exact beq_self_eq_true value
    | number value =>
      refine value.equal_canonical ?_
      rintro double rfl
      exact finite double (List.mem_singleton_self double)
    | array items => exact equalItems_canonicalItems below
    | object members => exact equalMembers_canonicalMembers below

end Tree

end JsonOverlay
