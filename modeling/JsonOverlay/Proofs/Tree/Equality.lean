/-
This file says when two trees are the same, apart from how trees are compared: they have the same
shape, with the same scalars at the same places, numbers being the same if their exact values are.
Comparing trees decides that. It is an equivalence on the trees without a double that is not a
number.
-/

import JsonOverlay.Proofs.Number.Equality
import JsonOverlay.Proofs.Tree.Canonical
import JsonOverlay.Proofs.Tree.Fold

namespace JsonOverlay

namespace Tree

/-- Two trees are the same: scalars of one kind have one value, arrays have one length and the same
elements one by one, and objects have the same names in the same order with the same values. -/
inductive Same : Tree → Tree → Prop where
  | null : Same null null
  | bool (value : Bool) : Same (bool value) (bool value)
  | number {left right : Number} (same : left.Same right) : Same (number left) (number right)
  | string (text : String) : Same (string text) (string text)
  | array {left right : List Tree} (size : left.length = right.length)
      (items : ∀ (index : Nat) (item twin : Tree), left[index]? = some item →
        right[index]? = some twin → Same item twin) :
      Same (array left) (array right)
  | object {left right : List (String × Tree)} (names : left.map Prod.fst = right.map Prod.fst)
      (children : ∀ (position : Nat) (member twin : String × Tree), left[position]? = some member →
        right[position]? = some twin → Same member.2 twin.2) :
      Same (object left) (object right)

variable {tree other third : Tree}

/-! ### Children one by one -/

section Pairs

variable {α β : Type} {relation : α → β → Prop}

/-- What holds of the children of two lists one by one holds of the first ones and of the others. -/
theorem forall_getElem?_cons {first : α} {twin : β} {rest : List α} {others : List β} :
    (∀ (index : Nat) (left : α) (right : β), (first :: rest)[index]? = some left →
      (twin :: others)[index]? = some right → relation left right) ↔
    relation first twin ∧ ∀ (index : Nat) (left : α) (right : β), rest[index]? = some left →
      others[index]? = some right → relation left right := by
  constructor
  · intro every
    exact ⟨every 0 first twin rfl rfl, fun index => every (index + 1)⟩
  · rintro ⟨here, later⟩ (_ | index) left right found same
    · cases found
      cases same
      exact here
    · exact later index left right found same

end Pairs

theorem equalItems_iff {left right : List Tree} : equalItems left right = true ↔
    left.length = right.length ∧ ∀ (index : Nat) (item twin : Tree), left[index]? = some item →
      right[index]? = some twin → item.equal twin = true := by
  induction left generalizing right with
  | nil => cases right <;> simp [equalItems]
  | cons first rest inductionHypothesis =>
    cases right with
    | nil => simp [equalItems]
    | cons twin others =>
      rw [equalItems, Bool.and_eq_true, inductionHypothesis, List.length_cons, List.length_cons,
        Nat.succ_inj, forall_getElem?_cons]
      exact and_left_comm

theorem equalMembers_iff {left right : List (String × Tree)} : equalMembers left right = true ↔
    left.map Prod.fst = right.map Prod.fst ∧ ∀ (position : Nat) (member twin : String × Tree),
      left[position]? = some member → right[position]? = some twin →
        member.2.equal twin.2 = true := by
  induction left generalizing right with
  | nil => cases right <;> simp [equalMembers]
  | cons first rest inductionHypothesis =>
    cases right with
    | nil => simp [equalMembers]
    | cons twin others =>
      rw [equalMembers, Bool.and_eq_true, Bool.and_eq_true, beq_iff_eq, inductionHypothesis,
        List.map_cons, List.map_cons, List.cons.injEq, forall_getElem?_cons]
      exact and_and_and_comm

/-! ### Comparing -/

theorem same_array_iff {left right : List Tree} : (array left).Same (array right) ↔
    left.length = right.length ∧ ∀ (index : Nat) (item twin : Tree), left[index]? = some item →
      right[index]? = some twin → item.Same twin := by
  constructor
  · intro same
    cases same with
    | array size items => exact ⟨size, items⟩
  · rintro ⟨size, items⟩
    exact .array size items

theorem same_object_iff {left right : List (String × Tree)} : (object left).Same (object right) ↔
    left.map Prod.fst = right.map Prod.fst ∧ ∀ (position : Nat) (member twin : String × Tree),
      left[position]? = some member → right[position]? = some twin → member.2.Same twin.2 := by
  constructor
  · intro same
    cases same with
    | object names children => exact ⟨names, children⟩
  · rintro ⟨names, children⟩
    exact .object names children

/-- Two trees are equal if they are the same. -/
theorem equal_iff_same : tree.equal other = true ↔ tree.Same other := by
  induction tree using induction_levels generalizing other with
  | level tree inductionHypothesis =>
    cases tree <;> cases other <;> try exact iff_of_false Bool.false_ne_true (by rintro ⟨⟩)
    case null.null => exact iff_of_true rfl .null
    case bool.bool value twin =>
      rw [equal, beq_iff_eq]
      constructor
      · rintro rfl
        exact .bool value
      · rintro ⟨⟩
        rfl
    case number.number value twin =>
      rw [equal, Number.equal_iff_same]
      constructor
      · exact .number
      · intro same
        cases same with
        | number same => exact same
    case string.string text twin =>
      rw [equal, beq_iff_eq]
      constructor
      · rintro rfl
        exact .string text
      · rintro ⟨⟩
        rfl
    case array.array items twins =>
      rw [equal, equalItems_iff, same_array_iff]
      exact and_congr_right fun _ => forall_congr' fun index => forall₂_congr fun item twin =>
        forall₂_congr fun found _ => inductionHypothesis item (List.mem_of_getElem? found)
    case object.object members twins =>
      rw [equal, equalMembers_iff, same_object_iff]
      exact and_congr_right fun _ => forall_congr' fun position => forall₂_congr fun member twin =>
        forall₂_congr fun found _ => inductionHypothesis member.2
          (List.mem_map_of_mem (List.mem_of_getElem? found))

/-! ### Transitivity, and reflexivity without NaN -/

/-- Children that have a counterpart on the other side have it at their index. -/
theorem exists_getElem?_of_length_eq {α β : Type} {left : List α} {right : List β}
    (size : left.length = right.length) {index : Nat} {item : α} (found : left[index]? = some item) :
    ∃ twin, right[index]? = some twin := by
  obtain ⟨inside, -⟩ := List.getElem?_eq_some_iff.mp found
  exact ⟨_, List.getElem?_eq_getElem (size ▸ inside)⟩

theorem Same.trans (first : tree.Same other) (second : other.Same third) : tree.Same third := by
  induction first generalizing third with
  | null => exact second
  | bool value => exact second
  | string text => exact second
  | number same =>
    cases second with
    | number others => exact .number (same.trans others)
  | array size items inductionHypothesis =>
    cases second with
    | array otherSize others =>
      refine .array (size.trans otherSize) fun index item last found there => ?_
      obtain ⟨twin, between⟩ := exists_getElem?_of_length_eq size found
      exact inductionHypothesis index item twin found between (others index twin last between there)
  | object names children inductionHypothesis =>
    cases second with
    | object otherNames others =>
      refine .object (names.trans otherNames) fun position member last found there => ?_
      have size := congrArg List.length names
      rw [List.length_map, List.length_map] at size
      obtain ⟨twin, between⟩ := exists_getElem?_of_length_eq size found
      exact inductionHypothesis position member twin found between
        (others position twin last between there)

/-- A tree is the same as itself if every double in it is a number. -/
theorem Same.refl (tree : Tree) (numbers : ∀ double ∈ tree.doubles, double.isNaN = false) :
    tree.Same tree := by
  induction tree using induction_levels with
  | level tree inductionHypothesis =>
    have below : ∀ child ∈ tree.content.children, child.Same child := fun child member =>
      inductionHypothesis child member fun double held =>
        numbers double (mem_doubles_of_mem_children member held)
    cases tree with
    | null => exact .null
    | bool value => exact .bool value
    | string text => exact .string text
    | number value =>
      refine .number (Number.Same.refl value ?_)
      rintro double rfl
      exact numbers double (List.mem_singleton_self double)
    | array items =>
      refine .array rfl fun index item twin found same => ?_
      obtain rfl : item = twin := Option.some.inj (found.symm.trans same)
      exact below item (List.mem_of_getElem? found)
    | object members =>
      refine .object rfl fun position member twin found same => ?_
      obtain rfl : member = twin := Option.some.inj (found.symm.trans same)
      exact below member.2 (List.mem_map_of_mem (List.mem_of_getElem? found))

end Tree

end JsonOverlay
