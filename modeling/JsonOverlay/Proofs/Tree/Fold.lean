/-
This file describes recursions over trees by what they do at one level, once the children are
done. Copying, walking, exporting and comparing are such recursions.
-/

import JsonOverlay.Proofs.Event
import JsonOverlay.Proofs.Tree
import JsonOverlay.Tree.Export
import JsonOverlay.Tree.Fold
import Mathlib.Data.List.Zip

namespace JsonOverlay

variable {α β γ δ σ ε : Type}

namespace Tree

/-! ### Recursion by levels -/

theorem foldItems_eq_map (level : Content β → β) (items : List Tree) :
    foldItems level items = items.map (fold level) := by
  induction items with
  | nil => rfl
  | cons item rest inductionHypothesis => rw [foldItems, inductionHypothesis, List.map_cons]

theorem foldMembers_eq_map (level : Content β → β) (members : List (String × Tree)) :
    foldMembers level members = members.map fun (name, child) => (name, fold level child) := by
  induction members with
  | nil => rfl
  | cons member rest inductionHypothesis =>
    obtain ⟨name, child⟩ := member
    rw [foldMembers, inductionHypothesis, List.map_cons]

theorem fold_eq (level : Content β → β) (tree : Tree) :
    tree.fold level = level (tree.content.map (fold level)) := by
  cases tree <;> simp only [fold, content, Content.map, foldItems_eq_map, foldMembers_eq_map]

/-- What satisfies the equation of a recursion is that recursion. -/
theorem eq_fold {level : Content β → β} {walk : Tree → β}
    (equation : ∀ tree, walk tree = level (tree.content.map walk)) (tree : Tree) :
    walk tree = tree.fold level := by
  induction tree using Tree.induction_levels with
  | level tree inductionHypothesis =>
    rw [equation, fold_eq, Content.map_congr inductionHypothesis]

end Tree

/-! ### Walking -/

namespace Handler

variable (handler : Handler σ ε)

/-- Carries on from one walk to the next unless something was refused. -/
def inTurn : List (σ → σ × Option ε) → σ → σ × Option ε
  | [], state => (state, none)
  | walk :: rest, state => andThen (walk state) (inTurn rest)

/-- The walk of a level, given those of its children. -/
def acceptLevel : Content (σ → σ × Option ε) → σ → σ × Option ε
  | .null => handler.receive .null
  | .bool value => handler.receive (.bool value)
  | .number value => handler.receive (Event.ofNumber value)
  | .string value => handler.receive (.string value)
  | .array walks => fun state =>
    andThen (handler.receive .startArray state) fun state =>
      andThen (inTurn walks state) (handler.receive (.endArray walks.length))
  | .object walks => fun state =>
    andThen (handler.receive .startObject state) fun state =>
      andThen (inTurn (walks.map fun (name, walk) => fun state =>
          andThen (handler.receive (.key name) state) walk) state)
        (handler.receive (.endObject walks.length))

end Handler

namespace Tree

theorem acceptItems_eq_inTurn (handler : Handler σ ε) (items : List Tree) :
    acceptItems handler items = Handler.inTurn (items.map (accept handler)) := by
  induction items with
  | nil => rfl
  | cons item rest inductionHypothesis =>
    funext state
    rw [acceptItems, inductionHypothesis, List.map_cons, Handler.inTurn]

theorem acceptMembers_eq_inTurn (handler : Handler σ ε) (members : List (String × Tree)) :
    acceptMembers handler members =
      Handler.inTurn (members.map fun (name, child) => fun state =>
        Handler.andThen (handler.receive (.key name) state) (child.accept handler)) := by
  induction members with
  | nil => rfl
  | cons member rest inductionHypothesis =>
    obtain ⟨name, child⟩ := member
    funext state
    rw [acceptMembers, inductionHypothesis, List.map_cons, Handler.inTurn, Handler.andThen_assoc]

theorem accept_eq_fold (handler : Handler σ ε) (tree : Tree) :
    tree.accept handler = tree.fold handler.acceptLevel := by
  refine eq_fold (fun tree => ?_) tree
  cases tree <;> simp only [accept, Handler.acceptLevel, content, Content.map,
    acceptItems_eq_inTurn, acceptMembers_eq_inTurn, List.length_map, List.map_map,
    Function.comp_def]

/-! ### Exporting -/

/-- The export of a level, given those of its children. -/
def exportLevel (merge : List (String × Tree) → List (String × Tree)) : Content Tree → Tree
  | .number value => (value.exported?.map number).getD null
  | .object members => object (merge members)
  | content => ofContent content

theorem exportItems_eq_map (merge : List (String × Tree) → List (String × Tree))
    (items : List Tree) : exportItems merge items = items.map (exportWith merge) := by
  induction items with
  | nil => rfl
  | cons item rest inductionHypothesis => rw [exportItems, inductionHypothesis, List.map_cons]

theorem exportMembers_eq_map (merge : List (String × Tree) → List (String × Tree))
    (members : List (String × Tree)) :
    exportMembers merge members = members.map fun (name, child) => (name, exportWith merge child) := by
  induction members with
  | nil => rfl
  | cons member rest inductionHypothesis =>
    obtain ⟨name, child⟩ := member
    rw [exportMembers, inductionHypothesis, List.map_cons]

theorem exportWith_eq_fold (merge : List (String × Tree) → List (String × Tree)) (tree : Tree) :
    tree.exportWith merge = tree.fold (exportLevel merge) := by
  refine eq_fold (fun tree => ?_) tree
  cases tree with
  | number value =>
    show exportWith merge (number value) = (value.exported?.map number).getD null
    rw [exportWith]
    cases value.exported? <;> rfl
  | array items => rw [exportWith, exportItems_eq_map]; rfl
  | object members => rw [exportWith, exportMembers_eq_map]; rfl
  | _ =>
    rw [exportWith]
    · rfl
    all_goals nofun

end Tree

/-! ### Comparing -/

/-- Whether a level passes the tests that stand in the places of its children. Numbers compare
by exact value. -/
def Content.passes : Content (α → Bool) → Content α → Bool
  | .null, .null => true
  | .bool left, .bool right => left == right
  | .number left, .number right => left.equal right
  | .string left, .string right => left == right
  | .array tests, .array items =>
    tests.length == items.length && (tests.zip items).all fun (test, item) => test item
  | .object tests, .object members =>
    tests.length == members.length &&
      (tests.zip members).all fun (test, member) => test.1 == member.1 && test.2 member.2
  | _, _ => false

theorem List.all_zip_congr {lefts : List α} {rights : List β} {first second : α × β → Bool}
    (same : ∀ left ∈ lefts, ∀ right ∈ rights, first (left, right) = second (left, right)) :
    (lefts.zip rights).all first = (lefts.zip rights).all second := by
  refine Bool.eq_iff_iff.mpr ?_
  rw [List.all_eq_true, List.all_eq_true]
  refine forall₂_congr fun pair member => ?_
  have inside := List.of_mem_zip (a := pair.1) (b := pair.2) member
  rw [same pair.1 inside.1 pair.2 inside.2]

/-- Tests on other children that come to the same. -/
theorem Content.passes_map {tests : Content γ} {content : Content δ} {first : γ → δ → Bool}
    {second : γ → α → Bool} {change : δ → α}
    (same : ∀ test ∈ tests.children, ∀ child ∈ content.children,
      first test child = second test (change child)) :
    (tests.map first).passes content = (tests.map second).passes (content.map change) := by
  cases tests <;> cases content <;> try rfl
  case array.array tests items =>
    simp only [map, passes, List.length_map, List.zip_map_left, List.zip_map_right, List.all_map]
    exact congrArg _ (List.all_zip_congr same)
  case object.object tests members =>
    simp only [map, passes, List.length_map, List.zip_map_left, List.zip_map_right, List.all_map]
    refine congrArg _ (List.all_zip_congr fun test among member present => ?_)
    exact congrArg _ (same test.2 (List.mem_map_of_mem among) member.2 (List.mem_map_of_mem present))

namespace Tree

theorem equalItems_eq_all (left right : List Tree) :
    equalItems left right = (left.length == right.length &&
      ((left.map equal).zip right).all fun (test, item) => test item) := by
  induction left generalizing right with
  | nil => cases right <;> rfl
  | cons first rest inductionHypothesis =>
    cases right with
    | nil => rfl
    | cons other others =>
      rw [equalItems, inductionHypothesis, List.map_cons, List.zip_cons_cons, List.all_cons,
        Bool.and_left_comm]
      simp only [List.length_cons, Nat.reduceBeqDiff]

theorem equalMembers_eq_all (left right : List (String × Tree)) :
    equalMembers left right = (left.length == right.length &&
      ((left.map fun (name, child) => (name, child.equal)).zip right).all
        fun (test, member) => test.1 == member.1 && test.2 member.2) := by
  induction left generalizing right with
  | nil => cases right <;> rfl
  | cons first rest inductionHypothesis =>
    cases right with
    | nil => rfl
    | cons other others =>
      rw [equalMembers, inductionHypothesis, List.map_cons, List.zip_cons_cons, List.all_cons,
        Bool.and_left_comm]
      simp only [List.length_cons, Nat.reduceBeqDiff]

/-- Two trees are equal if the second passes the test made of the children of the first. -/
theorem equal_eq_passes (left right : Tree) :
    left.equal right = (left.content.map equal).passes right.content := by
  cases left <;> cases right <;> try rfl
  case array.array left right =>
    simp only [equal, content, Content.map, Content.passes, equalItems_eq_all, List.length_map]
  case object.object left right =>
    simp only [equal, content, Content.map, Content.passes, equalMembers_eq_all, List.length_map]

end Tree

/-! ### Comparing in either order -/

theorem Double.equal_comm (left right : Double) : left.equal right = right.equal left := by
  rw [equal, equal, Bool.and_comm (!left.isNaN), Bool.beq_comm, Bool.and_comm (left.magnitude == 0)]

theorem Number.equal_comm (left right : Number) : left.equal right = right.equal left := by
  rcases left with left | left | left <;> rcases right with right | right | right
  case double.double => exact left.equal_comm right
  case int.double => rfl
  case uint.double => rfl
  case double.int => rfl
  case double.uint => rfl
  all_goals exact (Bool.beq_comm : ((_ : Option Int) == _) = (_ == _))

theorem Content.passes_comm {tests : Content γ} {content : Content δ} {test : γ → δ → Bool}
    {back : δ → γ → Bool} (same : ∀ left ∈ tests.children, ∀ right ∈ content.children,
      test left right = back right left) :
    (tests.map test).passes content = (content.map back).passes tests := by
  cases tests <;> cases content <;> try rfl
  case bool.bool => exact Bool.beq_comm
  case number.number left right => exact left.equal_comm right
  case string.string => exact Bool.beq_comm
  case array.array tests items =>
    simp only [map, passes, List.length_map, List.zip_map_left, List.all_map]
    rw [← List.zip_swap items tests, List.all_map, Bool.beq_comm]
    exact congrArg _ (List.all_zip_congr fun item present test among =>
      same test among item present)
  case object.object tests members =>
    simp only [map, passes, List.length_map, List.zip_map_left, List.all_map]
    rw [← List.zip_swap members tests, List.all_map, Bool.beq_comm]
    refine congrArg _ (List.all_zip_congr fun member present test among => ?_)
    refine congrArg₂ _ Bool.beq_comm ?_
    exact same test.2 (List.mem_map_of_mem among) member.2 (List.mem_map_of_mem present)

/-- Two trees compare in either order. -/
theorem Tree.equal_comm (left right : Tree) : left.equal right = right.equal left := by
  induction left using Tree.induction_levels generalizing right with
  | level left inductionHypothesis =>
    rw [equal_eq_passes, equal_eq_passes]
    exact Content.passes_comm fun child member other _ => inductionHypothesis child member other

end JsonOverlay
