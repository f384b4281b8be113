/-
This file says what the edits of one level do to what its keys find: another child at one
key, one more child behind the others, or all members with a name gone. Keys of members
known by position move when members go, and it is shown that they move together in any two
levels with the same names.
-/

import JsonOverlay.Proofs.Content
import JsonOverlay.Proofs.Editing.Plain

namespace JsonOverlay.Content

variable {α β : Type}

/-! ### Another child -/

theorem child?_of_named? {content : Content α} {key : ChildKey} {child : α}
    (named : content.named? key = some child) : content.child? key = some child := by
  cases key with
  | repeated position => cases named
  | _ => exact named

theorem mem_keys_of_named? {content : Content α} {key : ChildKey} {child : α}
    (named : content.named? key = some child) : key ∈ content.keys := by
  cases key with
  | member name => exact mem_keys_of_member? named
  | element index => exact mem_keys_of_element? named
  | repeated position => cases named

theorem not_repeated_of_named? {content : Content α} {key : ChildKey} {child : α}
    (named : content.named? key = some child) (position : Nat) : key ≠ .repeated position := by
  rintro rfl
  cases named

theorem zipWith_replaceFirst (name : String) (child : α) (members : List (String × α))
    (position : Nat) (earlier : List String) :
    List.zipWith (fun (member : String × α) key =>
        (member.1, (if key = .member name then some child else none).getD member.2)) members
        (memberKeysFrom position earlier (members.map Prod.fst)) =
      if name ∈ earlier then members else replaceFirst name child members := by
  induction members generalizing position earlier with
  | nil => simp [replaceFirst]
  | cons member rest inductionHypothesis =>
    obtain ⟨other, old⟩ := member
    rw [List.map_cons, memberKeysFrom, List.zipWith_cons_cons, inductionHypothesis, replaceFirst]
    by_cases same : other = name
    · subst same
      by_cases seen : other ∈ earlier
      · simp [seen]
      · simp [seen]
    · have different : ¬ name = other := fun equal => same equal.symm
      by_cases seen : name ∈ earlier
      · simp only [List.mem_cons, seen, or_true, if_true]
        split <;> simp [same]
      · simp only [List.mem_cons, seen, different, or_false, if_false, same]
        split <;> simp [same]

/-- Another child at a key is one child laid over the level. -/
theorem withChild_eq_overlaid {content : Content α} {key : ChildKey} {old : α}
    (named : content.named? key = some old) (child : α) :
    content.withChild key child =
      content.overlaid fun other => if other = key then some child else none := by
  cases content with
  | object members =>
    cases key with
    | member name =>
      have replaced := zipWith_replaceFirst name child members 0 []
      rw [if_neg List.not_mem_nil] at replaced
      exact congrArg object replaced.symm
    | _ => cases named
  | array items =>
    cases key with
    | element index =>
      simp only [withChild, overlaid, array.injEq]
      refine List.ext_getElem (by simp) fun position _ _ => ?_
      by_cases same : position = index
      · subst same
        simp [elementKeys]
      · have different : ¬ index = position := fun equal => same equal.symm
        simp [elementKeys, same, different]
    | _ => cases named
  | _ => cases key <;> cases named

theorem outline_withChild {content : Content α} {key : ChildKey} {old : α}
    (named : content.named? key = some old) (child : α) :
    (content.withChild key child).outline = content.outline := by
  rw [withChild_eq_overlaid named, outline_overlaid]

theorem child?_withChild {content : Content α} {key other : ChildKey} {old : α}
    (named : content.named? key = some old) (child : α) (member : other ∈ content.keys) :
    (content.withChild key child).child? other =
      if other = key then some child else content.child? other := by
  rw [withChild_eq_overlaid named, child?_overlaid _ member]
  by_cases same : other = key
  · obtain ⟨found, -, present⟩ := exists_child_of_mem_keys member
    rw [if_pos same, if_pos same, present]
    rfl
  · rw [if_neg same, if_neg same]
    exact Option.map_id'

theorem withChild_self {content : Content α} {key : ChildKey} {child : α}
    (named : content.named? key = some child) : content.withChild key child = content := by
  refine eq_of_child?_eq (outline_withChild named child) fun other member => ?_
  rw [keys_eq_of_outline_eq (outline_withChild named child)] at member
  rw [child?_withChild named child member]
  by_cases same : other = key
  · rw [if_pos same, same, child?_of_named? named]
  · rw [if_neg same]

/-! ### Outlines -/

theorem outline_object_eq_iff {first : List (String × α)} {second : List (String × β)} :
    (object first).outline = (object second).outline ↔
      first.map Prod.fst = second.map Prod.fst := by
  simp only [outline, map, object.injEq]
  constructor
  · intro same
    have names := congrArg (List.map Prod.fst) same
    simpa [Function.comp_def] using names
  · intro same
    have pairs := congrArg (List.map fun name => (name, ())) same
    simpa [Function.comp_def] using pairs

/-! ### Fewer members -/

/-- The members with other names than one. -/
def withoutName (name : String) (members : List (String × α)) : List (String × α) :=
  members.filter fun (other, _) => other != name

theorem lookup_withoutName {name other : String} (different : other ≠ name)
    (members : List (String × α)) : (withoutName name members).lookup other = members.lookup other := by
  induction members with
  | nil => rfl
  | cons member rest inductionHypothesis =>
    obtain ⟨first, child⟩ := member
    by_cases kept : first = name
    · have dropped : withoutName name ((first, child) :: rest) = withoutName name rest :=
        List.filter_cons_of_neg (by simp [kept])
      rw [dropped, inductionHypothesis, List.lookup_cons, beq_false_of_ne (kept ▸ different)]
    · have stays : withoutName name ((first, child) :: rest) =
          (first, child) :: withoutName name rest := List.filter_cons_of_pos (by simp [kept])
      rw [stays, List.lookup_cons, List.lookup_cons, inductionHypothesis]

theorem withoutName_map (name : String) (change : α → β) (members : List (String × α)) :
    withoutName name (members.map fun (other, child) => (other, change child)) =
      (withoutName name members).map fun (other, child) => (other, change child) :=
  List.filter_map

theorem names_withoutName (name : String) (members : List (String × α)) :
    (withoutName name members).map Prod.fst =
      (members.map Prod.fst).filter fun other => other != name := by
  rw [withoutName, List.filter_map]
  rfl

/-- What is missing without a name are the members with it. -/
theorem length_sub_withoutName (name : String) (members : List (String × α)) :
    members.length - (withoutName name members).length =
      members.countP fun (other, _) => other == name := by
  have parts : members.length = _ :=
    List.length_eq_countP_add_countP fun member => member.1 == name
  have kept : (withoutName name members).length =
      members.countP fun member => decide ¬(member.1 == name) = true := by
    rw [withoutName, ← List.countP_eq_length_filter]
    exact List.countP_congr fun member _ => by simp
  show _ = members.countP fun member => member.1 == name
  omega

theorem member_mem_keys_withoutName {name other : String} {members : List (String × α)} :
    .member other ∈ (object (withoutName name members)).keys ↔
      other ≠ name ∧ .member other ∈ (object members).keys := by
  show _ ∈ memberKeys _ ↔ _ ∧ _ ∈ memberKeys _
  simp only [memberKeys, member_mem_memberKeysFrom, names_withoutName, List.mem_filter,
    bne_iff_ne, List.not_mem_nil, not_false_eq_true, true_and]
  exact and_comm

/-- Where there are no members all keys are those of elements. -/
theorem exists_eq_element_of_mem_keys {content : Content α} {key : ChildKey}
    (other : content.kind ≠ .object) (inside : key ∈ content.keys) :
    ∃ index, key = .element index := by
  cases content with
  | array items =>
    obtain ⟨index, -, same⟩ := List.mem_map.mp inside
    exact ⟨index, same.symm⟩
  | object members => exact absurd rfl other
  | _ => cases inside

/-- Two objects with the same names in which members are the same if their names came up
before. -/
def Agree (earlier : List String) : List (String × α) → List (String × α) → Prop
  | [], [] => True
  | (name, child) :: rest, (other, twin) :: others =>
    name = other ∧ (name ∈ earlier → child = twin) ∧ Agree (name :: earlier) rest others
  | _, _ => False

/-- The members whose names came up before are those known by their position. -/
theorem agree_iff (position : Nat) (earlier : List String) (first second : List (String × α)) :
    Agree earlier first second ↔ first.map Prod.fst = second.map Prod.fst ∧
      ∀ index, .repeated (position + index) ∈ memberKeysFrom position earlier (first.map Prod.fst) →
        (first[index]?).map Prod.snd = (second[index]?).map Prod.snd := by
  induction first generalizing position earlier second with
  | nil => cases second <;> simp [Agree]
  | cons member rest inductionHypothesis =>
    obtain ⟨name, child⟩ := member
    cases second with
    | nil => simp [Agree]
    | cons twin others =>
      obtain ⟨other, twin⟩ := twin
      rw [Agree, inductionHypothesis (position + 1), List.map_cons, List.map_cons, List.cons.injEq,
        memberKeysFrom]
      have later : ∀ index, position + (index + 1) = position + 1 + index := fun index => by omega
      have ahead : .repeated position ∉ memberKeysFrom (position + 1) (name :: earlier)
          (rest.map Prod.fst) := by
        intro inside
        have bounds := repeated_mem_memberKeysFrom inside
        omega
      constructor
      · rintro ⟨rfl, here, names, below⟩
        refine ⟨⟨rfl, names⟩, fun index inside => ?_⟩
        cases index with
        | zero =>
          rw [Nat.add_zero, List.mem_cons] at inside
          have head := inside.resolve_right ahead
          split at head
          · rename_i seen
            simp [here (by simpa using seen)]
          · cases head
        | succ index =>
          rw [later index, List.mem_cons] at inside
          refine below index (inside.resolve_left ?_)
          split
          · rw [ChildKey.repeated.injEq]
            omega
          · simp
      · rintro ⟨⟨rfl, names⟩, all⟩
        refine ⟨rfl, fun seen => ?_, names, fun index inside => ?_⟩
        · have zero := all 0 (by simp [seen])
          simpa using zero
        · have found := all (index + 1) (by rw [later index]; exact List.mem_cons_of_mem _ inside)
          simpa using found

/-- Removing a name from both keeps the agreement. -/
theorem Agree.withoutName {name : String} {earlier before : List String}
    {first second : List (String × α)} (agree : Agree earlier first second)
    (seen : ∀ other ≠ name, other ∈ before → other ∈ earlier) :
    Agree before (withoutName name first) (withoutName name second) := by
  induction first generalizing earlier before second with
  | nil =>
    cases second with
    | nil => trivial
    | cons => cases agree
  | cons member rest inductionHypothesis =>
    obtain ⟨here, child⟩ := member
    cases second with
    | nil => cases agree
    | cons twin others =>
      obtain ⟨other, twin⟩ := twin
      obtain ⟨rfl, same, below⟩ := agree
      by_cases gone : here = name
      · have dropped : ∀ (value : α) (more : List (String × α)),
            Content.withoutName name ((here, value) :: more) = Content.withoutName name more :=
          fun value more => List.filter_cons_of_neg (by simp [gone])
        rw [dropped, dropped]
        exact inductionHypothesis below fun other different inside =>
          List.mem_cons_of_mem _ (seen other different inside)
      · have stays : ∀ (value : α) (more : List (String × α)),
            Content.withoutName name ((here, value) :: more) =
              (here, value) :: Content.withoutName name more :=
          fun value more => List.filter_cons_of_pos (by simp [gone])
        rw [stays, stays]
        refine ⟨rfl, fun inside => same (seen here gone inside), ?_⟩
        refine inductionHypothesis below fun other different inside => ?_
        rcases List.mem_cons.mp inside with rfl | old
        · exact List.mem_cons_self
        · exact List.mem_cons_of_mem _ (seen other different old)

/-- Where two objects with the same names have the same members by position, they have so
after a name is removed from both. -/
theorem child?_withoutName_of_agree {first second : List (String × α)} {name : String}
    (names : first.map Prod.fst = second.map Prod.fst)
    (same : ∀ position, .repeated position ∈ (object first).keys →
      (object first).child? (.repeated position) = (object second).child? (.repeated position))
    {position : Nat} (inside : .repeated position ∈ (object (withoutName name first)).keys) :
    (object (withoutName name first)).child? (.repeated position) =
      (object (withoutName name second)).child? (.repeated position) := by
  have agree : Agree [] first second := by
    refine (agree_iff 0 [] first second).mpr ⟨names, fun index member => ?_⟩
    rw [Nat.zero_add] at member
    exact same index member
  have after : Agree [] (withoutName name first) (withoutName name second) :=
    agree.withoutName fun other _ absurd => by cases absurd
  exact ((agree_iff 0 [] _ _).mp after).2 position (by rw [Nat.zero_add]; exact inside)

end JsonOverlay.Content
