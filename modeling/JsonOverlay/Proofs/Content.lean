/-
This file shows that the keys of one level of a document name its children one by one: the
children in order are what the keys find in order. Two levels with the same outline are
therefore equal as soon as every key finds the same child in both, which is how laying
some children over others is compared with changing a plain tree.
-/

import JsonOverlay.Children
import Mathlib.Data.List.Basic

namespace JsonOverlay

/-- Changing what a list has for its keys. -/
theorem lookup_map_snd {κ α β : Type} [BEq κ] [LawfulBEq κ] (change : κ → α → β)
    (entries : List (κ × α)) (key : κ) :
    (entries.map fun (other, entry) => (other, change other entry)).lookup key =
      (entries.lookup key).map (change key) := by
  induction entries with
  | nil => rfl
  | cons first rest inductionHypothesis =>
    rw [List.map_cons, List.lookup_cons, List.lookup_cons, inductionHypothesis]
    split
    · rename_i same
      rw [eq_of_beq same]
      rfl
    · rfl

theorem lookup_eq_none_iff_notMem {κ α : Type} [BEq κ] [LawfulBEq κ] {entries : List (κ × α)}
    {key : κ} : entries.lookup key = none ↔ key ∉ entries.map Prod.fst := by
  simp only [List.lookup_eq_none_iff, bne_iff_ne, List.mem_map, not_exists, not_and, ne_comm]

/-- Keeping some of the keys of a list. -/
theorem lookup_filter_fst {κ α : Type} [BEq κ] [LawfulBEq κ] (keep : κ → Bool)
    (entries : List (κ × α)) (key : κ) :
    (entries.filter fun member => keep member.1).lookup key =
      if keep key then entries.lookup key else none := by
  induction entries with
  | nil => exact (ite_self _).symm
  | cons first rest inductionHypothesis =>
    obtain ⟨other, entry⟩ := first
    rw [List.filter_cons]
    by_cases same : key = other
    · subst same
      by_cases kept : keep key = true
      · rw [if_pos kept, if_pos kept, List.lookup_cons_self, List.lookup_cons_self]
      · rw [if_neg kept, inductionHypothesis, if_neg kept, if_neg kept]
    · rw [List.lookup_cons, beq_false_of_ne same, ← inductionHypothesis]
      by_cases kept : keep other = true
      · rw [if_pos kept, List.lookup_cons, beq_false_of_ne same]
      · rw [if_neg kept]

/-! ### Keys of members -/

theorem memberKeysFrom_append (position : Nat) (earlier names : List String) (name : String) :
    memberKeysFrom position earlier (names ++ [name]) =
      memberKeysFrom position earlier names ++
        [if name ∈ earlier ∨ name ∈ names then .repeated (position + names.length)
          else .member name] := by
  induction names generalizing position earlier with
  | nil => simp [memberKeysFrom]
  | cons first rest inductionHypothesis =>
    have position' : position + 1 + rest.length = position + (rest.length + 1) := by omega
    simp only [List.cons_append, memberKeysFrom, inductionHypothesis, List.length_cons, position',
      List.mem_cons]
    simp only [List.append_cancel_left_eq, List.cons.injEq, and_true]
    grind

/-- A member that is appended is known by its name if that is new, else by its position. -/
theorem memberKeys_append (names : List String) (name : String) :
    memberKeys (names ++ [name]) =
      memberKeys names ++ [if name ∈ names then .repeated names.length else .member name] := by
  simp [memberKeys, memberKeysFrom_append]

theorem member_mem_memberKeysFrom {position : Nat} {earlier names : List String} {name : String} :
    .member name ∈ memberKeysFrom position earlier names ↔ name ∉ earlier ∧ name ∈ names := by
  induction names generalizing position earlier with
  | nil => simp [memberKeysFrom]
  | cons first rest inductionHypothesis =>
    rw [memberKeysFrom, List.mem_cons, inductionHypothesis]
    grind

/-- Every name that occurs is a key. -/
theorem member_mem_memberKeys {names : List String} {name : String} :
    .member name ∈ memberKeys names ↔ name ∈ names := by
  simp [memberKeys, member_mem_memberKeysFrom]

theorem repeated_mem_memberKeysFrom {position index : Nat} {earlier names : List String}
    (member : .repeated index ∈ memberKeysFrom position earlier names) :
    position ≤ index ∧ index < position + names.length := by
  induction names generalizing position earlier with
  | nil => simp [memberKeysFrom] at member
  | cons first rest inductionHypothesis =>
    rw [memberKeysFrom, List.mem_cons] at member
    rcases member with head | tail
    · split at head <;> cases head
      simp
    · have bounds := inductionHypothesis tail
      simp only [List.length_cons]
      omega

theorem element_notMem_memberKeysFrom {position index : Nat} {earlier names : List String} :
    .element index ∉ memberKeysFrom position earlier names := by
  induction names generalizing position earlier with
  | nil => simp [memberKeysFrom]
  | cons first rest inductionHypothesis =>
    rw [memberKeysFrom, List.mem_cons, not_or]
    refine ⟨?_, inductionHypothesis⟩
    split <;> simp

theorem element_mem_elementKeys {size index : Nat} :
    .element index ∈ elementKeys size ↔ index < size := by
  simp [elementKeys]

theorem elementKeys_succ (size : Nat) :
    elementKeys (size + 1) = elementKeys size ++ [.element size] := by
  simp [elementKeys, List.range_succ]

namespace Content

variable {α β γ : Type}

/-! ### Changing every child -/

@[simp]
theorem map_map (first : α → β) (second : β → γ) (content : Content α) :
    (content.map first).map second = content.map (second ∘ first) := by
  cases content <;> simp [map]

@[simp]
theorem map_id (content : Content α) : (content.map fun child => child) = content := by
  cases content <;> simp [map]

@[simp]
theorem map_ofLeaf (change : α → β) (content : Content Empty) :
    (content.ofLeaf : Content α).map change = content.ofLeaf := by
  rw [ofLeaf, map_map]
  exact congrArg content.map (funext fun child => child.elim)

theorem map_congr {first second : α → β} {content : Content α}
    (same : ∀ child ∈ content.children, first child = second child) :
    content.map first = content.map second := by
  cases content with
  | array items => simpa [map, children] using same
  | object members =>
    simp only [map, object.injEq, List.map_inj_left, Prod.forall, Prod.mk.injEq, true_and]
    exact fun name child member => same child (List.mem_map.mpr ⟨_, member, rfl⟩)
  | _ => rfl

@[simp]
theorem keys_map (change : α → β) (content : Content α) :
    (content.map change).keys = content.keys := by
  cases content <;> simp [map, keys, Function.comp_def]

@[simp]
theorem size_map (change : α → β) (content : Content α) :
    (content.map change).size = content.size := by
  cases content <;> simp [map, size]

@[simp]
theorem memberNames_map (change : α → β) (content : Content α) :
    (content.map change).memberNames = content.memberNames := by
  cases content <;> simp [map, memberNames]

@[simp]
theorem child?_map (change : α → β) (content : Content α) (key : ChildKey) :
    (content.map change).child? key = (content.child? key).map change := by
  cases key <;> cases content <;>
    simp [child?, map, member?, memberAt?, element?, lookup_map_snd fun _ : String => change, Function.comp_def]

theorem element?_map (change : α → β) (content : Content α) (index : Nat) :
    (content.map change).element? index = (content.element? index).map change :=
  child?_map change content (.element index)

theorem member?_map (change : α → β) (content : Content α) (name : String) :
    (content.map change).member? name = (content.member? name).map change :=
  child?_map change content (.member name)

/-! ### Keys and children -/

theorem lookup_append_cons {before after : List (String × α)} {name : String} {child : α}
    (new : name ∉ before.map Prod.fst) :
    (before ++ (name, child) :: after).lookup name = some child := by
  induction before with
  | nil => simp
  | cons member rest inductionHypothesis =>
    simp only [List.map_cons, List.mem_cons, not_or] at new
    rw [List.cons_append, List.lookup_cons, beq_false_of_ne new.1]
    exact inductionHypothesis new.2

theorem map_child?_memberKeysFrom (before after : List (String × α)) (earlier : List String)
    (names : ∀ name, name ∈ earlier ↔ name ∈ before.map Prod.fst) :
    (memberKeysFrom before.length earlier (after.map Prod.fst)).map
        (object (before ++ after)).child? = after.map (some ∘ Prod.snd) := by
  induction after generalizing before earlier with
  | nil => rfl
  | cons member rest inductionHypothesis =>
    obtain ⟨name, child⟩ := member
    rw [List.map_cons, memberKeysFrom, List.map_cons, List.map_cons]
    congr 1
    · split
      · simp [child?, memberAt?]
      · rename_i new
        simp only [List.contains_iff_mem, names] at new
        exact lookup_append_cons new
    · have later := inductionHypothesis (before ++ [(name, child)]) (name :: earlier)
        (fun other => by simp [names other, or_comm])
      simpa using later

/-- The keys find the children in order. -/
theorem map_child?_keys (content : Content α) :
    content.keys.map content.child? = content.children.map some := by
  cases content with
  | array items =>
    simp only [keys, elementKeys, List.map_map, children]
    refine List.ext_getElem (by simp) fun index bound _ => ?_
    simp only [List.length_map, List.length_range] at bound
    simp [child?, element?, bound]
  | object members =>
    simpa [keys, memberKeys, children] using map_child?_memberKeysFrom [] members [] (by simp)
  | _ => rfl

/-- A key of a level finds one of its children. -/
theorem exists_child_of_mem_keys {content : Content α} {key : ChildKey}
    (member : key ∈ content.keys) : ∃ child ∈ content.children, content.child? key = some child := by
  have found : content.child? key ∈ content.children.map some := by
    rw [← map_child?_keys]
    exact List.mem_map_of_mem member
  obtain ⟨child, present, equal⟩ := List.mem_map.mp found
  exact ⟨child, present, equal.symm⟩

/-- What the key at a position finds is the child at that position. -/
theorem getElem?_children {content : Content α} {position : Nat} {key : ChildKey}
    (atKey : content.keys[position]? = some key) :
    content.children[position]? = content.child? key := by
  have both := congrArg (fun list : List (Option α) => list[position]?) (map_child?_keys content)
  simp only [List.getElem?_map, atKey, Option.map_some] at both
  cases atChild : content.children[position]? with
  | none => simp [atChild] at both
  | some child =>
    rw [atChild, Option.map_some, Option.some.injEq] at both
    exact both.symm

/-- A key and the child that it finds are at the same position. -/
theorem exists_position_of_mem_keys {content : Content α} {key : ChildKey} {child : α}
    (member : key ∈ content.keys) (found : content.child? key = some child) :
    ∃ position : Nat, content.keys[position]? = some key ∧
      content.children[position]? = some child := by
  obtain ⟨position, atKey⟩ := List.getElem?_of_mem member
  exact ⟨position, atKey, (getElem?_children atKey).trans found⟩

theorem mem_children_of_lookup {members : List (String × α)} {name : String} {child : α}
    (found : members.lookup name = some child) : child ∈ members.map Prod.snd := by
  induction members with
  | nil => simp at found
  | cons member rest inductionHypothesis =>
    rw [List.lookup_cons] at found
    split at found
    · simp_all
    · exact List.mem_cons_of_mem _ (inductionHypothesis found)

/-- Whatever a key finds is a child. -/
theorem mem_children_of_child? {content : Content α} {key : ChildKey} {child : α}
    (found : content.child? key = some child) : child ∈ content.children := by
  cases content with
  | array items =>
    cases key <;> simp only [child?, member?, memberAt?, element?, reduceCtorEq] at found
    exact List.mem_of_getElem? found
  | object members =>
    cases key <;> simp only [child?, member?, memberAt?, element?, reduceCtorEq] at found
    · exact mem_children_of_lookup found
    · obtain ⟨member, present, rfl⟩ := Option.map_eq_some_iff.mp found
      exact List.mem_map_of_mem (List.mem_of_getElem? present)
  | _ => cases key <;> simp [child?, member?, memberAt?, element?] at found

theorem mem_children_of_element? {content : Content α} {index : Nat} {child : α}
    (found : content.element? index = some child) : child ∈ content.children :=
  mem_children_of_child? (show content.child? (.element index) = some child from found)

theorem mem_children_of_member? {content : Content α} {name : String} {child : α}
    (found : content.member? name = some child) : child ∈ content.children :=
  mem_children_of_child? (show content.child? (.member name) = some child from found)

theorem element?_eq_none_iff {content : Content α} {index : Nat} :
    content.element? index = none ↔ content.size ≤ index := by
  cases content with
  | array items => exact List.getElem?_eq_none_iff
  | _ => exact iff_of_true rfl (Nat.zero_le index)

theorem member?_eq_none_iff {content : Content α} {name : String} :
    content.member? name = none ↔ name ∉ content.memberNames := by
  cases content with
  | object members => exact lookup_eq_none_iff_notMem
  | _ => exact iff_of_true rfl List.not_mem_nil

theorem mem_keys_of_member? {content : Content α} {name : String} {child : α}
    (found : content.member? name = some child) : .member name ∈ content.keys := by
  cases content with
  | object members =>
    refine member_mem_memberKeys.mpr ?_
    by_contra absent
    have nothing : members.lookup name = none := lookup_eq_none_iff_notMem.mpr absent
    rw [member?, nothing] at found
    cases found
  | _ => cases found

theorem mem_keys_of_element? {content : Content α} {index : Nat} {child : α}
    (found : content.element? index = some child) : .element index ∈ content.keys := by
  cases content with
  | array items => exact element_mem_elementKeys.mpr (List.getElem?_eq_some_iff.mp found).1
  | _ => cases found

/-- Every child is found by a key. -/
theorem exists_key_of_mem_children {content : Content α} {child : α}
    (member : child ∈ content.children) : ∃ key ∈ content.keys, content.child? key = some child := by
  have found : some child ∈ content.keys.map content.child? := by
    rw [map_child?_keys]
    exact List.mem_map_of_mem member
  obtain ⟨key, present, equal⟩ := List.mem_map.mp found
  exact ⟨key, present, equal⟩

/-! ### The outline of a level -/

/-- A level without its children: the type, the scalar, the names and the size. -/
def outline (content : Content α) : Content Unit := content.map fun _ => ()

@[simp]
theorem outline_map (change : α → β) (content : Content α) :
    (content.map change).outline = content.outline := by
  simp [outline, Function.comp_def]

theorem keys_eq_of_outline_eq {first : Content α} {second : Content β}
    (same : first.outline = second.outline) : first.keys = second.keys := by
  have keys := congrArg Content.keys same
  simpa [outline] using keys

theorem kind_eq_of_outline_eq {first : Content α} {second : Content β}
    (same : first.outline = second.outline) : first.kind = second.kind := by
  have kinds := congrArg Content.kind same
  simpa [outline] using kinds

theorem size_eq_of_outline_eq {first : Content α} {second : Content β}
    (same : first.outline = second.outline) : first.size = second.size := by
  have sizes := congrArg size same
  simpa [outline] using sizes

theorem memberNames_eq_of_outline_eq {first : Content α} {second : Content β}
    (same : first.outline = second.outline) : first.memberNames = second.memberNames := by
  have names := congrArg memberNames same
  simpa [outline] using names

/-- Two levels with one outline and the same children are the same. -/
theorem eq_of_children_eq {first second : Content α} (same : first.outline = second.outline)
    (children : first.children = second.children) : first = second := by
  cases first <;> cases second <;> simp [outline, map] at same <;>
    simp_all [Content.children]
  rename_i left right
  have names : left.map Prod.fst = right.map Prod.fst := by
    have pairs := congrArg (List.map Prod.fst) same
    simpa [Function.comp_def] using pairs
  rw [← List.zip_unzip left, ← List.zip_unzip right]
  simp [List.unzip_eq_map, names, children]

/-- Two levels with one outline are the same if every key finds the same child in both. -/
theorem eq_of_child?_eq {first second : Content α} (same : first.outline = second.outline)
    (found : ∀ key ∈ first.keys, first.child? key = second.child? key) : first = second := by
  refine eq_of_children_eq same (List.map_injective_iff.mpr (fun _ _ => Option.some.inj) ?_)
  rw [← map_child?_keys, ← map_child?_keys, ← keys_eq_of_outline_eq same]
  exact List.map_congr_left found

/-! ### Laying children over others -/

@[simp]
theorem outline_overlaid (replacement? : ChildKey → Option α) (content : Content α) :
    (content.overlaid replacement?).outline = content.outline := by
  cases content with
  | array items =>
    simp only [overlaid, outline, map, array.injEq]
    refine List.ext_getElem (by simp) fun index _ _ => by simp
  | object members =>
    simp only [overlaid, outline, map, object.injEq]
    refine List.ext_getElem (by simp) fun index _ _ => by simp
  | _ => rfl

@[simp]
theorem keys_overlaid (replacement? : ChildKey → Option α) (content : Content α) :
    (content.overlaid replacement?).keys = content.keys :=
  keys_eq_of_outline_eq (outline_overlaid replacement? content)

theorem children_overlaid (replacement? : ChildKey → Option α) (content : Content α) :
    (content.overlaid replacement?).children =
      List.zipWith (fun child key => (replacement? key).getD child) content.children
        content.keys := by
  cases content with
  | object members =>
    simp only [overlaid, children, keys]
    refine List.ext_getElem (by simp) fun index _ _ => by simp
  | array items => rfl
  | _ => rfl

theorem map_some_zipWith (find? : ChildKey → Option α) (change : ChildKey → α → α)
    (keys : List ChildKey) (children : List α) (found : keys.map find? = children.map some) :
    (List.zipWith (fun child key => change key child) children keys).map some =
      keys.map fun key => (find? key).map (change key) := by
  induction keys generalizing children with
  | nil => simp
  | cons key rest inductionHypothesis =>
    cases children with
    | nil => simp at found
    | cons child children =>
      simp only [List.map_cons, List.cons.injEq] at found
      simp [inductionHypothesis children found.2, found.1]

/-- A key of the level finds the replacement if there is one. -/
theorem child?_overlaid (replacement? : ChildKey → Option α) {content : Content α}
    {key : ChildKey} (member : key ∈ content.keys) :
    (content.overlaid replacement?).child? key =
      (content.child? key).map fun child => (replacement? key).getD child := by
  have all : content.keys.map (content.overlaid replacement?).child? =
      content.keys.map fun key => (content.child? key).map fun child =>
        (replacement? key).getD child := by
    rw [← map_some_zipWith content.child? (fun key child => (replacement? key).getD child) _ _
      (map_child?_keys content), ← children_overlaid, ← map_child?_keys, keys_overlaid]
  exact List.map_inj_left.mp all key member

/-- Only the replacements at the keys of the level count. -/
theorem overlaid_congr {first second : ChildKey → Option α} {content : Content α}
    (same : ∀ key ∈ content.keys, first key = second key) :
    content.overlaid first = content.overlaid second := by
  refine eq_of_child?_eq (by simp) fun key member => ?_
  rw [keys_overlaid] at member
  rw [child?_overlaid _ member, child?_overlaid _ member, same key member]

/-- Laying nothing over a level leaves it as it is. -/
theorem overlaid_of_none {replacement? : ChildKey → Option α} {content : Content α}
    (absent : ∀ key ∈ content.keys, replacement? key = none) :
    content.overlaid replacement? = content := by
  refine eq_of_child?_eq (by simp) fun key member => ?_
  rw [keys_overlaid] at member
  rw [child?_overlaid _ member, absent key member]
  simp

/-- Changing every child after laying some over others, or before. -/
theorem map_overlaid (change : α → β) (replacement? : ChildKey → Option α) (content : Content α) :
    (content.overlaid replacement?).map change =
      (content.map change).overlaid fun key => (replacement? key).map change := by
  refine eq_of_child?_eq (by simp) fun key member => ?_
  rw [keys_map, keys_overlaid] at member
  rw [child?_map, child?_overlaid _ member, child?_overlaid _ (by simpa using member), child?_map,
    Option.map_map, Option.map_map]
  refine congrArg (fun change => Option.map change (content.child? key)) (funext fun child => ?_)
  cases replacement? key <;> rfl

end Content

end JsonOverlay
