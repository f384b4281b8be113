/-
This file says which child of a level a token of a pointer names: a member if the token is its
name, and an element if the token is the numeral of its index. Members that are known only by
their position have no token. Token by token, this gives the path in a plain tree that a
pointer stands for.
-/

import JsonOverlay.Pointer
import JsonOverlay.Proofs.Editing.Level
import JsonOverlay.Proofs.Reader.Numeral

namespace JsonOverlay

/-! ### Tokens of keys -/

/-- The token that names a key. -/
def ChildKey.token? : ChildKey → Option String
  | .member name => some name
  | .element index => some (Nat.repr index)
  | .repeated _ => none

theorem repr_injective {first second : Nat} (same : Nat.repr first = Nat.repr second) :
    first = second := by
  have digits : Nat.toDigits 10 first = Nat.toDigits 10 second := by
    rw [← Nat.toList_repr, ← Nat.toList_repr, same]
  rw [← Nat.ofDigitChars_ten_toDigits (n := first), digits, Nat.ofDigitChars_ten_toDigits]

namespace Content

variable {α β : Type} {content : Content α} {key other : ChildKey} {token : String}

/-- The key of the child that a token names. -/
def keyOf? (content : Content α) (token : String) : Option ChildKey :=
  content.keys.find? fun key => key.token? == some token

/-- The keys of one level have different tokens. -/
theorem eq_of_token?_eq (inside : key ∈ content.keys) (beside : other ∈ content.keys)
    (named : key.token? = some token) (again : other.token? = some token) : key = other := by
  cases content with
  | array items =>
    obtain ⟨index, -, rfl⟩ := List.mem_map.mp inside
    obtain ⟨twin, -, rfl⟩ := List.mem_map.mp beside
    rw [repr_injective (Option.some.inj (named.trans again.symm))]
  | object members =>
    cases key with
    | member name =>
      cases other with
      | member twin => exact congrArg ChildKey.member (Option.some.inj (named.trans again.symm))
      | element index => exact absurd beside element_notMem_memberKeysFrom
      | repeated position => cases again
    | element index => exact absurd inside element_notMem_memberKeysFrom
    | repeated position => cases named
  | _ => cases inside

theorem keyOf?_eq_some_iff :
    content.keyOf? token = some key ↔ key ∈ content.keys ∧ key.token? = some token := by
  unfold keyOf?
  constructor
  · intro found
    have named := List.find?_some found
    exact ⟨List.mem_of_find?_eq_some found, beq_iff_eq.mp named⟩
  · rintro ⟨inside, named⟩
    cases found : content.keys.find? fun key => key.token? == some token with
    | none => exact absurd (beq_iff_eq.mpr named) (List.find?_eq_none.mp found key inside)
    | some other =>
      have again := List.find?_some found
      rw [eq_of_token?_eq (List.mem_of_find?_eq_some found) inside (beq_iff_eq.mp again) named]

/-- What a token names depends on the outline of a level only. -/
theorem keyOf?_congr {level : Content β} (outline : level.outline = content.outline)
    (token : String) : level.keyOf? token = content.keyOf? token := by
  rw [keyOf?, keyOf?, keys_eq_of_outline_eq outline]

/-- A token names a child that a path may step to. -/
theorem exists_named?_of_keyOf? (found : content.keyOf? token = some key) :
    ∃ child, content.named? key = some child := by
  obtain ⟨inside, named⟩ := keyOf?_eq_some_iff.mp found
  obtain ⟨child, -, present⟩ := exists_child_of_mem_keys inside
  cases key with
  | repeated position => cases named
  | _ => exact ⟨child, present⟩

end Content

/-! ### Indices -/

theorem digitChar_sub {digit : Char} (isDigit : digit.isDigit = true) :
    digit.toNat - '0'.toNat < 10 ∧ Nat.digitChar (digit.toNat - '0'.toNat) = digit := by
  have bounds := Char.isDigit_iff_toNat.mp isDigit
  have zero : '0'.toNat = 48 := rfl
  have nine : '9'.toNat = 57 := rfl
  have small : digit.toNat - '0'.toNat < 10 := by omega
  refine ⟨small, Char.toNat_inj.mp ?_⟩
  rw [Nat.toNat_digitChar_of_lt_ten small]
  omega

/-- Digits that are read behind a number come behind its digits. -/
theorem toDigits_ofDigitChars {digits : List Char} {start : Nat} (positive : 0 < start)
    (all : ∀ digit ∈ digits, digit.isDigit = true) :
    Nat.toDigits 10 (Nat.ofDigitChars 10 digits start) = Nat.toDigits 10 start ++ digits := by
  induction digits generalizing start with
  | nil => exact (List.append_nil _).symm
  | cons digit rest inductionHypothesis =>
    obtain ⟨isDigit, others⟩ := List.forall_mem_cons.mp all
    obtain ⟨small, same⟩ := digitChar_sub isDigit
    have more : Nat.toDigits 10 (10 * start + (digit.toNat - '0'.toNat)) =
        Nat.toDigits 10 start ++ [digit] := by
      rw [← Nat.toDigits_append_toDigits (by decide) positive small, Nat.toDigits_of_lt_base small,
        same]
    rw [Nat.ofDigitChars_cons, inductionHypothesis (by omega) others, more, List.append_assoc]
    rfl

/-- The digits of a number are those that there are, if none is a zero in front of another. -/
theorem toDigits_of_digits {digits : List Char} (some : digits ≠ [])
    (all : ∀ digit ∈ digits, digit.isDigit = true)
    (plain : digits.length ≤ 1 ∨ digits.head? ≠ .some '0') :
    Nat.toDigits 10 (Nat.ofDigitChars 10 digits 0) = digits := by
  cases digits with
  | nil => exact absurd rfl some
  | cons first rest =>
    obtain ⟨isDigit, others⟩ := List.forall_mem_cons.mp all
    obtain ⟨small, same⟩ := digitChar_sub isDigit
    by_cases zero : first = '0'
    · have alone : rest = [] := by
        refine List.eq_nil_of_length_eq_zero (Nat.le_zero.mp (Nat.le_of_succ_le_succ ?_))
        exact plain.resolve_right fun other => other (congrArg Option.some zero)
      subst zero alone
      rfl
    · have positive : 0 < 10 * 0 + (first.toNat - '0'.toNat) := by
        refine Nat.pos_of_ne_zero fun none => zero ?_
        rw [← same, (Nat.zero_add _).symm.trans none]
        rfl
      rw [Nat.ofDigitChars_cons, toDigits_ofDigitChars positive others, Nat.mul_zero, Nat.zero_add,
        Nat.toDigits_of_lt_base small, same]
      rfl

/-- Numbers are written without a zero in front of another digit. -/
theorem plain_toDigits (index : Nat) :
    (Nat.toDigits 10 index).length ≤ 1 ∨ (Nat.toDigits 10 index).head? ≠ some '0' := by
  rcases Nat.eq_zero_or_pos index with rfl | positive
  · exact .inl (Nat.le_refl 1)
  · obtain ⟨first, rest, same, other⟩ := Reader.exists_toDigits_eq_cons positive
    rw [same]
    exact .inr fun zero => other (Option.some.inj zero)

namespace Pointer

variable {token : String} {size index : Nat}

theorem index?_guard (digits : List Char) :
    (digits.isEmpty || !digits.all Char.isDigit ||
        (digits.length > 1 && digits.head? == some '0')) = true ↔
      ¬(digits ≠ [] ∧ (∀ digit ∈ digits, digit.isDigit = true) ∧
        (digits.length ≤ 1 ∨ digits.head? ≠ some '0')) := by
  simp only [Bool.or_eq_true, List.isEmpty_iff, Bool.not_eq_true', Bool.and_eq_true,
    decide_eq_true_eq, beq_iff_eq, ← List.all_eq_true, not_and_or, not_not, Bool.not_eq_true,
    Nat.not_le, ne_eq, or_assoc, gt_iff_lt, not_or]

/-- An index is read from its numeral and from nothing else. -/
theorem index?_eq_some_iff :
    index? token size = some index ↔ token = Nat.repr index ∧ index < size := by
  have value : token.toList.foldl (fun value digit => value * 10 + (digit.toNat - '0'.toNat)) 0 =
      Nat.ofDigitChars 10 token.toList 0 := by
    simp only [Nat.ofDigitChars, Nat.mul_comm]
  simp only [index?, value, index?_guard, ite_not, Option.ite_none_right_eq_some,
    Option.some.injEq]
  constructor
  · rintro ⟨⟨some, all, plain⟩, fits, rfl⟩
    refine ⟨String.toList_inj.mp ?_, fits⟩
    rw [Nat.toList_repr, toDigits_of_digits some all plain]
  · rintro ⟨rfl, fits⟩
    rw [Nat.toList_repr, Nat.ofDigitChars_ten_toDigits]
    exact ⟨⟨Nat.toDigits_ne_nil, fun _ => Nat.isDigit_of_mem_toDigits (by decide) (by decide),
      plain_toDigits index⟩, fits, rfl⟩

/-- The child that a token leads to is the one that it names. -/
theorem key?_eq {α : Type} (content : Content α) (token : String) :
    key? content token = content.keyOf? token := by
  refine Option.ext fun key => ?_
  rw [Content.keyOf?_eq_some_iff]
  cases content with
  | array items =>
    simp only [key?, Option.map_eq_some_iff, index?_eq_some_iff]
    constructor
    · rintro ⟨index, ⟨rfl, fits⟩, rfl⟩
      exact ⟨element_mem_elementKeys.mpr fits, rfl⟩
    · rintro ⟨inside, named⟩
      obtain ⟨index, fits, rfl⟩ := List.mem_map.mp inside
      exact ⟨index, ⟨(Option.some.inj named).symm, List.mem_range.mp fits⟩, rfl⟩
  | object members =>
    have some? : (Content.object members).hasMember token = true ↔
        ∃ child, (Content.object members).member? token = some child := Option.isSome_iff_exists
    rw [key?, Option.ite_none_right_eq_some, some?]
    constructor
    · rintro ⟨⟨child, present⟩, same⟩
      cases same
      exact ⟨Content.mem_keys_of_member? present, rfl⟩
    · rintro ⟨inside, named⟩
      cases key with
      | member name =>
        obtain ⟨child, -, present⟩ := Content.exists_child_of_mem_keys inside
        cases named
        exact ⟨⟨child, present⟩, rfl⟩
      | element index => exact absurd inside element_notMem_memberKeysFrom
      | repeated position => cases named
  | _ => simp [key?, Content.keys]

end Pointer

/-! ### Places in a tree -/

namespace Tree

/-- The path that tokens stand for in a tree, if every one of them names a child. -/
def place? (tree : Tree) : List String → Option (List ChildKey)
  | [] => some []
  | token :: rest =>
    (tree.content.keyOf? token).bind fun key =>
      (tree.content.named? key).bind fun child => (child.place? rest).map (key :: ·)

variable {tree : Tree} {token : String} {rest : List String} {path : List ChildKey}

theorem place?_cons_eq_some (placed : tree.place? (token :: rest) = some path) :
    ∃ key child below, tree.content.keyOf? token = some key ∧
      tree.content.named? key = some child ∧ child.place? rest = some below ∧ path = key :: below := by
  obtain ⟨key, found, more⟩ := Option.bind_eq_some_iff.mp placed
  obtain ⟨child, named, most⟩ := Option.bind_eq_some_iff.mp more
  obtain ⟨below, placedBelow, rfl⟩ := Option.map_eq_some_iff.mp most
  exact ⟨key, child, below, found, named, placedBelow, rfl⟩

/-- A place in a tree has a tree. -/
theorem exists_at?_of_place? {tokens : List String} (placed : tree.place? tokens = some path) :
    ∃ found, tree.at? path = some found := by
  induction tokens generalizing tree path with
  | nil =>
    cases placed
    exact ⟨tree, rfl⟩
  | cons token rest inductionHypothesis =>
    obtain ⟨key, child, below, -, named, placedBelow, rfl⟩ := place?_cons_eq_some placed
    obtain ⟨found, reached⟩ := inductionHypothesis placedBelow
    refine ⟨found, ?_⟩
    rw [at?, named, Option.bind_some, reached]

end Tree

end JsonOverlay
