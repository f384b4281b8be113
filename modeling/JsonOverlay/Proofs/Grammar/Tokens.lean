/-
This file compares derivations with and without trailing commas. Without them every tree is
derived by one sequence of tokens. A comma that stands behind something else than a comma or
an opening bracket and in front of a closing bracket is one that only a trailing comma can
be, wherever it stands: dropping all such commas from any sequence leaves the tokens of a tree
exactly if the sequence derives that tree with trailing commas.
-/

import JsonOverlay.Proofs.Grammar

namespace JsonOverlay

open Grammar

namespace Tree

/-! ### The tokens of a tree -/

mutual

/-- The tokens of a tree, without any that could be left out. -/
def tokens : Tree → List Token
  | null => [.null]
  | bool value => [.bool value]
  | number value => [.number value]
  | string value => [.string value]
  | array [] => [.openArray, .closeArray]
  | array (item :: rest) => .openArray :: (item.tokens ++ (laterItems rest ++ [.closeArray]))
  | object [] => [.openObject, .closeObject]
  | object ((name, child) :: rest) =>
    .openObject :: .string name :: .colon ::
      (child.tokens ++ (laterMembers rest ++ [.closeObject]))

/-- The tokens of the elements of an array after the first. -/
def laterItems : List Tree → List Token
  | [] => []
  | item :: rest => .comma :: (item.tokens ++ laterItems rest)

/-- The tokens of the members of an object after the first. -/
def laterMembers : List (String × Tree) → List Token
  | [] => []
  | (name, child) :: rest =>
    .comma :: .string name :: .colon :: (child.tokens ++ laterMembers rest)

end

end Tree

namespace Grammar

variable {trailingCommas : Bool} {token : Token} {tokens rest out : List Token} {tree : Tree}

mutual

theorem derives_tokens (trailingCommas : Bool) : ∀ tree : Tree,
    Derives trailingCommas tree.tokens tree
  | .null => .null
  | .bool value => .bool value
  | .number value => .number value
  | .string value => .string value
  | .array [] => .emptyArray
  | .array (item :: rest) =>
    .array (derives_tokens trailingCommas item) (derives_laterItems trailingCommas rest) .nothing
  | .object [] => .emptyObject
  | .object ((_, child) :: rest) =>
    .object (derives_tokens trailingCommas child) (derives_laterMembers trailingCommas rest)
      .nothing

theorem derives_laterItems (trailingCommas : Bool) : ∀ items : List Tree,
    DerivesItems trailingCommas (Tree.laterItems items) items
  | [] => .nil
  | item :: rest =>
    .cons (derives_tokens trailingCommas item) (derives_laterItems trailingCommas rest)

theorem derives_laterMembers (trailingCommas : Bool) : ∀ members : List (String × Tree),
    DerivesMembers trailingCommas (Tree.laterMembers members) members
  | [] => .nil
  | (_, child) :: rest =>
    .cons (derives_tokens trailingCommas child) (derives_laterMembers trailingCommas rest)

end

theorem Trailing.eq_nil (trailing : Trailing false tokens) : tokens = [] := by
  cases trailing with
  | nothing => rfl
  | comma allowed => cases allowed

mutual

theorem eq_tokens_of_derives : ∀ {tokens : List Token} {tree : Tree},
    Derives false tokens tree → tokens = tree.tokens
  | _, _, .null => rfl
  | _, _, .bool _ => rfl
  | _, _, .number _ => rfl
  | _, _, .string _ => rfl
  | _, _, .emptyArray => rfl
  | _, _, .array first others trailing => by
    rw [eq_tokens_of_derives first, eq_laterItems_of_derives others, trailing.eq_nil]
    rfl
  | _, _, .emptyObject => rfl
  | _, _, .object first others trailing => by
    rw [eq_tokens_of_derives first, eq_laterMembers_of_derives others, trailing.eq_nil]
    rfl

theorem eq_laterItems_of_derives : ∀ {tokens : List Token} {items : List Tree},
    DerivesItems false tokens items → tokens = Tree.laterItems items
  | _, _, .nil => rfl
  | _, _, .cons first others => by
    rw [eq_tokens_of_derives first, eq_laterItems_of_derives others]
    rfl

theorem eq_laterMembers_of_derives : ∀ {tokens : List Token} {members : List (String × Tree)},
    DerivesMembers false tokens members → tokens = Tree.laterMembers members
  | _, _, .nil => rfl
  | _, _, .cons first others => by
    rw [eq_tokens_of_derives first, eq_laterMembers_of_derives others]
    rfl

end

/-- Without trailing commas a tree is derived by its own tokens only. -/
theorem derives_false_iff : Derives false tokens tree ↔ tokens = tree.tokens :=
  ⟨eq_tokens_of_derives, fun same => same ▸ derives_tokens false tree⟩

/-! ### Dropping commas -/

/-- Whether a token is a closing bracket. -/
def Token.closes : Token → Bool
  | closeArray | closeObject => true
  | _ => false

/-- Whether a comma may be dropped behind a token. -/
def Token.allowsComma : Token → Bool
  | openArray | openObject | comma => false
  | _ => true

/-- Drops the commas in front of closing brackets, given whether what stands before the
tokens allows that. -/
def dropCommas : Bool → List Token → List Token
  | _, [] => []
  | allows, .comma :: rest =>
    if allows && rest.head?.any Token.closes then dropCommas allows rest
    else .comma :: dropCommas false rest
  | _, token :: rest => token :: dropCommas token.allowsComma rest

variable {allows : Bool}

theorem dropCommas_cons (other : token ≠ .comma) (rest : List Token) :
    dropCommas allows (token :: rest) = token :: dropCommas token.allowsComma rest := by
  cases token <;> first | rfl | exact (other rfl).elim

theorem dropCommas_openArray (rest : List Token) :
    dropCommas allows (.openArray :: rest) = .openArray :: dropCommas false rest := rfl

theorem dropCommas_openObject (rest : List Token) :
    dropCommas allows (.openObject :: rest) = .openObject :: dropCommas false rest := rfl

theorem dropCommas_key (name : String) (rest : List Token) :
    dropCommas allows (.string name :: .colon :: rest) =
      .string name :: .colon :: dropCommas true rest := rfl

theorem Token.ne_comma_of_closes (closes : token.closes = true) : token ≠ .comma := by
  rintro rfl
  cases closes

theorem dropCommas_kept (kept : ∀ next, rest.head? = some next → next.closes = false) :
    dropCommas allows (.comma :: rest) = .comma :: dropCommas false rest := by
  have stays : (allows && rest.head?.any Token.closes) = false := by
    cases first : rest.head? with
    | none => simp
    | some next => simp [kept next first]
  rw [dropCommas, if_neg (by simp [stays])]

/-- What is left starts with the first token, or a comma in front of that was dropped. -/
theorem of_dropCommas_eq_cons (same : dropCommas allows tokens = token :: out) :
    ∃ rest, dropCommas token.allowsComma rest = out ∧ (tokens = token :: rest ∨
      allows = true ∧ token.closes = true ∧ tokens = .comma :: token :: rest) := by
  rcases tokens with _ | ⟨first, rest⟩
  · cases same
  by_cases comma : first = .comma
  · subst comma
    rw [dropCommas] at same
    split at same
    · rename_i dropped
      rw [Bool.and_eq_true] at dropped
      obtain ⟨allowed, closes⟩ := dropped
      rcases rest with _ | ⟨next, rest⟩
      · cases closes
      · have closing : next.closes = true := closes
        rw [dropCommas_cons (Token.ne_comma_of_closes closing), List.cons.injEq] at same
        obtain ⟨rfl, rfl⟩ := same
        exact ⟨rest, rfl, .inr ⟨allowed, closing, rfl⟩⟩
    · rw [List.cons.injEq] at same
      obtain ⟨rfl, rfl⟩ := same
      exact ⟨rest, rfl, .inl rfl⟩
  · rw [dropCommas_cons comma, List.cons.injEq] at same
    obtain ⟨rfl, rfl⟩ := same
    exact ⟨rest, rfl, .inl rfl⟩

/-- A token that is no closing bracket, or stands where no comma may be dropped, is the first. -/
theorem of_dropCommas_eq_cons_of_first (same : dropCommas allows tokens = token :: out)
    (first : allows = false ∨ token.closes = false) :
    ∃ rest, dropCommas token.allowsComma rest = out ∧ tokens = token :: rest := by
  obtain ⟨rest, others, parts | ⟨allowed, closes, -⟩⟩ := of_dropCommas_eq_cons same
  · exact ⟨rest, others, parts⟩
  · rcases first with no | no
    · rw [no] at allowed
      cases allowed
    · rw [no] at closes
      cases closes

/-- In front of a closing bracket there may have been a trailing comma. -/
theorem of_dropCommas_eq_closing (same : dropCommas allows tokens = token :: out)
    (ends : token.allowsComma = true) :
    ∃ last rest, dropCommas true rest = out ∧ tokens = last ++ token :: rest ∧
      Trailing true last := by
  obtain ⟨rest, others, parts | ⟨-, -, parts⟩⟩ := of_dropCommas_eq_cons same
  · exact ⟨[], rest, ends ▸ others, parts, .nothing⟩
  · exact ⟨[.comma], rest, ends ▸ others, parts, .comma rfl⟩

theorem eq_nil_of_dropCommas (same : dropCommas allows tokens = []) : tokens = [] := by
  rcases tokens with _ | ⟨first, rest⟩
  · rfl
  by_cases comma : first = .comma
  · subst comma
    rw [dropCommas] at same
    split at same
    · rename_i dropped
      rw [Bool.and_eq_true] at dropped
      rcases rest with _ | ⟨next, rest⟩
      · cases dropped.2
      · rw [dropCommas_cons (Token.ne_comma_of_closes dropped.2)] at same
        cases same
    · cases same
  · rw [dropCommas_cons comma] at same
    cases same

/-! ### What is left of a derivation -/

/-- A derivation starts with neither a closing bracket nor a comma. -/
theorem Derives.exists_eq_cons (derives : Derives trailingCommas tokens tree) :
    ∃ first later, tokens = first :: later ∧ first.closes = false ∧ first ≠ .comma := by
  cases derives
  all_goals exact ⟨_, _, rfl, rfl, nofun⟩

theorem tokens_ne_nil (tree : Tree) (later : List Token) : tree.tokens ++ later ≠ [] := by
  obtain ⟨first, others, same, -⟩ := (derives_tokens false tree).exists_eq_cons
  rw [same]
  exact List.cons_ne_nil _ _

theorem Derives.head?_append (derives : Derives trailingCommas tokens tree) (rest : List Token)
    (next : Token) (first : (tokens ++ rest).head? = some next) : next.closes = false := by
  obtain ⟨start, later, rfl, opens, -⟩ := derives.exists_eq_cons
  cases first
  exact opens

theorem dropCommas_trailing (trailing : Trailing true tokens) (closes : token.closes = true)
    (rest : List Token) :
    dropCommas true (tokens ++ token :: rest) = token :: dropCommas token.allowsComma rest := by
  cases trailing with
  | nothing => exact dropCommas_cons (Token.ne_comma_of_closes closes) rest
  | comma =>
    rw [List.singleton_append, dropCommas, if_pos (by simp [closes])]
    exact dropCommas_cons (Token.ne_comma_of_closes closes) rest

mutual

/-- What is left of the tokens of a derivation are those of its tree. -/
theorem dropCommas_derives : ∀ {tokens : List Token} {tree : Tree} {allows : Bool},
    Derives true tokens tree → ∀ rest, dropCommas allows (tokens ++ rest) =
      tree.tokens ++ dropCommas true rest
  | _, _, _, .null, _ => rfl
  | _, _, _, .bool _, _ => rfl
  | _, _, _, .number _, _ => rfl
  | _, _, _, .string _, _ => rfl
  | _, _, _, .emptyArray, _ => rfl
  | _, _, _, .array first others trailing, rest => by
    simp only [List.cons_append, List.append_assoc, List.nil_append, Tree.tokens]
    rw [dropCommas_openArray, dropCommas_derives first, dropCommas_derivesItems others,
      dropCommas_trailing trailing rfl]
    rfl
  | _, _, _, .emptyObject, _ => rfl
  | _, _, _, .object first others trailing, rest => by
    simp only [List.cons_append, List.append_assoc, List.nil_append, Tree.tokens]
    rw [dropCommas_openObject, dropCommas_key, dropCommas_derives first,
      dropCommas_derivesMembers others, dropCommas_trailing trailing rfl]
    rfl

theorem dropCommas_derivesItems : ∀ {tokens : List Token} {items : List Tree},
    DerivesItems true tokens items → ∀ rest, dropCommas true (tokens ++ rest) =
      Tree.laterItems items ++ dropCommas true rest
  | _, _, .nil, _ => rfl
  | _, _, .cons first others, rest => by
    simp only [List.cons_append, List.append_assoc, Tree.laterItems]
    rw [dropCommas_kept (first.head?_append _), dropCommas_derives first,
      dropCommas_derivesItems others]

theorem dropCommas_derivesMembers : ∀ {tokens : List Token} {members : List (String × Tree)},
    DerivesMembers true tokens members → ∀ rest, dropCommas true (tokens ++ rest) =
      Tree.laterMembers members ++ dropCommas true rest
  | _, _, .nil, _ => rfl
  | _, _, .cons first others, rest => by
    simp only [List.cons_append, List.append_assoc, Tree.laterMembers]
    rw [dropCommas_kept (by rintro next ⟨⟩; rfl), dropCommas_key, dropCommas_derives first,
      dropCommas_derivesMembers others]

end

/-! ### Empty slots -/

/-- No comma stands behind an opening bracket or another comma, given whether the first token
may be one: each comma has an element or a member before it. -/
def slotsFilled : Bool → List Token → Bool
  | _, [] => true
  | allows, .comma :: rest => allows && slotsFilled false rest
  | _, token :: rest => slotsFilled token.allowsComma rest

theorem slotsFilled_trailing (trailing : Trailing trailingCommas tokens)
    (closes : token.closes = true) (rest : List Token) :
    slotsFilled true (tokens ++ token :: rest) = slotsFilled true rest := by
  cases trailing
  all_goals cases token <;> first | rfl | cases closes

mutual

theorem slotsFilled_derives : ∀ {tokens : List Token} {tree : Tree} {allows : Bool},
    Derives trailingCommas tokens tree → ∀ rest,
      slotsFilled allows (tokens ++ rest) = slotsFilled true rest
  | _, _, _, .null, _ => rfl
  | _, _, _, .bool _, _ => rfl
  | _, _, _, .number _, _ => rfl
  | _, _, _, .string _, _ => rfl
  | _, _, _, .emptyArray, _ => rfl
  | _, _, _, .array first others trailing, rest => by
    simp only [List.cons_append, List.append_assoc, List.nil_append]
    rw [slotsFilled, slotsFilled_derives first, slotsFilled_derivesItems others,
      slotsFilled_trailing trailing rfl]
    nofun
  | _, _, _, .emptyObject, _ => rfl
  | _, _, _, .object first others trailing, rest => by
    simp only [List.cons_append, List.append_assoc, List.nil_append]
    rw [slotsFilled, slotsFilled, slotsFilled, slotsFilled_derives first,
      slotsFilled_derivesMembers others, slotsFilled_trailing trailing rfl]
    all_goals nofun

theorem slotsFilled_derivesItems : ∀ {tokens : List Token} {items : List Tree},
    DerivesItems trailingCommas tokens items → ∀ rest,
      slotsFilled true (tokens ++ rest) = slotsFilled true rest
  | _, _, .nil, _ => rfl
  | _, _, .cons first others, rest => by
    rw [List.cons_append, List.append_assoc, slotsFilled, slotsFilled_derives first,
      slotsFilled_derivesItems others, Bool.true_and]

theorem slotsFilled_derivesMembers : ∀ {tokens : List Token} {members : List (String × Tree)},
    DerivesMembers trailingCommas tokens members → ∀ rest,
      slotsFilled true (tokens ++ rest) = slotsFilled true rest
  | _, _, .nil, _ => rfl
  | _, _, .cons first others, rest => by
    simp only [List.cons_append, List.append_assoc]
    rw [slotsFilled, slotsFilled, slotsFilled, slotsFilled_derives first,
      slotsFilled_derivesMembers others, Bool.true_and]
    all_goals nofun

end

/-- Nothing with an empty slot is derived, whether there may be trailing commas or not. -/
theorem Derives.slotsFilled (derives : Derives trailingCommas tokens tree) :
    slotsFilled false tokens = true := by
  rw [← List.append_nil tokens, slotsFilled_derives derives]
  rfl

/-! ### Where commas were dropped -/

mutual

/-- Tokens of which those of a tree are left start with a derivation of that tree. -/
theorem exists_derives_of_dropCommas : ∀ (tree : Tree) {allows : Bool} {tokens out : List Token},
    dropCommas allows tokens = tree.tokens ++ out →
    ∃ front rest, tokens = front ++ rest ∧ Derives true front tree ∧ dropCommas true rest = out
  | .null, _, _, _, same => by
    obtain ⟨rest, others, rfl⟩ := of_dropCommas_eq_cons_of_first same (.inr rfl)
    exact ⟨[.null], rest, rfl, .null, others⟩
  | .bool value, _, _, _, same => by
    obtain ⟨rest, others, rfl⟩ := of_dropCommas_eq_cons_of_first same (.inr rfl)
    exact ⟨[.bool value], rest, rfl, .bool value, others⟩
  | .number value, _, _, _, same => by
    obtain ⟨rest, others, rfl⟩ := of_dropCommas_eq_cons_of_first same (.inr rfl)
    exact ⟨[.number value], rest, rfl, .number value, others⟩
  | .string value, _, _, _, same => by
    obtain ⟨rest, others, rfl⟩ := of_dropCommas_eq_cons_of_first same (.inr rfl)
    exact ⟨[.string value], rest, rfl, .string value, others⟩
  | .array [], _, _, _, same => by
    obtain ⟨inside, opened, rfl⟩ := of_dropCommas_eq_cons_of_first same (.inr rfl)
    obtain ⟨rest, others, rfl⟩ := of_dropCommas_eq_cons_of_first opened (.inl rfl)
    exact ⟨[.openArray, .closeArray], rest, rfl, .emptyArray, others⟩
  | .array (item :: items), _, _, _, same => by
    rw [Tree.tokens, List.cons_append, List.append_assoc, List.append_assoc] at same
    obtain ⟨inside, opened, rfl⟩ := of_dropCommas_eq_cons_of_first same (.inr rfl)
    obtain ⟨first, behind, rfl, ofFirst, left⟩ := exists_derives_of_dropCommas item opened
    obtain ⟨more, last, rest, rfl, ofMore, trailing, others⟩ :=
      exists_derivesItems_of_dropCommas items .closeArray rfl rfl left
    exact ⟨_, rest, by simp, .array ofFirst ofMore trailing, others⟩
  | .object [], _, _, _, same => by
    obtain ⟨inside, opened, rfl⟩ := of_dropCommas_eq_cons_of_first same (.inr rfl)
    obtain ⟨rest, others, rfl⟩ := of_dropCommas_eq_cons_of_first opened (.inl rfl)
    exact ⟨[.openObject, .closeObject], rest, rfl, .emptyObject, others⟩
  | .object ((name, child) :: members), _, _, _, same => by
    rw [Tree.tokens, List.cons_append, List.cons_append, List.cons_append, List.append_assoc,
      List.append_assoc] at same
    obtain ⟨inside, opened, rfl⟩ := of_dropCommas_eq_cons_of_first same (.inr rfl)
    obtain ⟨named, key, rfl⟩ := of_dropCommas_eq_cons_of_first opened (.inl rfl)
    obtain ⟨valued, colon, rfl⟩ := of_dropCommas_eq_cons_of_first key (.inr rfl)
    obtain ⟨first, behind, rfl, ofFirst, left⟩ := exists_derives_of_dropCommas child colon
    obtain ⟨more, last, rest, rfl, ofMore, trailing, others⟩ :=
      exists_derivesMembers_of_dropCommas members .closeObject rfl rfl left
    exact ⟨_, rest, by simp, .object ofFirst ofMore trailing, others⟩

theorem exists_derivesItems_of_dropCommas : ∀ (items : List Tree) (closing : Token)
    {tokens out : List Token}, closing.closes = true → closing.allowsComma = true →
    dropCommas true tokens = Tree.laterItems items ++ ([closing] ++ out) →
    ∃ others last rest, tokens = others ++ (last ++ closing :: rest) ∧
      DerivesItems true others items ∧ Trailing true last ∧ dropCommas true rest = out
  | [], _, _, _, _, ends, same => by
    obtain ⟨last, rest, others, rfl, trailing⟩ := of_dropCommas_eq_closing same ends
    exact ⟨[], last, rest, rfl, .nil, trailing, others⟩
  | item :: items, closing, _, _, closes, ends, same => by
    rw [Tree.laterItems, List.cons_append, List.append_assoc] at same
    obtain ⟨behind, comma, rfl⟩ := of_dropCommas_eq_cons_of_first same (.inr rfl)
    obtain ⟨first, behind, rfl, ofFirst, left⟩ := exists_derives_of_dropCommas item comma
    obtain ⟨more, last, rest, rfl, ofMore, trailing, others⟩ :=
      exists_derivesItems_of_dropCommas items closing closes ends left
    exact ⟨_, last, rest, by simp, .cons ofFirst ofMore, trailing, others⟩

theorem exists_derivesMembers_of_dropCommas : ∀ (members : List (String × Tree)) (closing : Token)
    {tokens out : List Token}, closing.closes = true → closing.allowsComma = true →
    dropCommas true tokens = Tree.laterMembers members ++ ([closing] ++ out) →
    ∃ others last rest, tokens = others ++ (last ++ closing :: rest) ∧
      DerivesMembers true others members ∧ Trailing true last ∧ dropCommas true rest = out
  | [], _, _, _, _, ends, same => by
    obtain ⟨last, rest, others, rfl, trailing⟩ := of_dropCommas_eq_closing same ends
    exact ⟨[], last, rest, rfl, .nil, trailing, others⟩
  | (name, child) :: members, closing, _, _, closes, ends, same => by
    rw [Tree.laterMembers, List.cons_append, List.cons_append, List.cons_append,
      List.append_assoc] at same
    obtain ⟨named, comma, rfl⟩ := of_dropCommas_eq_cons_of_first same (.inr rfl)
    obtain ⟨valued, key, rfl⟩ := of_dropCommas_eq_cons_of_first comma (.inl rfl)
    obtain ⟨behind, colon, rfl⟩ := of_dropCommas_eq_cons_of_first key (.inr rfl)
    obtain ⟨first, behind, rfl, ofFirst, left⟩ := exists_derives_of_dropCommas child colon
    obtain ⟨more, last, rest, rfl, ofMore, trailing, others⟩ :=
      exists_derivesMembers_of_dropCommas members closing closes ends left
    exact ⟨_, last, rest, by simp, .cons ofFirst ofMore, trailing, others⟩

end

/-- Tokens derive a tree with trailing commas if those of the tree are left without them. -/
theorem derives_true_iff : Derives true tokens tree ↔ dropCommas false tokens = tree.tokens := by
  constructor
  · intro derives
    have left : dropCommas false (tokens ++ []) = tree.tokens ++ [] := dropCommas_derives derives []
    rwa [List.append_nil, List.append_nil] at left
  · intro same
    obtain ⟨front, rest, rfl, derives, nothing⟩ :=
      exists_derives_of_dropCommas tree (same.trans (List.append_nil _).symm)
    rw [eq_nil_of_dropCommas nothing, List.append_nil]
    exact derives

end Grammar

end JsonOverlay
