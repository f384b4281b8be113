/-
This file shows that the text of every tree is a text of the grammar, whatever the layout. It
denotes the tree in which doubles that are neither finite nor numbers have become null. That is
proved without reading numerals back: it does not matter here which number one stands for.
-/

import JsonOverlay.Proofs.Decimal
import JsonOverlay.Proofs.Grammar.Layout
import JsonOverlay.Proofs.Grammar.Scalar

namespace JsonOverlay

/-! ### What is written -/

/-- A number as it is written. -/
def Number.written (number : Number) : Tree :=
  match number with
  | .double value => if value.isFinite then .number number else .null
  | _ => .number number

namespace Tree

mutual

/-- A tree as it is written: a double that has no numeral is null. -/
def written : Tree → Tree
  | number value => value.written
  | array items => array (writtenItems items)
  | object members => object (writtenMembers members)
  | other => other

def writtenItems : List Tree → List Tree
  | [] => []
  | item :: rest => item.written :: writtenItems rest

def writtenMembers : List (String × Tree) → List (String × Tree)
  | [] => []
  | (name, child) :: rest => (name, child.written) :: writtenMembers rest

end

end Tree

/-- The layouts that write numerals: exponents have a plus before them or nothing. -/
def WriteOptions.WritesNumerals (options : WriteOptions) : Prop :=
  options.numbers.positiveExponentSign = "" ∨ options.numbers.positiveExponentSign = "+"

namespace Grammar

open Reader

/-- Any numeral for any number. -/
def anyNumeral (_ : Numeral) (_ : Number) : Prop := True

/-- JSON without any extension, whatever the size of its numerals. -/
def Dialect.json : Dialect := ⟨false, false, anyNumeral⟩

variable {numerals : Numeral → Number → Prop} {comments : Bool} {token : Token}
  {tokens : List Token} {text other spelling rest last : List Char}

/-! ### Single tokens -/

theorem laid_spelling (spells : Spells numerals token spelling) (rest : List Char) :
    Laid numerals comments [token] (spelling ++ rest) rest :=
  .cons .nil spells .nil

theorem spells_number (known : IsNumeral text) (value : Number) :
    Spells anyNumeral (.number value) text := by
  obtain ⟨numeral, rfl⟩ := known
  exact .number numeral trivial

/-- A quoted text spells the string. -/
theorem spells_quoteJson (text : String) :
    Spells numerals (.string text) (Text.quoteJson text).toList := by
  obtain ⟨source, value, body, read, same⟩ := exists_of_readString (readString_quoteJson text [])
  have whole : (Text.quoteJson text).toList = '"' :: (source ++ ['"']) := by
    have quoted := toList_quoteJson text []
    rw [same] at quoted
    simpa using quoted
  have spells : Spells numerals (.string (String.ofList value)) ('"' :: (source ++ ['"'])) :=
    .string body
  rwa [← read, ← whole] at spells

/-! ### Trees -/

/-- A token in front of others. -/
theorem laid_cons_spelling (spells : Spells numerals token spelling)
    (others : Laid numerals false tokens text rest) :
    Laid numerals false (token :: tokens) (spelling ++ text) rest :=
  .cons .nil spells others

theorem laid_mark {mark : Char} (known : token.spelling? = some [mark])
    (others : Laid numerals false tokens text rest) :
    Laid numerals false (token :: tokens) (mark :: text) rest :=
  laid_cons_spelling (.fixed known) others

variable {options : WriteOptions}

theorem laid_number (sign : options.WritesNumerals) (value : Number) (rest : List Char) :
    Laid anyNumeral false value.written.tokens ((options.numbers.number value).toList ++ rest)
      rest := by
  rcases value with value | value | value
  · exact laid_spelling (spells_number (DecimalLayout.isNumeral_integer _) _) rest
  · exact laid_spelling (spells_number (DecimalLayout.isNumeral_integer _) _) rest
  · unfold Number.written
    dsimp only
    split
    · rename_i finite
      exact laid_spelling (spells_number (options.numbers.isNumeral_double sign finite) _) rest
    · rename_i infinite
      have null : (options.numbers.number (.double value)).toList = ['n', 'u', 'l', 'l'] := by
        rw [DecimalLayout.number, DecimalLayout.double, if_neg infinite]
        rfl
      rw [null]
      exact laid_spelling (.fixed rfl) rest

/-- A member is laid out if its child is. -/
theorem laid_renderMember {name : String} {child written : Tree} {depth : Nat}
    (ofChild : Laid numerals false written.tokens
      ((child.render options depth).toList ++ text) text)
    (others : Laid numerals false tokens text rest) :
    Laid numerals false (.string name :: .colon :: (written.tokens ++ tokens))
      ((Tree.renderMember options depth (name, child)).toList ++ text) rest := by
  obtain ⟨blanks, colon, blank⟩ := toList_colon options
  rw [Tree.renderMember, String.toList_append, String.toList_append, colon, List.append_assoc,
    List.append_assoc, List.cons_append]
  refine laid_cons_spelling (spells_quoteJson name) (laid_mark rfl ?_)
  rw [laid_congr (tokens_ne_nil written tokens) (skipBlanks_append blank _)]
  exact laid_append_iff.mpr ⟨text, ofChild, others⟩

mutual

/-- The text of a tree is laid out as the tokens of what is written. -/
theorem laid_render (sign : options.WritesNumerals) : ∀ (tree : Tree) (depth : Nat)
    (rest : List Char), Laid anyNumeral false tree.written.tokens
      ((tree.render options depth).toList ++ rest) rest
  | .null, _, rest => by
    rw [Tree.render]
    exact laid_spelling (.fixed rfl) rest
  | .bool value, _, rest => by
    rw [Tree.render]
    cases value
    all_goals exact laid_spelling (.fixed rfl) rest
  | .number value, _, rest => laid_number sign value rest
  | .string value, _, rest => laid_spelling (spells_quoteJson value) rest
  | .array [], depth, rest => by
    rw [toList_render_array]
    refine laid_mark rfl ((laid_mark_iff rfl).mpr ⟨rest, ?_, .nil⟩)
    exact (skipBlanks_ending options 0 depth _).trans (skipBlanks_cons rfl rest)
  | .array (item :: items), depth, rest => by
    have closes : Laid anyNumeral false [.closeArray]
        ((Writer.ending options (items.length + 1) depth).toList ++ ']' :: rest) rest :=
      (laid_mark_iff rfl).mpr ⟨rest,
        (skipBlanks_ending options _ depth _).trans (skipBlanks_cons rfl rest), .nil⟩
    rw [toList_render_array, Tree.renderItems_cons, String.toList_append, String.toList_append,
      List.append_assoc, List.append_assoc]
    refine laid_mark rfl ((laid_congr (tokens_ne_nil item.written _)
      (skipBlanks_separator_zero options _ _)).mpr ?_)
    exact laid_append_iff.mpr ⟨_, laid_render sign item (depth + 1) _,
      laid_renderItems sign items (depth + 1) 0 closes⟩
  | .object [], depth, rest => by
    rw [toList_render_object]
    refine laid_mark rfl ((laid_mark_iff rfl).mpr ⟨rest, ?_, .nil⟩)
    exact (skipBlanks_ending options 0 depth _).trans (skipBlanks_cons rfl rest)
  | .object ((name, child) :: members), depth, rest => by
    have closes : Laid anyNumeral false [.closeObject]
        ((Writer.ending options (members.length + 1) depth).toList ++ '\x7d' :: rest) rest :=
      (laid_mark_iff rfl).mpr ⟨rest,
        (skipBlanks_ending options _ depth _).trans (skipBlanks_cons rfl rest), .nil⟩
    rw [toList_render_object, Tree.renderMembers_cons, String.toList_append, String.toList_append,
      List.append_assoc, List.append_assoc]
    refine laid_mark rfl ((laid_congr (List.cons_ne_nil _ _)
      (skipBlanks_separator_zero options _ _)).mpr (laid_renderMember ?_ ?_))
    · exact laid_render sign child (depth + 1) _
    · exact laid_renderMembers sign members (depth + 1) 0 closes

theorem laid_renderItems (sign : options.WritesNumerals) : ∀ (items : List Tree)
    (depth count : Nat) {last rest : List Char}, Laid anyNumeral false [.closeArray] last rest →
    Laid anyNumeral false (Tree.laterItems (Tree.writtenItems items) ++ [.closeArray])
      ((Tree.renderItems options depth (count + 1) items).toList ++ last) rest
  | [], _, _, _, _, closes => by
    rw [Tree.renderItems]
    exact closes
  | item :: items, depth, count, last, rest, closes => by
    rw [Tree.renderItems_cons, String.toList_append, String.toList_append, List.append_assoc,
      List.append_assoc, Tree.writtenItems, Tree.laterItems, List.cons_append, List.append_assoc]
    refine (laid_mark_iff rfl).mpr ⟨_, skipBlanks_separator_succ options count depth _, ?_⟩
    refine (laid_congr (tokens_ne_nil item.written _) (skipBlanks_lineBreak options _ _)).mpr ?_
    exact laid_append_iff.mpr ⟨_, laid_render sign item depth _,
      laid_renderItems sign items depth (count + 1) closes⟩

theorem laid_renderMembers (sign : options.WritesNumerals) : ∀ (members : List (String × Tree))
    (depth count : Nat) {last rest : List Char}, Laid anyNumeral false [.closeObject] last rest →
    Laid anyNumeral false (Tree.laterMembers (Tree.writtenMembers members) ++ [.closeObject])
      ((Tree.renderMembers options depth (count + 1) members).toList ++ last) rest
  | [], _, _, _, _, closes => by
    rw [Tree.renderMembers]
    exact closes
  | (name, child) :: members, depth, count, last, rest, closes => by
    rw [Tree.renderMembers_cons, String.toList_append, String.toList_append, List.append_assoc,
      List.append_assoc, Tree.writtenMembers, Tree.laterMembers, List.cons_append,
      List.cons_append, List.cons_append, List.append_assoc]
    refine (laid_mark_iff rfl).mpr ⟨_, skipBlanks_separator_succ options count depth _, ?_⟩
    refine (laid_congr (List.cons_ne_nil _ _) (skipBlanks_lineBreak options _ _)).mpr
      (laid_renderMember ?_ ?_)
    · exact laid_render sign child depth _
    · exact laid_renderMembers sign members depth (count + 1) closes

end

/-- The text of a tree is JSON. -/
theorem denotes_render (sign : options.WritesNumerals) (tree : Tree) (depth : Nat) :
    Denotes .json (tree.render options depth).toList tree.written := by
  have laid := laid_render sign tree depth []
  rw [List.append_nil] at laid
  exact ⟨_, derives_tokens false tree.written, [], laid, .gap .nil⟩

end Grammar

end JsonOverlay
