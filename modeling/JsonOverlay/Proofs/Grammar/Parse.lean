/-
This file shows that parsing accepts the texts of the grammar, no others, and makes of each of
them the tree that it denotes. Comments and trailing commas are overwritten first; what is left
is laid out as the tokens of a tree exactly if the text denotes the tree in the dialect of the
options. Since a text without them denotes the same tree in every dialect, allowing more never
changes what was accepted before.
-/

import JsonOverlay.Proofs.Document
import JsonOverlay.Proofs.Grammar.Commas
import JsonOverlay.Proofs.Grammar.Comments
import JsonOverlay.Proofs.Grammar.Strict

namespace JsonOverlay

namespace Grammar

open Reader

variable {options wider : ParseOptions} {text relaxed spelling rest : List Char} {tree : Tree}
  {token : Token} {tokens : List Token} {numerals : Numeral → Number → Prop}
  {comments trailingCommas : Bool}

/-! ### Overwritten texts -/

theorem laidOut_iff : LaidOut numerals comments tokens text ↔
    ∃ out, (if comments then blankComments .plain text else .ok text) = .ok out ∧
      LaidOut numerals false tokens out := by
  cases comments with
  | false => simp
  | true => exact laidOut_comments_iff

theorem exists_derives_iff :
    (∃ tokens, Derives trailingCommas tokens tree ∧ LaidOut numerals false tokens text) ↔
      LaidOut numerals false tree.tokens
        (if trailingCommas then blankTrailingCommas false none text else text) := by
  cases trailingCommas with
  | false => simp [derives_false_iff]
  | true =>
    simp only [derives_true_iff]
    exact (laidOut_drops_iff rfl).symm

theorem relax_eq (options : ParseOptions) (text : List Char) : relax options text =
    (if options.comments then blankComments .plain text else .ok text).map fun out =>
      if options.trailingCommas then blankTrailingCommas false none out else out := by
  unfold relax
  cases options.comments with
  | false => rfl
  | true => cases blankComments .plain text <;> rfl

/-- A text denotes a tree if what is left of it is laid out as the tokens of the tree. -/
theorem denotes_iff : Denotes (.ofOptions options) text tree ↔
    ∃ relaxed, relax options text = .ok relaxed ∧
      LaidOut Numeral.Denotes false tree.tokens relaxed := by
  have first : Denotes (.ofOptions options) text tree ↔
      ∃ out, (if options.comments then blankComments .plain text else .ok text) = .ok out ∧
        ∃ tokens, Derives options.trailingCommas tokens tree ∧
          LaidOut Numeral.Denotes false tokens out := by
    constructor
    · rintro ⟨tokens, derives, laid⟩
      obtain ⟨out, ok, laid⟩ := laidOut_iff.mp laid
      exact ⟨out, ok, tokens, derives, laid⟩
    · rintro ⟨out, ok, tokens, derives, laid⟩
      exact ⟨tokens, derives, laidOut_iff.mpr ⟨out, ok, laid⟩⟩
  rw [first, relax_eq]
  simp only [exists_derives_iff]
  cases (if options.comments then blankComments .plain text else .ok text) with
  | error => simp [Except.map]
  | ok out => simp [Except.map]

/-- A text that is laid out as the tokens of a tree does not consist of blanks. -/
theorem LaidOut.all_isUnicodeBlank (laid : LaidOut numerals false tree.tokens text) :
    text.all Text.isUnicodeBlank = false := by
  obtain ⟨token, later, same, -⟩ := (derives_tokens false tree).exists_eq_cons
  rw [same] at laid
  obtain ⟨spelling, after, spells, parts, -⟩ := laidOut_cons_iff.mp laid
  obtain ⟨first, more, rfl, other, -⟩ := spells.exists_eq_cons
  have member : first ∈ text :=
    (List.dropWhile_sublist Text.isBlank).subset (by rw [← skipBlanks, parts]; simp)
  rw [List.all_eq_false]
  exact ⟨first, member, by simp [other]⟩

/-- No text is laid out as the tokens of two trees. -/
theorem LaidOut.unique {other : Tree} (laid : LaidOut Numeral.Denotes false tree.tokens text)
    (otherwise : LaidOut Numeral.Denotes false other.tokens text) : tree = other := by
  obtain ⟨last, tokens, ending⟩ := laid
  obtain ⟨rest, others, trailing⟩ := otherwise
  have first : readValue (max tree.depth other.depth) text = .ok (tree, last) :=
    readValue_laid tree tokens (le_max_left _ _) (delimits_of_isBlank ending.isBlank)
  have second : readValue (max tree.depth other.depth) text = .ok (other, rest) :=
    readValue_laid other others (le_max_right _ _) (delimits_of_isBlank trailing.isBlank)
  cases first.symm.trans second
  rfl

/-- A text denotes at most one tree. -/
theorem Denotes.unique {other : Tree} (denotes : Denotes (.ofOptions options) text tree)
    (otherwise : Denotes (.ofOptions options) text other) : tree = other := by
  obtain ⟨relaxed, relaxes, laid⟩ := denotes_iff.mp denotes
  obtain ⟨again, same, others⟩ := denotes_iff.mp otherwise
  cases relaxes.symm.trans same
  exact laid.unique others

/-- A string denotes itself in every dialect. -/
theorem denotes_string {source value : List Char} (body : StringBody source value)
    (options : ParseOptions) :
    Denotes (.ofOptions options) ('"' :: (source ++ ['"'])) (.string (String.ofList value)) := by
  have laid : Laid Numeral.Denotes options.comments [.string (String.ofList value)]
      ([] ++ (('"' :: (source ++ ['"'])) ++ [])) [] := .cons .nil (.string body) .nil
  rw [List.nil_append, List.append_nil] at laid
  exact ⟨_, .string _, [], laid, .gap .nil⟩

/-! ### Wider dialects -/

theorem Laid.of_strict (laid : Laid numerals false tokens text rest) :
    Laid numerals comments tokens text rest := by
  induction laid with
  | nil => exact .nil
  | cons gap spells _ inductionHypothesis =>
    exact .cons (gap_of_isBlank gap.isBlank) spells inductionHypothesis

theorem LaidOut.of_strict (laid : LaidOut numerals false tokens text) :
    LaidOut numerals comments tokens text := by
  obtain ⟨last, tokens, ending⟩ := laid
  exact ⟨last, tokens.of_strict, .gap (gap_of_isBlank ending.isBlank)⟩

theorem Derives.of_strict (derives : Derives false tokens tree) :
    Derives trailingCommas tokens tree := by
  rw [derives_false_iff.mp derives]
  exact derives_tokens trailingCommas tree

/-- What a text denotes it denotes if more is allowed. -/
theorem Denotes.mono (denotes : Denotes (.ofOptions options) text tree)
    (comments : options.comments = true → wider.comments = true)
    (trailingCommas : options.trailingCommas = true → wider.trailingCommas = true) :
    Denotes (.ofOptions wider) text tree := by
  obtain ⟨tokens, derives, laid⟩ := denotes
  simp only [Dialect.ofOptions] at derives laid
  refine ⟨tokens, ?_, ?_⟩
  · cases allowed : options.trailingCommas with
    | false =>
      rw [allowed] at derives
      exact derives.of_strict
    | true => rwa [Dialect.ofOptions, trailingCommas allowed, ← allowed]
  · cases allowed : options.comments with
    | false =>
      rw [allowed] at laid
      exact laid.of_strict
    | true => rwa [Dialect.ofOptions, comments allowed, ← allowed]

end Grammar

/-- A text is parsed as a tree if it denotes that tree in the dialect of the options, and the
tree is not nested too deeply. -/
theorem Tree.parse_eq_ok_iff {options : ParseOptions} {text : String} {tree : Tree} :
    parse options text = .ok tree ↔
      Grammar.Denotes (.ofOptions options) text.toList tree ∧ tree.depth ≤ Reader.greatestDepth := by
  rw [Grammar.denotes_iff]
  constructor
  · intro ok
    unfold parse at ok
    split at ok
    · cases ok
    rename_i relaxed relaxes
    split at ok
    · cases ok
    split at ok
    · rename_i read
      cases ok
      obtain ⟨laid, shallow⟩ := Grammar.readAll_eq_ok_iff.mp read
      exact ⟨⟨relaxed, relaxes, laid⟩, shallow⟩
    · cases ok
  · rintro ⟨⟨relaxed, relaxes, laid⟩, shallow⟩
    have read := Grammar.readAll_eq_ok_iff.mpr ⟨laid, shallow⟩
    simp only [parse, relaxes, laid.all_isUnicodeBlank, read, Bool.false_eq_true, if_false]

/-- An empty slot stays one. -/
example : (Tree.parse { trailingCommas := true } "[1,,]").isOk = false := rfl

/-- A comment does not join the digits around it. -/
example : (Tree.parse { comments := true } "1/**/2").isOk = false := rfl

namespace Document

theorem ofText_eq_ok_iff {heap later : Heap} {options : ParseOptions} {text : String}
    {document : Document} : ofText heap options text = .ok (later, document) ↔
      ∃ tree, Tree.parse options text = .ok tree ∧ ofTree heap tree = (later, document) := by
  unfold ofText
  cases Tree.parse options text <;> simp [Except.map]

/-- A document is made of the texts of the grammar, of no others, and of the tree that such a
text denotes: it has one node for each value, and shows the tree if there is room for it. In
those texts every comma has a value before it, what stands between the quotes of a string is
content whatever it is, and what is accepted is never changed by allowing more. -/
theorem ofText_iff_denotes (heap : Heap) (options : ParseOptions) (text : String) :
    (∀ tree, Tree.parse options text = .ok tree ↔
      Grammar.Denotes (.ofOptions options) text.toList tree ∧
        tree.depth ≤ Reader.greatestDepth) ∧
    ((∃ later document, ofText heap options text = .ok (later, document)) ↔
      ∃ tree, Grammar.Denotes (.ofOptions options) text.toList tree ∧
        tree.depth ≤ Reader.greatestDepth) ∧
    (∀ later document tree, ofText heap options text = .ok (later, document) →
      Grammar.Denotes (.ofOptions options) text.toList tree →
        document.nodeCount later = tree.count ∧
          (tree.count ≤ Arena.slotLimit → document.root.visible later = tree)) ∧
    (∀ tokens tree, Grammar.Derives options.trailingCommas tokens tree →
      Grammar.slotsFilled false tokens = true) ∧
    (∀ source value, Grammar.StringBody source value → text.toList = '"' :: (source ++ ['"']) →
      Tree.parse options text = .ok (.string (String.ofList value))) ∧
    (∀ wider : ParseOptions, (options.comments = true → wider.comments = true) →
      (options.trailingCommas = true → wider.trailingCommas = true) →
        ∀ tree, Tree.parse options text = .ok tree → Tree.parse wider text = .ok tree) := by
  refine ⟨fun tree => Tree.parse_eq_ok_iff, ?_, ?_, fun _ _ derives => derives.slotsFilled, ?_, ?_⟩
  · simp only [ofText_eq_ok_iff, ← Tree.parse_eq_ok_iff]
    constructor
    · rintro ⟨later, document, tree, parsed, -⟩
      exact ⟨tree, parsed⟩
    · rintro ⟨tree, parsed⟩
      exact ⟨_, _, tree, parsed, rfl⟩
  · intro later document tree made denotes
    obtain ⟨other, parsed, same⟩ := ofText_eq_ok_iff.mp made
    obtain ⟨denotesOther, -⟩ := Tree.parse_eq_ok_iff.mp parsed
    obtain rfl := denotesOther.unique denotes
    have nodes := nodeCount_ofTree heap other
    rw [same] at nodes
    refine ⟨nodes, fun room => ?_⟩
    have shown := visible_root_ofTree heap room
    rwa [same] at shown
  · intro source value body same
    refine Tree.parse_eq_ok_iff.mpr ⟨?_, Nat.zero_le _⟩
    rw [same]
    exact Grammar.denotes_string body options
  · intro wider comments trailingCommas tree parsed
    obtain ⟨denotes, shallow⟩ := Tree.parse_eq_ok_iff.mp parsed
    exact Tree.parse_eq_ok_iff.mpr ⟨denotes.mono comments trailingCommas, shallow⟩

/-- A string that looks like a comment stays, a comment between two tokens and a comma behind
the last element do not. -/
theorem ofText_lenient :
    ∃ later document, ofText .empty { comments := true, trailingCommas := true }
        "[1,/*,*/\"// ,]\",] //" = .ok (later, document) ∧
      document.nodeCount later = 3 ∧
      document.root.visible later = .array [.number (.uint 1), .string "// ,]"] := by
  have parsed : Tree.parse { comments := true, trailingCommas := true }
      "[1,/*,*/\"// ,]\",] //" = .ok (.array [.number (.uint 1), .string "// ,]"]) := rfl
  obtain ⟨whole, accepted, shown, -⟩ := ofText_iff_denotes .empty
    { comments := true, trailingCommas := true } "[1,/*,*/\"// ,]\",] //"
  obtain ⟨denotes, shallow⟩ := (whole _).mp parsed
  obtain ⟨later, document, made⟩ := accepted.mpr ⟨_, denotes, shallow⟩
  obtain ⟨nodes, visible⟩ := shown later document _ made denotes
  exact ⟨later, document, made, nodes, visible (by decide)⟩

end Document

end JsonOverlay
