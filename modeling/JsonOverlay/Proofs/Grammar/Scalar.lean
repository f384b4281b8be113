/-
This file shows that strings, numbers and words are read from their spellings and from
nothing else. A string ends with its closing quote; a number is read to its end if what
follows could not be part of it.
-/

import JsonOverlay.Proofs.Grammar.Numeral
import JsonOverlay.Proofs.Reader.Scalar

namespace JsonOverlay.Grammar

open Reader

variable {text rest source value written : List Char} {character : Char}

/-! ### Escapes -/

theorem exists_of_readQuad {unit : Nat} (ok : readQuad text = .ok (unit, rest)) :
    ∃ first second third fourth, text = first :: second :: third :: fourth :: rest ∧
      hexQuad? first second third fourth = some unit := by
  have refused : ∀ text : List Char, blameQuad text ≠ (.ok (unit, rest) : Reading Nat) := by
    intro text same
    unfold blameQuad at same
    split at same <;> cases same
  unfold readQuad at ok
  split at ok
  · split at ok
    · rename_i known
      cases ok
      exact ⟨_, _, _, _, rfl, known⟩
    · exact (refused _ ok).elim
  · exact (refused _ ok).elim

theorem readQuad_of_hexQuad? {first second third fourth : Char} {unit : Nat}
    (known : hexQuad? first second third fourth = some unit) (rest : List Char) :
    readQuad (first :: second :: third :: fourth :: rest) = .ok (unit, rest) := by
  simp only [readQuad, known]

theorem exists_of_readLowSurrogate {high : Nat}
    (ok : readLowSurrogate high text = .ok (character, rest)) :
    ∃ fifth sixth seventh eighth low,
      text = '\\' :: 'u' :: fifth :: sixth :: seventh :: eighth :: rest ∧
      hexQuad? fifth sixth seventh eighth = some low ∧ isLowSurrogate low = true ∧
      character = surrogatePair high low := by
  unfold readLowSurrogate at ok
  split at ok
  · cases ok
  · cases ok
  · obtain ⟨low, after, read, next⟩ := andThen_eq_ok ok
    obtain ⟨fifth, sixth, seventh, eighth, rfl, known⟩ := exists_of_readQuad read
    split at next
    · rename_i isLow
      obtain ⟨same, rfl⟩ := Prod.mk.inj (Except.ok.inj next)
      exact ⟨fifth, sixth, seventh, eighth, low, rfl, known, isLow, same.symm⟩
    · cases next
  · cases ok
  · cases ok

theorem exists_of_readEscape (ok : readEscape text = .ok (character, rest)) :
    ∃ written, Escape written character ∧ text = written ++ rest := by
  unfold readEscape at ok
  split at ok
  · cases ok
  · obtain ⟨unit, after, read, next⟩ := andThen_eq_ok ok
    obtain ⟨first, second, third, fourth, rfl, known⟩ := exists_of_readQuad read
    split at next
    · cases next
    · rename_i notLow
      split at next
      · rename_i isHigh
        obtain ⟨_, _, _, _, low, rfl, knownLow, isLow, same⟩ := exists_of_readLowSurrogate next
        rw [same]
        exact ⟨_, .pair known isHigh knownLow isLow, rfl⟩
      · rename_i notHigh
        obtain ⟨same, rfl⟩ := Prod.mk.inj (Except.ok.inj next)
        rw [← same]
        exact ⟨_, .unit known (by simpa using notLow) (by simpa using notHigh), rfl⟩
  · split at ok
    · rename_i known
      cases ok
      exact ⟨_, .letter known, rfl⟩
    · cases ok

theorem readEscape_written (escape : Escape written character) (rest : List Char) :
    readEscape (written ++ rest) = .ok (character, rest) := by
  cases escape with
  | letter known => exact readEscape_letter known rest
  | unit known notLow notHigh =>
    simp only [List.cons_append, List.nil_append, readEscape, readHexEscape,
      readQuad_of_hexQuad? known, andThen, notLow, notHigh, Bool.false_eq_true, if_false]
  | @pair _ _ _ _ _ _ _ _ high low known isHigh knownLow isLow =>
    -- A high surrogate is no low one.
    have notLow : isLowSurrogate high = false := by
      simp only [isHighSurrogate, isLowSurrogate, decide_eq_true_eq] at isHigh ⊢
      exact decide_eq_false (by omega)
    simp only [List.cons_append, List.nil_append, readEscape, readHexEscape,
      readQuad_of_hexQuad? known, andThen, notLow, isHigh, Bool.false_eq_true, if_false, if_true,
      readLowSurrogate, readQuad_of_hexQuad? knownLow, isLow]

/-! ### Strings -/

theorem exists_of_readCharacters {bound : Nat}
    (ok : readCharacters bound text = .ok (value, rest)) :
    ∃ source, StringBody source value ∧ text = source ++ '"' :: rest := by
  induction bound generalizing text value with
  | zero => cases text <;> cases ok
  | succ bound inductionHypothesis =>
    rcases text with _ | ⟨next, later⟩
    · cases ok
    rw [readCharacters] at ok
    split at ok
    · rename_i quote
      cases ok
      exact ⟨[], .nil, by rw [quote]; rfl⟩
    · rename_i noQuote
      split at ok
      · rename_i backslash
        obtain ⟨character, after, escape, more⟩ := andThen_eq_ok ok
        obtain ⟨characters, last, others, same⟩ := andThen_eq_ok more
        cases same
        obtain ⟨written, known, rfl⟩ := exists_of_readEscape escape
        obtain ⟨source, body, rfl⟩ := inductionHypothesis others
        exact ⟨_, .escape known body, by rw [backslash]; simp⟩
      · rename_i noBackslash
        split at ok
        · cases ok
        · rename_i noControl
          obtain ⟨characters, last, others, same⟩ := andThen_eq_ok ok
          cases same
          obtain ⟨source, body, rfl⟩ := inductionHypothesis others
          exact ⟨_, .plain noQuote noBackslash noControl body, rfl⟩

theorem readCharacters_body (body : StringBody source value) (rest : List Char) {bound : Nat}
    (enough : source.length < bound) :
    readCharacters bound (source ++ '"' :: rest) = .ok (value, rest) := by
  induction body generalizing bound with
  | nil =>
    obtain ⟨bound, rfl⟩ := Nat.exists_eq_succ_of_ne_zero (Nat.ne_of_gt enough)
    rfl
  | plain noQuote noBackslash noControl _ inductionHypothesis =>
    obtain ⟨bound, rfl⟩ := Nat.exists_eq_succ_of_ne_zero (Nat.ne_zero_of_lt enough)
    rw [List.cons_append, readCharacters, if_neg noQuote, if_neg noBackslash, if_neg noControl,
      inductionHypothesis (Nat.lt_of_succ_lt_succ enough)]
    rfl
  | @escape written character source value known _ inductionHypothesis =>
    obtain ⟨bound, rfl⟩ := Nat.exists_eq_succ_of_ne_zero (Nat.ne_zero_of_lt enough)
    have fewer : source.length < bound := by
      rw [List.length_cons, List.length_append] at enough
      omega
    rw [List.cons_append, List.append_assoc]
    refine (readCharacters_escape (readEscape_written known (source ++ '"' :: rest))).trans ?_
    rw [inductionHypothesis fewer]
    rfl

theorem exists_of_readString {read : String} (ok : readString text = .ok (read, rest)) :
    ∃ source value, StringBody source value ∧ read = String.ofList value ∧
      text = source ++ '"' :: rest := by
  obtain ⟨value, after, characters, same⟩ := andThen_eq_ok ok
  cases same
  obtain ⟨source, body, parts⟩ := exists_of_readCharacters characters
  exact ⟨source, value, body, rfl, parts⟩

theorem readString_body (body : StringBody source value) (rest : List Char) :
    readString (source ++ '"' :: rest) = .ok (String.ofList value, rest) := by
  rw [readString, readCharacters_body body rest (by simp)]
  rfl

/-! ### Words -/

theorem readWord_append {α : Type} (result : α) (word rest : List Char) :
    readWord result word (word ++ rest) = .ok (result, rest) := by
  induction word with
  | nil => rfl
  | cons expected word inductionHypothesis =>
    rw [List.cons_append, readWord, if_pos rfl, inductionHypothesis]

/-! ### Values that contain no other -/

/-- A token that derives a tree alone. -/
inductive IsScalar : Token → Tree → Prop where
  | null : IsScalar .null .null
  | bool (value : Bool) : IsScalar (.bool value) (.bool value)
  | number (value : Number) : IsScalar (.number value) (.number value)
  | string (value : String) : IsScalar (.string value) (.string value)

variable {token : Token} {tree : Tree}

theorem exists_of_readScalar (ok : readScalar text = .ok (tree, rest)) :
    ∃ token spelling, IsScalar token tree ∧ Spells Numeral.Denotes token spelling ∧
      text = spelling ++ rest := by
  unfold readScalar at ok
  split at ok
  · cases ok
  · obtain ⟨rfl, rfl⟩ := readWord_eq_ok ok
    exact ⟨.null, _, .null, .fixed rfl, rfl⟩
  · obtain ⟨rfl, rfl⟩ := readWord_eq_ok ok
    exact ⟨.bool true, _, .bool true, .fixed rfl, rfl⟩
  · obtain ⟨rfl, rfl⟩ := readWord_eq_ok ok
    exact ⟨.bool false, _, .bool false, .fixed rfl, rfl⟩
  · obtain ⟨read, after, string, same⟩ := andThen_eq_ok ok
    cases same
    obtain ⟨source, value, body, rfl, rfl⟩ := exists_of_readString string
    exact ⟨_, _, .string _, .string body, by simp⟩
  · obtain ⟨number, after, read, same⟩ := andThen_eq_ok ok
    cases same
    obtain ⟨numeral, negative, rfl, known⟩ := exists_of_readNumeral read
    refine ⟨_, _, .number number, .number numeral known, ?_⟩
    rw [Numeral.text, negative]
    rfl
  · split at ok
    · obtain ⟨number, after, read, same⟩ := andThen_eq_ok ok
      cases same
      obtain ⟨numeral, positive, parts, known⟩ := exists_of_readNumeral read
      refine ⟨_, _, .number number, .number numeral known, ?_⟩
      rw [parts, Numeral.text, positive]
      rfl
    · cases ok

/-- The first character of a numeral without its sign is a digit. -/
theorem exists_unsignedText_eq_cons (numeral : Numeral) :
    ∃ first later, numeral.unsignedText = first :: later ∧ first.isDigit = true := by
  obtain ⟨negative, ⟨characters, nonempty, all⟩, fraction, exponent, proper⟩ := numeral
  obtain ⟨first, later, rfl⟩ := List.exists_cons_of_ne_nil nonempty
  exact ⟨first, _, rfl, all first List.mem_cons_self⟩

theorem readScalar_numeral {numeral : Numeral} {number : Number}
    (known : numeral.number? = some number) :
    readScalar numeral.text = .ok (.number number, []) := by
  have read := readNumeral_unsignedText known
  unfold Numeral.text
  cases negative : numeral.negative with
  | true =>
    rw [negative] at read
    rw [if_pos rfl, List.singleton_append, readScalar, read]
    rfl
  | false =>
    obtain ⟨first, later, same, digit⟩ := exists_unsignedText_eq_cons numeral
    rw [negative, same] at read
    rw [if_neg Bool.false_ne_true, List.nil_append, same, readScalar_digit digit, read]
    rfl

/-- A value that contains no other is read from its spelling, whatever follows that could not
be part of a numeral. -/
theorem readScalar_spelling (single : IsScalar token tree) {spelling : List Char}
    (spells : Spells Numeral.Denotes token spelling) (delimits : Delimits rest) :
    readScalar (spelling ++ rest) = .ok (tree, rest) := by
  cases spells with
  | fixed known =>
    cases single with
    | null =>
      cases known
      exact readWord_append Tree.null ['u', 'l', 'l'] rest
    | bool value =>
      cases value
      · cases known
        exact readWord_append (Tree.bool false) ['a', 'l', 's', 'e'] rest
      · cases known
        exact readWord_append (Tree.bool true) ['r', 'u', 'e'] rest
    | number => cases known
    | string => cases known
  | number numeral known =>
    cases single
    have read := readScalar_append delimits (readScalar_numeral known)
    rwa [List.nil_append] at read
  | string body =>
    cases single
    simp only [List.cons_append, List.append_assoc, List.nil_append, readScalar,
      readString_body body rest, andThen]

end JsonOverlay.Grammar
