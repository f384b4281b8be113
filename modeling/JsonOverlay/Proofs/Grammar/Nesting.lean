/-
This file counts brackets. A text that is laid out as tokens opens and closes what its tokens
do, since brackets in strings do not count. The tokens of a tree close whatever they open, so
a text with a bracket left open denotes no tree.
-/

import JsonOverlay.Proofs.Grammar.Render

namespace JsonOverlay.Grammar

open Reader

variable {numerals : Numeral → Number → Prop} {trailingCommas : Bool} {token : Token}
  {tokens : List Token} {character : Char} {text front source value written rest : List Char}
  {tree : Tree}

/-! ### Tokens -/

/-- How a token changes the number of open brackets. -/
def Token.change : Token → Int
  | openArray | openObject => 1
  | closeArray | closeObject => -1
  | _ => 0

/-- How tokens change the number of open brackets. -/
def change : List Token → Int
  | [] => 0
  | token :: rest => token.change + change rest

theorem change_append (first second : List Token) :
    change (first ++ second) = change first + change second := by
  induction first with
  | nil => exact (Int.zero_add _).symm
  | cons token first inductionHypothesis =>
    rw [List.cons_append, change, change, inductionHypothesis, Int.add_assoc]

theorem Trailing.change_eq (trailing : Trailing trailingCommas tokens) : change tokens = 0 := by
  cases trailing
  all_goals rfl

mutual

/-- The tokens of a tree close what they open. -/
theorem change_derives : ∀ {tokens : List Token} {tree : Tree},
    Derives trailingCommas tokens tree → change tokens = 0
  | _, _, .null => rfl
  | _, _, .bool _ => rfl
  | _, _, .number _ => rfl
  | _, _, .string _ => rfl
  | _, _, .emptyArray => rfl
  | _, _, .array first others trailing => by
    simp only [change, change_append, change_derives first, change_derivesItems others,
      trailing.change_eq]
    rfl
  | _, _, .emptyObject => rfl
  | _, _, .object first others trailing => by
    simp only [change, change_append, change_derives first, change_derivesMembers others,
      trailing.change_eq]
    rfl

theorem change_derivesItems : ∀ {tokens : List Token} {items : List Tree},
    DerivesItems trailingCommas tokens items → change tokens = 0
  | _, _, .nil => rfl
  | _, _, .cons first others => by
    simp only [change, change_append, change_derives first, change_derivesItems others]
    rfl

theorem change_derivesMembers : ∀ {tokens : List Token} {members : List (String × Tree)},
    DerivesMembers trailingCommas tokens members → change tokens = 0
  | _, _, .nil => rfl
  | _, _, .cons first others => by
    simp only [change, change_append, change_derives first, change_derivesMembers others]
    rfl

end

/-! ### Characters -/

/-- How a character outside strings changes the number of open brackets. -/
def bracketChange (character : Char) : Int :=
  if character = '[' ∨ character = '\x7b' then 1
  else if character = ']' ∨ character = '\x7d' then -1
  else 0

/-- The number of brackets that a text opens less the number of those that it closes, given
whether it starts inside a string. -/
def balance : Bool → List Char → Int
  | _, [] => 0
  | false, '"' :: rest => balance true rest
  | false, other :: rest => bracketChange other + balance false rest
  | true, '"' :: rest => balance false rest
  | true, '\\' :: _ :: rest => balance true rest
  | true, _ :: rest => balance true rest

theorem balance_cons (noQuote : character ≠ '"') (rest : List Char) :
    balance false (character :: rest) = bracketChange character + balance false rest := by
  rw [balance]
  exact noQuote

theorem balance_cons_quoted (noQuote : character ≠ '"') (noBackslash : character ≠ '\\')
    (rest : List Char) : balance true (character :: rest) = balance true rest := by
  rw [balance]
  · exact noQuote
  · exact fun _ _ same => (noBackslash same).elim

/-- Characters that are no brackets and no quotes do not count. -/
theorem balance_append (plain : ∀ character ∈ front, character ≠ '"' ∧ bracketChange character = 0)
    (rest : List Char) : balance false (front ++ rest) = balance false rest := by
  induction front with
  | nil => rfl
  | cons first front inductionHypothesis =>
    obtain ⟨⟨noQuote, noBracket⟩, others⟩ := List.forall_mem_cons.mp plain
    rw [List.cons_append, balance_cons noQuote, noBracket, inductionHypothesis others,
      Int.zero_add]

theorem balance_append_quoted
    (plain : ∀ character ∈ front, character ≠ '"' ∧ character ≠ '\\') (rest : List Char) :
    balance true (front ++ rest) = balance true rest := by
  induction front with
  | nil => rfl
  | cons first front inductionHypothesis =>
    obtain ⟨⟨noQuote, noBackslash⟩, others⟩ := List.forall_mem_cons.mp plain
    rw [List.cons_append, balance_cons_quoted noQuote noBackslash, inductionHypothesis others]

theorem balance_escape (known : Escape written character) (rest : List Char) :
    balance true ('\\' :: (written ++ rest)) = balance true rest := by
  cases known with
  | letter => rfl
  | unit known => exact balance_append_quoted (plain_of_hexQuad? known) rest
  | pair known _ knownLow _ =>
    refine (balance_append_quoted (plain_of_hexQuad? known) _).trans ?_
    exact balance_append_quoted (plain_of_hexQuad? knownLow) rest

/-- Nothing in a string counts. -/
theorem balance_body (body : StringBody source value) (rest : List Char) :
    balance true (source ++ '"' :: rest) = balance false rest := by
  induction body with
  | nil => rfl
  | plain noQuote noBackslash _ _ inductionHypothesis =>
    rw [List.cons_append, balance_cons_quoted noQuote noBackslash, inductionHypothesis]
  | escape known _ inductionHypothesis =>
    rw [List.cons_append, List.append_assoc, balance_escape known, inductionHypothesis]

theorem balance_blanks (blank : ∀ character ∈ front, Text.isBlank character = true)
    (rest : List Char) : balance false (front ++ rest) = balance false rest := by
  refine balance_append (fun character member => ?_) rest
  have here := blank character member
  simp only [Text.isBlank, Bool.or_eq_true, beq_iff_eq] at here
  rcases here with ((rfl | rfl) | rfl) | rfl
  all_goals decide

theorem InNumeral.bracketChange_eq (known : InNumeral character) : bracketChange character = 0 := by
  have openArray : character ≠ '[' := known.ne rfl (by decide)
  have openObject : character ≠ '\x7b' := known.ne rfl (by decide)
  have closeArray : character ≠ ']' := known.ne rfl (by decide)
  have closeObject : character ≠ '\x7d' := known.ne rfl (by decide)
  simp [bracketChange, openArray, openObject, closeArray, closeObject]

/-- A token counts as its brackets do. -/
theorem Spells.balance_append (spells : Spells numerals token text) (rest : List Char) :
    balance false (text ++ rest) = token.change + balance false rest := by
  cases spells with
  | fixed known =>
    cases token with
    | number => cases known
    | string => cases known
    | bool value =>
      cases value
      all_goals
        cases known
        exact (Grammar.balance_append (by simp [bracketChange]) rest).trans (Int.zero_add _).symm
    | null | comma | colon =>
      cases known
      exact (Grammar.balance_append (by simp [bracketChange]) rest).trans (Int.zero_add _).symm
    | _ =>
      cases known
      exact balance_cons (by decide) rest
  | number numeral =>
    refine (Grammar.balance_append (fun character member => ?_) rest).trans (Int.zero_add _).symm
    have known := numeral.inNumeral character member
    exact ⟨known.ne rfl (by decide), known.bracketChange_eq⟩
  | string body =>
    rw [List.cons_append, List.append_assoc]
    exact (balance_body body rest).trans (Int.zero_add _).symm

/-- A text counts as its tokens do. -/
theorem Laid.balance_eq (laid : Laid numerals false tokens text rest) :
    balance false text = change tokens + balance false rest := by
  induction laid with
  | nil => exact (Int.zero_add _).symm
  | cons gap spells _ inductionHypothesis =>
    rw [balance_blanks gap.isBlank, spells.balance_append, inductionHypothesis, change,
      Int.add_assoc]

/-- A text that denotes a tree closes what it opens. -/
theorem Denotes.balance_eq {dialect : Dialect} (denotes : Denotes dialect text tree)
    (strict : dialect.comments = false) : balance false text = 0 := by
  obtain ⟨tokens, derives, last, laid, ending⟩ := denotes
  rw [strict] at laid ending
  have nothing := balance_blanks ending.isBlank []
  rw [List.append_nil] at nothing
  rw [laid.balance_eq, change_derives derives, nothing]
  rfl

end JsonOverlay.Grammar
