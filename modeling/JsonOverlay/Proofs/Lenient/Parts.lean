/-
This file divides texts into parts: string literals, comments, and single characters outside of
them. Every text can be divided, unless it has a block comment that is not closed. How a text is
divided does not depend on any pass over it.
-/

import JsonOverlay.Text.Bytes
import Mathlib.Data.List.Infix

namespace JsonOverlay.Lenient

variable {comments : Bool} {text rest body : List Char} {character : Char}

/-! ### Parts -/

/-- What a part of a text is. -/
inductive Region where
  | plain
  | string
  | comment
deriving DecidableEq

/-- A part of a text. -/
structure Part where
  region : Region
  characters : List Char

/-- Characters inside a string: no quotes, but a character behind a backslash may be any. -/
inductive Quoted : List Char → Prop where
  | nothing : Quoted []
  | other {character : Char} {rest : List Char} (noQuote : character ≠ '"')
      (noEscape : character ≠ '\\') (others : Quoted rest) : Quoted (character :: rest)
  | escape {character : Char} {rest : List Char} (others : Quoted rest) :
      Quoted ('\\' :: character :: rest)

/-- A text that starts with the mark of a comment. -/
def OpensComment (text : List Char) : Prop :=
  ∃ later, text = '/' :: '/' :: later ∨ text = '/' :: '*' :: later

/-- A part that a text starts with, given what stands behind it. A string that is not closed
takes in all that is left, and a line comment goes on up to the line feed. -/
inductive First (comments : Bool) : Part → List Char → Prop where
  | plain {character : Char} {rest : List Char} (noQuote : character ≠ '"')
      (noComment : comments = true → ¬OpensComment (character :: rest)) :
      First comments ⟨.plain, [character]⟩ rest
  | string {body rest : List Char} (quoted : Quoted body) :
      First comments ⟨.string, '"' :: (body ++ ['"'])⟩ rest
  | openString {body rest : List Char} (quoted : Quoted body) (ends : rest = []) :
      First comments ⟨.string, '"' :: body⟩ rest
  | openEscape {body rest : List Char} (quoted : Quoted body) (ends : rest = []) :
      First comments ⟨.string, '"' :: (body ++ ['\\'])⟩ rest
  | lineComment {body rest : List Char} (allowed : comments = true) (line : '\n' ∉ body)
      (ends : ∀ next ∈ rest.head?, next = '\n') : First comments ⟨.comment, '/' :: '/' :: body⟩ rest
  | blockComment {body rest : List Char} (allowed : comments = true)
      (unclosed : ¬['*', '/'] <:+: body) :
      First comments ⟨.comment, '/' :: '*' :: (body ++ ['*', '/'])⟩ rest

/-- The text that parts make up. -/
def textOf (parts : List Part) : List Char := parts.flatMap Part.characters

@[simp]
theorem textOf_nil : textOf [] = [] := rfl

@[simp]
theorem textOf_cons (part : Part) (parts : List Part) :
    textOf (part :: parts) = part.characters ++ textOf parts := rfl

@[simp]
theorem textOf_append (first second : List Part) :
    textOf (first ++ second) = textOf first ++ textOf second := List.flatMap_append

/-- The parts of a text, given what stands behind them. -/
inductive Divides (comments : Bool) (rest : List Char) : List Part → Prop where
  | nothing : Divides comments rest []
  | cons {part : Part} {parts : List Part} (first : First comments part (textOf parts ++ rest))
      (others : Divides comments rest parts) : Divides comments rest (part :: parts)

theorem First.ne_nil {part : Part} (first : First comments part rest) : part.characters ≠ [] := by
  cases first <;> exact List.cons_ne_nil _ _

/-- There are no parts without characters. -/
theorem Divides.eq_nil {parts : List Part} (divides : Divides comments rest parts)
    (nothing : textOf parts = []) : parts = [] := by
  cases divides with
  | nothing => rfl
  | cons first others => exact (first.ne_nil (List.append_eq_nil_iff.mp nothing).1).elim

/-! ### Every text has parts -/

/-- From inside a string on there is a quote that closes it, or the text ends inside of it. -/
theorem quoted_cases (text : List Char) :
    (∃ body rest, text = body ++ '"' :: rest ∧ Quoted body) ∨ Quoted text ∨
      ∃ body, text = body ++ ['\\'] ∧ Quoted body := by
  induction size : text.length using Nat.strong_induction_on generalizing text with
  | h size inductionHypothesis =>
    rcases text with _ | ⟨first, text⟩
    · exact .inr (.inl .nothing)
    by_cases quote : first = '"'
    · subst quote
      exact .inl ⟨[], text, rfl, .nothing⟩
    by_cases escape : first = '\\'
    · subst escape
      rcases text with _ | ⟨second, text⟩
      · exact .inr (.inr ⟨[], rfl, .nothing⟩)
      have shorter : text.length < ('\\' :: second :: text).length :=
        Nat.lt_succ_of_lt (Nat.lt_succ_self _)
      rcases inductionHypothesis text.length (size ▸ shorter) text rfl with
        ⟨body, rest, rfl, quoted⟩ | quoted | ⟨body, rfl, quoted⟩
      · exact .inl ⟨_, rest, rfl, .escape quoted⟩
      · exact .inr (.inl (.escape quoted))
      · exact .inr (.inr ⟨_, rfl, .escape quoted⟩)
    · rcases inductionHypothesis text.length (by simp [← size]) text rfl with
        ⟨body, rest, rfl, quoted⟩ | quoted | ⟨body, rfl, quoted⟩
      · exact .inl ⟨_, rest, rfl, .other quote escape quoted⟩
      · exact .inr (.inl (.other quote escape quoted))
      · exact .inr (.inr ⟨_, rfl, .other quote escape quoted⟩)

/-- A block comment ends at the first mark that closes one. -/
theorem exists_of_infix (closed : ['*', '/'] <:+: text) :
    ∃ body rest, text = body ++ '*' :: '/' :: rest ∧ ¬['*', '/'] <:+: body := by
  induction text with
  | nil => cases List.eq_nil_of_infix_nil closed
  | cons first text inductionHypothesis =>
    rcases List.infix_cons_iff.mp closed with ⟨rest, here⟩ | later
    · exact ⟨[], rest, here.symm, by simp⟩
    · by_cases starts : ∃ rest, first :: text = '*' :: '/' :: rest
      · obtain ⟨rest, here⟩ := starts
        exact ⟨[], rest, here, by simp⟩
      · obtain ⟨body, rest, rfl, unclosed⟩ := inductionHypothesis later
        refine ⟨first :: body, rest, rfl, fun inside => ?_⟩
        rcases List.infix_cons_iff.mp inside with ⟨more, same⟩ | below
        · refine starts ⟨more ++ '*' :: '/' :: rest, ?_⟩
          rw [← List.cons_append, ← same]
          rfl
        · exact unclosed below

/-- Where no mark closes a comment, a star is not followed by a slash. -/
theorem stays_of_unclosed (unclosed : ¬['*', '/'] <:+: character :: text) :
    ∀ later, character = '*' → text = '/' :: later → False := by
  rintro later rfl rfl
  exact unclosed (List.infix_cons_iff.mpr (.inl ⟨later, rfl⟩))

theorem stays_before_mark (unclosed : ¬['*', '/'] <:+: character :: body) :
    ∀ later, character = '*' → body ++ '*' :: '/' :: rest = '/' :: later → False := by
  intro later star same
  rcases body with _ | ⟨second, body⟩
  · cases same
  · cases same
    exact stays_of_unclosed unclosed body star rfl

/-- A text starts with some part, or with a block comment that is not closed. -/
theorem exists_first (comments : Bool) (character : Char) (text : List Char) :
    (∃ part rest, character :: text = part.characters ++ rest ∧ First comments part rest) ∨
      (comments = true ∧ ∃ after, character :: text = '/' :: '*' :: after ∧
        ¬['*', '/'] <:+: after) := by
  by_cases quote : character = '"'
  · subst quote
    rcases quoted_cases text with ⟨body, rest, rfl, quoted⟩ | quoted | ⟨body, rfl, quoted⟩
    · exact .inl ⟨_, rest, by simp, .string quoted⟩
    · exact .inl ⟨_, [], by simp, .openString quoted rfl⟩
    · exact .inl ⟨_, [], by simp, .openEscape quoted rfl⟩
  by_cases plain : comments = true → ¬OpensComment (character :: text)
  · exact .inl ⟨_, text, rfl, .plain quote plain⟩
  obtain ⟨allowed, later, line | block⟩ := Classical.not_imp.mp plain |>.imp id Classical.not_not.mp
  · cases line
    by_cases feed : '\n' ∈ later
    · obtain ⟨body, rest, rfl, before⟩ := List.eq_append_cons_of_mem feed
      exact .inl ⟨_, '\n' :: rest, rfl, .lineComment allowed before (by simp)⟩
    · exact .inl ⟨⟨.comment, '/' :: '/' :: later⟩, [], by simp, .lineComment allowed feed (by simp)⟩
  · cases block
    by_cases closed : ['*', '/'] <:+: later
    · obtain ⟨body, rest, rfl, unclosed⟩ := exists_of_infix closed
      exact .inl ⟨_, rest, by simp, .blockComment allowed unclosed⟩
    · exact .inr ⟨allowed, later, rfl, closed⟩

/-- A text whose block comment is not closed: the parts before its mark, and what is behind. -/
structure Unclosed (text : List Char) (parts : List Part) (after : List Char) : Prop where
  divides : Divides true ('/' :: '*' :: after) parts
  same : text = textOf parts ++ '/' :: '*' :: after
  unclosed : ¬['*', '/'] <:+: after

/-- Every text has parts, unless a block comment is not closed. -/
theorem divides_or_unclosed (comments : Bool) (text : List Char) :
    (∃ parts, Divides comments [] parts ∧ textOf parts = text) ∨
      (comments = true ∧ ∃ parts after, Unclosed text parts after) := by
  induction size : text.length using Nat.strong_induction_on generalizing text with
  | h size inductionHypothesis =>
    rcases text with _ | ⟨character, text⟩
    · exact .inl ⟨[], .nothing, rfl⟩
    rcases exists_first comments character text with
      ⟨part, rest, parted, first⟩ | ⟨allowed, after, same, unclosed⟩
    -- No part is empty, so what is left is shorter.
    · have shorter : rest.length < (character :: text).length := by
        have positive := List.length_pos_iff.mpr first.ne_nil
        rw [parted, List.length_append]
        omega
      rcases inductionHypothesis rest.length (size ▸ shorter) rest rfl with
        ⟨parts, others, rfl⟩ | ⟨allowed, parts, after, others⟩
      · exact .inl ⟨part :: parts, .cons (by rwa [List.append_nil]) others, parted.symm⟩
      · subst allowed
        refine .inr ⟨rfl, part :: parts, after, .cons (others.same ▸ first) others.divides, ?_,
          others.unclosed⟩
        rw [parted, others.same, textOf_cons, List.append_assoc]
    · exact .inr ⟨allowed, [], after, .nothing, same, unclosed⟩

end JsonOverlay.Lenient
