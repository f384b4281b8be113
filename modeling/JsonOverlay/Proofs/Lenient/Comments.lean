/-
This file shows what overwriting comments does to a text: it leaves the parts of the text as they
are, but for the comments. If a block comment is not closed there is no such text, and the answer
is how many bytes there are from its mark on.
-/

import JsonOverlay.Proofs.Lenient.Parts
import JsonOverlay.Reader.Lenient

namespace JsonOverlay.Lenient

open Reader

variable {comments : Bool} {text rest body after out : List Char} {part : Part}
  {parts : List Part} {opened : Nat}

/-! ### What is left of parts -/

/-- What is left of a part when comments are overwritten. -/
def Part.uncommented (part : Part) : List Char :=
  match part.region with
  | .comment => part.characters.flatMap blanked
  | _ => part.characters

def uncommented (parts : List Part) : List Char := parts.flatMap Part.uncommented

@[simp]
theorem uncommented_nil : uncommented [] = [] := rfl

@[simp]
theorem uncommented_cons (part : Part) (parts : List Part) :
    uncommented (part :: parts) = part.uncommented ++ uncommented parts := rfl

@[simp]
theorem uncommented_append (first second : List Part) :
    uncommented (first ++ second) = uncommented first ++ uncommented second := List.flatMap_append

theorem Part.uncommented_eq (noComment : part.region ≠ .comment) :
    part.uncommented = part.characters := by
  rcases part with ⟨_ | _ | _, characters⟩
  · rfl
  · rfl
  · exact (noComment rfl).elim

theorem First.region_ne_comment (first : First false part rest) : part.region ≠ .comment := by
  cases first with
  | lineComment allowed => cases allowed
  | blockComment allowed => cases allowed
  | _ => nofun

/-- Where there are no comments everything is left. -/
theorem uncommented_eq_textOf (divides : Divides false rest parts) :
    uncommented parts = textOf parts := by
  induction divides with
  | nothing => rfl
  | cons first _ inductionHypothesis =>
    rw [uncommented_cons, textOf_cons, inductionHypothesis,
      Part.uncommented_eq first.region_ne_comment]

/-! ### Fronts -/

/-- Characters that are put before what is left. -/
theorem bind_eq_map (front : List Char) (reading : Except Nat (List Char)) :
    (do return front ++ (← reading)) = reading.map (front ++ ·) := by
  cases reading <;> rfl

theorem map_nil (reading : Except Nat (List Char)) : reading.map ([] ++ ·) = reading := by
  cases reading <;> rfl

theorem map_map (first second : List Char) (reading : Except Nat (List Char)) :
    (reading.map (second ++ ·)).map (first ++ ·) = reading.map (first ++ second ++ ·) := by
  cases reading with
  | error => rfl
  | ok left => exact congrArg Except.ok (List.append_assoc first second left).symm

/-! ### Inside strings and comments -/

/-- What is taken character by character: a string up to a quote or an escape, a line comment up to
the end of the line, a block comment up to the mark that closes it, and other text up to where a
string or a comment opens. -/
theorem blankComments_cons (first : Char) (text : List Char) :
    (first ≠ '"' → first ≠ '\\' → blankComments .quoted (first :: text) =
      (blankComments .quoted text).map ([first] ++ ·)) ∧
    (first ≠ '\n' → blankComments .lineComment (first :: text) =
      (blankComments .lineComment text).map (blanked first ++ ·)) ∧
    (∀ opened, (∀ later, first = '*' → text = '/' :: later → False) →
      blankComments (.blockComment opened) (first :: text) =
        (blankComments (.blockComment opened) text).map (blanked first ++ ·)) ∧
    (first ≠ '"' → (∀ later, first = '/' → text = '/' :: later → False) →
      (∀ later, first = '/' → text = '*' :: later → False) →
        blankComments .plain (first :: text) = (blankComments .plain text).map ([first] ++ ·)) := by
  refine ⟨fun noQuote noEscape => ?_, fun noEnd => ?_, fun opened stays => ?_,
    fun noQuote noLine noBlock => ?_⟩
  · exact (blankComments.eq_9 _ _ noQuote fun _ _ same => (noEscape same).elim).trans
      (bind_eq_map [first] _)
  · exact (blankComments.eq_11 _ _ noEnd).trans (bind_eq_map (blanked first) _)
  · exact (blankComments.eq_13 _ _ _ stays).trans (bind_eq_map (blanked first) _)
  · exact (blankComments.eq_6 _ _ noQuote noLine noBlock).trans (bind_eq_map [first] _)

theorem blankComments_quoted (quoted : Quoted body) (rest : List Char) :
    blankComments .quoted (body ++ rest) = (blankComments .quoted rest).map (body ++ ·) := by
  induction quoted with
  | nothing => exact (map_nil _).symm
  | @other character body noQuote noEscape _ inductionHypothesis =>
    rw [List.cons_append, (blankComments_cons character _).1 noQuote noEscape, inductionHypothesis]
    exact map_map [character] body _
  | @escape character body _ inductionHypothesis =>
    show (do return ['\\', character] ++ (← blankComments .quoted (body ++ rest))) = _
    rw [bind_eq_map, inductionHypothesis, map_map]
    rfl

theorem blankComments_lineComment (line : '\n' ∉ body) (rest : List Char) :
    blankComments .lineComment (body ++ rest) =
      (blankComments .lineComment rest).map (body.flatMap blanked ++ ·) := by
  induction body with
  | nil => exact (map_nil _).symm
  | cons first body inductionHypothesis =>
    obtain ⟨here, others⟩ := not_or.mp (mt List.mem_cons.mpr line)
    rw [List.cons_append, (blankComments_cons first _).2.1 (Ne.symm here),
      inductionHypothesis others, map_map]
    rfl

/-- Where a line ends the text is plain. -/
theorem blankComments_lineComment_of_head? (ends : ∀ next ∈ rest.head?, next = '\n') :
    blankComments .lineComment rest = blankComments .plain rest := by
  rcases rest with _ | ⟨next, rest⟩
  · rfl
  · obtain rfl := ends next rfl
    rfl

theorem blankComments_blockComment (unclosed : ¬['*', '/'] <:+: body) (rest : List Char) :
    blankComments (.blockComment opened) (body ++ '*' :: '/' :: rest) =
      (blankComments .plain rest).map (body.flatMap blanked ++ [' ', ' '] ++ ·) := by
  induction body with
  | nil => exact bind_eq_map [' ', ' '] _
  | cons first body inductionHypothesis =>
    have others := mt List.infix_cons unclosed
    rw [List.cons_append, (blankComments_cons first _).2.2.1 opened (stays_before_mark unclosed),
      inductionHypothesis others, map_map, List.flatMap_cons, List.append_assoc (blanked first)]

theorem blankComments_unclosed (unclosed : ¬['*', '/'] <:+: after) :
    blankComments (.blockComment opened) after = .error opened := by
  induction after with
  | nil => rfl
  | cons first after inductionHypothesis =>
    have others := mt List.infix_cons unclosed
    rw [(blankComments_cons first after).2.2.1 opened (stays_of_unclosed unclosed),
      inductionHypothesis others]
    rfl

/-! ### Parts -/

theorem blankComments_string (body rest : List Char) :
    blankComments .plain ('"' :: (body ++ rest)) =
      (blankComments .quoted (body ++ rest)).map ('"' :: ·) :=
  bind_eq_map ['"'] _

/-- A part is overwritten if it is a comment. -/
theorem First.blankComments_eq (first : First true part rest) :
    blankComments .plain (part.characters ++ rest) =
      (blankComments .plain rest).map (part.uncommented ++ ·) := by
  cases first with
  | @plain character rest noQuote noComment =>
    refine (blankComments_cons character rest).2.2.2 noQuote ?_ ?_
    · rintro later rfl rfl
      exact noComment rfl ⟨later, .inl rfl⟩
    · rintro later rfl rfl
      exact noComment rfl ⟨later, .inr rfl⟩
  | @string body rest quoted =>
    have closing : blankComments .quoted ('"' :: rest) =
        (blankComments .plain rest).map ('"' :: ·) := bind_eq_map ['"'] _
    show blankComments .plain ('"' :: ((body ++ ['"']) ++ rest)) = _
    rw [List.append_assoc, blankComments_string, blankComments_quoted quoted]
    show (((blankComments .quoted ('"' :: rest)).map (body ++ ·)).map ('"' :: ·)) = _
    rw [closing]
    exact (congrArg _ (map_map body ['"'] _)).trans (map_map ['"'] (body ++ ['"']) _)
  | @openString body rest quoted ends =>
    subst ends
    show blankComments .plain ('"' :: (body ++ [])) = _
    rw [blankComments_string, blankComments_quoted quoted]
    rfl
  | @openEscape body rest quoted ends =>
    subst ends
    show blankComments .plain ('"' :: ((body ++ ['\\']) ++ [])) = _
    rw [List.append_assoc, blankComments_string, blankComments_quoted quoted]
    exact congrArg Except.ok (List.append_nil _).symm
  | @lineComment body rest allowed line ends =>
    show (do return [' ', ' '] ++ (← blankComments .lineComment (body ++ rest))) = _
    rw [bind_eq_map, blankComments_lineComment line, blankComments_lineComment_of_head? ends,
      map_map]
    rfl
  | @blockComment body rest allowed unclosed =>
    show (do return [' ', ' '] ++ (← blankComments (.blockComment _)
      ((body ++ ['*', '/']) ++ rest))) = _
    rw [bind_eq_map, List.append_assoc]
    refine (congrArg _ (blankComments_blockComment unclosed rest)).trans ((map_map _ _ _).trans ?_)
    show _ = (blankComments .plain rest).map
      (('/' :: '*' :: (body ++ ['*', '/'])).flatMap blanked ++ ·)
    rw [List.flatMap_cons, List.flatMap_cons, List.flatMap_append]
    rfl

/-- What is left of a text that starts with parts. -/
theorem Divides.blankComments_eq (divides : Divides true rest parts) :
    blankComments .plain (textOf parts ++ rest) =
      (blankComments .plain rest).map (uncommented parts ++ ·) := by
  induction divides with
  | nothing => exact (map_nil _).symm
  | cons first _ inductionHypothesis =>
    rw [textOf_cons, List.append_assoc, first.blankComments_eq, inductionHypothesis, map_map]
    rfl

/-! ### Whole texts -/

theorem blankComments_textOf (divides : Divides true [] parts) :
    blankComments .plain (textOf parts) = .ok (uncommented parts) := by
  have left := divides.blankComments_eq
  rw [List.append_nil] at left
  exact left.trans (congrArg Except.ok (List.append_nil _))

theorem Unclosed.blankComments_eq (unclosed : Unclosed text parts after) :
    blankComments .plain text = .error (Text.byteLength after + 2) := by
  have inside : blankComments .plain ('/' :: '*' :: after) = .error (Text.byteLength after + 2) :=
    (bind_eq_map [' ', ' '] _).trans (by rw [blankComments_unclosed unclosed.unclosed]; rfl)
  rw [unclosed.same, unclosed.divides.blankComments_eq, inside]
  rfl

/-- Comments are overwritten once and for all. -/
theorem relax_comments_eq (divides : Divides comments [] parts) :
    (if comments then blankComments .plain (textOf parts) else .ok (textOf parts)) =
      .ok (uncommented parts) := by
  cases comments with
  | false => exact congrArg Except.ok (uncommented_eq_textOf divides).symm
  | true => exact blankComments_textOf divides

end JsonOverlay.Lenient
