/-
This file shows what overwriting trailing commas does to a text whose comments are gone: it
overwrites every comma outside of strings that stands between a value and a closing bracket, and
nothing else. The overwriting keeps the last character that was no blank as it goes on. Behind a
comma that it has overwritten that is not the last such character of the text, but then a bracket
closes next, and it matters no longer.
-/

import JsonOverlay.Proofs.Grammar.Parse
import JsonOverlay.Proofs.Lenient.Comments

namespace JsonOverlay.Lenient

open Reader

variable {comments : Bool} {text rest body blanks : List Char} {character : Char} {part : Part}
  {before after parts : List Part} {last : Option Char}

/-! ### Neighbours -/

/-- The last character that is no blank. -/
def lastVisible (text : List Char) : Option Char :=
  text.reverse.find? fun character => !Text.isAsciiBlank character

/-- A comma trails if the next character behind it that is no blank is a closing bracket, and the
last one before it is there and neither an opening bracket nor a comma. Comments are blanks. -/
structure Trailing (before after : List Part) : Prop where
  closed : ∃ blanks next later, uncommented after = blanks ++ next :: later ∧
    (∀ blank ∈ blanks, Text.isAsciiBlank blank = true) ∧ next ∈ [']', '\x7d']
  filled : ∃ earlier last blanks, uncommented before = earlier ++ last :: blanks ∧
    (∀ blank ∈ blanks, Text.isAsciiBlank blank = true) ∧ Text.isAsciiBlank last = false ∧
      last ∉ ['[', '\x7b', ',']

/-- Whether a comma trails. -/
def trails (before after : List Part) : Bool :=
  closesNext (uncommented after) && followsValue (lastVisible (uncommented before))

theorem closesNext_append (blank : ∀ character ∈ blanks, Text.isAsciiBlank character = true)
    (text : List Char) : closesNext (blanks ++ text) = closesNext text := by
  rw [closesNext, closesNext, List.dropWhile_append_of_pos blank]

theorem closesNext_cons_blank (blank : Text.isAsciiBlank character = true) (text : List Char) :
    closesNext (character :: text) = closesNext text :=
  closesNext_append (List.forall_mem_singleton.mpr blank) text

theorem closesNext_cons (noBlank : Text.isAsciiBlank character = false) (text : List Char) :
    closesNext (character :: text) = (character == ']' || character == '\x7d') := by
  rw [closesNext, List.dropWhile_cons_of_neg (by simp [noBlank])]

theorem lastVisible_append (first second : List Char) :
    lastVisible (first ++ second) = (lastVisible second).or (lastVisible first) := by
  rw [lastVisible, List.reverse_append, List.find?_append]
  rfl

theorem lastVisible_eq_none_iff :
    lastVisible text = none ↔ ∀ character ∈ text, Text.isAsciiBlank character = true := by
  simp [lastVisible]

theorem lastVisible_concat (noBlank : Text.isAsciiBlank character = false) (text : List Char) :
    lastVisible (text ++ [character]) = some character := by
  have visible : lastVisible [character] = some character :=
    List.find?_cons_of_pos (by simp [noBlank])
  rw [lastVisible_append, visible, Option.some_or]

theorem lastVisible_concat_blank (blank : Text.isAsciiBlank character = true) (text : List Char) :
    lastVisible (text ++ [character]) = lastVisible text := by
  have nothing : lastVisible [character] = none :=
    lastVisible_eq_none_iff.mpr (List.forall_mem_singleton.mpr blank)
  rw [lastVisible_append, nothing, Option.none_or]

theorem closesNext_iff : closesNext text = true ↔
    ∃ blanks next later, text = blanks ++ next :: later ∧
      (∀ blank ∈ blanks, Text.isAsciiBlank blank = true) ∧ next ∈ [']', '\x7d'] := by
  constructor
  · intro closes
    have parted : text.takeWhile Text.isAsciiBlank ++ text.dropWhile Text.isAsciiBlank = text :=
      List.takeWhile_append_dropWhile
    unfold closesNext at closes
    split at closes
    · rename_i next later left
      rw [left] at parted
      exact ⟨_, next, later, parted.symm, fun _ => List.mem_takeWhile_imp, by simpa using closes⟩
    · cases closes
  · rintro ⟨blanks, next, later, rfl, blank, closing⟩
    simp only [List.mem_cons, List.not_mem_nil, or_false] at closing
    rw [closesNext_append blank]
    rcases closing with rfl | rfl
    · rfl
    · rfl

theorem followsValue_iff : followsValue (lastVisible text) = true ↔
    ∃ earlier last blanks, text = earlier ++ last :: blanks ∧
      (∀ blank ∈ blanks, Text.isAsciiBlank blank = true) ∧ Text.isAsciiBlank last = false ∧
        last ∉ ['[', '\x7b', ','] := by
  constructor
  · intro follows
    cases visible : lastVisible text with
    | none =>
      rw [visible] at follows
      cases follows
    | some last =>
      rw [visible] at follows
      obtain ⟨noBlank, blanks, earlier, same, blank⟩ := List.find?_eq_some_iff_append.mp visible
      refine ⟨earlier.reverse, last, blanks.reverse, ?_, fun character member => ?_,
        by simpa using noBlank, by simpa [followsValue, and_assoc] using follows⟩
      · rw [← List.reverse_reverse text, same]
        simp
      · simpa using blank character (List.mem_reverse.mp member)
  · rintro ⟨earlier, last, blanks, rfl, blank, noBlank, other⟩
    rw [List.append_cons, lastVisible_append, lastVisible_eq_none_iff.mpr blank, Option.none_or,
      lastVisible_concat noBlank]
    simpa [followsValue, and_assoc] using other

theorem trails_iff : trails before after = true ↔ Trailing before after := by
  rw [trails, Bool.and_eq_true, closesNext_iff, followsValue_iff]
  exact ⟨fun known => ⟨known.1, known.2⟩, fun known => ⟨known.closed, known.filled⟩⟩

/-! ### What is left of parts -/

/-- What is left of a part between others when comments are overwritten, and trailing commas if
that is allowed. -/
def Part.overwritten (trailingCommas : Bool) (before after : List Part) (part : Part) :
    List Char :=
  match part.region with
  | .comment => part.characters.flatMap blanked
  | .string => part.characters
  | .plain =>
    if trailingCommas ∧ part.characters = [','] ∧ trails before after then [' ']
    else part.characters

/-- What is left of parts behind others. -/
def overwritten (trailingCommas : Bool) (before : List Part) : List Part → List Char
  | [] => []
  | part :: parts =>
    part.overwritten trailingCommas before parts ++
      overwritten trailingCommas (before ++ [part]) parts

theorem Part.overwritten_false (before after : List Part) (part : Part) :
    part.overwritten false before after = part.uncommented := by
  rcases part with ⟨_ | _ | _, characters⟩
  all_goals rfl

theorem Part.overwritten_comma (before after : List Part) :
    Part.overwritten true before after ⟨.plain, [',']⟩ =
      if trails before after then [' '] else [','] := by
  simp [Part.overwritten]

/-- Of what is plain only commas are overwritten. -/
theorem Part.overwritten_plain (noComma : character ≠ ',') (trailingCommas : Bool)
    (before after : List Part) :
    Part.overwritten trailingCommas before after ⟨.plain, [character]⟩ = [character] := by
  simp [Part.overwritten, noComma]

theorem overwritten_false (before parts : List Part) :
    overwritten false before parts = uncommented parts := by
  induction parts generalizing before with
  | nil => rfl
  | cons part parts inductionHypothesis =>
    rw [overwritten, uncommented_cons, Part.overwritten_false, inductionHypothesis]

/-! ### Overwriting part by part -/

/-- A pass that overwrites trailing commas: what it comes to between the characters behind it, as
they have become, and those before it, as they were. -/
structure CommaPass {α : Type} (run : List Char → List Char → α) : Prop where
  plain : ∀ {done rest character}, character ≠ '"' → character ≠ ',' →
    run done (character :: rest) = run (done ++ [character]) rest
  comma : ∀ {done rest}, run done (',' :: rest) =
    run (done ++ [if closesNext rest && followsValue (lastVisible done) then ' ' else ',']) rest
  string : ∀ {comments part text done rest}, First comments part text → part.region = .string →
    (text = [] → rest = []) →
      run done (part.characters ++ rest) = run (done ++ part.characters) rest

namespace CommaPass

variable {α : Type} {run : List Char → List Char → α} {done : List Char}

theorem run_blanks (pass : CommaPass run)
    (blank : ∀ character ∈ blanks, Text.isAsciiBlank character = true) :
    run done (blanks ++ rest) = run (done ++ blanks) rest := by
  induction blanks generalizing done with
  | nil => rw [List.append_nil, List.nil_append]
  | cons first blanks inductionHypothesis =>
    obtain ⟨here, others⟩ := List.forall_mem_cons.mp blank
    have noQuote : first ≠ '"' := by rintro rfl; cases here
    have noComma : first ≠ ',' := by rintro rfl; cases here
    rw [List.cons_append, pass.plain noQuote noComma, inductionHypothesis others,
      List.append_assoc, List.singleton_append]

/-- The last visible character matters no longer if a bracket closes next, and becomes the same
again with the next visible one. -/
theorem agrees_append {front other : List Char}
    (agrees : closesNext (front ++ rest) = true ∨ lastVisible done = lastVisible other) :
    closesNext rest = true ∨ lastVisible (done ++ front) = lastVisible (other ++ front) := by
  rw [lastVisible_append, lastVisible_append]
  cases visible : lastVisible front with
  | none =>
    rw [closesNext_append (lastVisible_eq_none_iff.mp visible)] at agrees
    rwa [Option.none_or, Option.none_or]
  | some last => exact .inr rfl

/-- A pass overwrites a part where it trails, and has then what it needs for those behind it. -/
theorem step (pass : CommaPass run) (first : First comments part text)
    (ends : text = [] → uncommented parts = [])
    (agrees : closesNext (part.uncommented ++ uncommented parts) = true ∨
      lastVisible done = lastVisible (uncommented before)) :
    run done (part.uncommented ++ uncommented parts) =
        run (done ++ part.overwritten true before parts) (uncommented parts) ∧
      (closesNext (uncommented parts) = true ∨
        lastVisible (done ++ part.overwritten true before parts) =
          lastVisible (uncommented before ++ part.uncommented)) := by
  have kept (same : part.overwritten true before parts = part.uncommented)
      (stays : run done (part.uncommented ++ uncommented parts) =
        run (done ++ part.uncommented) (uncommented parts)) :
      run done (part.uncommented ++ uncommented parts) =
          run (done ++ part.overwritten true before parts) (uncommented parts) ∧
        (closesNext (uncommented parts) = true ∨
          lastVisible (done ++ part.overwritten true before parts) =
            lastVisible (uncommented before ++ part.uncommented)) := by
    rw [same]
    exact ⟨stays, agrees_append agrees⟩
  have comment (body : List Char) : ∀ character ∈ body.flatMap blanked,
      Text.isAsciiBlank character = true := fun _ member =>
    Text.isAsciiBlank_of_isBlank (Grammar.isBlank_of_mem_flatMap_blanked member)
  cases whole : first with
  | lineComment => exact kept rfl (pass.run_blanks (comment _))
  | blockComment => exact kept rfl (pass.run_blanks (comment _))
  | string => exact kept rfl (pass.string first rfl ends)
  | openString => exact kept rfl (pass.string first rfl ends)
  | openEscape => exact kept rfl (pass.string first rfl ends)
  | @plain character _ noQuote _ =>
    by_cases comma : character = ','
    · subst comma
      have visible (later : List Char) : closesNext (',' :: later) = false :=
        closesNext_cons rfl later
      have agrees : lastVisible done = lastVisible (uncommented before) :=
        agrees.resolve_left (by rw [Part.uncommented, List.singleton_append, visible]; decide)
      have dropped : (closesNext (uncommented parts) && followsValue (lastVisible done)) =
          trails before parts := by rw [agrees, trails]
      rw [Part.overwritten_comma, Part.uncommented, List.singleton_append, pass.comma, dropped]
      cases trail : trails before parts with
      -- The comma is gone from behind, but a bracket closes next.
      | true => exact ⟨rfl, .inl (Bool.and_eq_true_iff.mp trail).1⟩
      | false =>
        have same (text : List Char) : lastVisible (text ++ [',']) = some ',' :=
          lastVisible_concat rfl text
        exact ⟨rfl, .inr ((same done).trans (same _).symm)⟩
    · exact kept (Part.overwritten_plain comma true before parts) (pass.plain noQuote comma)

/-- A pass overwrites the commas that trail. -/
theorem run_uncommented (pass : CommaPass run) (divides : Divides comments [] parts)
    (agrees : closesNext (uncommented parts) = true ∨
      lastVisible done = lastVisible (uncommented before)) :
    run done (uncommented parts) = run (done ++ overwritten true before parts) [] := by
  induction divides generalizing done before with
  | nothing => rw [overwritten, List.append_nil, uncommented_nil]
  | @cons part parts first others inductionHypothesis =>
    have ends (nothing : textOf parts ++ [] = []) : uncommented parts = [] := by
      rw [others.eq_nil (List.append_eq_nil_iff.mp nothing).1]
      rfl
    obtain ⟨stepped, agrees⟩ := pass.step first ends agrees
    have behind : uncommented (before ++ [part]) = uncommented before ++ part.uncommented := by simp
    rw [uncommented_cons, stepped, inductionHypothesis (behind ▸ agrees), overwritten,
      List.append_assoc]

theorem run_whole (pass : CommaPass run) (divides : Divides comments [] parts) :
    run [] (uncommented parts) = run (overwritten true [] parts) [] := by
  have agrees : lastVisible [] = lastVisible (uncommented []) := rfl
  exact pass.run_uncommented divides (.inr agrees)

end CommaPass

/-! ### Overwriting character by character -/

theorem blankTrailingCommas_quoted (quoted : Quoted body) (rest : List Char) :
    blankTrailingCommas true none (body ++ rest) = body ++ blankTrailingCommas true none rest := by
  induction quoted with
  | nothing => rfl
  | @other character body noQuote noEscape _ inductionHypothesis =>
    rw [List.cons_append, blankTrailingCommas.eq_7 _ _ _ noQuote fun _ _ same =>
      (noEscape same).elim, inductionHypothesis]
    rfl
  | @escape character body _ inductionHypothesis =>
    exact congrArg ('\\' :: character :: ·) inductionHypothesis

theorem blankTrailingCommas_string (quoted : Quoted body) (rest : List Char) :
    blankTrailingCommas false last ('"' :: (body ++ ['"']) ++ rest) =
      '"' :: (body ++ ['"']) ++ blankTrailingCommas false (some '"') rest := by
  have inside := blankTrailingCommas_quoted quoted ('"' :: rest)
  rw [List.append_cons] at inside
  refine (congrArg ('"' :: ·) inside).trans ?_
  rw [List.cons_append, List.append_assoc]
  rfl

theorem commaPass_blankTrailingCommas :
    CommaPass fun done rest => done ++ blankTrailingCommas false (lastVisible done) rest where
  plain {done rest character} noQuote noComma := by
    rw [Grammar.blankTrailingCommas_other noQuote noComma, List.append_assoc,
      List.singleton_append]
    cases blank : Text.isAsciiBlank character with
    | true => rw [lastVisible_concat_blank blank, if_pos rfl]
    | false => rw [lastVisible_concat blank, if_neg Bool.false_ne_true]
  comma {done rest} := by
    rw [Grammar.blankTrailingCommas_comma, List.append_assoc]
    split
    · rw [lastVisible_concat_blank rfl, List.singleton_append]
    · rw [lastVisible_concat rfl, List.singleton_append]
  string {comments part text done rest} first isString ends := by
    have unclosed (body : List Char) (nothing : rest = [])
        (inside : blankTrailingCommas true none body = body) :
        done ++ blankTrailingCommas false (lastVisible done) ('"' :: body ++ rest) =
          done ++ '"' :: body ++
            blankTrailingCommas false (lastVisible (done ++ '"' :: body)) rest := by
      subst nothing
      rw [List.append_nil, List.append_assoc]
      exact congrArg (done ++ '"' :: ·) (inside.trans (List.append_nil body).symm)
    cases first with
    | plain => cases isString
    | lineComment => cases isString
    | blockComment => cases isString
    | @openString body _ quoted last =>
      have inside := blankTrailingCommas_quoted quoted []
      rw [List.append_nil] at inside
      exact unclosed body (ends last) (inside.trans (List.append_nil body))
    | openEscape quoted last =>
      exact unclosed _ (ends last) (blankTrailingCommas_quoted quoted ['\\'])
    | @string body _ quoted =>
      have quote : lastVisible (done ++ '"' :: (body ++ ['"'])) = some '"' := by
        rw [← List.cons_append, ← List.append_assoc, lastVisible_concat rfl]
      show done ++ blankTrailingCommas false (lastVisible done) ('"' :: (body ++ ['"']) ++ rest) = _
      rw [blankTrailingCommas_string quoted, quote, List.append_assoc]

/-! ### Whole texts -/

theorem Divides.blankTrailingCommas_eq (divides : Divides comments [] parts) :
    blankTrailingCommas false none (uncommented parts) = overwritten true [] parts := by
  exact (commaPass_blankTrailingCommas.run_whole divides).trans (List.append_nil _)

/-- What is left of a text is what is left of its parts. -/
theorem Divides.relax_eq {options : ParseOptions} (divides : Divides options.comments [] parts) :
    relax options (textOf parts) = .ok (overwritten options.trailingCommas [] parts) := by
  rw [Grammar.relax_eq, relax_comments_eq divides]
  show Except.ok (if options.trailingCommas then blankTrailingCommas false none (uncommented parts)
    else uncommented parts) = _
  cases options.trailingCommas with
  | false => rw [if_neg Bool.false_ne_true, overwritten_false]
  | true => exact congrArg Except.ok (divides.blankTrailingCommas_eq)

theorem Unclosed.relax_eq {options : ParseOptions} (allowed : options.comments = true)
    {left : List Char} (unclosed : Unclosed text parts left) :
    relax options text = .error (Text.byteLength left + 2) := by
  rw [Grammar.relax_eq, if_pos allowed, unclosed.blankComments_eq]
  rfl

end JsonOverlay.Lenient
