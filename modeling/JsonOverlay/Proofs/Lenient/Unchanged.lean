/-
This file shows which texts the overwriting leaves alone: those that it has overwritten before, and
those that are JSON without any extension. Where a comment or a comma was there are blanks, and
blanks neither open a comment nor keep a comma from its neighbours.
-/

import JsonOverlay.Proofs.Lenient.Commas

namespace JsonOverlay

namespace Lenient

open Reader

variable {options : ParseOptions} {comments trailingCommas : Bool} {text rest blanks : List Char}
  {character mark : Char} {part : Part} {before after parts : List Part} {last : Option Char}

/-! ### Comments that were overwritten -/

/-- A part is left as it is if it is no comment, or becomes blanks. -/
theorem First.overwritten_cases (first : First comments part rest) (trailingCommas : Bool)
    (before after : List Part) :
    (part.region ≠ .comment ∧ part.overwritten trailingCommas before after = part.characters) ∨
      (part.overwritten trailingCommas before after ≠ [] ∧
        ∀ character ∈ part.overwritten trailingCommas before after,
          Text.isBlank character = true) := by
  have blank (body : List Char) : ∀ character ∈ body.flatMap blanked,
      Text.isBlank character = true := fun _ => Grammar.isBlank_of_mem_flatMap_blanked
  cases first with
  | @plain character _ _ _ =>
    by_cases dropped : trailingCommas ∧ [character] = [','] ∧ trails before after
    · have same : Part.overwritten trailingCommas before after ⟨.plain, [character]⟩ = [' '] :=
        if_pos dropped
      rw [same]
      exact .inr ⟨List.cons_ne_nil _ _, List.forall_mem_singleton.mpr rfl⟩
    · exact .inl ⟨nofun, if_neg dropped⟩
  | lineComment => exact .inr ⟨List.cons_ne_nil _ _, blank _⟩
  | blockComment => exact .inr ⟨List.cons_ne_nil _ _, blank _⟩
  | _ => exact .inl ⟨nofun, rfl⟩

/-- A mark at the start of what is left was there before. -/
theorem Divides.of_overwritten_eq_cons (divides : Divides comments rest parts) {later : List Char}
    (noBlank : Text.isBlank mark = false)
    (starts : overwritten trailingCommas before parts = mark :: later) :
    ∃ more, textOf parts = mark :: more := by
  cases divides with
  | nothing => cases starts
  | @cons part parts first _ =>
    rw [overwritten] at starts
    rcases first.overwritten_cases trailingCommas before parts with ⟨-, same⟩ | ⟨some, blank⟩
    · obtain ⟨character, front, parted⟩ := List.exists_cons_of_ne_nil first.ne_nil
      rw [same, parted] at starts
      cases starts
      exact ⟨front ++ textOf parts, by rw [textOf_cons, parted]; rfl⟩
    · obtain ⟨character, front, parted⟩ := List.exists_cons_of_ne_nil some
      rw [parted] at starts blank
      cases starts
      rw [blank _ List.mem_cons_self] at noBlank
      cases noBlank

/-- A part that is no comment stays one in front of another text, if that has no new marks. -/
theorem First.congr {other : List Char} (first : First comments part rest)
    (noComment : part.region ≠ .comment) (ends : rest = [] → other = [])
    (marks : ∀ mark later, Text.isBlank mark = false → other = mark :: later →
      ∃ more, rest = mark :: more) : First comments part other := by
  cases first with
  | plain noQuote closed =>
    refine .plain noQuote fun allowed => ?_
    rintro ⟨later, same | same⟩
    · obtain ⟨rfl, starts⟩ := List.cons.inj same
      obtain ⟨more, rfl⟩ := marks _ _ rfl starts
      exact closed allowed ⟨more, .inl rfl⟩
    · obtain ⟨rfl, starts⟩ := List.cons.inj same
      obtain ⟨more, rfl⟩ := marks _ _ rfl starts
      exact closed allowed ⟨more, .inr rfl⟩
  | string quoted => exact .string quoted
  | openString quoted last => exact .openString quoted (ends last)
  | openEscape quoted last => exact .openEscape quoted (ends last)
  | lineComment => exact (noComment rfl).elim
  | blockComment => exact (noComment rfl).elim

theorem blanks_append_self (blank : ∀ character ∈ blanks, Text.isBlank character = true)
    (stays : Grammar.Blanks .plain text text) :
    Grammar.Blanks .plain (blanks ++ text) (blanks ++ text) := by
  induction blanks with
  | nil => exact stays
  | cons first blanks inductionHypothesis =>
    obtain ⟨here, others⟩ := List.forall_mem_cons.mp blank
    exact (Grammar.blanks_blank here).mpr ⟨_, rfl, inductionHypothesis others⟩

/-- In what is left there are no comments. -/
theorem Divides.blanks_overwritten (divides : Divides true [] parts) :
    Grammar.Blanks .plain (overwritten trailingCommas before parts)
      (overwritten trailingCommas before parts) := by
  induction divides generalizing before with
  | nothing => rfl
  | @cons part parts first others inductionHypothesis =>
    rw [overwritten]
    rcases first.overwritten_cases trailingCommas before parts with ⟨noComment, same⟩ | ⟨-, blank⟩
    · have stays : First true part (overwritten trailingCommas (before ++ [part]) parts) := by
        refine first.congr noComment (fun nothing => ?_) fun mark later noBlank starts => ?_
        · rw [others.eq_nil (List.append_eq_nil_iff.mp nothing).1]
          rfl
        · rw [List.append_nil]
          exact others.of_overwritten_eq_cons noBlank starts
      rw [same, Grammar.Blanks, stays.blankComments_eq, inductionHypothesis,
        Part.uncommented_eq noComment]
      rfl
    · exact blanks_append_self blank inductionHypothesis

/-! ### Commas that were overwritten -/

/-- Where no comma may be dropped next, a bracket closes next if one did before. -/
theorem closesNext_blankTrailingCommas (follows : followsValue last = false) (text : List Char) :
    closesNext (blankTrailingCommas false last text) = closesNext text := by
  induction text with
  | nil => rfl
  | cons first text inductionHypothesis =>
    by_cases quote : first = '"'
    · subst quote
      rfl
    by_cases comma : first = ','
    · subst comma
      rw [Grammar.blankTrailingCommas_comma, follows, Bool.and_false, if_neg Bool.false_ne_true]
      rfl
    · rw [Grammar.blankTrailingCommas_other quote comma]
      cases blank : Text.isAsciiBlank first with
      | true =>
        rw [if_pos rfl, closesNext_cons_blank blank, closesNext_cons_blank blank,
          inductionHypothesis]
      | false => rw [closesNext_cons blank, closesNext_cons blank]

/-- Trailing commas are overwritten once and for all. -/
theorem blankTrailingCommas_blankTrailingCommas (inside : Bool) (last : Option Char)
    (text : List Char) :
    blankTrailingCommas inside last (blankTrailingCommas inside last text) =
      blankTrailingCommas inside last text := by
  fun_induction blankTrailingCommas inside last text with
  | case1 => rfl
  | case2 last rest inductionHypothesis => exact congrArg ('"' :: ·) inductionHypothesis
  | case3 last rest trails inductionHypothesis =>
    exact congrArg (' ' :: ·) inductionHypothesis
  | case4 last rest stays inductionHypothesis =>
    -- Behind a comma that stays no other comma is dropped before something else is visible.
    rw [Grammar.blankTrailingCommas_comma, closesNext_blankTrailingCommas rfl, if_neg stays,
      inductionHypothesis]
  | case5 last other rest noQuote noComma inductionHypothesis =>
    rw [Grammar.blankTrailingCommas_other noQuote noComma, inductionHypothesis]
  | case6 last rest inductionHypothesis => exact congrArg ('"' :: ·) inductionHypothesis
  | case7 last escaped rest inductionHypothesis =>
    exact congrArg ('\\' :: escaped :: ·) inductionHypothesis
  | case8 last other rest noQuote noPair inductionHypothesis =>
    rw [blankTrailingCommas.eq_7 _ _ _ noQuote, inductionHypothesis]
    rintro escaped later rfl same
    rcases rest with _ | ⟨first, rest⟩
    · cases same
    · exact noPair first rest rfl rfl

/-! ### Texts that were overwritten -/

/-- What is left of a text is left alone. -/
theorem Divides.relax_overwritten (divides : Divides options.comments [] parts) :
    relax options (overwritten options.trailingCommas [] parts) =
      .ok (overwritten options.trailingCommas [] parts) := by
  have uncommented : (if options.comments then
      blankComments .plain (overwritten options.trailingCommas [] parts)
      else .ok (overwritten options.trailingCommas [] parts)) =
        .ok (overwritten options.trailingCommas [] parts) := by
    split
    · rename_i allowed
      rw [allowed] at divides
      exact divides.blanks_overwritten
    · rfl
  rw [Grammar.relax_eq, uncommented]
  cases allowed : options.trailingCommas with
  | false => rfl
  | true =>
    rw [← divides.blankTrailingCommas_eq]
    exact congrArg Except.ok (blankTrailingCommas_blankTrailingCommas _ _ _)

end Lenient

namespace Grammar

open Reader

variable {numerals : Numeral → Number → Prop} {token : Token} {tokens : List Token}
  {text : List Char} {allows : Bool} {tree : Tree}

/-! ### Strict texts -/

theorem LaidOut.blanks_self (laid : LaidOut numerals false tokens text) :
    Blanks .plain text text := by
  induction tokens generalizing text with
  | nil =>
    have stays := Lenient.blanks_append_self (laidOut_nil_iff.mp laid) (blanks_nil nofun)
    rwa [List.append_nil] at stays
  | cons token tokens inductionHypothesis =>
    obtain ⟨last, ⟨⟩, ending⟩ := laid
    rename_i before spelling after gap spells laid
    exact Lenient.blanks_append_self gap.isBlank
      (spells.blanks_append.mpr ⟨after, rfl, inductionHypothesis ⟨last, laid, ending⟩⟩)

/-- A comma that stays does not trail. -/
theorem of_dropCommas_comma (stays : dropCommas allows (.comma :: tokens) = .comma :: tokens) :
    (allows && tokens.head?.any Token.closes) = false ∧ dropCommas false tokens = tokens := by
  rw [dropCommas_comma] at stays
  split at stays
  · rename_i dropped
    obtain ⟨-, closes⟩ := Bool.and_eq_true_iff.mp dropped
    rcases tokens with _ | ⟨next, tokens⟩
    · cases closes
    · rw [dropCommas_cons (Token.ne_comma_of_closes closes)] at stays
      obtain rfl := (List.cons.inj stays).1
      cases closes
  · rename_i kept
    exact ⟨by simpa using kept, (List.cons.inj stays).2⟩

theorem LaidOut.drops_self (laid : LaidOut numerals false tokens text)
    (stays : dropCommas allows tokens = tokens) : Drops allows text text := by
  induction tokens generalizing text allows with
  | nil =>
    have blank := laidOut_nil_iff.mp laid
    have same : Drops allows (text ++ []) (text ++ []) :=
      (drops_append_blanks blank).mpr ⟨[], rfl, rfl⟩
    rwa [List.append_nil] at same
  | cons token tokens inductionHypothesis =>
    obtain ⟨last, ⟨⟩, ending⟩ := laid
    rename_i before spelling after gap spells laid
    have behind : LaidOut numerals false tokens after := ⟨last, laid, ending⟩
    refine (drops_append_blanks gap.isBlank).mpr ⟨_, rfl, ?_⟩
    by_cases comma : token = .comma
    · subst comma
      obtain rfl := spells.eq_of_spelling? rfl
      obtain ⟨kept, others⟩ := of_dropCommas_comma stays
      rw [← behind.closesNext_eq] at kept
      exact (drops_kept kept).mpr ⟨after, rfl, inductionHypothesis behind others⟩
    · rw [dropCommas_cons comma] at stays
      exact (spells.drops_append comma).mpr
        ⟨after, rfl, inductionHypothesis behind (List.cons.inj stays).2⟩

/-- A text that is JSON without any extension is left as it is. -/
theorem Denotes.relax_eq (denotes : Denotes ⟨false, false, numerals⟩ text tree)
    (options : ParseOptions) : relax options text = .ok text := by
  obtain ⟨tokens, derives, laid⟩ := denotes
  obtain rfl := derives_false_iff.mp derives
  have noComments : (if options.comments then blankComments .plain text else .ok text) =
      .ok text := by
    split
    · exact laid.blanks_self
    · rfl
  have noCommas : blankTrailingCommas false none text = text :=
    laid.drops_self (derives_true_iff.mp (derives_tokens true tree))
  rw [Grammar.relax_eq, noComments]
  show Except.ok (if options.trailingCommas then blankTrailingCommas false none text else text) = _
  rw [noCommas, ite_self]

end Grammar

end JsonOverlay
