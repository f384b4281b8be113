/-
This file shows what overwriting comments does to a text that is laid out as tokens: tokens
stay as they are, and gaps become blanks. What is left is laid out with blanks only exactly if
the text was laid out with comments, as the same tokens.
-/

import JsonOverlay.Proofs.Grammar.Layout
import JsonOverlay.Proofs.Lenient.Comments

namespace JsonOverlay.Grammar

open Reader

variable {numerals : Numeral → Number → Prop} {token : Token} {tokens : List Token}
  {text later spelling gap out body rest : List Char} {character : Char} {opened : Nat}

/-- A text goes over into another one as its comments are overwritten, given what its first
character belongs to. -/
def Blanks (mode : CommentMode) (text out : List Char) : Prop := blankComments mode text = .ok out

theorem eq_ok_iff {reading : Except Nat (List Char)} (front : List Char) :
    (do return front ++ (← reading)) = Except.ok out ↔ Begins front (reading = .ok ·) out := by
  cases reading with
  | error => simp [Begins, bind, Except.bind]
  | ok left => simp [Begins, bind, Except.bind, pure, Except.pure, eq_comm]

theorem blanks_nil {mode : CommentMode} (closed : ∀ opened, mode ≠ .blockComment opened) :
    Blanks mode [] [] := by
  cases mode with
  | blockComment opened => exact (closed opened rfl).elim
  | _ => rfl

/-- A character of a plain text that opens nothing stays. -/
theorem blanks_plain (noQuote : character ≠ '"')
    (noLine : ∀ later, character = '/' → text = '/' :: later → False)
    (noBlock : ∀ later, character = '/' → text = '*' :: later → False) :
    Blanks .plain (character :: text) out ↔ Begins [character] (Blanks .plain text) out := by
  rw [Blanks, blankComments.eq_6 _ _ noQuote noLine noBlock]
  exact eq_ok_iff [character]

/-! ### Bodies of comments -/

theorem isBlank_of_mem_blanked {blank : Char} (member : blank ∈ blanked character) :
    Text.isBlank blank = true := by
  unfold blanked at member
  split at member
  · rename_i lineBreak
    rw [List.mem_singleton.mp member]
    rcases lineBreak with rfl | rfl <;> rfl
  · rw [List.eq_of_mem_replicate member]
    rfl

theorem isBlank_of_mem_flatMap_blanked {blank : Char} (member : blank ∈ body.flatMap blanked) :
    Text.isBlank blank = true := by
  obtain ⟨character, -, here⟩ := List.mem_flatMap.mp member
  exact isBlank_of_mem_blanked here

theorem map_eq_ok_iff {reading : Except Nat (List Char)} (front : List Char) :
    reading.map (front ++ ·) = .ok out ↔ Begins front (reading = .ok ·) out := by
  rw [← Lenient.bind_eq_map]
  exact eq_ok_iff front

/-- A line comment goes on as long as the line. -/
theorem blanks_lineComment (line : '\n' ∉ body) : Blanks .lineComment (body ++ rest) out ↔
    Begins (body.flatMap blanked) (Blanks .lineComment rest) out := by
  rw [Blanks, Lenient.blankComments_lineComment line]
  exact map_eq_ok_iff (body.flatMap blanked)

/-- A block comment goes on up to the mark that closes it. -/
theorem blanks_blockComment (unclosed : ¬ ['*', '/'] <:+: body) :
    Blanks (.blockComment opened) (body ++ '*' :: '/' :: rest) out ↔
      Begins (body.flatMap blanked ++ [' ', ' ']) (Blanks .plain rest) out := by
  rw [Blanks, Lenient.blankComments_blockComment unclosed]
  exact map_eq_ok_iff (body.flatMap blanked ++ [' ', ' '])

/-- If a block comment is overwritten it is closed. -/
theorem exists_of_blanks_blockComment (ok : Blanks (.blockComment opened) text out) :
    ∃ body rest, text = body ++ '*' :: '/' :: rest ∧ ¬ ['*', '/'] <:+: body := by
  by_cases closed : ['*', '/'] <:+: text
  · exact Lenient.exists_of_infix closed
  · cases ok.symm.trans (Lenient.blankComments_unclosed closed)

/-! ### Gaps -/

theorem blanks_other (noQuote : character ≠ '"') (noSlash : character ≠ '/') :
    Blanks .plain (character :: text) out ↔ Begins [character] (Blanks .plain text) out :=
  blanks_plain noQuote (fun _ slash => (noSlash slash).elim) fun _ slash => (noSlash slash).elim

theorem blanks_blank (blank : Text.isBlank character = true) :
    Blanks .plain (character :: text) out ↔ Begins [character] (Blanks .plain text) out := by
  refine blanks_other ?_ ?_
  all_goals
    rintro rfl
    cases blank

theorem blanks_lineComment_lineFeed : Blanks .lineComment ('\n' :: text) out ↔
    Blanks .plain ('\n' :: text) out :=
  (eq_ok_iff ['\n']).trans (blanks_blank rfl).symm

/-- A gap becomes blanks, whatever stands behind it. -/
theorem Gap.exists_blanks (known : Gap true gap) : ∃ blanks,
    (∀ character ∈ blanks, Text.isBlank character = true) ∧ (blanks = [] → gap = []) ∧
      ∀ {text out}, Blanks .plain (gap ++ text) out ↔ Begins blanks (Blanks .plain text) out := by
  induction known with
  | nil => exact ⟨[], nofun, fun _ => rfl, begins_nil.symm⟩
  | blank blank _ inductionHypothesis =>
    obtain ⟨blanks, others, -, same⟩ := inductionHypothesis
    exact ⟨_ :: blanks, List.forall_mem_cons.mpr ⟨blank, others⟩, nofun,
      (blanks_blank blank).trans (begins_trans same)⟩
  | @lineComment body _ _ line _ inductionHypothesis =>
    obtain ⟨blanks, others, -, same⟩ := inductionHypothesis
    refine ⟨' ' :: ' ' :: (body.flatMap blanked ++ blanks), ?_, nofun, fun {text out} => ?_⟩
    · simp only [List.forall_mem_cons, List.forall_mem_append]
      exact ⟨rfl, rfl, fun _ => isBlank_of_mem_flatMap_blanked, others⟩
    · rw [List.cons_append, List.cons_append, List.append_assoc]
      exact (eq_ok_iff [' ', ' ']).trans (begins_trans ((blanks_lineComment line).trans
        (begins_trans (blanks_lineComment_lineFeed.trans same))))
  | @blockComment body _ _ unclosed _ inductionHypothesis =>
    obtain ⟨blanks, others, -, same⟩ := inductionHypothesis
    refine ⟨' ' :: ' ' :: (body.flatMap blanked ++ [' ', ' '] ++ blanks), ?_, nofun,
      fun {text out} => ?_⟩
    · simp only [List.forall_mem_cons, List.forall_mem_append]
      exact ⟨rfl, rfl, ⟨fun _ => isBlank_of_mem_flatMap_blanked, rfl, rfl, nofun⟩, others⟩
    · rw [List.cons_append, List.cons_append, List.append_assoc]
      exact (eq_ok_iff [' ', ' ']).trans (begins_trans ((blanks_blockComment unclosed).trans
        (begins_trans same)))

theorem Gap.append {first second : List Char} (before : Gap true first) (behind : Gap true second) :
    Gap true (first ++ second) := by
  induction before with
  | nil => exact behind
  | blank blank _ inductionHypothesis => exact .blank blank inductionHypothesis
  | lineComment allowed line _ inductionHypothesis =>
    rw [List.cons_append, List.cons_append, List.append_assoc]
    exact .lineComment allowed line inductionHypothesis
  | blockComment allowed unclosed _ inductionHypothesis =>
    rw [List.cons_append, List.cons_append, List.append_assoc]
    exact .blockComment allowed unclosed inductionHypothesis

theorem LastGap.append_left (before : Gap true gap) (last : LastGap true text) :
    LastGap true (gap ++ text) := by
  cases last with
  | gap whole => exact .gap (before.append whole)
  | lineComment allowed others line =>
    rw [← List.append_assoc]
    exact .lineComment allowed (before.append others) line

/-- What stands behind the last token becomes blanks. -/
theorem LastGap.exists_blanks (last : LastGap true text) : ∃ blanks, Blanks .plain text blanks ∧
    ∀ character ∈ blanks, Text.isBlank character = true := by
  cases last with
  | gap whole =>
    obtain ⟨blanks, blank, -, same⟩ := whole.exists_blanks
    refine ⟨blanks, ?_, blank⟩
    have ok := same.mpr ⟨[], rfl, blanks_nil nofun⟩
    rwa [List.append_nil, List.append_nil] at ok
  | @lineComment before body _ whole line =>
    obtain ⟨blanks, blank, -, same⟩ := whole.exists_blanks
    have inLine := (blanks_lineComment line).mpr ⟨[], rfl, blanks_nil nofun⟩
    have comment := (eq_ok_iff [' ', ' ']).mpr ⟨_, rfl, inLine⟩
    rw [List.append_nil, List.append_nil] at comment
    refine ⟨_, same.mpr ⟨_, rfl, comment⟩, ?_⟩
    simp only [List.forall_mem_cons, List.forall_mem_append]
    exact ⟨blank, ⟨rfl, rfl, nofun⟩, fun _ => isBlank_of_mem_flatMap_blanked⟩

/-! ### What a text starts with -/

/-- What a text without unclosed comments starts with outside of strings. -/
inductive StartsPlain : List Char → Prop where
  | nothing : StartsPlain []
  | quote {text : List Char} : StartsPlain ('"' :: text)
  | gap {gap text : List Char} (known : Gap true gap) (some : gap ≠ []) : StartsPlain (gap ++ text)
  | lastLine {body : List Char} (line : '\n' ∉ body) : StartsPlain ('/' :: '/' :: body)
  | other {character : Char} {text : List Char} (noBlank : Text.isBlank character = false)
      (stays : ∀ {out}, Blanks .plain (character :: text) out ↔
        Begins [character] (Blanks .plain text) out) : StartsPlain (character :: text)

theorem startsPlain_lineComment (text : List Char) : StartsPlain ('/' :: '/' :: text) := by
  by_cases line : '\n' ∈ text
  · obtain ⟨body, rest, rfl, before⟩ := List.eq_append_cons_of_mem line
    have comment : Gap true ('/' :: '/' :: (body ++ ['\n'])) :=
      .lineComment rfl before (.blank rfl .nil)
    have starts : StartsPlain ('/' :: '/' :: (body ++ ['\n']) ++ rest) :=
      .gap comment (List.cons_ne_nil _ _)
    simpa using starts
  · exact .lastLine line

theorem Blanks.startsPlain_blockComment (ok : Blanks .plain ('/' :: '*' :: text) out) :
    StartsPlain ('/' :: '*' :: text) := by
  obtain ⟨left, -, inside⟩ := (eq_ok_iff [' ', ' ']).mp ok
  obtain ⟨body, rest, rfl, unclosed⟩ := exists_of_blanks_blockComment inside
  have comment : Gap true ('/' :: '*' :: (body ++ ['*', '/'])) :=
    .blockComment rfl unclosed .nil
  have starts : StartsPlain ('/' :: '*' :: (body ++ ['*', '/']) ++ rest) :=
    .gap comment (List.cons_ne_nil _ _)
  simpa using starts

theorem startsPlain_other (noBlank : Text.isBlank character = false) (noQuote : character ≠ '"')
    (noLine : ∀ later, character = '/' → text = '/' :: later → False)
    (noBlock : ∀ later, character = '/' → text = '*' :: later → False) :
    StartsPlain (character :: text) := by
  exact .other noBlank (blanks_plain noQuote noLine noBlock)

theorem Blanks.startsPlain (ok : Blanks .plain text out) : StartsPlain text := by
  rcases text with _ | ⟨first, text⟩
  · exact .nothing
  by_cases blank : Text.isBlank first = true
  · exact .gap (.blank blank .nil) (List.cons_ne_nil first [])
  by_cases quote : first = '"'
  · subst quote
    exact .quote
  by_cases line : ∃ later, first = '/' ∧ text = '/' :: later
  · obtain ⟨later, rfl, rfl⟩ := line
    exact startsPlain_lineComment later
  by_cases block : ∃ later, first = '/' ∧ text = '*' :: later
  · obtain ⟨later, rfl, rfl⟩ := block
    exact ok.startsPlain_blockComment
  · exact startsPlain_other (by simpa using blank) quote (fun later slash same =>
      line ⟨later, slash, same⟩) fun later slash same => block ⟨later, slash, same⟩

/-! ### What is left of a text -/

theorem blanks_quote : Blanks .plain ('"' :: text) out ↔ Begins ['"'] (Blanks .quoted text) out :=
  eq_ok_iff ['"']

theorem LastGap.skipBlanks_eq_nil (last : LastGap true text) (ok : Blanks .plain text out) :
    skipBlanks out = [] := by
  obtain ⟨blanks, same, blank⟩ := last.exists_blanks
  cases ok.symm.trans same
  exact List.dropWhile_eq_nil_iff.mpr blank

/-- In front of what is left of a text there was a gap, and if nothing is left there was
nothing else. -/
theorem Blanks.gap_or_last (ok : Blanks .plain text out) :
    (skipBlanks out = [] ∧ LastGap true text) ∨ (skipBlanks out ≠ [] ∧
      ∃ gap later, text = gap ++ later ∧ Gap true gap ∧ Blanks .plain later (skipBlanks out)) := by
  induction size : text.length using Nat.strong_induction_on generalizing text out with
  | h size inductionHypothesis =>
    cases ok.startsPlain with
    | nothing => exact .inl ⟨LastGap.skipBlanks_eq_nil (.gap .nil) ok, .gap .nil⟩
    | lastLine line =>
      have last := LastGap.lineComment rfl .nil line
      exact .inl ⟨last.skipBlanks_eq_nil ok, last⟩
    | quote =>
      obtain ⟨left, rfl, -⟩ := blanks_quote.mp ok
      rw [List.singleton_append, skipBlanks_cons rfl]
      exact .inr ⟨List.cons_ne_nil _ _, [], _, rfl, .nil, ok⟩
    | other noBlank stays =>
      obtain ⟨left, rfl, -⟩ := stays.mp ok
      rw [List.singleton_append, skipBlanks_cons noBlank]
      exact .inr ⟨List.cons_ne_nil _ _, [], _, rfl, .nil, ok⟩
    | gap known nonempty =>
      obtain ⟨blanks, blank, -, same⟩ := known.exists_blanks
      obtain ⟨left, rfl, others⟩ := same.mp ok
      rw [skipBlanks_append blank]
      have shorter := List.length_pos_iff.mpr nonempty
      rcases inductionHypothesis _ (by rw [← size, List.length_append]; omega) others rfl with
        ⟨nothing, last⟩ | ⟨some, gap, later, rfl, more, rest⟩
      · exact .inl ⟨nothing, last.append_left known⟩
      · exact .inr ⟨some, _, later, (List.append_assoc _ _ _).symm, known.append more, rest⟩

theorem Blanks.lastGap (ok : Blanks .plain text out) (nothing : skipBlanks out = []) :
    LastGap true text := by
  rcases ok.gap_or_last with ⟨-, last⟩ | ⟨some, -⟩
  · exact last
  · exact (some nothing).elim

theorem Blanks.exists_gap (ok : Blanks .plain text out) (some : skipBlanks out ≠ []) :
    ∃ gap later, text = gap ++ later ∧ Gap true gap ∧ Blanks .plain later (skipBlanks out) := by
  rcases ok.gap_or_last with ⟨nothing, -⟩ | ⟨-, parts⟩
  · exact (some nothing).elim
  · exact parts

/-! ### Tokens -/

/-- What is no blank is left of itself only. -/
theorem Blanks.exists_eq_cons (ok : Blanks .plain text (character :: out))
    (noBlank : Text.isBlank character = false) : ∃ later, text = character :: later := by
  cases ok.startsPlain with
  | nothing => cases ok
  | quote =>
    obtain ⟨left, same, -⟩ := blanks_quote.mp ok
    cases same
    exact ⟨_, rfl⟩
  | gap known some =>
    obtain ⟨blanks, blank, nonempty, same⟩ := known.exists_blanks
    obtain ⟨left, parts, -⟩ := same.mp ok
    obtain ⟨first, others, rfl⟩ := List.exists_cons_of_ne_nil (mt nonempty some)
    cases parts
    rw [blank _ List.mem_cons_self] at noBlank
    cases noBlank
  | lastLine line =>
    have nothing := (LastGap.lineComment rfl .nil line).skipBlanks_eq_nil ok
    rw [skipBlanks_cons noBlank] at nothing
    cases nothing
  | other _ stays =>
    obtain ⟨left, same, -⟩ := stays.mp ok
    cases same
    exact ⟨_, rfl⟩

theorem blanks_append_cons (noBlank : Text.isBlank character = false) (noQuote : character ≠ '"')
    (noSlash : character ≠ '/') :
    Blanks .plain text (character :: out) ↔ Begins [character] (Blanks .plain · out) text :=
  begins_of_first (blanks_other noQuote noSlash) fun ok => ok.exists_eq_cons noBlank

theorem blanks_append_quote :
    Blanks .plain text ('"' :: out) ↔ Begins ['"'] (Blanks .quoted · out) text :=
  begins_of_first blanks_quote fun ok => ok.exists_eq_cons rfl

theorem blanks_append (plain : ∀ character ∈ spelling, Text.isBlank character = false ∧
    character ≠ '"' ∧ character ≠ '/') :
    Blanks .plain text (spelling ++ out) ↔ Begins spelling (Blanks .plain · out) text := by
  induction spelling generalizing text with
  | nil => rw [begins_nil, List.nil_append]
  | cons first spelling inductionHypothesis =>
    obtain ⟨⟨noBlank, noQuote, noSlash⟩, others⟩ := List.forall_mem_cons.mp plain
    exact (blanks_append_cons noBlank noQuote noSlash).trans
      (begins_trans (inductionHypothesis others))

theorem quoting_blanks : Quoting (Blanks .quoted) (Blanks .plain) where
  nothing {out} := by
    rw [show Blanks .quoted [] out ↔ Except.ok [] = Except.ok out from Iff.rfl, Except.ok.injEq,
      eq_comm]
  quote := eq_ok_iff ['"']
  escape {text out escaped} := eq_ok_iff ['\\', escaped]
  other {text out character} noQuote noEscape := by
    have noPair : ∀ escaped rest, character = '\\' → text = escaped :: rest → False := by
      rintro escaped rest same parts
      cases (noEscape same).symm.trans parts
    rw [Blanks, blankComments.eq_9 _ _ noQuote noPair]
    exact eq_ok_iff [character]

/-- A token is left of itself only. -/
theorem Spells.blanks_append (spells : Spells numerals token spelling) :
    Blanks .plain text (spelling ++ out) ↔ Begins spelling (Blanks .plain · out) text := by
  by_cases string : ∃ value, token = .string value
  · obtain ⟨value, rfl⟩ := string
    cases spells with
    | fixed known => cases known
    | string body =>
      rw [List.cons_append, List.append_assoc]
      exact blanks_append_quote.trans (begins_trans (quoting_blanks.append_body body))
  · refine Grammar.blanks_append fun character member => ?_
    obtain ⟨noBlank, noQuote, noSlash, -⟩ :=
      spells.characters (fun value same => string ⟨value, same⟩) character member
    exact ⟨isBlank_eq_false noBlank, noQuote, noSlash⟩

/-! ### Whole texts -/

/-- A text is laid out as tokens with comments if what is left of it is laid out as the same
tokens without. -/
theorem laidOut_comments_iff : LaidOut numerals true tokens text ↔
    ∃ out, Blanks .plain text out ∧ LaidOut numerals false tokens out := by
  induction tokens generalizing text with
  | nil =>
    constructor
    · rintro ⟨last, ⟨⟩, ending⟩
      obtain ⟨blanks, ok, blank⟩ := ending.exists_blanks
      exact ⟨blanks, ok, laidOut_nil_iff.mpr blank⟩
    · rintro ⟨out, ok, laid⟩
      have nothing := List.dropWhile_eq_nil_iff.mpr (laidOut_nil_iff.mp laid)
      exact ⟨text, .nil, ok.lastGap nothing⟩
  | cons token tokens inductionHypothesis =>
    constructor
    · rintro ⟨last, ⟨⟩, ending⟩
      rename_i before spelling after gap spells others
      obtain ⟨out, ok, laid⟩ := inductionHypothesis.mp ⟨last, others, ending⟩
      obtain ⟨blanks, blank, -, same⟩ := gap.exists_blanks
      refine ⟨_, same.mpr ⟨_, rfl, spells.blanks_append.mpr ⟨after, rfl, ok⟩⟩, ?_⟩
      exact laidOut_cons_iff.mpr ⟨spelling, out, spells,
        (skipBlanks_append blank _).trans (spells.skipBlanks_append out), laid⟩
    · rintro ⟨out, ok, laid⟩
      obtain ⟨spelling, after, spells, same, others⟩ := laidOut_cons_iff.mp laid
      obtain ⟨first, more, nonempty, -⟩ := spells.exists_eq_cons
      obtain ⟨gap, later, rfl, known, left⟩ := ok.exists_gap (by simp [same, nonempty])
      rw [same] at left
      obtain ⟨behind, rfl, stays⟩ := spells.blanks_append.mp left
      obtain ⟨last, laid, ending⟩ := inductionHypothesis.mpr ⟨after, stays, others⟩
      exact ⟨last, .cons known spells laid, ending⟩

end JsonOverlay.Grammar
