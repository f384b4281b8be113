/-
This file shows what overwriting trailing commas does to a text that is laid out as tokens
with blanks between them: what is left is laid out as the tokens without the commas that may
be dropped. The overwriting looks at characters only. That it finds the right commas rests on
the first and the last character of a spelling: they tell whether a token is a closing bracket,
and whether a comma may be dropped behind it.
-/

import JsonOverlay.Proofs.Grammar.Layout

namespace JsonOverlay.Grammar

open Reader

variable {numerals : Numeral → Number → Prop} {token : Token} {tokens : List Token}
  {text blanks spelling out : List Char} {character : Char} {allows : Bool}

/-- A text goes over into another one as its trailing commas are overwritten, given whether a
comma may be dropped behind what stands before it. -/
def Drops (allows : Bool) (text out : List Char) : Prop :=
  blankTrailingCommas false (if allows then some '"' else none) text = out

/-- The same for a text that starts inside a string. -/
def DropsQuoted (text out : List Char) : Prop := blankTrailingCommas true none text = out

theorem append_eq_iff {left : List Char} (front : List Char) :
    front ++ left = out ↔ Begins front (left = ·) out := by
  simp [Begins, eq_comm]

theorem exists_drops (allows : Bool) (text : List Char) : ∃ out, Drops allows text out :=
  ⟨_, rfl⟩

theorem Drops.unique {other : List Char} (known : Drops allows text out)
    (same : Drops allows text other) : out = other :=
  known.symm.trans same

/-! ### One character after the other -/

theorem followsValue_state (allows : Bool) :
    followsValue (if allows then some '"' else none) = allows := by
  cases allows <;> rfl

theorem blankTrailingCommas_comma (last : Option Char) (text : List Char) :
    blankTrailingCommas false last (',' :: text) =
      if closesNext text && followsValue last then ' ' :: blankTrailingCommas false last text
      else ',' :: blankTrailingCommas false (some ',') text := rfl

theorem blankTrailingCommas_other {last : Option Char} (noQuote : character ≠ '"')
    (noComma : character ≠ ',') :
    blankTrailingCommas false last (character :: text) = character ::
      blankTrailingCommas false (if Text.isAsciiBlank character then last else some character)
        text :=
  blankTrailingCommas.eq_4 _ _ _ noQuote noComma

/-- What stands before a text matters only for whether it allows to drop a comma. -/
theorem blankTrailingCommas_congr {last other : Option Char}
    (same : followsValue last = followsValue other) (text : List Char) :
    blankTrailingCommas false last text = blankTrailingCommas false other text := by
  induction text with
  | nil => rfl
  | cons first text inductionHypothesis =>
    by_cases quote : first = '"'
    · subst quote
      rfl
    by_cases comma : first = ','
    · subst comma
      rw [blankTrailingCommas_comma, blankTrailingCommas_comma, same, inductionHypothesis]
    · rw [blankTrailingCommas_other quote comma, blankTrailingCommas_other quote comma]
      split
      · rw [inductionHypothesis]
      · rfl

theorem drops_iff (last : Option Char) :
    blankTrailingCommas false last text = out ↔ Drops (followsValue last) text out := by
  rw [Drops, blankTrailingCommas_congr (followsValue_state (followsValue last)).symm]

theorem drops_quote : Drops allows ('"' :: text) out ↔ Begins ['"'] (DropsQuoted text) out :=
  append_eq_iff ['"']

theorem drops_cons (noQuote : character ≠ '"') (noComma : character ≠ ',') :
    Drops allows (character :: text) out ↔ Begins [character]
      (Drops (if Text.isAsciiBlank character then allows else followsValue (some character)) text)
      out := by
  rw [Drops, blankTrailingCommas_other noQuote noComma]
  refine (append_eq_iff [character]).trans (begins_congr ((drops_iff _).trans ?_))
  rw [apply_ite followsValue, followsValue_state]

theorem drops_blank (blank : Text.isBlank character = true) :
    Drops allows (character :: text) out ↔ Begins [character] (Drops allows text) out := by
  have noQuote : character ≠ '"' := by rintro rfl; cases blank
  have noComma : character ≠ ',' := by rintro rfl; cases blank
  rw [drops_cons noQuote noComma, if_pos (Text.isAsciiBlank_of_isBlank blank)]

theorem drops_other (noBlank : Text.isAsciiBlank character = false) (noQuote : character ≠ '"')
    (noComma : character ≠ ',') : Drops allows (character :: text) out ↔
      Begins [character] (Drops (followsValue (some character)) text) out := by
  rw [drops_cons noQuote noComma, if_neg (by simp [noBlank])]

theorem drops_dropped (allowed : allows = true) (closes : closesNext text = true) :
    Drops allows (',' :: text) out ↔ Begins [' '] (Drops allows text) out := by
  rw [Drops, blankTrailingCommas_comma, followsValue_state, if_pos (by simp [allowed, closes])]
  exact append_eq_iff [' ']

theorem drops_kept (kept : (allows && closesNext text) = false) :
    Drops allows (',' :: text) out ↔ Begins [','] (Drops false text) out := by
  rw [Bool.and_comm] at kept
  rw [Drops, blankTrailingCommas_comma, followsValue_state, if_neg (by simp [kept])]
  exact (append_eq_iff [',']).trans (begins_congr (drops_iff _))

theorem quoting_drops : Quoting DropsQuoted (Drops true) where
  nothing := eq_comm
  quote := append_eq_iff ['"']
  escape {text out escaped} := append_eq_iff ['\\', escaped]
  other {text out character} noQuote noEscape := by
    have noPair : ∀ escaped rest, character = '\\' → text = escaped :: rest → False := by
      rintro escaped rest same parts
      cases (noEscape same).symm.trans parts
    rw [DropsQuoted, blankTrailingCommas.eq_7 _ _ _ noQuote noPair]
    exact append_eq_iff [character]

/-- What is no blank is left of itself only. -/
theorem Drops.exists_eq_cons (known : Drops allows text (character :: out))
    (noBlank : Text.isBlank character = false) : ∃ later, text = character :: later := by
  rcases text with _ | ⟨first, text⟩
  · cases known
  by_cases quote : first = '"'
  · subst quote
    obtain ⟨left, same, -⟩ := drops_quote.mp known
    cases same
    exact ⟨text, rfl⟩
  by_cases comma : first = ','
  · subst comma
    by_cases kept : (allows && closesNext text) = false
    · obtain ⟨left, same, -⟩ := (drops_kept kept).mp known
      cases same
      exact ⟨text, rfl⟩
    · obtain ⟨allowed, closes⟩ := Bool.and_eq_true_iff.mp (by simpa using kept)
      obtain ⟨left, same, -⟩ := (drops_dropped allowed closes).mp known
      cases same
      cases noBlank
  · obtain ⟨left, same, -⟩ := (drops_cons quote comma).mp known
    cases same
    exact ⟨text, rfl⟩

/-! ### Tokens -/

theorem drops_append_cons (noBlank : Text.isUnicodeBlank character = false)
    (noQuote : character ≠ '"') (noComma : character ≠ ',') :
    Drops allows text (character :: out) ↔
      Begins [character] (Drops (followsValue (some character)) · out) text :=
  begins_of_first (drops_other (isAsciiBlank_eq_false noBlank) noQuote noComma)
    fun known => known.exists_eq_cons (isBlank_eq_false noBlank)

theorem drops_append_quote :
    Drops allows text ('"' :: out) ↔ Begins ['"'] (DropsQuoted · out) text :=
  begins_of_first drops_quote fun known => known.exists_eq_cons rfl

/-- Characters behind which it stays the same whether a comma may be dropped. -/
theorem drops_append (plain : ∀ character ∈ spelling, Text.isUnicodeBlank character = false ∧
    character ≠ '"' ∧ character ≠ ',' ∧ followsValue (some character) = allows) :
    Drops allows text (spelling ++ out) ↔ Begins spelling (Drops allows · out) text := by
  induction spelling generalizing text with
  | nil => rw [begins_nil, List.nil_append]
  | cons first spelling inductionHypothesis =>
    obtain ⟨⟨noBlank, noQuote, noComma, follows⟩, others⟩ := List.forall_mem_cons.mp plain
    refine (drops_append_cons noBlank noQuote noComma).trans (begins_trans ?_)
    rw [follows]
    exact inductionHypothesis others

/-- A token other than a comma is left of itself only. -/
theorem Spells.drops_append (spells : Spells numerals token spelling) (noComma : token ≠ .comma) :
    Drops allows text (spelling ++ out) ↔ Begins spelling (Drops token.allowsComma · out) text := by
  by_cases string : ∃ value, token = .string value
  · obtain ⟨value, rfl⟩ := string
    cases spells with
    | fixed known => cases known
    | string body =>
      rw [List.cons_append, List.append_assoc]
      exact drops_append_quote.trans (begins_trans (quoting_drops.append_body body))
  · have plain : ∀ character ∈ spelling, Text.isUnicodeBlank character = false ∧
        character ≠ '"' ∧ character ≠ ',' ∧ followsValue (some character) = token.allowsComma := by
      intro character member
      obtain ⟨noBlank, noQuote, -, follows, comma⟩ :=
        spells.characters (fun value same => string ⟨value, same⟩) character member
      exact ⟨noBlank, noQuote, fun same => noComma (comma.mp same), follows⟩
    obtain ⟨first, more, rfl, -⟩ := spells.exists_eq_cons
    obtain ⟨⟨noBlank, noQuote, other, follows⟩, others⟩ := List.forall_mem_cons.mp plain
    refine (drops_append_cons noBlank noQuote other).trans (begins_trans ?_)
    rw [follows]
    exact Grammar.drops_append others

/-! ### Closing brackets -/

theorem dropWhile_isAsciiBlank (blank : ∀ character ∈ blanks, Text.isBlank character = true)
    (text : List Char) :
    (blanks ++ text).dropWhile Text.isAsciiBlank = text.dropWhile Text.isAsciiBlank :=
  List.dropWhile_append_of_pos fun character member =>
    Text.isAsciiBlank_of_isBlank (blank character member)

/-- A bracket closes next if the first token is one. -/
theorem LaidOut.closesNext_eq (laid : LaidOut numerals false tokens text) :
    closesNext text = tokens.head?.any Token.closes := by
  obtain ⟨last, ⟨⟩ | ⟨gap, spells, others⟩, ending⟩ := laid
  · have nothing : text.dropWhile Text.isAsciiBlank = [] :=
      List.dropWhile_eq_nil_iff.mpr fun character member =>
        Text.isAsciiBlank_of_isBlank (ending.isBlank character member)
    rw [Reader.closesNext, nothing]
    rfl
  · obtain ⟨first, later, rfl, noBlank, closing⟩ := spells.exists_eq_cons
    rw [Reader.closesNext, dropWhile_isAsciiBlank gap.isBlank, List.cons_append,
      List.dropWhile_cons_of_neg (by simp [isAsciiBlank_eq_false noBlank])]
    exact closing

theorem drops_append_blanks (blank : ∀ character ∈ blanks, Text.isBlank character = true) :
    Drops allows (blanks ++ text) out ↔ Begins blanks (Drops allows text) out := by
  induction blanks generalizing out with
  | nil => exact begins_nil.symm
  | cons first blanks inductionHypothesis =>
    obtain ⟨here, others⟩ := List.forall_mem_cons.mp blank
    exact (drops_blank here).trans (begins_trans (inductionHypothesis others))

/-! ### Whole texts -/

theorem dropCommas_comma (allows : Bool) (tokens : List Token) :
    dropCommas allows (.comma :: tokens) =
      if allows && tokens.head?.any Token.closes then dropCommas allows tokens
      else .comma :: dropCommas false tokens := rfl

theorem laidOut_mark {mark : Char} (known : token.spelling? = some [mark])
    (laid : LaidOut numerals false tokens text) :
    LaidOut numerals false (token :: tokens) (mark :: text) := by
  have spells : Spells numerals token [mark] := .fixed known
  exact laidOut_cons_iff.mpr ⟨[mark], text, spells, spells.skipBlanks_append text, laid⟩

/-- What is left of a text that is laid out as tokens is laid out as those that are left. -/
theorem LaidOut.drops (laid : LaidOut numerals false tokens text) (known : Drops allows text out) :
    LaidOut numerals false (dropCommas allows tokens) out := by
  induction tokens generalizing allows text out with
  | nil =>
    have blank := laidOut_nil_iff.mp laid
    rw [← List.append_nil text, drops_append_blanks blank] at known
    obtain ⟨left, rfl, rfl⟩ := known
    exact (laidOut_append_iff blank).mpr (laidOut_nil_iff.mpr nofun)
  | cons token tokens inductionHypothesis =>
    obtain ⟨last, ⟨⟩, ending⟩ := laid
    rename_i before spelling after gap spells laid
    have behind : LaidOut numerals false tokens after := ⟨last, laid, ending⟩
    obtain ⟨left, rfl, rest⟩ := (drops_append_blanks gap.isBlank).mp known
    rw [laidOut_append_iff gap.isBlank]
    by_cases comma : token = .comma
    · subst comma
      obtain rfl := spells.eq_of_spelling? rfl
      rw [dropCommas_comma, ← behind.closesNext_eq]
      split
      · rename_i dropped
        obtain ⟨allowed, closes⟩ := Bool.and_eq_true_iff.mp dropped
        obtain ⟨later, rfl, others⟩ := (drops_dropped allowed closes).mp rest
        exact (laidOut_append_iff (List.forall_mem_singleton.mpr rfl)).mpr
          (inductionHypothesis behind others)
      · rename_i kept
        obtain ⟨later, rfl, others⟩ := (drops_kept (by simpa using kept)).mp rest
        exact laidOut_mark rfl (inductionHypothesis behind others)
    · obtain ⟨stays, others⟩ := exists_drops token.allowsComma after
      obtain rfl := rest.unique ((spells.drops_append comma).mpr ⟨after, rfl, others⟩)
      rw [dropCommas_cons comma]
      exact laidOut_cons_iff.mpr ⟨spelling, stays, spells, spells.skipBlanks_append stays,
        inductionHypothesis behind others⟩

/-- A text that starts with something else than a blank is laid out with a token there. -/
theorem LaidOut.exists_of_cons (laid : LaidOut numerals false tokens (character :: text))
    (noBlank : Text.isBlank character = false) :
    ∃ token later spelling after, tokens = token :: later ∧ Spells numerals token spelling ∧
      character :: text = spelling ++ after ∧ LaidOut numerals false later after := by
  cases tokens with
  | nil =>
    have blank := laidOut_nil_iff.mp laid character List.mem_cons_self
    rw [noBlank] at blank
    cases blank
  | cons token later =>
    obtain ⟨spelling, after, spells, same, others⟩ := laidOut_cons_iff.mp laid
    rw [skipBlanks_cons noBlank] at same
    exact ⟨token, later, spelling, after, rfl, spells, same, others⟩

theorem Spells.eq_comma_of_append {after : List Char} (spells : Spells numerals token spelling)
    (starts : ',' :: text = spelling ++ after) : token = .comma := by
  obtain ⟨first, later, rfl, -⟩ := spells.exists_eq_cons
  obtain ⟨rfl, -⟩ := List.cons.inj starts
  by_cases string : ∃ value, token = .string value
  · obtain ⟨value, rfl⟩ := string
    cases spells with
    | fixed known => cases known
  · obtain ⟨-, -, -, -, comma⟩ := spells.characters (fun value same => string ⟨value, same⟩) ','
      List.mem_cons_self
    exact comma.mp rfl

theorem Drops.exists_left (known : Drops allows (character :: text) out)
    (noComma : character ≠ ',') : ∃ left, out = character :: left := by
  by_cases quote : character = '"'
  · subst quote
    obtain ⟨left, rfl, -⟩ := drops_quote.mp known
    exact ⟨left, rfl⟩
  · obtain ⟨left, rfl, -⟩ := (drops_cons quote noComma).mp known
    exact ⟨left, rfl⟩

/-- If what is left of a text is laid out as tokens, the text was laid out as tokens of which
those are left. -/
theorem LaidOut.of_drops {left : List Token} (laid : LaidOut numerals false left out)
    (known : Drops allows text out) :
    ∃ tokens, dropCommas allows tokens = left ∧ LaidOut numerals false tokens text := by
  induction size : text.length using Nat.strong_induction_on
    generalizing allows left text out with
  | h size inductionHypothesis =>
    rcases text with _ | ⟨first, text⟩
    · obtain rfl : [] = out := known
      cases left with
      | nil => exact ⟨[], rfl, laid⟩
      | cons token left =>
        obtain ⟨spelling, after, spells, nothing, -⟩ := laidOut_cons_iff.mp laid
        obtain ⟨first, later, rfl, -⟩ := spells.exists_eq_cons
        cases nothing
    by_cases blank : Text.isBlank first = true
    · obtain ⟨rest, rfl, others⟩ := (drops_blank blank).mp known
      have single : ∀ character ∈ [first], Text.isBlank character = true :=
        List.forall_mem_singleton.mpr blank
      obtain ⟨tokens, same, before⟩ := inductionHypothesis _ (by simp [← size])
        ((laidOut_append_iff single).mp laid) others rfl
      exact ⟨tokens, same, (laidOut_append_iff single).mpr before⟩
    by_cases comma : first = ','
    · subst comma
      by_cases kept : (allows && closesNext text) = false
      · obtain ⟨rest, rfl, others⟩ := (drops_kept kept).mp known
        obtain ⟨token, later, spelling, after, rfl, spells, parts, behind⟩ :=
          laid.exists_of_cons rfl
        obtain rfl := spells.eq_comma_of_append parts
        obtain rfl := spells.eq_of_spelling? rfl
        cases parts
        obtain ⟨tokens, same, before⟩ := inductionHypothesis _ (by simp [← size]) behind others rfl
        refine ⟨.comma :: tokens, ?_, laidOut_mark rfl before⟩
        rw [dropCommas_comma, ← before.closesNext_eq, if_neg (by simp [kept]), same]
      · obtain ⟨allowed, closes⟩ := Bool.and_eq_true_iff.mp (by simpa using kept)
        obtain ⟨rest, rfl, others⟩ := (drops_dropped allowed closes).mp known
        have behind := (laidOut_append_iff (List.forall_mem_singleton.mpr rfl)).mp laid
        obtain ⟨tokens, same, before⟩ := inductionHypothesis _ (by simp [← size]) behind others rfl
        refine ⟨.comma :: tokens, ?_, laidOut_mark rfl before⟩
        rw [dropCommas_comma, ← before.closesNext_eq, if_pos (by simpa using kept), same]
    · obtain ⟨rest, rfl⟩ := known.exists_left comma
      obtain ⟨token, later, spelling, after, rfl, spells, parts, behind⟩ :=
        laid.exists_of_cons (by simpa using blank)
      have other : token ≠ .comma := by
        rintro rfl
        obtain rfl := spells.eq_of_spelling? rfl
        exact comma (List.cons.inj parts).1
      rw [parts] at known
      obtain ⟨next, same, others⟩ := (spells.drops_append other).mp known
      have shorter : next.length < (first :: text).length := by
        obtain ⟨start, more, rfl, -⟩ := spells.exists_eq_cons
        rw [same, List.length_append, List.length_cons]
        omega
      obtain ⟨tokens, left, before⟩ := inductionHypothesis _ (size ▸ shorter) behind others rfl
      refine ⟨token :: tokens, by rw [dropCommas_cons other, left], ?_⟩
      rw [same]
      exact laidOut_cons_iff.mpr ⟨spelling, next, spells, spells.skipBlanks_append next, before⟩

theorem laidOut_drops_iff {left : List Token} (known : Drops allows text out) :
    LaidOut numerals false left out ↔
      ∃ tokens, dropCommas allows tokens = left ∧ LaidOut numerals false tokens text := by
  constructor
  · exact fun laid => laid.of_drops known
  · rintro ⟨tokens, rfl, laid⟩
    exact laid.drops known

end JsonOverlay.Grammar
