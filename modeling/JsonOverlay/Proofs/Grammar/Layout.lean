/-
This file takes texts apart that are laid out as tokens. The tokens of one sequence after
another are laid out one after the other, a spelling starts with a character that no gap
starts with, and where there are no comments the blanks in front of a token are those that a
reader passes over.
-/

import JsonOverlay.Proofs.Grammar.Tokens
import JsonOverlay.Proofs.Reader
import Mathlib.Data.List.DropRight

namespace JsonOverlay.Grammar

open Reader

variable {numerals : Numeral → Number → Prop} {comments : Bool} {token : Token}
  {tokens : List Token} {text spelling after rest : List Char} {mark : Char}

/-! ### Gaps -/

theorem isAsciiBlank_eq_false {character : Char} (noBlank : Text.isUnicodeBlank character = false) :
    Text.isAsciiBlank character = false := by
  by_contra blank
  simp only [Text.isAsciiBlank, Bool.or_eq_true, Bool.not_eq_false, beq_iff_eq] at blank
  rcases blank with blank | rfl
  · rw [Text.isUnicodeBlank_of_isBlank blank] at noBlank
    cases noBlank
  · cases noBlank

theorem isBlank_eq_false {character : Char} (noBlank : Text.isUnicodeBlank character = false) :
    Text.isBlank character = false :=
  (Bool.or_eq_false_iff.mp (isAsciiBlank_eq_false noBlank)).1

theorem gap_of_isBlank (blank : ∀ character ∈ text, Text.isBlank character = true) :
    Gap comments text := by
  induction text with
  | nil => exact .nil
  | cons first later inductionHypothesis =>
    obtain ⟨here, others⟩ := List.forall_mem_cons.mp blank
    exact .blank here (inductionHypothesis others)

/-- Without comments there are blanks only. -/
theorem Gap.isBlank (gap : Gap false text) : ∀ character ∈ text, Text.isBlank character = true := by
  induction gap with
  | nil => nofun
  | blank blank _ inductionHypothesis => exact List.forall_mem_cons.mpr ⟨blank, inductionHypothesis⟩
  | lineComment allowed => cases allowed
  | blockComment allowed => cases allowed

theorem LastGap.isBlank (gap : LastGap false text) :
    ∀ character ∈ text, Text.isBlank character = true := by
  cases gap with
  | gap whole => exact whole.isBlank
  | lineComment allowed => cases allowed

/-! ### Spellings -/

theorem Spells.eq_of_spelling? (spells : Spells numerals token spelling) {only : List Char}
    (known : token.spelling? = some only) : spelling = only := by
  cases spells with
  | fixed same => exact Option.some.inj (same.symm.trans known)
  | number => cases known
  | string => cases known

/-- The first character of a spelling is no blank of any kind, and it is a closing bracket only
if the token is one. -/
theorem Spells.exists_eq_cons (spells : Spells numerals token spelling) :
    ∃ first later, spelling = first :: later ∧ Text.isUnicodeBlank first = false ∧
      (first == ']' || first == '\x7d') = token.closes := by
  cases spells with
  | fixed known =>
    cases token with
    | number => cases known
    | string => cases known
    | bool value =>
      cases value
      all_goals
        cases known
        exact ⟨_, _, rfl, by decide, rfl⟩
    | _ =>
      cases known
      exact ⟨_, _, rfl, by decide, rfl⟩
  | number numeral =>
    unfold Numeral.text
    cases numeral.negative with
    | true => exact ⟨'-', _, rfl, by decide, rfl⟩
    | false =>
      obtain ⟨negative, ⟨characters, nonempty, all⟩, fraction, exponent, proper⟩ := numeral
      obtain ⟨first, later, rfl⟩ := List.exists_cons_of_ne_nil nonempty
      have digit := all first List.mem_cons_self
      refine ⟨first, _, rfl, isUnicodeBlank_of_isDigit digit, ?_⟩
      have array : first ≠ ']' := by rintro rfl; cases digit
      have object : first ≠ '\x7d' := by rintro rfl; cases digit
      simp [array, object, Token.closes]
  | string => exact ⟨'"', _, rfl, by decide, rfl⟩

theorem Spells.skipBlanks_append (spells : Spells numerals token spelling) (after : List Char) :
    skipBlanks (spelling ++ after) = spelling ++ after := by
  obtain ⟨first, later, rfl, other, -⟩ := spells.exists_eq_cons
  exact skipBlanks_cons (isBlank_eq_false other) (later ++ after)

/-- What a character can be that stands in a numeral. -/
def InNumeral (character : Char) : Prop :=
  character.isDigit = true ∨ character ∈ ['-', '+', '.', 'e', 'E']

theorem Digits.inNumeral (digits : Digits) : ∀ character ∈ digits.characters,
    InNumeral character :=
  fun character member => .inl (digits.digits character member)

theorem inNumeral_fractionText (fraction : Option Digits) :
    ∀ character ∈ fractionText fraction, InNumeral character := by
  cases fraction with
  | none => nofun
  | some digits => exact List.forall_mem_cons.mpr ⟨.inr (by decide), digits.inNumeral⟩

theorem inNumeral_exponentText (exponent : Option Exponent) :
    ∀ character ∈ exponentText exponent, InNumeral character := by
  rcases exponent with _ | ⟨capital, minus, digits⟩
  · nofun
  · refine List.forall_mem_cons.mpr ⟨.inr (by cases capital <;> decide), ?_⟩
    refine List.forall_mem_append.mpr ⟨?_, digits.inNumeral⟩
    rcases minus with _ | _ | _
    · nofun
    · exact List.forall_mem_singleton.mpr (.inr (by decide))
    · exact List.forall_mem_singleton.mpr (.inr (by decide))

theorem Numeral.inNumeral (numeral : Numeral) : ∀ character ∈ numeral.text,
    InNumeral character := by
  unfold Numeral.text Numeral.unsignedText
  refine List.forall_mem_append.mpr ⟨?_, List.forall_mem_append.mpr
    ⟨numeral.whole.inNumeral, List.forall_mem_append.mpr
      ⟨inNumeral_fractionText _, inNumeral_exponentText _⟩⟩⟩
  cases numeral.negative with
  | false => nofun
  | true => exact List.forall_mem_singleton.mpr (.inr (by decide))

theorem InNumeral.isUnicodeBlank {character : Char} (known : InNumeral character) :
    Text.isUnicodeBlank character = false := by
  rcases known with digit | sign
  · exact isUnicodeBlank_of_isDigit digit
  · simp only [List.mem_cons, List.not_mem_nil, or_false] at sign
    rcases sign with rfl | rfl | rfl | rfl | rfl
    all_goals rfl

theorem InNumeral.ne {character : Char} (known : InNumeral character) {other : Char}
    (noDigit : other.isDigit = false) (noSign : other ∉ ['-', '+', '.', 'e', 'E']) :
    character ≠ other := by
  rintro rfl
  rcases known with digit | sign
  · rw [noDigit] at digit
    cases digit
  · exact noSign sign

/-- Nothing but a string has blanks, quotes or slashes in it. Any character of another token
tells whether a comma may be dropped behind that, and a comma is the only token that has one. -/
theorem Spells.characters (spells : Spells numerals token spelling)
    (noString : ∀ value, token ≠ .string value) : ∀ character ∈ spelling,
      Text.isUnicodeBlank character = false ∧ character ≠ '"' ∧ character ≠ '/' ∧
        followsValue (some character) = token.allowsComma ∧ (character = ',' ↔ token = .comma) := by
  cases spells with
  | fixed known =>
    cases token with
    | number => cases known
    | string => cases known
    | bool value =>
      cases value
      all_goals
        cases known
        repeat refine List.forall_mem_cons.mpr ⟨by decide, ?_⟩
        nofun
    | _ =>
      cases known
      repeat refine List.forall_mem_cons.mpr ⟨by decide, ?_⟩
      nofun
  | number numeral =>
    intro character member
    have known := numeral.inNumeral character member
    have noComma : character ≠ ',' := known.ne rfl (by decide)
    have noArray : character ≠ '[' := known.ne rfl (by decide)
    have noObject : character ≠ '\x7b' := known.ne rfl (by decide)
    refine ⟨known.isUnicodeBlank, known.ne rfl (by decide), known.ne rfl (by decide), ?_,
      fun same => (noComma same).elim, nofun⟩
    simp [followsValue, Token.allowsComma, noComma, noArray, noObject]
  | string => exact (noString _ rfl).elim

/-! ### What is left of a string -/

/-- A text begins with a front, and what stands behind that has a property. -/
def Begins (front : List Char) (property : List Char → Prop) (text : List Char) : Prop :=
  ∃ later, text = front ++ later ∧ property later

section

variable {first second : List Char} {property other : List Char → Prop}

theorem begins_congr (same : ∀ {later}, property later ↔ other later) :
    Begins first property text ↔ Begins first other text := by
  simp only [Begins, same]

theorem begins_nil : Begins [] property text ↔ property text := by
  simp [Begins]

theorem begins_append :
    Begins (first ++ second) property text ↔ Begins first (Begins second property) text := by
  constructor
  · rintro ⟨later, rfl, known⟩
    exact ⟨second ++ later, List.append_assoc _ _ _, later, rfl, known⟩
  · rintro ⟨_, rfl, later, rfl, known⟩
    exact ⟨later, (List.append_assoc _ _ _).symm, known⟩

/-- One front after another, each with what it leaves. -/
theorem begins_trans (known : ∀ {later}, property later ↔ Begins second other later) :
    Begins first property text ↔ Begins (first ++ second) other text :=
  (begins_congr known).trans begins_append.symm

end

/-- A character that stays where it stands, and comes from nowhere else. -/
theorem begins_of_first {whole behind : List Char → List Char → Prop} {character : Char}
    {out : List Char}
    (stays : ∀ {text out}, whole (character :: text) out ↔ Begins [character] (behind text) out)
    (first : ∀ {text out}, whole text (character :: out) → ∃ later, text = character :: later) :
    whole text (character :: out) ↔ Begins [character] (behind · out) text := by
  constructor
  · intro known
    obtain ⟨later, rfl⟩ := first known
    obtain ⟨left, same, rest⟩ := stays.mp known
    cases same
    exact ⟨later, rfl, rest⟩
  · rintro ⟨later, rfl, rest⟩
    exact stays.mpr ⟨out, rfl, rest⟩

/-- How texts with strings in them go over into others: within a string every character stays
as it is, and no escaped character ends the string. -/
structure Quoting (inside outside : List Char → List Char → Prop) : Prop where
  nothing : ∀ {out}, inside [] out ↔ out = []
  quote : ∀ {text out}, inside ('"' :: text) out ↔ Begins ['"'] (outside text) out
  escape : ∀ {text out escaped}, inside ('\\' :: escaped :: text) out ↔
    Begins ['\\', escaped] (inside text) out
  other : ∀ {text out character}, character ≠ '"' → (character = '\\' → text = []) →
    (inside (character :: text) out ↔ Begins [character] (inside text) out)

/-- What the rest of a string starts with. -/
inductive StartsQuoted : List Char → Prop where
  | nothing : StartsQuoted []
  | quote {text : List Char} : StartsQuoted ('"' :: text)
  | escape {escaped : Char} {text : List Char} : StartsQuoted ('\\' :: escaped :: text)
  | other {character : Char} {text : List Char} (noQuote : character ≠ '"')
      (noEscape : character = '\\' → text = []) : StartsQuoted (character :: text)

theorem startsQuoted (text : List Char) : StartsQuoted text := by
  rcases text with _ | ⟨first, text⟩
  · exact .nothing
  by_cases quote : first = '"'
  · subst quote
    exact .quote
  by_cases backslash : first = '\\'
  · subst backslash
    rcases text with _ | ⟨escaped, text⟩
    · exact .other quote fun _ => rfl
    · exact .escape
  · exact .other quote fun same => (backslash same).elim

section

variable {inside outside : List Char → List Char → Prop} {out source value written : List Char}
  {character escaped : Char}

theorem Quoting.exists_eq_cons (quoting : Quoting inside outside)
    (known : inside text (character :: out)) : ∃ later, text = character :: later := by
  cases startsQuoted text with
  | nothing => cases quoting.nothing.mp known
  | quote =>
    obtain ⟨left, same, -⟩ := quoting.quote.mp known
    cases same
    exact ⟨_, rfl⟩
  | escape =>
    obtain ⟨left, same, -⟩ := quoting.escape.mp known
    cases same
    exact ⟨_, rfl⟩
  | other noQuote noEscape =>
    obtain ⟨left, same, -⟩ := (quoting.other noQuote noEscape).mp known
    cases same
    exact ⟨_, rfl⟩

theorem Quoting.cons_quote (quoting : Quoting inside outside) :
    inside text ('"' :: out) ↔ Begins ['"'] (outside · out) text :=
  begins_of_first quoting.quote quoting.exists_eq_cons

theorem Quoting.cons_plain (quoting : Quoting inside outside) (noQuote : character ≠ '"')
    (noBackslash : character ≠ '\\') :
    inside text (character :: out) ↔ Begins [character] (inside · out) text :=
  begins_of_first (quoting.other noQuote fun same => (noBackslash same).elim)
    quoting.exists_eq_cons

theorem Quoting.cons_escape (quoting : Quoting inside outside) :
    inside text ('\\' :: escaped :: out) ↔ Begins ['\\', escaped] (inside · out) text := by
  constructor
  · intro known
    obtain ⟨later, rfl⟩ := quoting.exists_eq_cons known
    rcases later with _ | ⟨first, later⟩
    · obtain ⟨left, same, rest⟩ := (quoting.other (by decide) fun _ => rfl).mp known
      cases same
      cases quoting.nothing.mp rest
    · obtain ⟨left, same, rest⟩ := quoting.escape.mp known
      cases same
      exact ⟨later, rfl, rest⟩
  · rintro ⟨later, rfl, rest⟩
    exact quoting.escape.mpr ⟨out, rfl, rest⟩

theorem Quoting.append (quoting : Quoting inside outside)
    (plain : ∀ character ∈ written, character ≠ '"' ∧ character ≠ '\\') :
    inside text (written ++ out) ↔ Begins written (inside · out) text := by
  induction written generalizing text with
  | nil => rw [begins_nil, List.nil_append]
  | cons first written inductionHypothesis =>
    obtain ⟨here, others⟩ := List.forall_mem_cons.mp plain
    exact (quoting.cons_plain here.1 here.2).trans (begins_trans (inductionHypothesis others))

theorem plain_of_hexValue? {digit : Char} {value : Nat} (known : hexValue? digit = some value) :
    digit ≠ '"' ∧ digit ≠ '\\' := by
  constructor
  all_goals
    rintro rfl
    revert known
    simp +decide [hexValue?]

theorem plain_of_hexQuad? {first second third fourth : Char} {unit : Nat}
    (known : hexQuad? first second third fourth = some unit) :
    ∀ digit ∈ [first, second, third, fourth], digit ≠ '"' ∧ digit ≠ '\\' := by
  simp only [hexQuad?, Option.bind_eq_bind, Option.bind_eq_some_iff] at known
  obtain ⟨_, first, _, second, _, third, _, fourth, _⟩ := known
  simp only [List.forall_mem_cons]
  exact ⟨plain_of_hexValue? first, plain_of_hexValue? second, plain_of_hexValue? third,
    plain_of_hexValue? fourth, nofun⟩

theorem Quoting.append_hexQuad? (quoting : Quoting inside outside)
    {first second third fourth : Char} {unit : Nat}
    (known : hexQuad? first second third fourth = some unit) :
    inside text ('\\' :: 'u' :: first :: second :: third :: fourth :: out) ↔
      Begins ['\\', 'u', first, second, third, fourth] (inside · out) text :=
  quoting.cons_escape.trans (begins_trans (quoting.append (plain_of_hexQuad? known)))

theorem Quoting.append_escape (quoting : Quoting inside outside)
    (known : Escape written character) : inside text ('\\' :: (written ++ out)) ↔
      Begins ('\\' :: written) (inside · out) text := by
  cases known with
  | letter => exact quoting.cons_escape
  | unit known => exact quoting.append_hexQuad? known
  | pair known _ knownLow _ =>
    exact (quoting.append_hexQuad? known).trans (begins_trans (quoting.append_hexQuad? knownLow))

/-- A string stays as it is, up to its closing quote. -/
theorem Quoting.append_body (quoting : Quoting inside outside) (body : StringBody source value) :
    inside text (source ++ '"' :: out) ↔ Begins (source ++ ['"']) (outside · out) text := by
  induction body generalizing text with
  | nil => exact quoting.cons_quote
  | plain noQuote noBackslash _ _ inductionHypothesis =>
    exact (quoting.cons_plain noQuote noBackslash).trans (begins_trans inductionHypothesis)
  | escape known _ inductionHypothesis =>
    rw [List.cons_append, List.append_assoc, List.cons_append, List.append_assoc]
    exact (quoting.append_escape known).trans (begins_trans inductionHypothesis)

end

/-! ### Tokens one after the other -/

theorem laid_append_iff {first second : List Token} :
    Laid numerals comments (first ++ second) text rest ↔
      ∃ middle, Laid numerals comments first text middle ∧
        Laid numerals comments second middle rest := by
  induction first generalizing text with
  | nil =>
    refine ⟨fun laid => ⟨text, .nil, laid⟩, ?_⟩
    rintro ⟨middle, ⟨⟩, laid⟩
    exact laid
  | cons token first inductionHypothesis =>
    constructor
    · rintro ⟨⟩
      rename_i gap spells others
      obtain ⟨middle, before, behind⟩ := inductionHypothesis.mp others
      exact ⟨middle, .cons gap spells before, behind⟩
    · rintro ⟨middle, ⟨⟩, behind⟩
      rename_i gap spells others
      exact .cons gap spells (inductionHypothesis.mpr ⟨middle, others, behind⟩)

theorem Laid.length_le (laid : Laid numerals comments tokens text rest) :
    tokens.length + rest.length ≤ text.length := by
  induction laid with
  | nil => simp
  | cons _ spells _ inductionHypothesis =>
    obtain ⟨first, later, rfl, -⟩ := spells.exists_eq_cons
    simp only [List.length_cons, List.length_append]
    omega

/-- Without comments a token stands behind the blanks. -/
theorem laid_cons_iff : Laid numerals false (token :: tokens) text rest ↔
    ∃ spelling after, Spells numerals token spelling ∧ skipBlanks text = spelling ++ after ∧
      Laid numerals false tokens after rest := by
  constructor
  · rintro ⟨⟩
    rename_i gap spells others
    exact ⟨_, _, spells, (skipBlanks_append gap.isBlank _).trans (spells.skipBlanks_append _),
      others⟩
  · rintro ⟨spelling, after, spells, same, others⟩
    have parts : text.takeWhile Text.isBlank ++ skipBlanks text = text :=
      List.takeWhile_append_dropWhile
    rw [← parts, same]
    exact .cons (gap_of_isBlank fun _ => List.mem_takeWhile_imp) spells others

theorem laid_mark_iff (known : token.spelling? = some [mark]) :
    Laid numerals false (token :: tokens) text rest ↔
      ∃ after, skipBlanks text = mark :: after ∧ Laid numerals false tokens after rest := by
  rw [laid_cons_iff]
  constructor
  · rintro ⟨spelling, after, spells, same, others⟩
    obtain rfl := spells.eq_of_spelling? known
    exact ⟨after, same, others⟩
  · rintro ⟨after, same, others⟩
    exact ⟨[mark], after, .fixed known, same, others⟩

theorem laid_nil_iff : Laid numerals comments [] text rest ↔ text = rest := by
  constructor
  · rintro ⟨⟩
    rfl
  · rintro rfl
    exact .nil

theorem laid_skipBlanks_iff (nonempty : tokens ≠ []) :
    Laid numerals false tokens (skipBlanks text) rest ↔ Laid numerals false tokens text rest := by
  obtain ⟨token, tokens, rfl⟩ := List.exists_cons_of_ne_nil nonempty
  have again : skipBlanks (skipBlanks text) = skipBlanks text :=
    List.dropWhile_idempotent _ _
  rw [laid_cons_iff, laid_cons_iff, again]

theorem laidOut_nil_iff :
    LaidOut numerals false [] text ↔ ∀ character ∈ text, Text.isBlank character = true := by
  constructor
  · rintro ⟨last, ⟨⟩, ending⟩
    exact ending.isBlank
  · intro blank
    exact ⟨text, .nil, .gap (gap_of_isBlank blank)⟩

theorem laidOut_cons_iff : LaidOut numerals false (token :: tokens) text ↔
    ∃ spelling after, Spells numerals token spelling ∧ skipBlanks text = spelling ++ after ∧
      LaidOut numerals false tokens after := by
  constructor
  · rintro ⟨last, laid, ending⟩
    obtain ⟨spelling, after, spells, same, others⟩ := laid_cons_iff.mp laid
    exact ⟨spelling, after, spells, same, last, others, ending⟩
  · rintro ⟨spelling, after, spells, same, last, others, ending⟩
    exact ⟨last, laid_cons_iff.mpr ⟨spelling, after, spells, same, others⟩, ending⟩

theorem laidOut_append_iff {blanks : List Char}
    (blank : ∀ character ∈ blanks, Text.isBlank character = true) :
    LaidOut numerals false tokens (blanks ++ text) ↔ LaidOut numerals false tokens text := by
  cases tokens with
  | nil =>
    rw [laidOut_nil_iff, laidOut_nil_iff, List.forall_mem_append]
    exact and_iff_right blank
  | cons => rw [laidOut_cons_iff, laidOut_cons_iff, skipBlanks_append blank]

/-- What a text starts with does not matter as long as it is blank. -/
theorem laid_congr {other : List Char} (nonempty : tokens ≠ [])
    (same : skipBlanks text = skipBlanks other) :
    Laid numerals false tokens text rest ↔ Laid numerals false tokens other rest := by
  rw [← laid_skipBlanks_iff nonempty, same, laid_skipBlanks_iff nonempty]

/-- A comma or a closing bracket ends a numeral. -/
theorem Laid.delimits (laid : Laid numerals false (token :: tokens) text rest)
    (known : token.spelling? = some [mark]) (ends : Delimits [mark]) : Delimits text := by
  obtain ⟨after, same, -⟩ := (laid_mark_iff known).mp laid
  refine delimits_of_skipBlanks same fun next later equal => ?_
  cases equal
  exact ends mark [] rfl

theorem delimits_of_isBlank (blank : ∀ character ∈ text, Text.isBlank character = true) :
    Delimits text := by
  rintro next later rfl
  have here := blank next List.mem_cons_self
  simp only [Text.isBlank, Bool.or_eq_true, beq_iff_eq] at here
  rcases here with ((rfl | rfl) | rfl) | rfl
  all_goals decide

end JsonOverlay.Grammar
