/-
This file says where the blanks of a text stand. A caret goes through the text and knows whether it
is in a string literal, how many brackets are open, and which characters it has just passed. From
that follows which blanks belong in front of the next character when every entry of a container is
written on a line of its own. The values that a writer writes at once are read by the caret as a
whole.
-/

import JsonOverlay.Proofs.Grammar.Render

namespace JsonOverlay

/-- Where a character of a text is: outside the string literals, in one, or in one behind the
backslash that escapes it. -/
inductive Region where
  | outside | inside | escaped
deriving DecidableEq, Repr

/-- What a caret knows of the text in front of it: how many brackets are open, the last character
that is neither blank nor inside a string literal, and the blanks since. -/
structure Caret where
  region : Region := .outside
  depth : Nat := 0
  last : Option Char := none
  blanks : List Char := []
deriving DecidableEq, Repr

namespace Caret

/-! ### Going through a text -/

def isBlank (character : Char) : Bool := character == ' ' || character == '\n'

def isOpening (character : Char) : Bool := character == '[' || character == '\x7b'

def isClosing (character : Char) : Bool := character == ']' || character == '\x7d'

/-- The caret in front of a text. -/
def start : Caret := {}

/-- The caret behind one more character. -/
def next (caret : Caret) (character : Char) : Caret :=
  match caret.region with
  | .inside =>
    if character = '"' then { caret with region := .outside }
    else if character = '\\' then { caret with region := .escaped }
    else caret
  | .escaped => { caret with region := .inside }
  | .outside =>
    if isBlank character then { caret with blanks := caret.blanks ++ [character] }
    else
      { region := if character = '"' then .inside else .outside
        depth := if isOpening character then caret.depth + 1
          else if isClosing character then caret.depth - 1
          else caret.depth
        last := some character
        blanks := [] }

/-- The caret behind some more text. -/
def after (caret : Caret) (text : List Char) : Caret := text.foldl next caret

/-- What is left of a text behind the caret without the spaces and line feeds that lie outside the
string literals. -/
def squeezed (caret : Caret) : List Char → List Char
  | [] => []
  | character :: rest =>
    if caret.region = .outside ∧ isBlank character = true then squeezed (caret.next character) rest
    else character :: squeezed (caret.next character) rest

/-! ### Blanks by depth -/

/-- A line feed and the spaces that indent the new line. -/
def newLine (width depth : Nat) : List Char := '\n' :: List.replicate (width * depth) ' '

/-- The blanks in front of a character that closes no container. After an opening bracket and after
a comma an entry starts, on a new line that is indented by the depth. After a colon comes one
space. Anywhere else there are no blanks. -/
def blanksInside (width : Nat) (caret : Caret) : List Char :=
  match caret.last with
  | none => []
  | some last =>
    if isOpening last || last == ',' then newLine width caret.depth
    else if last == ':' then [' ']
    else []

/-- The blanks in front of a bracket that closes a container. If the container is empty there are
none. Otherwise the bracket stands on a new line that is indented by the depth outside. -/
def blanksAtEnd (width : Nat) (caret : Caret) : List Char :=
  if caret.last.any isOpening then [] else newLine width (caret.depth - 1)

def blanksBefore (width : Nat) (caret : Caret) (character : Char) : List Char :=
  if isClosing character then caret.blanksAtEnd width else caret.blanksInside width

/-- A text is indented if every character outside the string literals has its blanks in front of
it. Behind the last character there are no blanks, except for the space after a colon. -/
def Indented (width : Nat) (text : List Char) : Prop :=
  (∀ (front back : List Char) (character : Char), text = front ++ character :: back →
    (start.after front).region = .outside → isBlank character = false →
      (start.after front).blanks = (start.after front).blanksBefore width character) ∧
  ((start.after text).region = .outside →
    (start.after text).blanks = if (start.after text).last = some ':' then [' '] else [])

/-- A caret goes through a text in which every character has its blanks in front of it. What is
left of the text without the blanks outside the string literals, and where the caret comes to. -/
inductive Passes (width : Nat) : Caret → List Char → List Char → Caret → Prop where
  | nil (caret : Caret) : Passes width caret [] [] caret
  | blank {caret final : Caret} {character : Char} {text squeezed : List Char}
      (outside : caret.region = .outside) (blank : isBlank character = true)
      (rest : Passes width (caret.next character) text squeezed final) :
      Passes width caret (character :: text) squeezed final
  | kept {caret final : Caret} {character : Char} {text squeezed : List Char}
      (placed : caret.region = .outside → isBlank character = false ∧
        caret.blanks = caret.blanksBefore width character)
      (rest : Passes width (caret.next character) text squeezed final) :
      Passes width caret (character :: text) (character :: squeezed) final

variable {width depth : Nat} {caret middle final : Caret} {text left first second others source
  value : List Char} {character letter : Char}

theorem Passes.append (passes : Passes width caret first left middle)
    (later : Passes width middle second others final) :
    Passes width caret (first ++ second) (left ++ others) final := by
  induction passes with
  | nil => exact later
  | blank outside blank _ inductionHypothesis => exact .blank outside blank (inductionHypothesis later)
  | kept placed _ inductionHypothesis => exact .kept placed (inductionHypothesis later)

theorem Passes.squeezed_eq (passes : Passes width caret text left final) :
    caret.squeezed text = left := by
  induction passes with
  | nil => rfl
  | blank outside blank _ inductionHypothesis =>
    rw [squeezed, if_pos ⟨outside, blank⟩, inductionHypothesis]
  | kept placed _ inductionHypothesis =>
    rw [squeezed, if_neg, inductionHypothesis]
    rintro ⟨outside, blank⟩
    rw [(placed outside).1] at blank
    cases blank

theorem Passes.after_eq (passes : Passes width caret text left final) :
    caret.after text = final := by
  induction passes with
  | nil => rfl
  | blank _ _ _ inductionHypothesis => exact inductionHypothesis
  | kept _ _ inductionHypothesis => exact inductionHypothesis

theorem Passes.blanks_eq (passes : Passes width caret text left final) :
    ∀ (front back : List Char) (character : Char), text = front ++ character :: back →
      (caret.after front).region = .outside → isBlank character = false →
        (caret.after front).blanks = (caret.after front).blanksBefore width character := by
  induction passes with
  | nil =>
    intro front back character split
    cases front <;> cases split
  | blank _ blank _ inductionHypothesis =>
    rintro (_ | ⟨first, front⟩) back character split outside visible
    · cases split
      rw [blank] at visible
      cases visible
    · cases split
      exact inductionHypothesis front back character rfl outside visible
  | kept placed _ inductionHypothesis =>
    rintro (_ | ⟨first, front⟩) back character split outside visible
    · cases split
      exact (placed outside).2
    · cases split
      exact inductionHypothesis front back character rfl outside visible

/-! ### Inside a string literal -/

/-- A text in a string literal that the caret passes without leaving the literal. -/
def Enclosed (text : List Char) : Prop :=
  ∀ (width : Nat) {caret : Caret}, caret.region = .inside → Passes width caret text text caret

theorem enclosed_nil : Enclosed [] := fun _ caret _ => .nil caret

theorem Enclosed.append (ofFirst : Enclosed first) (ofSecond : Enclosed second) :
    Enclosed (first ++ second) :=
  fun width _ inside => (ofFirst width inside).append (ofSecond width inside)

/-- A character in a string literal is kept. -/
theorem passes_hidden (hidden : caret.region ≠ .outside) (character : Char) :
    Passes width caret [character] [character] (caret.next character) :=
  .kept (fun outside => absurd outside hidden) (.nil _)

theorem enclosed_plain (noQuote : character ≠ '"') (noBackslash : character ≠ '\\') :
    Enclosed [character] := by
  intro width caret inside
  have stays : caret.next character = caret := by
    rw [next, inside]
    simp only [noQuote, noBackslash, if_false]
  have passes : Passes width caret [character] [character] (caret.next character) :=
    passes_hidden (by rw [inside]; decide) character
  rwa [stays] at passes

/-- A backslash and the character that it escapes. -/
theorem enclosed_escape (letter : Char) : Enclosed ['\\', letter] := by
  rintro width ⟨region, depth, last, blanks⟩ inside
  cases inside
  have backslash : Passes width ⟨.inside, depth, last, blanks⟩ ['\\'] ['\\']
      ⟨.escaped, depth, last, blanks⟩ := passes_hidden (by rintro ⟨⟩) '\\'
  exact backslash.append (passes_hidden (by rintro ⟨⟩) letter)

theorem enclosed_of_plain (plain : ∀ character ∈ text, character ≠ '"' ∧ character ≠ '\\') :
    Enclosed text := by
  induction text with
  | nil => exact enclosed_nil
  | cons character rest inductionHypothesis =>
    obtain ⟨⟨noQuote, noBackslash⟩, others⟩ := List.forall_mem_cons.mp plain
    exact (enclosed_plain noQuote noBackslash).append (inductionHypothesis others)

open Grammar in
theorem enclosed_body (body : StringBody source value) : Enclosed source := by
  induction body with
  | nil => exact enclosed_nil
  | plain noQuote noBackslash _ _ inductionHypothesis =>
    exact (enclosed_plain noQuote noBackslash).append inductionHypothesis
  | escape known _ inductionHypothesis =>
    cases known with
    | letter => exact (enclosed_escape _).append inductionHypothesis
    | unit known =>
      have digits := enclosed_of_plain (plain_of_hexQuad? known)
      exact (enclosed_escape 'u').append (digits.append inductionHypothesis)
    | pair known _ knownLow _ =>
      have digits := enclosed_of_plain (plain_of_hexQuad? known)
      have lowDigits := enclosed_of_plain (plain_of_hexQuad? knownLow)
      exact (enclosed_escape 'u').append (digits.append
        ((enclosed_escape 'u').append (lowDigits.append inductionHypothesis)))

/-! ### Values that are written at once -/

/-- What a value may end with: no opening bracket, no comma and no colon. -/
def Ends (character : Char) : Prop :=
  isOpening character = false ∧ character ≠ ',' ∧ character ≠ ':'

instance : DecidablePred Ends := fun _ => inferInstanceAs (Decidable (_ ∧ _))

/-- No blanks stand behind a value, except in front of a bracket. -/
theorem Ends.blanksInside (ends : Ends character) (width depth : Nat) (blanks : List Char) :
    blanksInside width { depth, last := some character, blanks } = [] := by
  obtain ⟨noOpening, noComma, noColon⟩ := ends
  simp [Caret.blanksInside, noOpening, noComma, noColon]

/-- A text that needs the blanks in front of it that a value needs, and none inside. Of what the
caret knows only the last character changes. -/
def Solid (text : List Char) : Prop :=
  ∀ (width : Nat) (caret : Caret), caret.region = .outside →
    caret.blanks = caret.blanksInside width →
      ∃ final, Ends final ∧ Passes width caret text text { depth := caret.depth, last := some final }

theorem Solid.append (ofFirst : Solid first) (ofSecond : Solid second) :
    Solid (first ++ second) := by
  intro width caret outside right
  obtain ⟨between, ends, passes⟩ := ofFirst width caret outside right
  obtain ⟨final, closes, later⟩ := ofSecond width { depth := caret.depth, last := some between } rfl
    (ends.blanksInside width caret.depth []).symm
  exact ⟨final, closes, passes.append later⟩

/-- A character outside the string literals that means nothing. -/
def Plain (character : Char) : Prop :=
  isBlank character = false ∧ character ≠ '"' ∧ isClosing character = false ∧ Ends character

instance : DecidablePred Plain := fun _ => inferInstanceAs (Decidable (_ ∧ _))

theorem solid_plain (plain : Plain character) : Solid [character] := by
  obtain ⟨noBlank, noQuote, noClosing, ends⟩ := plain
  intro width caret outside right
  have behind : caret.next character = { depth := caret.depth, last := some character } := by
    rw [next, outside]
    simp [noBlank, noQuote, noClosing, ends.1]
  have placed : caret.blanks = caret.blanksBefore width character := by
    rwa [blanksBefore, noClosing]
  exact ⟨character, ends, behind ▸ .kept (fun _ => ⟨noBlank, placed⟩) (.nil _)⟩

theorem solid_word (some : text ≠ []) (plain : ∀ character ∈ text, Plain character) :
    Solid text := by
  induction text with
  | nil => exact absurd rfl some
  | cons character rest inductionHypothesis =>
    obtain ⟨here, others⟩ := List.forall_mem_cons.mp plain
    cases rest with
    | nil => exact solid_plain here
    | cons second rest =>
      exact (solid_plain here).append (inductionHypothesis (List.cons_ne_nil _ _) others)

/-- A string literal. -/
theorem solid_literal (enclosed : Enclosed source) : Solid ('"' :: (source ++ ['"'])) := by
  rintro width ⟨region, depth, last, blanks⟩ outside right
  cases outside
  have opening : Passes width ⟨.outside, depth, last, blanks⟩ ['"'] ['"']
      ⟨.inside, depth, some '"', []⟩ := .kept (fun _ => ⟨rfl, right⟩) (.nil _)
  have closing : Passes width ⟨.inside, depth, some '"', []⟩ ['"'] ['"']
      ⟨.outside, depth, some '"', []⟩ := passes_hidden (by rintro ⟨⟩) '"'
  exact ⟨'"', by decide, opening.append ((enclosed width rfl).append closing)⟩

/-! ### Marks -/

/-- A character outside the string literals that is no blank and has its blanks in front of it. -/
theorem passes_mark (visible : isBlank character = false)
    (right : caret.blanks = caret.blanksBefore width character) :
    Passes width caret [character] [character] (caret.next character) :=
  .kept (fun _ => ⟨visible, right⟩) (.nil _)

/-- Behind a value there is a mark without blanks in front of it. -/
theorem passes_behind (width depth : Nat) {last : Char} (ends : Ends last)
    (visible : isBlank character = false) (within : isClosing character = false) :
    Passes width { depth, last := some last } [character] [character]
      (next { depth, last := some last } character) :=
  passes_mark visible (by rw [blanksBefore, within]; exact (ends.blanksInside width depth []).symm)

/-- A bracket that opens a container. -/
theorem passes_opening (opens : isOpening character = true) (outside : caret.region = .outside)
    (right : caret.blanks = caret.blanksInside width) :
    Passes width caret [character] [character]
      { depth := caret.depth + 1, last := some character } := by
  obtain ⟨region, depth, last, blanks⟩ := caret
  cases outside
  have brackets : character = '[' ∨ character = '\x7b' :=
    ((Bool.or_eq_true _ _).mp opens).imp beq_iff_eq.mp beq_iff_eq.mp
  rcases brackets with rfl | rfl
  all_goals exact passes_mark rfl right

theorem eq_of_isClosing (closes : isClosing character = true) :
    character = ']' ∨ character = '\x7d' :=
  ((Bool.or_eq_true _ _).mp closes).imp beq_iff_eq.mp beq_iff_eq.mp

theorem ends_of_isClosing (closes : isClosing character = true) : Ends character := by
  rcases eq_of_isClosing closes with rfl | rfl
  all_goals decide

/-- A bracket that closes a container. -/
theorem passes_closing (closes : isClosing character = true) (outside : caret.region = .outside)
    (right : caret.blanks = caret.blanksAtEnd width) :
    Passes width caret [character] [character]
      { depth := caret.depth - 1, last := some character } := by
  have placed : caret.blanks = caret.blanksBefore width character :=
    right.trans (if_pos closes).symm
  obtain ⟨region, depth, last, blanks⟩ := caret
  cases outside
  rcases eq_of_isClosing closes with rfl | rfl
  all_goals exact passes_mark rfl placed

theorem passes_blanks (outside : caret.region = .outside)
    (blank : ∀ character ∈ text, isBlank character = true) :
    Passes width caret text [] { caret with blanks := caret.blanks ++ text } := by
  induction text generalizing caret with
  | nil =>
    rw [List.append_nil]
    exact .nil caret
  | cons character rest inductionHypothesis =>
    obtain ⟨here, others⟩ := List.forall_mem_cons.mp blank
    have behind : caret.next character =
        { caret with blanks := caret.blanks ++ [character] } := by
      rw [next, outside]
      exact if_pos here
    refine .blank outside here ?_
    rw [behind, List.append_cons caret.blanks character rest]
    exact inductionHypothesis outside others

theorem isBlank_of_mem_newLine (member : character ∈ newLine width depth) :
    isBlank character = true := by
  rcases List.mem_cons.mp member with rfl | space
  · rfl
  · rw [List.eq_of_mem_replicate space]
    rfl

theorem passes_newLine (width depth : Nat) (last : Option Char) (height : Nat) :
    Passes width { depth, last } (newLine width height) []
      { depth, last, blanks := newLine width height } :=
  passes_blanks rfl fun _ => isBlank_of_mem_newLine

/-! ### Values of the writer -/

theorem plain_of_inNumeral (known : Grammar.InNumeral character) : Plain character := by
  have noQuote : character ≠ '"' := known.ne rfl (by decide)
  have noComma : character ≠ ',' := known.ne rfl (by decide)
  have noColon : character ≠ ':' := known.ne rfl (by decide)
  have noSpace : character ≠ ' ' := known.ne rfl (by decide)
  have noLine : character ≠ '\n' := known.ne rfl (by decide)
  have openArray : character ≠ '[' := known.ne rfl (by decide)
  have openObject : character ≠ '\x7b' := known.ne rfl (by decide)
  have closeArray : character ≠ ']' := known.ne rfl (by decide)
  have closeObject : character ≠ '\x7d' := known.ne rfl (by decide)
  refine ⟨?_, noQuote, ?_, ?_, noComma, noColon⟩
  · simp [isBlank, noSpace, noLine]
  · simp [isClosing, closeArray, closeObject]
  · simp [isOpening, openArray, openObject]

/-- A token that stands for a value by itself. -/
theorem solid_spelling {numerals : Grammar.Numeral → Number → Prop} {token : Grammar.Token}
    {tree : Tree} (scalar : Grammar.IsScalar token tree) (spells : Grammar.Spells numerals token text) :
    Solid text := by
  obtain ⟨first, later, same, -⟩ := spells.exists_eq_cons
  have some : text ≠ [] := same ▸ List.cons_ne_nil first later
  cases spells with
  | string body => exact solid_literal (enclosed_body body)
  | number numeral =>
    exact solid_word some fun character member => plain_of_inNumeral (numeral.inNumeral character member)
  | fixed known =>
    cases scalar with
    | number => cases known
    | string => cases known
    | null =>
      cases known
      refine solid_word some ?_
      repeat refine List.forall_mem_cons.mpr ⟨by decide, ?_⟩
      nofun
    | bool value =>
      cases value
      all_goals
        cases known
        refine solid_word some ?_
        repeat refine List.forall_mem_cons.mpr ⟨by decide, ?_⟩
        nofun

theorem solid_quoteJson (text : String) : Solid (Text.quoteJson text).toList :=
  have spells : Grammar.Spells Grammar.anyNumeral (.string text) (Text.quoteJson text).toList :=
    Grammar.spells_quoteJson text
  solid_spelling (.string text) spells

/-- The text of a number. -/
theorem solid_number {options : WriteOptions} (sign : options.WritesNumerals) (value : Number) :
    Solid (options.numbers.number value).toList := by
  have numeral {text : List Char} (known : Grammar.IsNumeral text) : Solid text :=
    solid_spelling (.number value) (Grammar.spells_number known value)
  rcases value with value | value | value
  · exact numeral (DecimalLayout.isNumeral_integer _)
  · exact numeral (DecimalLayout.isNumeral_integer _)
  · cases finite : value.isFinite with
    | true => exact numeral (options.numbers.isNumeral_double sign finite)
    | false =>
      have null : (options.numbers.double value).toList = ['n', 'u', 'l', 'l'] := by
        rw [DecimalLayout.double, if_neg (Bool.eq_false_iff.mp finite)]
        rfl
      have spells : Grammar.Spells Grammar.anyNumeral .null (options.numbers.double value).toList :=
        .fixed (congrArg some null).symm
      exact solid_spelling .null spells

/-- The text of a value that holds no others. -/
theorem solid_render {options : WriteOptions} (sign : options.WritesNumerals) {event : Event}
    {tree : Tree} (known : event.scalar? = some tree) (depth : Nat) :
    Solid (tree.render options depth).toList := by
  have word {token : Grammar.Token} {tree : Tree} {text : List Char}
      (scalar : Grammar.IsScalar token tree) (spelling : token.spelling? = some text) :
      Solid text :=
    have spells : Grammar.Spells Grammar.anyNumeral token text := .fixed spelling
    solid_spelling scalar spells
  cases event with
  | null =>
    cases known
    rw [Tree.render]
    exact word .null rfl
  | bool value =>
    cases known
    rw [Tree.render]
    refine word (.bool value) ?_
    cases value <;> rfl
  | string value =>
    cases known
    exact solid_quoteJson value
  | int | uint | int64 | uint64 | double =>
    cases known
    exact solid_number sign _
  | _ => cases known

end Caret

end JsonOverlay
