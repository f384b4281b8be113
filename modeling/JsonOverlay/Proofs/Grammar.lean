/-
This file states the grammar of JSON texts. A text is a sequence of tokens with gaps between
them: blanks, and in some dialects comments. The tokens derive a tree; some dialects allow
one comma more before a closing bracket. Nothing here reads a text: numerals and strings are
given by their parts, and what they stand for is computed from those.
-/

import JsonOverlay.Reader
import JsonOverlay.Reader.Lenient

namespace JsonOverlay.Grammar

open Reader

/-! ### Numerals -/

/-- One digit or more. -/
structure Digits where
  characters : List Char
  nonempty : characters ≠ []
  digits : ∀ character ∈ characters, character.isDigit = true

/-- An exponent: its letter, perhaps a sign, which may be a minus, and digits. -/
structure Exponent where
  capital : Bool
  minus : Option Bool
  digits : Digits

/-- A numeral in its parts. A zero in front of the point stands alone. -/
structure Numeral where
  negative : Bool
  whole : Digits
  fraction : Option Digits
  exponent : Option Exponent
  proper : whole.characters.head? = some '0' → whole.characters = ['0']

/-- The sign of an exponent, if one is written. -/
def signText : Option Bool → List Char
  | none => []
  | some false => ['+']
  | some true => ['-']

def fractionText : Option Digits → List Char
  | none => []
  | some digits => '.' :: digits.characters

def exponentText : Option Exponent → List Char
  | none => []
  | some ⟨capital, minus, digits⟩ =>
    (if capital then 'E' else 'e') :: (signText minus ++ digits.characters)

namespace Numeral

variable (numeral : Numeral)

/-- The text behind the sign. -/
def unsignedText : List Char :=
  numeral.whole.characters ++ (fractionText numeral.fraction ++ exponentText numeral.exponent)

def text : List Char := (if numeral.negative then ['-'] else []) ++ numeral.unsignedText

end Numeral

/-! ### The numbers of numerals -/

/-- The number of some digits and a written exponent. An exponent that is no 32-bit number
makes a number zero or too large; its sum with the exponent of the digits is held within 32
bits. -/
def raised? (negative : Bool) (gathered : Gathered) (down : Bool) (size : Nat) : Option Number :=
  if greatestExponent < size then
    if gathered.significand ≠ 0 ∧ down = false then none else some (signed negative Double.zero)
  else
    let sum := if down then gathered.exponent - size else gathered.exponent + size
    (scaled? ⟨gathered.significand, max (-2 ^ 31) (min (2 ^ 31 - 1) sum)⟩).map (signed negative)

/-- The double of some digits and an exponent that may be missing. -/
def scaledBy? (negative : Bool) (gathered : Gathered) : Option Exponent → Option Number
  | none => (scaled? gathered).map (signed negative)
  | some exponent =>
    raised? negative gathered (exponent.minus.getD false)
      (Nat.ofDigitChars 10 exponent.digits.characters 0)

/-- The digits of a numeral as they are gathered. -/
def gatherDigits (whole : Digits) : Option Digits → Gathered
  | none => gatherWhole 0 whole.characters
  | some fraction => gatherFraction (gatherWhole 0 whole.characters) fraction.characters

/-- The number that a numeral stands for, if it is in range. It is an integer only if
nothing but digits is written and all of them fit. -/
def Numeral.number? (numeral : Numeral) : Option Number :=
  let gathered := gatherDigits numeral.whole numeral.fraction
  if numeral.fraction.isNone ∧ numeral.exponent.isNone ∧ gathered.exponent = 0 then
    some (integral numeral.negative gathered.significand)
  else scaledBy? numeral.negative gathered numeral.exponent

/-- A numeral stands for a number. -/
def Numeral.Denotes (numeral : Numeral) (number : Number) : Prop := numeral.number? = some number

/-! ### Strings -/

/-- An escape after its backslash, and its character. A number that is a surrogate stands for
a character only together with another one. -/
inductive Escape : List Char → Char → Prop where
  | letter {letter character : Char} (known : escapeLetter? letter = some character) :
      Escape [letter] character
  | unit {first second third fourth : Char} {unit : Nat}
      (known : hexQuad? first second third fourth = some unit)
      (notLow : isLowSurrogate unit = false) (notHigh : isHighSurrogate unit = false) :
      Escape ['u', first, second, third, fourth] (Char.ofNat unit)
  | pair {first second third fourth fifth sixth seventh eighth : Char} {high low : Nat}
      (known : hexQuad? first second third fourth = some high)
      (isHigh : isHighSurrogate high = true)
      (knownLow : hexQuad? fifth sixth seventh eighth = some low)
      (isLow : isLowSurrogate low = true) :
      Escape ['u', first, second, third, fourth, '\\', 'u', fifth, sixth, seventh, eighth]
        (surrogatePair high low)

/-- What stands between the quotes of a string, and the characters of the string. -/
inductive StringBody : List Char → List Char → Prop where
  | nil : StringBody [] []
  | plain {character : Char} {source value : List Char} (noQuote : character ≠ '"')
      (noBackslash : character ≠ '\\') (noControl : ¬ character.toNat < 0x20)
      (rest : StringBody source value) : StringBody (character :: source) (character :: value)
  | escape {written : List Char} {character : Char} {source value : List Char}
      (known : Escape written character) (rest : StringBody source value) :
      StringBody ('\\' :: (written ++ source)) (character :: value)

/-! ### Tokens -/

inductive Token where
  | openArray | closeArray | openObject | closeObject | comma | colon
  | null
  | bool (value : Bool)
  | number (value : Number)
  | string (value : String)
deriving DecidableEq, Repr

/-- The spelling of a token that has only one. -/
def Token.spelling? : Token → Option (List Char)
  | openArray => some ['[']
  | closeArray => some [']']
  | openObject => some ['\x7b']
  | closeObject => some ['\x7d']
  | comma => some [',']
  | colon => some [':']
  | null => some ['n', 'u', 'l', 'l']
  | bool true => some ['t', 'r', 'u', 'e']
  | bool false => some ['f', 'a', 'l', 's', 'e']
  | number _ => none
  | string _ => none

/-- The spellings of tokens, given which numerals stand for which numbers. -/
inductive Spells (numerals : Numeral → Number → Prop) : Token → List Char → Prop where
  | fixed {token : Token} {spelling : List Char} (known : token.spelling? = some spelling) :
      Spells numerals token spelling
  | number {value : Number} (numeral : Numeral) (known : numerals numeral value) :
      Spells numerals (.number value) numeral.text
  | string {source value : List Char} (body : StringBody source value) :
      Spells numerals (.string (String.ofList value)) ('"' :: (source ++ ['"']))

/-! ### Gaps -/

/-- What may stand between tokens. A line comment goes up to the next line feed, a block
comment up to the first mark that closes one. -/
inductive Gap (comments : Bool) : List Char → Prop where
  | nil : Gap comments []
  | blank {character : Char} {text : List Char} (blank : Text.isBlank character = true)
      (rest : Gap comments text) : Gap comments (character :: text)
  | lineComment {body text : List Char} (allowed : comments = true) (line : '\n' ∉ body)
      (rest : Gap comments ('\n' :: text)) : Gap comments ('/' :: '/' :: (body ++ '\n' :: text))
  | blockComment {body text : List Char} (allowed : comments = true)
      (unclosed : ¬ ['*', '/'] <:+: body) (rest : Gap comments text) :
      Gap comments ('/' :: '*' :: (body ++ '*' :: '/' :: text))

/-- What may stand after the last token: a line comment may also go up to the end. -/
inductive LastGap (comments : Bool) : List Char → Prop where
  | gap {text : List Char} (whole : Gap comments text) : LastGap comments text
  | lineComment {text body : List Char} (allowed : comments = true) (before : Gap comments text)
      (line : '\n' ∉ body) : LastGap comments (text ++ '/' :: '/' :: body)

/-- A text starts with tokens, each with a gap before it, and goes on with a rest. -/
inductive Laid (numerals : Numeral → Number → Prop) (comments : Bool) :
    List Token → List Char → List Char → Prop where
  | nil {rest : List Char} : Laid numerals comments [] rest rest
  | cons {token : Token} {tokens : List Token} {before spelling after rest : List Char}
      (gap : Gap comments before) (spells : Spells numerals token spelling)
      (others : Laid numerals comments tokens after rest) :
      Laid numerals comments (token :: tokens) (before ++ (spelling ++ after)) rest

/-- A whole text is made of tokens and gaps. -/
def LaidOut (numerals : Numeral → Number → Prop) (comments : Bool) (tokens : List Token)
    (text : List Char) : Prop :=
  ∃ last, Laid numerals comments tokens text last ∧ LastGap comments last

/-! ### Derivations -/

/-- What may stand between the last child of a container and its closing bracket. -/
inductive Trailing (trailingCommas : Bool) : List Token → Prop where
  | nothing : Trailing trailingCommas []
  | comma (allowed : trailingCommas = true) : Trailing trailingCommas [.comma]

mutual

/-- The tokens that derive a tree. -/
inductive Derives (trailingCommas : Bool) : List Token → Tree → Prop where
  | null : Derives trailingCommas [.null] .null
  | bool (value : Bool) : Derives trailingCommas [.bool value] (.bool value)
  | number (value : Number) : Derives trailingCommas [.number value] (.number value)
  | string (value : String) : Derives trailingCommas [.string value] (.string value)
  | emptyArray : Derives trailingCommas [.openArray, .closeArray] (.array [])
  | array {first others last : List Token} {item : Tree} {items : List Tree}
      (ofFirst : Derives trailingCommas first item)
      (ofOthers : DerivesItems trailingCommas others items)
      (trailing : Trailing trailingCommas last) :
      Derives trailingCommas (.openArray :: (first ++ (others ++ (last ++ [.closeArray]))))
        (.array (item :: items))
  | emptyObject : Derives trailingCommas [.openObject, .closeObject] (.object [])
  | object {first others last : List Token} {name : String} {child : Tree}
      {members : List (String × Tree)} (ofFirst : Derives trailingCommas first child)
      (ofOthers : DerivesMembers trailingCommas others members)
      (trailing : Trailing trailingCommas last) :
      Derives trailingCommas
        (.openObject :: .string name :: .colon :: (first ++ (others ++ (last ++ [.closeObject]))))
        (.object ((name, child) :: members))

/-- The tokens of the elements of an array after the first. -/
inductive DerivesItems (trailingCommas : Bool) : List Token → List Tree → Prop where
  | nil : DerivesItems trailingCommas [] []
  | cons {first others : List Token} {item : Tree} {items : List Tree}
      (ofFirst : Derives trailingCommas first item)
      (ofOthers : DerivesItems trailingCommas others items) :
      DerivesItems trailingCommas (.comma :: (first ++ others)) (item :: items)

/-- The tokens of the members of an object after the first. -/
inductive DerivesMembers (trailingCommas : Bool) : List Token → List (String × Tree) → Prop where
  | nil : DerivesMembers trailingCommas [] []
  | cons {first others : List Token} {name : String} {child : Tree}
      {members : List (String × Tree)} (ofFirst : Derives trailingCommas first child)
      (ofOthers : DerivesMembers trailingCommas others members) :
      DerivesMembers trailingCommas (.comma :: .string name :: .colon :: (first ++ others))
        ((name, child) :: members)

end

/-! ### Texts -/

/-- What a text may have: comments, trailing commas, and numerals for numbers. -/
structure Dialect where
  comments : Bool
  trailingCommas : Bool
  numerals : Numeral → Number → Prop

/-- The dialect that parse options stand for. -/
def Dialect.ofOptions (options : ParseOptions) : Dialect where
  comments := options.comments
  trailingCommas := options.trailingCommas
  numerals := Numeral.Denotes

/-- A text denotes a tree: its tokens derive it. -/
def Denotes (dialect : Dialect) (text : List Char) (tree : Tree) : Prop :=
  ∃ tokens, Derives dialect.trailingCommas tokens tree ∧
    LaidOut dialect.numerals dialect.comments tokens text

end JsonOverlay.Grammar
