/-
This file turns lenient texts into strict ones of the same shape. Comments and trailing
commas are overwritten with spaces, one for each byte, and line breaks are kept, so a
location in the result is a location in the text.
-/

import JsonOverlay.Error
import JsonOverlay.Text.Blank
import JsonOverlay.Text.Bytes

namespace JsonOverlay

/-- What a text may have that strict JSON has not. -/
structure ParseOptions where
  comments : Bool := false
  trailingCommas : Bool := false
deriving DecidableEq, Repr, Inhabited

/-- Nothing but JSON. -/
def ParseOptions.strict : ParseOptions := {}

namespace Reader

/-! ### Comments -/

/-- What a character belongs to. A block comment remembers how many bytes of the text
there were from its opening on. -/
inductive CommentMode where
  | plain
  | quoted
  | lineComment
  | blockComment (opened : Nat)
deriving DecidableEq, Repr

/-- The spaces in place of a character of a comment. Line breaks stay. -/
def blanked (character : Char) : List Char :=
  if character = '\n' ∨ character = '\r' then [character]
  else List.replicate character.utf8Size ' '

/-- Overwrites the comments of a text. A line comment ends before the next line feed, a
block comment after the next mark that closes one. If there is none, the answer is the
number of bytes from the opening on. -/
def blankComments : CommentMode → List Char → Except Nat (List Char)
  | .blockComment opened, [] => .error opened
  | _, [] => .ok []
  | .plain, '"' :: rest => return '"' :: (← blankComments .quoted rest)
  | .plain, '/' :: '/' :: rest => return ' ' :: ' ' :: (← blankComments .lineComment rest)
  | .plain, '/' :: '*' :: rest =>
    return ' ' :: ' ' :: (← blankComments (.blockComment (Text.byteLength rest + 2)) rest)
  | .plain, other :: rest => return other :: (← blankComments .plain rest)
  | .quoted, '"' :: rest => return '"' :: (← blankComments .plain rest)
  | .quoted, '\\' :: escaped :: rest => return '\\' :: escaped :: (← blankComments .quoted rest)
  | .quoted, other :: rest => return other :: (← blankComments .quoted rest)
  | .lineComment, '\n' :: rest => return '\n' :: (← blankComments .plain rest)
  | .lineComment, other :: rest => return blanked other ++ (← blankComments .lineComment rest)
  | .blockComment _, '*' :: '/' :: rest => return ' ' :: ' ' :: (← blankComments .plain rest)
  | .blockComment opened, other :: rest =>
    return blanked other ++ (← blankComments (.blockComment opened) rest)

/-! ### Trailing commas -/

/-- Whether a bracket closes next. -/
def closesNext (text : List Char) : Bool :=
  match text.dropWhile Text.isAsciiBlank with
  | next :: _ => next == ']' || next == '\x7d'
  | [] => false

/-- Whether the last character that is not blank can end a value. -/
def followsValue (last : Option Char) : Bool :=
  match last with
  | some character => character != '[' && character != '\x7b' && character != ','
  | none => false

/-- Overwrites the commas between a value and a closing bracket, given whether the text
starts inside a string and the last character before it that is not blank. -/
def blankTrailingCommas : Bool → Option Char → List Char → List Char
  | _, _, [] => []
  | false, _, '"' :: rest => '"' :: blankTrailingCommas true none rest
  | false, last, ',' :: rest =>
    if closesNext rest && followsValue last then ' ' :: blankTrailingCommas false last rest
    else ',' :: blankTrailingCommas false (some ',') rest
  | false, last, other :: rest =>
    other :: blankTrailingCommas false (if Text.isAsciiBlank other then last else some other) rest
  | true, _, '"' :: rest => '"' :: blankTrailingCommas false (some '"') rest
  | true, _, '\\' :: escaped :: rest => '\\' :: escaped :: blankTrailingCommas true none rest
  | true, _, other :: rest => other :: blankTrailingCommas true none rest

/-! ### Both -/

/-- Overwrites what the options allow, comments first. If a block comment is not closed,
the answer is the number of bytes from its opening on. -/
def relax (options : ParseOptions) (text : List Char) : Except Nat (List Char) := do
  let uncommented ← if options.comments then blankComments .plain text else .ok text
  return if options.trailingCommas then blankTrailingCommas false none uncommented
    else uncommented

end Reader

end JsonOverlay
