/-
This file holds what all readers share. A reader takes characters from the front of a
text and answers what it read together with the rest. When it gives up it says why, and
how many bytes of the text it had not touched: the byte that is to blame counts as read.
-/

import JsonOverlay.Error
import JsonOverlay.Text.Blank
import JsonOverlay.Text.Bytes

namespace JsonOverlay.Reader

/-- Why a reader gave up, and how many bytes it left unread. -/
structure Failure where
  fault : SyntaxFault
  unread : Nat
deriving DecidableEq, Repr

/-- What a reader makes of a text: a result and the rest of the text. -/
abbrev Reading (α : Type) := Except Failure (α × List Char)

/-- Reads on after what was read, unless a reader gave up. -/
def andThen {α β : Type} (reading : Reading α) (next : α → List Char → Reading β) : Reading β :=
  match reading with
  | .ok (value, rest) => next value rest
  | .error failure => .error failure

/-- Gives up at the first byte of what is left, or at the end of the text. -/
def blame {α : Type} (fault : SyntaxFault) (rest : List Char) : Reading α :=
  .error ⟨fault, Text.byteLength rest - 1⟩

/-- Gives up with all of what is left unread. -/
def stop {α : Type} (fault : SyntaxFault) (rest : List Char) : Reading α :=
  .error ⟨fault, Text.byteLength rest⟩

/-- Gives up because the text ends too early, and says otherwise what is wrong with the
next byte. -/
def blameNext {α : Type} (atEnd otherwise : SyntaxFault) : List Char → Reading α
  | [] => blame atEnd []
  | rest => blame otherwise rest

/-- Passes over the blanks between tokens. -/
def skipBlanks (text : List Char) : List Char := text.dropWhile Text.isBlank

/-- Reads the rest of a word that was recognised by its first letter. -/
def readWord {α : Type} (value : α) : List Char → List Char → Reading α
  | [], rest => .ok (value, rest)
  | _ :: _, [] => blame .unfinishedValue []
  | expected :: word, found :: rest =>
    if found = expected then readWord value word rest else blame .expectedWord (found :: rest)

end JsonOverlay.Reader
