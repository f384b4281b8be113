/-
This file cuts texts into the lines that readers of a text see, and looks up the line that a line
break has closed. An error that was met at the start of a line is shown at the end of the line
before.
-/

import JsonOverlay.Location
import JsonOverlay.Text.Bytes

namespace JsonOverlay

namespace Text

/-- The lines of a text, each with the line feed that ends it. Behind the last line feed there is a
line only if there is anything. -/
def endedLines : List Char → List (List Char)
  | [] => []
  | character :: rest =>
    if character = '\n' then [character] :: endedLines rest
    else
      match endedLines rest with
      | [] => [[character]]
      | line :: lines => (character :: line) :: lines

/-- A line without its line break: a line feed at its end, with a carriage return before it. -/
def withoutBreak (line : List Char) : List Char :=
  if line.getLast? = some '\n' then
    if line.dropLast.getLast? = some '\r' then line.dropLast.dropLast else line.dropLast
  else line

/-- The lines of a text. -/
def lines (text : List Char) : List (List Char) := (endedLines text).map withoutBreak

end Text

namespace Location

/-- Where an error is shown that was met at a location of a text. The start of a line that is not
the first stands for the end of the line before. -/
def settled (text : List Char) (reached : Location) : Location :=
  if reached.column = 0 ∧ 1 < reached.line then
    let line := reached.line - 1
    ⟨line, ((Text.lines text)[line - 1]?.map Text.byteLength).getD 0⟩
  else reached

end Location

end JsonOverlay
