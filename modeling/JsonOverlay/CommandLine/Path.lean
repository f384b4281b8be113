/-
This file defines the paths of files. A path is walked step by step, and the text of a
path that lies below a directory can be shown from there.
-/

import JsonOverlay.Pointer

namespace JsonOverlay.CommandLine

/-- A step of a path. -/
inductive PathStep where
  /-- A dot, which stays in a directory. -/
  | stay
  /-- Two dots, which lead to the directory above. -/
  | up
  | enter (name : String)
deriving DecidableEq, Repr

/-- What the text of a path says. -/
structure Path where
  absolute : Bool
  steps : List PathStep
  /-- A slash at the end asks for a directory. -/
  endsInSlash : Bool
deriving DecidableEq, Repr

namespace Path

/-- The step that the text between two slashes stands for, unless there is none. -/
def step? : List Char → Option PathStep
  | [] => none
  | ['.'] => some .stay
  | ['.', '.'] => some .up
  | name => some (.enter (String.ofList name))

/-- Reads a path. -/
def parse (text : String) : Path where
  absolute := text.toList.head? == some '/'
  steps := (Pointer.splitSlashes text.toList).filterMap step?
  endsInSlash := text.toList.getLast? == some '/'

/-- The names of a path that only goes down. -/
def names (text : String) : List String :=
  (parse text).steps.filterMap fun
    | .enter name => some name
    | _ => none

/-! ### The text below a directory -/

/-- Drops the slashes and dots that lead nowhere from the start of a text. -/
def dropIdle : List Char → List Char
  | '/' :: rest => dropIdle rest
  | '.' :: '/' :: rest => dropIdle rest
  | ['.'] => []
  | text => text

/-- What is left of a text after steps that enter directories, if it starts with them. -/
def below? : List String → List Char → Option (List Char)
  | [], text => some (dropIdle (dropIdle text).reverse).reverse
  | name :: names, text =>
    let (part, rest) := (dropIdle text).span (· != '/')
    if String.ofList part = name then below? names rest else none

/-- A path as it is seen from a directory if it starts with it, or the path as it is. -/
def shown (directory path : String) : String :=
  let found := if (parse path).absolute then below? (names directory) path.toList else none
  (found.map String.ofList).getD path

end Path

end JsonOverlay.CommandLine
