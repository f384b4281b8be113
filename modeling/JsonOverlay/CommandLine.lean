/-
This file defines the command: it reads a document, carries out assignments, selects a
value and writes its text. The surroundings are a parameter, so the order of what is done
to them is part of the definition: nothing is written unless everything before succeeded.
-/

import JsonOverlay.CommandLine.Arguments
import JsonOverlay.CommandLine.Assignment
import JsonOverlay.CommandLine.Path

namespace JsonOverlay.CommandLine

/-- The surroundings of the command. Opening a file may fail for a reason of its own. -/
structure Surroundings (m : Type → Type) where
  standardInput : m Stream
  openFile : String → m (Except String Stream)
  createFile : String → String → m (Except String Unit)
  print : String → m Unit
  workingDirectory : String

/-! ### From the text of a document to the text of the answer -/

/-- Carries out assignments from the first to the last. -/
def assignAll (heap : Heap) (document : Document) :
    List String → Except Problem (Heap × Document)
  | [] => .ok (heap, document)
  | text :: rest => do
    let assignment ← Assignment.parse text
    let (changed, assigned) ← assignment.apply heap document
    assignAll changed assigned rest

/-- The tree that is asked for: what a pointer leads to, or the whole document. -/
def select (heap : Heap) (document : Document) : Option String → Except Problem Tree
  | none => .ok (document.root.visible heap)
  | some path => do
    let pointer ← (Pointer.parse path).mapError .refused
    let (root, reference) := pointer.get? document.root heap
    match reference.bind root.at? with
    | some value => .ok (value.visible heap)
    | none => .error (.nothingAt pointer)

/-- How the answer is laid out. -/
def layout (arguments : Arguments) : WriteOptions :=
  if arguments.pretty then { indent := some (arguments.indent.getD WriteOptions.defaultIndent) }
  else .compact

/-- The text of the answer. -/
def evaluate (arguments : Arguments) (input : Stream) : Except Problem String := do
  let options : ParseOptions := ⟨arguments.comments, arguments.trailingCommas⟩
  let tree ← (Tree.parseStream options input).mapError .refused
  let (heap, document) := Document.ofTree .empty tree
  let (changed, assigned) ← assignAll heap document arguments.assignments
  let selected ← select changed assigned arguments.pointer
  (selected.write (layout arguments)).mapError .refused

/-! ### Files -/

/-- The file that a path names, unless it stands for the standard stream. -/
def file? (path : Option String) : Option String := path.filter fun name => name != "-"

/-- What is said once a file was written. -/
def report (directory : String) (source : Option String) (target : String) : String :=
  let origin := (source.map (Path.shown directory)).getD "stdin"
  "✔ Wrote " ++ origin ++ " → " ++ Path.shown directory target ++ "\n"

/-- Runs the command. -/
def run {m : Type → Type} [Monad m] (surroundings : Surroundings m) (arguments : Arguments) :
    m (Except Problem Unit) := do
  let source := file? arguments.input
  let opened ← match source with
    | some path => surroundings.openFile path
    | none => Except.ok <$> surroundings.standardInput
  match opened with
  | .error reason => return .error (.system reason)
  | .ok input =>
    match evaluate arguments input with
    | .error problem => return .error problem
    | .ok text =>
      match file? arguments.output with
      | none =>
        surroundings.print text
        return .ok ()
      | some target =>
        match ← surroundings.createFile target text with
        | .error reason => return .error (.system reason)
        | .ok () =>
          surroundings.print (report surroundings.workingDirectory source target)
          return .ok ()

end JsonOverlay.CommandLine
