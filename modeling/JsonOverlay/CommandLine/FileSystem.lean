/-
This file gives the command surroundings that are data: files in directories, the bytes
of the standard input, and the text that was printed. A file is opened by walking to the
directory that its path names before the last step; each step on the way has to be there.
-/

import JsonOverlay.CommandLine

namespace JsonOverlay.CommandLine

/-- Why a file cannot be opened. -/
inductive FileProblem where
  | missing
  | notDirectory
  | isDirectory
  | nameTooLong
deriving DecidableEq, Repr

/-- The wording of a problem, with the number that the system has for it. -/
def FileProblem.message : FileProblem → String
  | missing => "No such file or directory (os error 2)"
  | notDirectory => "Not a directory (os error 20)"
  | isDirectory => "Is a directory (os error 21)"
  | nameTooLong => "File name too long (os error 36)"

/-- Files, each with the names that lead to it from the root, the directory in which
relative paths start, and what was printed so far. -/
structure FileSystem where
  home : List String
  files : List (List String × ByteArray)
  printed : String := ""

/-- What a path names. -/
inductive Destination where
  /-- A directory that the path names by dots, or the root. -/
  | directory
  /-- What has a name in a directory, if there is anything. -/
  | entry (place : List String)

namespace FileSystem

/-- The most bytes that a name may have. -/
def greatestName : Nat := 255

/-- The most bytes that a path may have. -/
def greatestPath : Nat := 4095

/-- Files below a home directory. -/
def ofFiles (home : String) (files : List (String × ByteArray)) : FileSystem :=
  let names := Path.names home
  { home := names, files := files.map fun (path, bytes) => (names ++ Path.names path, bytes) }

/-- Whether there is a directory at a place: those above the home directory and above a
file are there. -/
def hasDirectory (system : FileSystem) (place : List String) : Bool :=
  place.isPrefixOf system.home ||
    system.files.any fun (file, _) => place != file && place.isPrefixOf file

/-! ### Walking along a path -/

/-- Whether the last name of a place is too long for a directory. -/
def isTooLong (place : List String) : Bool :=
  place.getLast?.any fun name => decide (greatestName < name.utf8ByteSize)

/-- The directory that steps lead to from a directory. -/
def follow (system : FileSystem) (place : List String) :
    List PathStep → Except FileProblem (List String)
  | [] => .ok place
  | .stay :: rest => system.follow place rest
  | .up :: rest => system.follow place.dropLast rest
  | .enter name :: rest =>
    let next := place ++ [name]
    if isTooLong next then .error .nameTooLong
    else if system.hasDirectory next then system.follow next rest
    else if (system.files.lookup next).isSome then .error .notDirectory
    else .error .missing

/-- What a path names. -/
def locate (system : FileSystem) (path : String) : Except FileProblem Destination := do
  if path.isEmpty then .error .missing
  else if greatestPath < path.utf8ByteSize then .error .nameTooLong
  else
    let ⟨absolute, steps, _⟩ := Path.parse path
    let place ← system.follow (if absolute then [] else system.home) steps.dropLast
    match steps.getLast? with
    | some (.enter name) => return .entry (place ++ [name])
    | _ => return .directory

/-! ### Opening files -/

/-- Opens a file for reading. A directory can be opened, but breaks off as it is read. -/
def openFile (system : FileSystem) (path : String) : Except FileProblem Stream := do
  let directory : Stream :=
    { bytes := ByteArray.empty, failure := some FileProblem.isDirectory.message }
  match ← system.locate path with
  | .directory => return directory
  | .entry place =>
    if isTooLong place then .error .nameTooLong
    else if system.hasDirectory place then return directory
    else
      match system.files.lookup place with
      | none => .error .missing
      | some bytes => if (Path.parse path).endsInSlash then .error .notDirectory else return { bytes }

/-- Writes a file, which is made if it is not there. A path that asks for a directory is
refused before it is known what has its last name. -/
def createFile (system : FileSystem) (path text : String) : Except FileProblem FileSystem := do
  match ← system.locate path with
  | .directory => .error .isDirectory
  | .entry place =>
    if (Path.parse path).endsInSlash then .error .isDirectory
    else if isTooLong place then .error .nameTooLong
    else if system.hasDirectory place then .error .isDirectory
    else
      let others := system.files.filter fun (file, _) => file != place
      return { system with files := (place, text.toUTF8) :: others }

/-- The surroundings of a command that works in the home directory. -/
def surroundings (home : String) (input : ByteArray) : Surroundings (StateM FileSystem) where
  standardInput := pure { bytes := input }
  openFile path := do return ((← get).openFile path).mapError FileProblem.message
  createFile path text := do
    match (← get).createFile path text with
    | .error problem => return .error problem.message
    | .ok changed =>
      set changed
      return .ok ()
  print text := modify fun system => { system with printed := system.printed ++ text }
  workingDirectory := home

end FileSystem

end JsonOverlay.CommandLine
