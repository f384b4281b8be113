/-
This file runs the command on the real surroundings: files, the standard streams and the
exit status, which is 2 if the arguments are not understood and 1 if something else went
wrong.
-/

import JsonOverlay.CommandLine

namespace JsonOverlay.CommandLine

/-- What is said of a file that cannot be opened, read or written: the description of the
system with its number. -/
def reasonOf : IO.Error → String
  | .noFileOrDirectory _ code details | .permissionDenied _ code details
  | .inappropriateType _ code details | .resourceExhausted _ code details
  | .invalidArgument _ code details =>
    details ++ " (os error " ++ toString code ++ ")"
  | other => toString other

/-- Reads a stream to its end. -/
partial def readToEnd (stream : IO.FS.Stream) (bytes : ByteArray) : IO ByteArray := do
  let more ← stream.read 65536
  if more.isEmpty then return bytes else readToEnd stream (bytes ++ more)

/-- The bytes of a stream, or why it broke off. -/
def readStream (stream : IO.FS.Stream) : IO Stream := do
  try return { bytes := ← readToEnd stream ByteArray.empty }
  catch problem => return { bytes := ByteArray.empty, failure := some (reasonOf problem) }

/-- The surroundings of a process in a directory. -/
def processSurroundings (directory : String) : Surroundings IO where
  standardInput := do readStream (← IO.getStdin)
  openFile path := do
    try return .ok (← readStream (IO.FS.Stream.ofHandle (← IO.FS.Handle.mk path .read)))
    catch problem => return .error (reasonOf problem)
  createFile path text := do
    try
      IO.FS.writeFile path text
      return .ok ()
    catch problem => return .error (reasonOf problem)
  print text := do
    let output ← IO.getStdout
    output.putStr text
    output.flush
  workingDirectory := directory

end JsonOverlay.CommandLine

open JsonOverlay.CommandLine in
/-- Runs the command with the arguments of the process. -/
def main (words : List String) : IO UInt32 := do
  match Arguments.parse? words with
  | none =>
    IO.eprintln "usage: [input] [-o file] [-p pointer] [--set PATH=JSON]... [--pretty] [--indent number]"
    return 2
  | some arguments =>
    let directory := (← IO.currentDir).toString
    match ← run (processSurroundings directory) arguments with
    | .ok () => return 0
    | .error problem =>
      IO.eprintln ("ERROR  " ++ problem.message)
      return 1
