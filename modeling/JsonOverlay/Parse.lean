/-
This file parses texts and streams into plain trees and reports errors with their
locations in the text as it was given.
-/

import JsonOverlay.Reader
import JsonOverlay.Reader.Lenient

namespace JsonOverlay

namespace Error

/-- The error of a reader that gave up. -/
def ofFailure (text : List Char) (failure : Reader.Failure) : Error :=
  let read := Text.bytesBefore text failure.unread
  malformed failure.fault (Location.after read) (Location.ofLast read)

/-- The error of a reader that gave up, at the location where it did so even if that is
the start of a line. -/
def ofFailureAsRead (text : List Char) (failure : Reader.Failure) : Error :=
  let read := Location.after (Text.bytesBefore text failure.unread)
  malformed failure.fault read read

end Error

namespace Tree

/-- Parses a text. -/
def parse (options : ParseOptions) (text : String) : Except Error Tree :=
  match Reader.relax options text.toList with
  | .error left =>
    .error (.unterminatedComment (Location.next (Text.bytesBefore text.toList left)))
  | .ok relaxed =>
    if relaxed.all Text.isUnicodeBlank then .error .documentEmpty
    else
      match Reader.readAll relaxed with
      | .ok tree => .ok tree
      | .error failure => .error (Error.ofFailure relaxed failure)

/-- Reads a strict text in which a document without a value is an unfinished one. -/
def parseStrict (text : String) : Except Error Tree :=
  match Reader.readAll text.toList with
  | .ok tree => .ok tree
  | .error failure => .error (Error.ofFailureAsRead text.toList failure)

end Tree

/-- A stream as it was read: its bytes, and why it broke off if it did. -/
structure Stream where
  bytes : ByteArray
  failure : Option String := none

/-- The text of a stream, provided that it did not break off and is UTF-8. -/
def Stream.text (stream : Stream) : Except Error String :=
  match stream.failure with
  | some reason => .error (.stream reason)
  | none =>
    match String.fromUTF8? stream.bytes with
    | some text => .ok text
    | none => .error (.stream "stream did not contain valid UTF-8")

/-- Parses the text of a stream. -/
def Tree.parseStream (options : ParseOptions) (stream : Stream) : Except Error Tree := do
  let text ← stream.text
  Tree.parse options text

end JsonOverlay
