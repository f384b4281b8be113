/-
This file lists everything that can go wrong, with the wording of each message and the
location it is reported at.
-/

import JsonOverlay.Content
import JsonOverlay.Location
import JsonOverlay.Text.Quoted

namespace JsonOverlay

/-- What keeps a text from being JSON. -/
inductive SyntaxFault where
  | unfinishedValue
  | unfinishedList
  | unfinishedObject
  | unfinishedString
  | expectedValue
  | expectedWord
  | expectedColon
  | expectedListSeparator
  | expectedObjectSeparator
  | trailingComma
  | trailingCharacters
  | keyNotString
  | controlCharacter
  | invalidEscape
  | loneSurrogate
  | unfinishedSurrogatePair
  | invalidNumber
  | numberOutOfRange
  | nestingTooDeep
deriving DecidableEq, Repr

namespace SyntaxFault

def message : SyntaxFault → String
  | unfinishedValue => "EOF while parsing a value"
  | unfinishedList => "EOF while parsing a list"
  | unfinishedObject => "EOF while parsing an object"
  | unfinishedString => "EOF while parsing a string"
  | expectedValue => "expected value"
  | expectedWord => "expected ident"
  | expectedColon => "expected `:`"
  | expectedListSeparator => "expected `,` or `]`"
  | expectedObjectSeparator => "expected `,` or `\x7d`"
  | trailingComma => "trailing comma"
  | trailingCharacters => "trailing characters"
  | keyNotString => "key must be a string"
  | controlCharacter => "control character (\\u0000-\\u001F) found while parsing a string"
  | invalidEscape => "invalid escape"
  | loneSurrogate => "lone leading surrogate in hex escape"
  | unfinishedSurrogatePair => "unexpected end of hex escape"
  | invalidNumber => "invalid number"
  | numberOutOfRange => "number out of range"
  | nestingTooDeep => "recursion limit exceeded"

/-- Whether the text would have to go on. -/
def isUnfinished : SyntaxFault → Bool
  | unfinishedValue | unfinishedList | unfinishedObject | unfinishedString => true
  | _ => false

end SyntaxFault

/-- The brackets a writer has open. -/
inductive Scope where
  | object | array
deriving DecidableEq, Repr

def Scope.name : Scope → String
  | object => "Object"
  | array => "Array"

/-- The coarse classes that errors fall into. -/
inductive ErrorKind where
  | documentEmpty | unexpectedEof | malformed | invalidData | io
  | notAnObject | notAnArray | invalidPointer | foreignAllocator | dangling
deriving DecidableEq, Repr

/-- The name of a class in debug texts. -/
def ErrorKind.name : ErrorKind → String
  | documentEmpty => "DocumentEmpty"
  | unexpectedEof => "UnexpectedEof"
  | malformed => "Syntax"
  | invalidData => "InvalidData"
  | io => "Io"
  | notAnObject => "NotAnObject"
  | notAnArray => "NotAnArray"
  | invalidPointer => "InvalidPointer"
  | foreignAllocator => "ForeignAllocator"
  | dangling => "Dangling"

/-- Everything that can go wrong. -/
inductive Error where
  /-- The text holds no value at all. -/
  | documentEmpty
  /-- A block comment that opens at a location is never closed. -/
  | unterminatedComment (location : Location)
  /-- The text is not JSON. The reader stopped at one location; the error is shown at another
  when the last byte read was a line feed. -/
  | malformed (fault : SyntaxFault) (reached shown : Location)
  /-- A reader refused well-formed data, for a reason of its own. -/
  | rejected (reason : String)
  /-- The source of a reader broke off, for a reason of its own. -/
  | interrupted (reason : String)
  /-- A stream could not be read or written. -/
  | stream (reason : String)
  | notAnObject (found : Kind)
  | notAnArray (found : Kind)
  /-- A pointer does not start with a slash. -/
  | relativePointer (path : String)
  /-- A tilde in a pointer is followed by neither zero nor one. -/
  | pointerEscape (path : String)
  /-- An allocator belongs to another document. -/
  | foreignAllocator
  /-- The node of an attached value is gone. -/
  | dangling
  /-- An event follows a complete value. -/
  | alreadyComplete
  /-- A value stands in an object without a key. -/
  | valueWithoutKey
  /-- A key stands outside of an object, or after another key. -/
  | keyOutsideObject
  /-- A bracket is closed that is not the innermost open one, or after a key. -/
  | unbalancedClose (scope : Scope)
deriving DecidableEq, Repr

namespace Error

/-- The class of an error. -/
def kind : Error → ErrorKind
  | documentEmpty => .documentEmpty
  | unterminatedComment _ => .unexpectedEof
  | malformed fault _ _ => if fault.isUnfinished then .unexpectedEof else .malformed
  | rejected _ => .invalidData
  | interrupted _ => .io
  | stream _ => .io
  | notAnObject _ => .notAnObject
  | notAnArray _ => .notAnArray
  | relativePointer _ | pointerEscape _ => .invalidPointer
  | foreignAllocator => .foreignAllocator
  | dangling => .dangling
  | alreadyComplete | valueWithoutKey | keyOutsideObject | unbalancedClose _ => .invalidData

/-- The wording of an error. A malformed text is reported where the reader stopped. -/
def message : Error → String
  | documentEmpty => "the document is empty"
  | unterminatedComment _ => "unterminated block comment"
  | malformed fault reached _ =>
    "parse failed: " ++ fault.message ++ " at line " ++ toString reached.line ++
      " column " ++ toString reached.column
  | rejected reason => "parse failed: " ++ reason
  | interrupted reason => "parse failed: " ++ reason
  | stream reason => "read failed: " ++ reason
  | notAnObject found => "expected object, found " ++ found.name
  | notAnArray found => "expected array, found " ++ found.name
  | relativePointer path => "pointer " ++ Text.quoteMessage path ++ " must start with '/'"
  | pointerEscape path => "invalid escape in pointer " ++ Text.quoteMessage path
  | foreignAllocator => "allocator belongs to a different document"
  | dangling => "attached node is no longer alive"
  | alreadyComplete => "writer already holds a complete value"
  | valueWithoutKey => "object member written without a key"
  | keyOutsideObject => "key written outside of an object"
  | unbalancedClose scope => "unbalanced close of " ++ scope.name

/-- Where in a text the error was met. What a reader reports without having read anything
stands before the first line. -/
def location? : Error → Option Location
  | unterminatedComment location => some location
  | malformed _ _ shown => some shown
  | rejected _ | interrupted _ => some ⟨0, 0⟩
  | _ => none

/-- The text of an error for a programmer. -/
def debug (error : Error) : String :=
  let location := match error.location? with
    | some location =>
      "Some(Location \x7b line: " ++ toString location.line ++ ", column: " ++
        toString location.column ++ " \x7d)"
    | none => "None"
  "Error \x7b kind: " ++ error.kind.name ++ ", message: " ++ Text.quoteMessage error.message ++
    ", location: " ++ location ++ " \x7d"

end Error

end JsonOverlay
