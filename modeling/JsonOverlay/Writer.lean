/-
This file writes JSON text from events. A writer keeps the containers that are open, so
it can tell which events may follow, and lays the text out either on one line or with one
entry on each line.
-/

import JsonOverlay.Decimal.Layout
import JsonOverlay.Error
import JsonOverlay.Event

namespace JsonOverlay

/-- How text is laid out: on one line, or indented by some spaces for each open
container; and how doubles are written. -/
structure WriteOptions where
  indent : Option Nat := none
  numbers : DecimalLayout := DecimalLayout.plain

namespace WriteOptions

/-- Text on one line. -/
def compact : WriteOptions := {}

/-- The indentation of indented text for which no other is asked. -/
def defaultIndent : Nat := 4

/-- One entry on each line, with the default indentation. -/
def pretty : WriteOptions := { indent := some defaultIndent }

/-- Text on one line in the number format of exported trees. -/
def exported : WriteOptions := { numbers := DecimalLayout.signed }

end WriteOptions

/-- An open container: how many entries it has, and whether a key waits for its value. -/
structure Frame where
  scope : Scope
  count : Nat := 0
  afterKey : Bool := false
deriving DecidableEq, Repr

/-- A text being written. The innermost open container comes first. -/
structure Writer where
  options : WriteOptions
  text : String := ""
  stack : List Frame := []

namespace Writer

def new (options : WriteOptions) : Writer := { options }

/-- Whether a whole value has been written. -/
def isComplete (writer : Writer) : Bool := writer.stack.isEmpty && !writer.text.isEmpty

/-- A new line at the indentation of a number of open containers. -/
def lineBreak (options : WriteOptions) (depth : Nat) : String :=
  match options.indent with
  | none => ""
  | some width => String.ofList ('\n' :: List.replicate (depth * width) ' ')

/-- What stands before an entry of a container that holds some entries already. -/
def separator (options : WriteOptions) (count depth : Nat) : String :=
  (if count = 0 then "" else ",") ++ lineBreak options depth

/-- What stands between a key and its value. -/
def colon (options : WriteOptions) : String := if options.indent.isSome then ": " else ":"

/-- Makes room for a value: an array separates it from the one before, an object has
done so when the key was written. -/
def beginValue (writer : Writer) : Except Error Writer :=
  match writer.stack with
  | [] => if writer.text.isEmpty then .ok writer else .error .alreadyComplete
  | frame :: outer =>
    match frame.scope with
    | .object =>
      if frame.afterKey then .ok { writer with stack := { frame with afterKey := false } :: outer }
      else .error .valueWithoutKey
    | .array =>
      .ok { writer with
        text := writer.text ++ separator writer.options frame.count writer.stack.length
        stack := { frame with count := frame.count + 1 } :: outer }

/-- Writes a value that is no container. -/
def scalar (writer : Writer) (text : String) : Writer × Option Error :=
  match writer.beginValue with
  | .error refusal => (writer, some refusal)
  | .ok ready => ({ ready with text := ready.text ++ text }, none)

/-- Opens a container. -/
def openScope (writer : Writer) (scope : Scope) (bracket : String) : Writer × Option Error :=
  match writer.beginValue with
  | .error refusal => (writer, some refusal)
  | .ok ready =>
    ({ ready with text := ready.text ++ bracket, stack := { scope } :: ready.stack }, none)

/-- Closes the innermost container. When it is of the other kind or waits for a value
the event is refused, but the container is given up all the same. -/
def closeScope (writer : Writer) (scope : Scope) (bracket : String) : Writer × Option Error :=
  match writer.stack with
  | [] => (writer, some (.unbalancedClose scope))
  | frame :: outer =>
    if frame.scope = scope ∧ frame.afterKey = false then
      let space := if frame.count = 0 then "" else lineBreak writer.options outer.length
      ({ writer with text := writer.text ++ space ++ bracket, stack := outer }, none)
    else ({ writer with stack := outer }, some (.unbalancedClose scope))

/-- Writes the key of a member, separated from the member before. -/
def key (writer : Writer) (name : String) : Writer × Option Error :=
  match writer.stack with
  | ⟨.object, count, false⟩ :: outer =>
    ({ writer with
      text := writer.text ++ separator writer.options count writer.stack.length ++
        Text.quoteJson name ++ colon writer.options
      stack := ⟨.object, count + 1, true⟩ :: outer }, none)
  | _ => (writer, some .keyOutsideObject)

/-- Writes one event, or refuses it. -/
def send (writer : Writer) : Event → Writer × Option Error
  | .null => writer.scalar "null"
  | .bool value => writer.scalar (if value then "true" else "false")
  | .int value => writer.scalar (DecimalLayout.integer value.toInt)
  | .uint value => writer.scalar (DecimalLayout.integer value.toNat)
  | .int64 value => writer.scalar (DecimalLayout.integer value.toInt)
  | .uint64 value => writer.scalar (DecimalLayout.integer value.toNat)
  | .double value => writer.scalar (writer.options.numbers.double value)
  | .string value => writer.scalar (Text.quoteJson value)
  | .startObject => writer.openScope .object "\x7b"
  | .key name => writer.key name
  | .endObject _ => writer.closeScope .object "\x7d"
  | .startArray => writer.openScope .array "["
  | .endArray _ => writer.closeScope .array "]"

/-- The writer as a handler. -/
def handler : Handler Writer Error := ⟨fun event writer => writer.send event⟩

end Writer

namespace Tree

/-- The text of a tree, or the refusal that kept it from being written. -/
def write (options : WriteOptions) (tree : Tree) : Except Error String :=
  match tree.accept Writer.handler (Writer.new options) with
  | (writer, none) => .ok writer.text
  | (_, some refusal) => .error refusal

/-- The text of a tree. -/
def text (options : WriteOptions) (tree : Tree) : String :=
  (tree.accept Writer.handler (Writer.new options)).1.text

end Tree

end JsonOverlay
