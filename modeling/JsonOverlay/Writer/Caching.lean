/-
This file writes indented text with a cache. An indentation is made when a depth first needs it, one
unit longer than that of the depth before, and taken from the cache from then on. Where a step would
ask for an indentation that is not there, there is no answer.
-/

import JsonOverlay.Writer

namespace JsonOverlay

/-! ### Indentations -/

/-- The indentations of the depths that were needed so far, and what one depth adds. -/
structure Indents where
  unit : String
  cache : Array String := #[""]
deriving Repr

namespace Indents

/-- The cache of a writer that has written nothing. -/
def new (options : WriteOptions) : Indents :=
  { unit := match options.indent with
      | some width => String.ofList (List.replicate width ' ')
      | none => "" }

/-- Adds the indentation of the next depth. -/
def grow (indents : Indents) : Indents :=
  { indents with cache := indents.cache.push (match indents.cache.back? with
      | some last => last ++ indents.unit
      | none => "") }

theorem size_grow (indents : Indents) : indents.grow.cache.size = indents.cache.size + 1 :=
  Array.size_push _

/-- Adds indentations until the cache reaches a depth. -/
def extend (indents : Indents) (depth : Nat) : Indents :=
  if indents.cache.size ≤ depth then indents.grow.extend depth else indents
termination_by depth + 1 - indents.cache.size
decreasing_by
  rw [size_grow]
  omega

/-- The indentation of a depth, and the cache that has it. -/
def indentation? (indents : Indents) (depth : Nat) : Option (Indents × String) :=
  if depth = 0 ∨ indents.unit.isEmpty = true then some (indents, "")
  else
    let extended := if indents.cache.size ≤ depth then indents.extend depth else indents
    extended.cache[depth]?.map fun indentation => (extended, indentation)

end Indents

/-! ### Writing -/

/-- A writer with the indentations that it has needed. -/
structure CachingWriter where
  options : WriteOptions
  text : String := ""
  stack : List Frame := []
  indents : Indents

namespace CachingWriter

def new (options : WriteOptions) : CachingWriter := { options, indents := .new options }

/-- Starts a new line at a depth, if text is indented at all. -/
def breakLine? (writer : CachingWriter) (depth : Nat) : Option CachingWriter :=
  if writer.options.indent.isSome = true then do
    let (indents, indentation) ← writer.indents.indentation? depth
    return { writer with text := writer.text ++ "\n" ++ indentation, indents }
  else return writer

/-- Counts an entry of the innermost container and separates it from the one before. -/
def separate? (writer : CachingWriter) : Option CachingWriter :=
  match writer.stack with
  | [] => some writer
  | frame :: outer =>
    let counted := { writer with
      text := if frame.count = 0 then writer.text else writer.text ++ ","
      stack := { frame with count := frame.count + 1 } :: outer }
    counted.breakLine? writer.stack.length

/-- Makes room for a value, or refuses it. -/
def beginValue? (writer : CachingWriter) : Option (CachingWriter × Option Error) :=
  match writer.stack with
  | [] => some (writer, if writer.text.isEmpty = true then none else some .alreadyComplete)
  | frame :: outer =>
    if frame.scope = .object then
      if frame.afterKey = true then
        some ({ writer with stack := { frame with afterKey := false } :: outer }, none)
      else some (writer, some .valueWithoutKey)
    else writer.separate?.map fun ready => (ready, none)

/-- Does the rest of an event, unless there was no room for it. -/
def andThen? (begun : Option (CachingWriter × Option Error))
    (change : CachingWriter → CachingWriter) : Option (CachingWriter × Option Error) :=
  begun.map fun (writer, refusal) =>
    match refusal with
    | some refusal => (writer, some refusal)
    | none => (change writer, none)

/-- Writes a value that is no container. -/
def scalar? (writer : CachingWriter) (text : String) : Option (CachingWriter × Option Error) :=
  andThen? writer.beginValue? fun ready => { ready with text := ready.text ++ text }

/-- Opens a container. -/
def openScope? (writer : CachingWriter) (scope : Scope) (bracket : String) :
    Option (CachingWriter × Option Error) :=
  andThen? writer.beginValue? fun ready =>
    { ready with text := ready.text ++ bracket, stack := { scope } :: ready.stack }

/-- Closes the innermost container, which is given up before its kind is looked at. -/
def closeScope? (writer : CachingWriter) (scope : Scope) (bracket : String) :
    Option (CachingWriter × Option Error) :=
  match writer.stack with
  | [] => some (writer, some (.unbalancedClose scope))
  | frame :: outer =>
    let left := { writer with stack := outer }
    if frame.scope = scope ∧ frame.afterKey = false then do
      let placed ← if 0 < frame.count then left.breakLine? outer.length else some left
      return ({ placed with text := placed.text ++ bracket }, none)
    else some (left, some (.unbalancedClose scope))

/-- Writes a key, which then waits for its value. -/
def key? (writer : CachingWriter) (name : String) : Option (CachingWriter × Option Error) :=
  match writer.stack with
  | frame :: _ =>
    if frame.scope = .object ∧ frame.afterKey = false then do
      let ready ← writer.separate?
      let quoted := ready.text ++ Text.quoteJson name ++ ":"
      let text := if ready.options.indent.isSome = true then quoted ++ " " else quoted
      return ({ ready with
        text
        stack := match ready.stack with
          | [] => []
          | frame :: outer => { frame with afterKey := true } :: outer }, none)
    else some (writer, some .keyOutsideObject)
  | [] => some (writer, some .keyOutsideObject)

/-- Writes one event, or refuses it. -/
def send? (writer : CachingWriter) : Event → Option (CachingWriter × Option Error)
  | .null => writer.scalar? "null"
  | .bool value => writer.scalar? (if value then "true" else "false")
  | .int value => writer.scalar? (DecimalLayout.integer value.toInt)
  | .uint value => writer.scalar? (DecimalLayout.integer value.toNat)
  | .int64 value => writer.scalar? (DecimalLayout.integer value.toInt)
  | .uint64 value => writer.scalar? (DecimalLayout.integer value.toNat)
  | .double value => writer.scalar? (writer.options.numbers.double value)
  | .string value => writer.scalar? (Text.quoteJson value)
  | .startObject => writer.openScope? .object "\x7b"
  | .key name => writer.key? name
  | .endObject _ => writer.closeScope? .object "\x7d"
  | .startArray => writer.openScope? .array "["
  | .endArray _ => writer.closeScope? .array "]"

/-- Writes events until one is refused. -/
def receiveAll? (writer : CachingWriter) : List Event → Option (CachingWriter × Option Error)
  | [] => some (writer, none)
  | event :: rest => do
    match ← writer.send? event with
    | (next, none) => next.receiveAll? rest
    | (next, some refusal) => return (next, some refusal)

end CachingWriter

end JsonOverlay
