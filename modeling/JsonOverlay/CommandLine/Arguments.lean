/-
This file reads the arguments of the command. Options may stand anywhere among them; a
long one takes its value after an equals sign or as the next argument, a short one in
the same argument or as the next, and short flags may be run together. After a double
dash nothing is an option any more.
-/

namespace JsonOverlay.CommandLine

/-- What the command is asked to do. -/
structure Arguments where
  input : Option String := none
  output : Option String := none
  pointer : Option String := none
  assignments : List String := []
  pretty : Bool := false
  indent : Option Nat := none
  comments : Bool := false
  trailingCommas : Bool := false
  verbosity : Nat := 0
deriving DecidableEq, Repr, Inhabited

/-- The options that take a value. -/
inductive ValueOption where
  | output | pointer | set | indent
deriving DecidableEq, Repr

/-- The options that take none. -/
inductive Flag where
  | pretty | comments | trailingCommas | verbose
deriving DecidableEq, Repr

/-- One thing that the arguments say. -/
inductive Item where
  | input (path : String)
  | flag (flag : Flag)
  | option (option : ValueOption) (value : String)
deriving DecidableEq, Repr

/-! ### From arguments to items -/

def longFlag? : String → Option Flag
  | "pretty" => some .pretty
  | "allow-comments" => some .comments
  | "allow-trailing-commas" => some .trailingCommas
  | "verbose" => some .verbose
  | _ => none

def longOption? : String → Option ValueOption
  | "output" => some .output
  | "pointer" => some .pointer
  | "set" => some .set
  | "indent" => some .indent
  | _ => none

/-- Whether an argument can be the value of the option before it: it must not look like
an option itself. A single dash does not. -/
def isValue (argument : String) : Bool :=
  match argument.toList with
  | '-' :: _ :: _ => false
  | _ => true

/-- The characters before and after the first equals sign. -/
def splitEquals : List Char → List Char × Option (List Char)
  | [] => ([], none)
  | '=' :: rest => ([], some rest)
  | other :: rest =>
    let (name, value) := splitEquals rest
    (other :: name, value)

/-- What an argument amounts to: items, and perhaps an option whose value is to come. -/
structure Scanned where
  items : List Item
  awaiting : Option ValueOption := none

/-- Reads a long option without its dashes. -/
def scanLong (text : List Char) : Option Scanned :=
  let (name, value) := splitEquals text
  match longFlag? (String.ofList name), longOption? (String.ofList name), value with
  | some flag, _, none => some { items := [.flag flag] }
  | _, some option, some value => some { items := [.option option (String.ofList value)] }
  | _, some option, none => some { items := [], awaiting := some option }
  | _, _, _ => none

/-- The value in the same argument as a short option, perhaps after an equals sign. -/
def attachedValue (option : ValueOption) : List Char → Scanned
  | [] => { items := [], awaiting := some option }
  | '=' :: value => { items := [.option option (String.ofList value)] }
  | value => { items := [.option option (String.ofList value)] }

/-- Reads short options that were run together. -/
def scanShort : List Char → Option Scanned
  | [] => some { items := [] }
  | 'v' :: rest =>
    (scanShort rest).map fun scanned => { scanned with items := .flag .verbose :: scanned.items }
  | 'o' :: value => some (attachedValue .output value)
  | 'p' :: value => some (attachedValue .pointer value)
  | _ => none

/-- Reads one argument. -/
def scanArgument (argument : String) : Option Scanned :=
  match argument.toList with
  | '-' :: '-' :: name => scanLong name
  | '-' :: first :: rest => scanShort (first :: rest)
  | _ => some { items := [.input argument] }

/-- Reads all arguments, unless one of them cannot be understood. -/
def scan : List String → Option (List Item)
  | [] => some []
  | argument :: rest =>
    if argument = "--" then some (rest.map .input)
    else
      match scanArgument argument with
      | none => none
      | some ⟨items, none⟩ => (scan rest).map (items ++ ·)
      | some ⟨items, some option⟩ =>
        match rest with
        | [] => none
        | value :: others =>
          if isValue value then (scan others).map (items ++ .option option value :: ·) else none

/-! ### From items to what is asked -/

/-- The value of a numeral, which may have a plus sign, within 64 bits. -/
def size? (text : String) : Option Nat :=
  let digits := match text.toList with
    | '+' :: rest => rest
    | rest => rest
  if digits.isEmpty || !digits.all Char.isDigit then none
  else
    let value := digits.foldl (fun value digit => value * 10 + (digit.toNat - '0'.toNat)) 0
    if value < UInt64.size then some value else none

/-- Sets what may be set only once. -/
def once {α : Type} (old : Option α) (value : α) : Option (Option α) :=
  if old.isSome then none else some (some value)

/-- Raises a flag that may be raised only once. -/
def raise (old : Bool) : Option Bool := if old then none else some true

/-- Takes in one item, unless it must not be repeated or has a bad value. -/
def Arguments.add (arguments : Arguments) : Item → Option Arguments
  | .input path => (once arguments.input path).map fun input => { arguments with input }
  | .flag .pretty => (raise arguments.pretty).map fun pretty => { arguments with pretty }
  | .flag .comments => (raise arguments.comments).map fun comments => { arguments with comments }
  | .flag .trailingCommas =>
    (raise arguments.trailingCommas).map fun trailingCommas => { arguments with trailingCommas }
  | .flag .verbose => some { arguments with verbosity := arguments.verbosity + 1 }
  | .option .output value => (once arguments.output value).map fun output => { arguments with output }
  | .option .pointer value =>
    (once arguments.pointer value).map fun pointer => { arguments with pointer }
  | .option .set value => some { arguments with assignments := arguments.assignments ++ [value] }
  | .option .indent value => do
    let size ← size? value
    let indent ← once arguments.indent size
    return { arguments with indent }

/-- What the arguments of the command ask for, unless they are not understood. -/
def Arguments.parse? (arguments : List String) : Option Arguments :=
  (scan arguments).bind fun items => items.foldlM Arguments.add {}

end JsonOverlay.CommandLine
