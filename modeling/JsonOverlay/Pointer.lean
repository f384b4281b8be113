/-
This file defines pointers, which name a place in a document by the tokens on the way to
it. Each token follows a slash, and a slash or tilde inside a token is written with a
tilde. A slash at the end adds no token, so both the empty path and a single slash name
the root.
-/

import JsonOverlay.Value.Lookup

namespace JsonOverlay

/-- The tokens on the way from the root. -/
structure Pointer where
  tokens : List String := []
deriving DecidableEq, Repr, Inhabited

namespace Pointer

/-- The place of the whole document. -/
def root : Pointer := {}

def isRoot (pointer : Pointer) : Bool := pointer.tokens.isEmpty

/-! ### Text -/

/-- The characters of a token as they were before they were escaped, unless a tilde
escapes nothing. -/
def unescape : List Char → Option (List Char)
  | [] => some []
  | '~' :: '0' :: rest => (unescape rest).map ('~' :: ·)
  | '~' :: '1' :: rest => (unescape rest).map ('/' :: ·)
  | '~' :: _ => none
  | other :: rest => (unescape rest).map (other :: ·)

/-- The characters that stand for one character of a token. -/
def escape (character : Char) : List Char :=
  if character = '~' then ['~', '0'] else if character = '/' then ['~', '1'] else [character]

/-- The parts of a path between its slashes; there is one more part than slashes. -/
def splitSlashes : List Char → List (List Char)
  | [] => [[]]
  | '/' :: rest => [] :: splitSlashes rest
  | other :: rest =>
    match splitSlashes rest with
    | [] => [[other]]
    | part :: parts => (other :: part) :: parts

/-- A path without the slash at its end. -/
def dropFinalSlash (path : List Char) : List Char :=
  if path.getLast? = some '/' then path.dropLast else path

/-- Reads a pointer. -/
def parse (path : String) : Except Error Pointer :=
  match path.toList with
  | [] => .ok root
  | ['/'] => .ok root
  | '/' :: rest =>
    match (splitSlashes (dropFinalSlash rest)).mapM unescape with
    | some tokens => .ok ⟨tokens.map String.ofList⟩
    | none => .error (.pointerEscape path)
  | _ => .error (.relativePointer path)

/-- The text of a pointer. -/
def text (pointer : Pointer) : String :=
  if pointer.tokens.isEmpty then "/"
  else String.ofList (pointer.tokens.flatMap fun token => '/' :: token.toList.flatMap escape)

/-- The place above, and the token that leads from there. -/
def splitLast? (pointer : Pointer) : Option (Pointer × String) :=
  pointer.tokens.getLast?.map fun last => (⟨pointer.tokens.dropLast⟩, last)

/-! ### Following a pointer -/

/-- The index that a token is the numeral of, if it is below a size: digits only, and no
zero in front of another digit. -/
def index? (token : String) (size : Nat) : Option Nat :=
  let digits := token.toList
  if digits.isEmpty || !digits.all Char.isDigit || (digits.length > 1 && digits.head? == some '0') then
    none
  else
    let index := digits.foldl (fun value digit => value * 10 + (digit.toNat - '0'.toNat)) 0
    if index < size then some index else none

/-- The child that a token leads to. -/
def key? {α : Type} (content : Content α) (token : String) : Option ChildKey :=
  match content with
  | .array items => (index? token items.length).map .element
  | .object _ => if content.hasMember token then some (.member token) else none
  | _ => none

/-- Follows tokens for reading. A token that leads nowhere ends the walk, and no
placeholder is put in for it. -/
def read (heap : Heap) (value : Value) : List String → Value × Option Reference
  | [] => (value, some [])
  | token :: rest =>
    match key? (value.backing heap) token with
    | none => (value, none)
    | some key =>
      let looked := value.look heap key
      let found := looked.child key
      let (child, reference) := read heap found.value rest
      (looked.writeChild key child, reference.map fun below => (key, found.serial) :: below)

/-- Follows tokens for writing and edits the value they lead to, if they lead to one. -/
def edit {β : Type} (heap : Heap) (value : Value) (change : Heap → Value → Value.Edited β) :
    List String → Value.Edited (Option β)
  | [] =>
    let edited := change heap value
    ⟨edited.heap, edited.value, some edited.result⟩
  | token :: rest =>
    match key? (value.backing heap) token with
    | none => ⟨heap, value, none⟩
    | some key =>
      let reached := value.reach heap key
      let edited := edit heap (reached.child key).value change rest
      { edited with value := reached.writeChild key edited.value }

/-- The value that a pointer leads to, and the value it was followed from. -/
def get? (pointer : Pointer) (value : Value) (heap : Heap) : Value × Option Reference :=
  read heap value pointer.tokens

/-- Edits the value that a pointer leads to. -/
def modify {β : Type} (pointer : Pointer) (value : Value) (heap : Heap)
    (change : Heap → Value → Value.Edited β) : Value.Edited (Option β) :=
  edit heap value change pointer.tokens

end Pointer

end JsonOverlay
