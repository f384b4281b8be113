/-
This file reads JSON. A value is read by its first character; containers read their
children one after the other, down to a bound on how deeply they may be nested.
-/

import JsonOverlay.Reader.Numeral
import JsonOverlay.Reader.Text
import JsonOverlay.Tree

namespace JsonOverlay.Reader

/-- How many containers may be nested in one another. -/
def greatestDepth : Nat := 127

/-! ### Containers

Each reader of children takes the reader of a single value, and a bound on the number of
children that the length of the text never lets it reach. -/

/-- Reads a value followed by the rest of a list: what stands after a value decides
whether another one follows. -/
def readElements (readValue : List Char → Reading Tree) : Nat → List Char → Reading (List Tree)
  | 0, text => blame .unfinishedList text
  | bound + 1, text =>
    andThen (readValue text) fun item after =>
      match skipBlanks after with
      | ']' :: rest => .ok ([item], rest)
      | ',' :: rest =>
        match skipBlanks rest with
        | [] => blame .unfinishedValue []
        | ']' :: last => blame .trailingComma (']' :: last)
        | next =>
          andThen (readElements readValue bound next) fun items last => .ok (item :: items, last)
      | rest => blameNext .unfinishedList .expectedListSeparator rest

/-- Reads an array after its opening bracket. -/
def readArray (readValue : List Char → Reading Tree) (text : List Char) : Reading Tree :=
  match skipBlanks text with
  | [] => blame .unfinishedList []
  | ']' :: rest => .ok (.array [], rest)
  | next =>
    andThen (readElements readValue next.length next) fun items rest => .ok (.array items, rest)

/-- Reads a key with its colon and the value after it. -/
def readMember (readValue : List Char → Reading Tree) (text : List Char) :
    Reading (String × Tree) :=
  match text with
  | '"' :: rest =>
    andThen (readString rest) fun name after =>
      match skipBlanks after with
      | ':' :: next => andThen (readValue next) fun child last => .ok ((name, child), last)
      | next => blameNext .unfinishedObject .expectedColon next
  | rest => blame .keyNotString rest

/-- Reads a member followed by the rest of an object. -/
def readMembers (readValue : List Char → Reading Tree) :
    Nat → List Char → Reading (List (String × Tree))
  | 0, text => blame .unfinishedObject text
  | bound + 1, text =>
    andThen (readMember readValue text) fun member after =>
      match skipBlanks after with
      | '\x7d' :: rest => .ok ([member], rest)
      | ',' :: rest =>
        match skipBlanks rest with
        | [] => blame .unfinishedValue []
        | '\x7d' :: last => blame .trailingComma ('\x7d' :: last)
        | next =>
          andThen (readMembers readValue bound next) fun members last =>
            .ok (member :: members, last)
      | rest => blameNext .unfinishedObject .expectedObjectSeparator rest

/-- Reads an object after its opening bracket. -/
def readObject (readValue : List Char → Reading Tree) (text : List Char) : Reading Tree :=
  match skipBlanks text with
  | [] => blame .unfinishedObject []
  | '\x7d' :: rest => .ok (.object [], rest)
  | next =>
    andThen (readMembers readValue next.length next) fun members rest =>
      .ok (.object members, rest)

/-! ### Values -/

/-- Reads a value that contains no other, by its first character. -/
def readScalar (text : List Char) : Reading Tree :=
  match text with
  | [] => blame .unfinishedValue []
  | 'n' :: rest => readWord .null ['u', 'l', 'l'] rest
  | 't' :: rest => readWord (.bool true) ['r', 'u', 'e'] rest
  | 'f' :: rest => readWord (.bool false) ['a', 'l', 's', 'e'] rest
  | '"' :: rest => andThen (readString rest) fun value after => .ok (.string value, after)
  | '-' :: rest => andThen (readNumeral true rest) fun value after => .ok (.number value, after)
  | first :: rest =>
    if first.isDigit then
      andThen (readNumeral false (first :: rest)) fun value after => .ok (.number value, after)
    else blame .expectedValue (first :: rest)

/-- Reads a value with at most some containers nested in one another. -/
def readValue : Nat → List Char → Reading Tree
  | 0, text =>
    match skipBlanks text with
    | '[' :: rest => blame .nestingTooDeep ('[' :: rest)
    | '\x7b' :: rest => blame .nestingTooDeep ('\x7b' :: rest)
    | next => readScalar next
  | depth + 1, text =>
    match skipBlanks text with
    | '[' :: rest => readArray (readValue depth) rest
    | '\x7b' :: rest => readObject (readValue depth) rest
    | next => readScalar next

/-- Reads a text that holds one value and nothing else but blanks. -/
def readAll (text : List Char) : Except Failure Tree :=
  match readValue greatestDepth text with
  | .error failure => .error failure
  | .ok (tree, rest) =>
    match skipBlanks rest with
    | [] => .ok tree
    | next => .error ⟨.trailingCharacters, Text.byteLength next - 1⟩

end JsonOverlay.Reader
