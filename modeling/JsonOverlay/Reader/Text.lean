/-
This file reads strings. Escapes stand for one character each, except that a character
outside the basic plane is written as two of them, a high and a low surrogate.
-/

import JsonOverlay.Reader.Scan

namespace JsonOverlay.Reader

/-! ### Hexadecimal escapes -/

/-- The value of a hexadecimal digit of either case. -/
def hexValue? (digit : Char) : Option Nat :=
  if digit.isDigit then some (digit.toNat - '0'.toNat)
  else if 'a' ≤ digit ∧ digit ≤ 'f' then some (digit.toNat - 'a'.toNat + 10)
  else if 'A' ≤ digit ∧ digit ≤ 'F' then some (digit.toNat - 'A'.toNat + 10)
  else none

/-- The value of four hexadecimal digits. -/
def hexQuad? (first second third fourth : Char) : Option Nat := do
  let high ← hexValue? first
  let upper ← hexValue? second
  let lower ← hexValue? third
  let low ← hexValue? fourth
  return ((high * 16 + upper) * 16 + lower) * 16 + low

/-- Gives up on four bytes that are not hexadecimal digits, or on fewer bytes. -/
def blameQuad {α : Type} (text : List Char) : Reading α :=
  if Text.byteLength text < 4 then blame .unfinishedString []
  else .error ⟨.invalidEscape, Text.byteLength text - 4⟩

/-- Reads four hexadecimal digits. -/
def readQuad (text : List Char) : Reading Nat :=
  match text with
  | first :: second :: third :: fourth :: rest =>
    match hexQuad? first second third fourth with
    | some value => .ok (value, rest)
    | none => blameQuad text
  | _ => blameQuad text

def isHighSurrogate (unit : Nat) : Bool := decide (0xd800 ≤ unit ∧ unit ≤ 0xdbff)

def isLowSurrogate (unit : Nat) : Bool := decide (0xdc00 ≤ unit ∧ unit ≤ 0xdfff)

/-- The character of a pair of surrogates. -/
def surrogatePair (high low : Nat) : Char :=
  Char.ofNat ((high - 0xd800) * 0x400 + (low - 0xdc00) + 0x10000)

/-- Reads the low surrogate that has to follow a high one. -/
def readLowSurrogate (high : Nat) (text : List Char) : Reading Char :=
  match text with
  | [] => blame .unfinishedString []
  | '\\' :: [] => blame .unfinishedString []
  | '\\' :: 'u' :: rest =>
    andThen (readQuad rest) fun low after =>
      if isLowSurrogate low then .ok (surrogatePair high low, after)
      else stop .loneSurrogate after
  | '\\' :: rest => blame .unfinishedSurrogatePair rest
  | rest => blame .unfinishedSurrogatePair rest

/-- Reads the digits of a hexadecimal escape, and a second escape if the first is a high
surrogate. -/
def readHexEscape (text : List Char) : Reading Char :=
  andThen (readQuad text) fun unit rest =>
    if isLowSurrogate unit then stop .loneSurrogate rest
    else if isHighSurrogate unit then readLowSurrogate unit rest
    else .ok (Char.ofNat unit, rest)

/-! ### Strings -/

/-- The character that a letter after a backslash stands for. -/
def escapeLetter? : Char → Option Char
  | '"' => some '"'
  | '\\' => some '\\'
  | '/' => some '/'
  | 'b' => some '\x08'
  | 'f' => some '\x0c'
  | 'n' => some '\n'
  | 'r' => some '\r'
  | 't' => some '\t'
  | _ => none

/-- Reads an escape after its backslash. -/
def readEscape : List Char → Reading Char
  | [] => blame .unfinishedString []
  | 'u' :: rest => readHexEscape rest
  | letter :: rest =>
    match escapeLetter? letter with
    | some character => .ok (character, rest)
    | none => blame .invalidEscape (letter :: rest)

/-- Reads the characters of a string up to its closing quote, at most as many as the
first argument says. -/
def readCharacters : Nat → List Char → Reading (List Char)
  | _, [] => blame .unfinishedString []
  | 0, rest => stop .unfinishedString rest
  | bound + 1, next :: rest =>
    if next = '"' then .ok ([], rest)
    else if next = '\\' then
      andThen (readEscape rest) fun character after =>
        andThen (readCharacters bound after) fun characters last =>
          .ok (character :: characters, last)
    else if next.toNat < 0x20 then blame .controlCharacter (next :: rest)
    else andThen (readCharacters bound rest) fun characters last => .ok (next :: characters, last)

/-- Reads a string after its opening quote. Every character takes at least one of the
text, so the text's own length is bound enough. -/
def readString (text : List Char) : Reading String :=
  andThen (readCharacters text.length text) fun characters rest =>
    .ok (String.ofList characters, rest)

end JsonOverlay.Reader
