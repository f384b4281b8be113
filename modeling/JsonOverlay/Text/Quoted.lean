/-
This file writes strings between quotes: as JSON strings, and as they appear inside
error messages and debug texts.
-/

import JsonOverlay.Text.Printable

namespace JsonOverlay.Text

/-- The lower-case hexadecimal digits of a number. -/
def hexadecimal (value : Nat) : List Char := Nat.toDigits 16 value

/-! ### JSON strings -/

/-- A character inside a JSON string. Quotes, backslashes and control characters are
escaped, the latter by a letter where JSON has one; everything else stands for itself. -/
def escapeJson (character : Char) : List Char :=
  if character = '"' then ['\\', '"']
  else if character = '\\' then ['\\', '\\']
  else if character = '\n' then ['\\', 'n']
  else if character = '\r' then ['\\', 'r']
  else if character = '\t' then ['\\', 't']
  else if character = '\x08' then ['\\', 'b']
  else if character = '\x0c' then ['\\', 'f']
  else if character.toNat < 0x10 then '\\' :: 'u' :: '0' :: '0' :: '0' :: hexadecimal character.toNat
  else if character.toNat < 0x20 then '\\' :: 'u' :: '0' :: '0' :: hexadecimal character.toNat
  else [character]

/-- A JSON string with its quotes. -/
def quoteJson (text : String) : String :=
  String.ofList ('"' :: (text.toList.flatMap escapeJson ++ ['"']))

/-! ### Strings in messages -/

/-- A character inside a quoted string of a message. Characters that would not be seen
are shown by number. -/
def escapeMessage (character : Char) : List Char :=
  if character = '"' then ['\\', '"']
  else if character = '\\' then ['\\', '\\']
  else if character = '\n' then ['\\', 'n']
  else if character = '\r' then ['\\', 'r']
  else if character = '\t' then ['\\', 't']
  else if character = '\x00' then ['\\', '0']
  else if isPrintable character then [character]
  else '\\' :: 'u' :: '\x7b' :: (hexadecimal character.toNat ++ ['\x7d'])

/-- A quoted string of a message. -/
def quoteMessage (text : String) : String :=
  String.ofList ('"' :: (text.toList.flatMap escapeMessage ++ ['"']))

end JsonOverlay.Text
