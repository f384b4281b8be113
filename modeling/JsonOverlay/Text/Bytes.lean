/-
This file holds the UTF-8 bytes of characters, and how many there are: places in a text
are counted in bytes.
-/

namespace JsonOverlay.Text

-- A sum starts from the numeral zero here and where other zeros are known as well.
attribute [local instance (1100)] Zero.ofOfNat0

/-- The bytes of characters. -/
def bytesOf (characters : List Char) : List UInt8 := characters.flatMap String.utf8EncodeChar

/-- The number of bytes that characters take. -/
def byteLength (characters : List Char) : Nat :=
  (characters.map Char.utf8Size).sum

@[simp]
theorem byteLength_cons (character : Char) (rest : List Char) :
    byteLength (character :: rest) = character.utf8Size + byteLength rest := by
  simp [byteLength]

@[simp]
theorem byteLength_append (first second : List Char) :
    byteLength (first ++ second) = byteLength first + byteLength second := by
  simp [byteLength]

theorem length_bytesOf (characters : List Char) :
    (bytesOf characters).length = byteLength characters := by
  simp [bytesOf, byteLength, List.length_flatMap]

/-- The bytes of characters up to where some of them are left. -/
def bytesBefore (characters : List Char) (left : Nat) : List UInt8 :=
  (bytesOf characters).take (byteLength characters - left)

end JsonOverlay.Text
