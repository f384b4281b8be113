/-
This file holds the three sets of blank characters that the library tells apart: those
that JSON allows between tokens, the ASCII ones that are skipped when a comma looks for
its neighbours, and the Unicode ones of which an empty document may consist.
-/

namespace JsonOverlay.Text

/-- The blanks of JSON: space, tab, line feed and carriage return. -/
def isBlank (character : Char) : Bool :=
  character == ' ' || character == '\t' || character == '\n' || character == '\r'

/-- The blanks of ASCII: those of JSON and the form feed. -/
def isAsciiBlank (character : Char) : Bool :=
  isBlank character || character == '\x0c'

/-- The characters with the Unicode property `White_Space`. -/
def isUnicodeBlank (character : Char) : Bool :=
  let code := character.toNat
  (0x09 ≤ code && code ≤ 0x0d) || code == 0x20 || code == 0x85 || code == 0xa0 ||
    code == 0x1680 || (0x2000 ≤ code && code ≤ 0x200a) || code == 0x2028 || code == 0x2029 ||
    code == 0x202f || code == 0x205f || code == 0x3000

theorem isAsciiBlank_of_isBlank {character : Char} (blank : isBlank character = true) :
    isAsciiBlank character = true := by
  simp [isAsciiBlank, blank]

theorem isUnicodeBlank_of_isBlank {character : Char} (blank : isBlank character = true) :
    isUnicodeBlank character = true := by
  simp only [isBlank, Bool.or_eq_true, beq_iff_eq] at blank
  rcases blank with ((rfl | rfl) | rfl) | rfl <;> decide

end JsonOverlay.Text
