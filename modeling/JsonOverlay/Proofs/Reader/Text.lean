/-
This file shows that a string is read back from its quoted text. Every character is read
from what it is escaped as, whatever follows, and the string ends at the first quote that is
not part of an escape.
-/

import JsonOverlay.Reader.Text
import JsonOverlay.Text.Quoted
import Mathlib.Tactic.IntervalCases

namespace JsonOverlay.Reader

variable {bound : Nat} {character : Char} {rest : List Char}

/-! ### Escapes -/

/-- A control character is read back from its number. -/
theorem readHexEscape_control (code : Nat) (control : code < 0x20) (rest : List Char) :
    readHexEscape ('0' :: '0' :: ((if code < 0x10 then ['0'] else []) ++
      (Text.hexadecimal code ++ rest))) = .ok (Char.ofNat code, rest) := by
  interval_cases code <;> rfl

theorem readEscape_letter {letter : Char} (known : escapeLetter? letter = some character)
    (rest : List Char) : readEscape (letter :: rest) = .ok (character, rest) := by
  unfold readEscape
  split
  · rename_i absurd
    cases absurd
  · rename_i same
    cases same
    cases known
  · rename_i same
    cases same
    rw [known]

theorem readCharacters_escape {escape : List Char}
    (read : readEscape (escape ++ rest) = .ok (character, rest)) :
    readCharacters (bound + 1) ('\\' :: escape ++ rest) =
      andThen (readCharacters bound rest) fun characters last =>
        .ok (character :: characters, last) := by
  rw [List.cons_append, readCharacters, if_neg (by decide), if_pos rfl, read]
  rfl

theorem readEscape_control (control : character.toNat < 0x20) (rest : List Char) :
    readEscape ('u' :: '0' :: '0' :: ((if character.toNat < 0x10 then ['0'] else []) ++
      (Text.hexadecimal character.toNat ++ rest))) = .ok (character, rest) := by
  have read := readHexEscape_control character.toNat control rest
  rw [Char.ofNat_toNat] at read
  exact read

/-- A character is read back from what it is escaped as. -/
theorem readCharacters_escapeJson (bound : Nat) (character : Char) (rest : List Char) :
    readCharacters (bound + 1) (Text.escapeJson character ++ rest) =
      andThen (readCharacters bound rest) fun characters last =>
        .ok (character :: characters, last) := by
  unfold Text.escapeJson
  -- The first seven escapes are letters.
  iterate 7
    split
    · rename_i same
      subst same
      exact readCharacters_escape (readEscape_letter rfl rest)
  split
  · rename_i low
    have read := readEscape_control (low.trans (by decide)) rest
    rw [if_pos low] at read
    exact readCharacters_escape read
  split
  · rename_i high control
    have read := readEscape_control control rest
    rw [if_neg high] at read
    exact readCharacters_escape read
  · rename_i quote backslash _ _ _ _ _ _ control
    rw [List.singleton_append, readCharacters, if_neg quote, if_neg backslash, if_neg control]

theorem length_le_flatMap_escapeJson (characters : List Char) :
    characters.length ≤ (characters.flatMap Text.escapeJson).length := by
  induction characters with
  | nil => exact Nat.le_refl 0
  | cons character rest inductionHypothesis =>
    have some : 0 < (Text.escapeJson character).length := by
      unfold Text.escapeJson
      repeat' split
      all_goals simp
    rw [List.flatMap_cons, List.length_append, List.length_cons]
    omega

/-! ### Strings -/

theorem readCharacters_flatMap (characters : List Char) (rest : List Char)
    (enough : characters.length < bound) :
    readCharacters bound (characters.flatMap Text.escapeJson ++ '"' :: rest) =
      .ok (characters, rest) := by
  induction characters generalizing bound with
  | nil =>
    obtain ⟨bound, rfl⟩ := Nat.exists_eq_succ_of_ne_zero (Nat.ne_of_gt enough)
    rfl
  | cons character later inductionHypothesis =>
    obtain ⟨bound, rfl⟩ := Nat.exists_eq_succ_of_ne_zero (Nat.ne_zero_of_lt enough)
    rw [List.flatMap_cons, List.append_assoc, readCharacters_escapeJson,
      inductionHypothesis (Nat.lt_of_succ_lt_succ enough)]
    rfl

/-- A string is read back from its quoted text. -/
theorem readString_quoteJson (text : String) (rest : List Char) :
    readString (text.toList.flatMap Text.escapeJson ++ '"' :: rest) = .ok (text, rest) := by
  have enough : text.toList.length <
      (text.toList.flatMap Text.escapeJson ++ '"' :: rest).length := by
    have longer := length_le_flatMap_escapeJson text.toList
    rw [List.length_append, List.length_cons]
    omega
  rw [readString, readCharacters_flatMap text.toList rest enough]
  exact congrArg (fun read => Except.ok (read, rest)) String.ofList_toList

end JsonOverlay.Reader
