/-
This file bounds what readers leave of a text. Whether a reader answers or gives up, it leaves no
more than there was. A reader of values that gives up has read at least one byte, unless there is
none, so there is always a last byte read to point at.
-/

import JsonOverlay.Reader

namespace JsonOverlay.Reader

variable {α β : Type} {text rest : List Char} {character : Char} {bound : Nat} {fault : SyntaxFault}

/-! ### Bytes that are left -/

theorem byteLength_le_cons (character : Char) (rest : List Char) :
    Text.byteLength rest + 1 ≤ Text.byteLength (character :: rest) := by
  have positive := Char.utf8Size_pos character
  rw [Text.byteLength_cons]
  omega

theorem byteLength_dropWhile_le (test : Char → Bool) (text : List Char) :
    Text.byteLength (text.dropWhile test) ≤ Text.byteLength text := by
  have split := congrArg Text.byteLength (List.takeWhile_append_dropWhile (p := test) (l := text))
  rw [Text.byteLength_append] at split
  omega

theorem byteLength_skipBlanks_le (text : List Char) :
    Text.byteLength (skipBlanks text) ≤ Text.byteLength text :=
  byteLength_dropWhile_le _ text

/-- A reading leaves at most so many bytes, answered or given up. -/
def Within (bound : Nat) : Reading α → Prop
  | .ok (_, rest) => Text.byteLength rest ≤ bound
  | .error failure => failure.unread ≤ bound

theorem Within.mono {reading : Reading α} {more : Nat} (within : Within bound reading)
    (le : bound ≤ more) : Within more reading := by
  rcases reading with failure | ⟨value, rest⟩
  · exact Nat.le_trans within le
  · exact Nat.le_trans within le

theorem within_ok {value : α} (le : Text.byteLength rest ≤ bound) :
    Within bound (.ok (value, rest) : Reading α) := le

theorem within_stop (le : Text.byteLength rest ≤ bound) :
    Within bound (stop fault rest : Reading α) := le

theorem within_blame (le : Text.byteLength rest ≤ bound + 1) :
    Within bound (blame fault rest : Reading α) :=
  Nat.sub_le_of_le_add le

theorem within_blameNext {otherwise : SyntaxFault} (le : Text.byteLength rest ≤ bound + 1) :
    Within bound (blameNext fault otherwise rest : Reading α) := by
  rcases rest with _ | ⟨next, rest⟩
  · exact within_blame le
  · exact within_blame le

theorem within_andThen {reading : Reading α} {next : α → List Char → Reading β}
    (within : Within bound reading)
    (goesOn : ∀ value rest, Text.byteLength rest ≤ bound → Within bound (next value rest)) :
    Within bound (andThen reading next) := by
  rcases reading with failure | ⟨value, rest⟩
  · exact within
  · exact goesOn value rest within

theorem within_map {reading : Reading α} {change : α → β} (within : Within bound reading) :
    Within bound (andThen reading fun value rest => .ok (change value, rest)) :=
  within_andThen within fun _ _ le => le

/-! ### Words and strings -/

theorem within_readWord (value : α) (word text : List Char) :
    Within (Text.byteLength text) (readWord value word text) := by
  induction word generalizing text with
  | nil => exact within_ok (Nat.le_refl _)
  | cons expected word inductionHypothesis =>
    rcases text with _ | ⟨found, rest⟩
    · exact within_blame (Nat.zero_le _)
    · have shorter := byteLength_le_cons found rest
      rw [readWord]
      split
      · exact (inductionHypothesis rest).mono (by omega)
      · exact within_blame (by omega)

theorem within_blameQuad (text : List Char) :
    Within (Text.byteLength text) (blameQuad text : Reading α) := by
  unfold blameQuad
  split
  · exact within_blame (Nat.zero_le _)
  · exact Nat.sub_le _ _

theorem within_readQuad (text : List Char) :
    Within (Text.byteLength text) (readQuad text) := by
  unfold readQuad
  split
  · split
    · simp only [Text.byteLength_cons]
      exact within_ok (by omega)
    · exact within_blameQuad _
  · exact within_blameQuad _

theorem within_readLowSurrogate (high : Nat) (text : List Char) :
    Within (Text.byteLength text) (readLowSurrogate high text) := by
  unfold readLowSurrogate
  split
  · exact within_blame (Nat.zero_le _)
  · exact within_blame (Nat.zero_le _)
  · rename_i rest
    simp only [Text.byteLength_cons]
    refine within_andThen ((within_readQuad rest).mono (by omega)) fun low after le => ?_
    split
    · exact within_ok le
    · exact within_stop le
  · simp only [Text.byteLength_cons]
    exact within_blame (by omega)
  · exact within_blame (by omega)

theorem within_readHexEscape (text : List Char) :
    Within (Text.byteLength text) (readHexEscape text) := by
  refine within_andThen (within_readQuad text) fun unit rest le => ?_
  split
  · exact within_stop le
  split
  · exact (within_readLowSurrogate unit rest).mono le
  · exact within_ok le

theorem within_readEscape (text : List Char) :
    Within (Text.byteLength text) (readEscape text) := by
  unfold readEscape
  split
  · exact within_blame (Nat.zero_le _)
  · rename_i rest
    exact (within_readHexEscape rest).mono (Nat.le_of_succ_le (byteLength_le_cons _ rest))
  · rename_i letter rest _
    split
    · exact within_ok (Nat.le_of_succ_le (byteLength_le_cons letter rest))
    · exact within_blame (Nat.le_succ _)

theorem within_readCharacters (count : Nat) (text : List Char) :
    Within (Text.byteLength text) (readCharacters count text) := by
  induction count generalizing text with
  | zero =>
    rcases text with _ | ⟨next, rest⟩
    · exact within_blame (Nat.zero_le _)
    · exact within_stop (Nat.le_refl _)
  | succ count inductionHypothesis =>
    rcases text with _ | ⟨next, rest⟩
    · exact within_blame (Nat.zero_le _)
    have shorter := byteLength_le_cons next rest
    rw [readCharacters]
    split
    · exact within_ok (by omega)
    split
    · refine within_andThen ((within_readEscape rest).mono (by omega)) fun _ after le => ?_
      exact within_map ((inductionHypothesis after).mono le)
    split
    · exact within_blame (by omega)
    · exact within_map ((inductionHypothesis rest).mono (by omega))

theorem within_readString (text : List Char) :
    Within (Text.byteLength text) (readString text) :=
  within_map (within_readCharacters text.length text)

/-! ### Numerals -/

variable {negative : Bool} {gathered : Gathered}

theorem within_finish (negative : Bool) (gathered : Gathered) (rest : List Char) :
    Within (Text.byteLength rest) (finish negative gathered rest) := by
  unfold finish
  split
  · exact within_ok (Nat.le_refl _)
  · exact within_stop (Nat.le_refl _)

theorem within_readExponentDigits (down : Bool) (exponent : Nat) (text : List Char) :
    Within (Text.byteLength text) (readExponentDigits negative gathered down exponent text) := by
  induction text generalizing exponent with
  | nil => exact within_finish _ _ _
  | cons next rest inductionHypothesis =>
    have shorter := Nat.le_of_succ_le (byteLength_le_cons next rest)
    rw [readExponentDigits]
    split
    · dsimp only
      split
      · split
        · exact within_stop shorter
        · exact within_ok (Nat.le_trans (byteLength_dropWhile_le _ rest) shorter)
      · exact (inductionHypothesis _).mono shorter
    · exact within_finish _ _ _

theorem within_readExponent (text : List Char) :
    Within (Text.byteLength text) (readExponent negative gathered text) := by
  unfold readExponent
  split
  rename_i down digits same
  have shorter : Text.byteLength digits ≤ Text.byteLength text := by
    split at same
    · cases same
      exact Nat.le_of_succ_le (byteLength_le_cons _ _)
    · cases same
      exact Nat.le_of_succ_le (byteLength_le_cons _ _)
    · cases same
      exact Nat.le_refl _
  split
  · exact within_blame (Nat.zero_le _)
  · rename_i first rest
    split
    · have behind := byteLength_le_cons first rest
      exact (within_readExponentDigits down _ rest).mono (by omega)
    · exact within_blame (Nat.le_succ_of_le shorter)

theorem within_readScale (text : List Char) :
    Within (Text.byteLength text) (readScale negative gathered text) := by
  unfold readScale
  split
  · exact (within_readExponent _).mono (Nat.le_of_succ_le (byteLength_le_cons _ _))
  · exact (within_readExponent _).mono (Nat.le_of_succ_le (byteLength_le_cons _ _))
  · exact within_finish _ _ _

theorem within_readDigits (digits text : List Char) :
    Within (Text.byteLength text) (readDigits negative digits text) := by
  unfold readDigits
  dsimp only
  split
  · rename_i fraction
    have behind := byteLength_le_cons '.' fraction
    have shorter : Text.byteLength (splitDigits fraction).2 ≤ Text.byteLength fraction :=
      byteLength_dropWhile_le _ fraction
    generalize splitDigits fraction = parts at shorter
    obtain ⟨decimals, after⟩ := parts
    dsimp only at shorter
    split
    · rename_i same
      cases same
      exact within_blameNext (by omega)
    · rename_i same
      cases same
      exact (within_readScale after).mono (by omega)
  · exact (within_readExponent _).mono (Nat.le_of_succ_le (byteLength_le_cons _ _))
  · exact (within_readExponent _).mono (Nat.le_of_succ_le (byteLength_le_cons _ _))
  · split
    · exact within_ok (Nat.le_refl _)
    · exact within_finish _ _ _

/-- The first byte of a numeral is read in any case. -/
theorem within_readNumeral (text : List Char) :
    Within (Text.byteLength text - 1) (readNumeral negative text) := by
  unfold readNumeral
  split
  · exact within_blame (Nat.zero_le _)
  · rename_i rest
    have shorter := byteLength_le_cons '0' rest
    split
    · split
      · exact within_blame (by omega)
      · exact (within_readDigits _ _).mono (by omega)
    · exact (within_readDigits _ _).mono (Nat.zero_le _)
  · rename_i first rest _
    split
    · rename_i isDigit
      have shorter := byteLength_le_cons first rest
      have left := byteLength_dropWhile_le Char.isDigit rest
      refine (within_readDigits _ _).mono ?_
      show Text.byteLength ((first :: rest).dropWhile Char.isDigit) ≤ _
      rw [List.dropWhile_cons_of_pos isDigit]
      omega
    · exact within_blame (Nat.sub_le_iff_le_add.mp (Nat.le_refl _))

/-! ### Containers and values -/

variable {read : List Char → Reading Tree}

theorem within_readElements (reads : ∀ text, Within (Text.byteLength text) (read text))
    (count : Nat) (text : List Char) :
    Within (Text.byteLength text) (readElements read count text) := by
  induction count generalizing text with
  | zero => exact within_blame (Nat.le_succ _)
  | succ count inductionHypothesis =>
    refine within_andThen (reads text) fun item after le => ?_
    have blanks := byteLength_skipBlanks_le after
    generalize skipBlanks after = next at blanks
    split
    · rename_i rest
      have shorter := byteLength_le_cons ']' rest
      exact within_ok (by omega)
    · rename_i rest
      have shorter := byteLength_le_cons ',' rest
      have later := byteLength_skipBlanks_le rest
      generalize skipBlanks rest = next at later
      split
      · exact within_blame (Nat.zero_le _)
      · exact within_blame (by omega)
      · exact within_map ((inductionHypothesis _).mono (by omega))
    · exact within_blameNext (by omega)

theorem within_readArray (reads : ∀ text, Within (Text.byteLength text) (read text))
    (text : List Char) : Within (Text.byteLength text) (readArray read text) := by
  have blanks := byteLength_skipBlanks_le text
  unfold readArray
  generalize skipBlanks text = next at blanks
  split
  · exact within_blame (Nat.zero_le _)
  · rename_i rest
    have shorter := byteLength_le_cons ']' rest
    exact within_ok (by omega)
  · exact within_map ((within_readElements reads _ _).mono blanks)

theorem within_readMember (reads : ∀ text, Within (Text.byteLength text) (read text))
    (text : List Char) : Within (Text.byteLength text) (readMember read text) := by
  unfold readMember
  split
  · rename_i rest
    have opened := byteLength_le_cons '"' rest
    refine within_andThen ((within_readString rest).mono (by omega)) fun name after le => ?_
    have blanks := byteLength_skipBlanks_le after
    generalize skipBlanks after = next at blanks
    split
    · rename_i next
      have shorter := byteLength_le_cons ':' next
      exact within_map ((reads next).mono (by omega))
    · exact within_blameNext (by omega)
  · exact within_blame (Nat.le_succ _)

theorem within_readMembers (reads : ∀ text, Within (Text.byteLength text) (read text))
    (count : Nat) (text : List Char) :
    Within (Text.byteLength text) (readMembers read count text) := by
  induction count generalizing text with
  | zero => exact within_blame (Nat.le_succ _)
  | succ count inductionHypothesis =>
    refine within_andThen (within_readMember reads text) fun member after le => ?_
    have blanks := byteLength_skipBlanks_le after
    generalize skipBlanks after = next at blanks
    split
    · rename_i rest
      have shorter := byteLength_le_cons '\x7d' rest
      exact within_ok (by omega)
    · rename_i rest
      have shorter := byteLength_le_cons ',' rest
      have later := byteLength_skipBlanks_le rest
      generalize skipBlanks rest = next at later
      split
      · exact within_blame (Nat.zero_le _)
      · exact within_blame (by omega)
      · exact within_map ((inductionHypothesis _).mono (by omega))
    · exact within_blameNext (by omega)

theorem within_readObject (reads : ∀ text, Within (Text.byteLength text) (read text))
    (text : List Char) : Within (Text.byteLength text) (readObject read text) := by
  have blanks := byteLength_skipBlanks_le text
  unfold readObject
  generalize skipBlanks text = next at blanks
  split
  · exact within_blame (Nat.zero_le _)
  · rename_i rest
    have shorter := byteLength_le_cons '\x7d' rest
    exact within_ok (by omega)
  · exact within_map ((within_readMembers reads _ _).mono blanks)

/-- The first byte of a value is read in any case. -/
theorem within_readScalar (text : List Char) :
    Within (Text.byteLength text - 1) (readScalar text) := by
  unfold readScalar
  split
  · exact within_blame (Nat.zero_le _)
  · exact (within_readWord _ _ _).mono (Nat.le_sub_of_add_le (byteLength_le_cons _ _))
  · exact (within_readWord _ _ _).mono (Nat.le_sub_of_add_le (byteLength_le_cons _ _))
  · exact (within_readWord _ _ _).mono (Nat.le_sub_of_add_le (byteLength_le_cons _ _))
  · exact within_map ((within_readString _).mono
      (Nat.le_sub_of_add_le (byteLength_le_cons _ _)))
  · rename_i rest
    have shorter := byteLength_le_cons '-' rest
    exact within_map ((within_readNumeral rest).mono (by omega))
  · split
    · exact within_map (within_readNumeral _)
    · exact within_blame (Nat.sub_le_iff_le_add.mp (Nat.le_refl _))

theorem within_readValue (depth : Nat) (text : List Char) :
    Within (Text.byteLength text - 1) (readValue depth text) := by
  induction depth generalizing text with
  | zero =>
    have blanks := byteLength_skipBlanks_le text
    rw [readValue]
    generalize skipBlanks text = next at blanks
    split
    · exact within_blame (by omega)
    · exact within_blame (by omega)
    · exact (within_readScalar _).mono (by omega)
  | succ depth inductionHypothesis =>
    have reads (text : List Char) : Within (Text.byteLength text) (readValue depth text) :=
      (inductionHypothesis text).mono (Nat.sub_le _ _)
    have blanks := byteLength_skipBlanks_le text
    rw [readValue]
    generalize skipBlanks text = next at blanks
    split
    · rename_i rest
      have shorter := byteLength_le_cons '[' rest
      exact (within_readArray reads rest).mono (by omega)
    · rename_i rest
      have shorter := byteLength_le_cons '\x7b' rest
      exact (within_readObject reads rest).mono (by omega)
    · exact (within_readScalar _).mono (by omega)

/-- A text that is refused has been read up to some byte at least, if it has any. -/
theorem unread_lt_of_readAll {failure : Failure} (some : text ≠ [])
    (refused : readAll text = .error failure) : failure.unread < Text.byteLength text := by
  have within := within_readValue greatestDepth text
  have positive : 0 < Text.byteLength text := by
    obtain ⟨first, rest, rfl⟩ := List.exists_cons_of_ne_nil some
    exact Nat.lt_of_lt_of_le (Nat.succ_pos _) (byteLength_le_cons first rest)
  unfold readAll at refused
  cases value : readValue greatestDepth text with
  | error early =>
    rw [value] at refused within
    cases refused
    exact Nat.lt_of_le_sub_one positive within
  | ok reading =>
    obtain ⟨tree, rest⟩ := reading
    rw [value] at refused within
    have blanks := byteLength_skipBlanks_le rest
    have left : Text.byteLength rest ≤ Text.byteLength text - 1 := within
    dsimp only at refused
    split at refused
    · cases refused
    · cases refused
      show Text.byteLength (skipBlanks rest) - 1 < _
      omega

end JsonOverlay.Reader
