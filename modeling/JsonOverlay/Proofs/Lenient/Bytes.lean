/-
This file carries tests of characters over to the bytes of a text. A byte of ASCII is the whole
of a character, and all other bytes lie above it. So a test that looks for marks among the bytes
finds them where the characters are, and never within another character.
-/

import JsonOverlay.Proofs.Lenient.Commas
import JsonOverlay.Reader.InPlace

namespace JsonOverlay

namespace Text

variable {text : List Char} {character : Char} {byte : UInt8}

/-! ### ASCII -/

@[simp]
theorem bytesOf_nil : bytesOf [] = [] := rfl

@[simp]
theorem bytesOf_cons (character : Char) (rest : List Char) :
    bytesOf (character :: rest) = String.utf8EncodeChar character ++ bytesOf rest := rfl

@[simp]
theorem bytesOf_append (first second : List Char) :
    bytesOf (first ++ second) = bytesOf first ++ bytesOf second := List.flatMap_append

/-- The bytes of a character: a single byte of ASCII, or bytes above it. -/
theorem utf8_cases (character : Char) :
    (String.utf8EncodeChar character = [UInt8.ofNat character.toNat] ∧ character.toNat < 128) ∨
      (128 ≤ character.toNat ∧ ∀ byte ∈ String.utf8EncodeChar character, 128 ≤ byte.toNat) := by
  have code : character.val.toNat = character.toNat := rfl
  rw [String.utf8EncodeChar.eq_1, code]
  split
  · exact .inl ⟨rfl, by omega⟩
  · refine .inr ⟨by omega, ?_⟩
    split
    · simp only [List.forall_mem_cons, UInt8.toNat_ofNat']
      refine ⟨by omega, by omega, nofun⟩
    split
    · simp only [List.forall_mem_cons, UInt8.toNat_ofNat']
      refine ⟨by omega, by omega, by omega, nofun⟩
    · simp only [List.forall_mem_cons, UInt8.toNat_ofNat']
      refine ⟨by omega, by omega, by omega, by omega, nofun⟩

/-- A byte of ASCII is the whole of a character. -/
theorem eq_of_mem_utf8EncodeChar (member : byte ∈ String.utf8EncodeChar character)
    (ascii : byte.toNat < 128) : character = Char.ofNat byte.toNat := by
  rcases utf8_cases character with ⟨same, small⟩ | ⟨-, large⟩
  · rw [same, List.mem_singleton] at member
    have code : byte.toNat = character.toNat := by
      rw [member, UInt8.toNat_ofNat']
      omega
    rw [code, Char.ofNat_toNat]
  · exact absurd (large byte member) (by omega)

/-- A byte of a character is a mark if the character is. -/
theorem beq_of_mem_utf8EncodeChar (mark : Char) (ascii : mark.toNat < 128)
    (member : byte ∈ String.utf8EncodeChar character) :
    (byte == UInt8.ofNat mark.toNat) = (character == mark) := by
  rw [Bool.eq_iff_iff, beq_iff_eq, beq_iff_eq]
  constructor
  · rintro rfl
    have code : (UInt8.ofNat mark.toNat).toNat = mark.toNat := by
      rw [UInt8.toNat_ofNat']
      omega
    rw [eq_of_mem_utf8EncodeChar member (by omega), code, Char.ofNat_toNat]
  · rintro rfl
    rcases utf8_cases character with ⟨same, -⟩ | ⟨large, -⟩
    · exact List.mem_singleton.mp (same ▸ member)
    · omega

theorem mem_of_mem_bytesOf (member : byte ∈ bytesOf text) (ascii : byte.toNat < 128) :
    Char.ofNat byte.toNat ∈ text := by
  obtain ⟨character, present, inside⟩ := List.mem_flatMap.mp member
  rwa [← eq_of_mem_utf8EncodeChar inside ascii]

/-- The bytes of a character behind the first lie above ASCII. -/
theorem exists_utf8EncodeChar_eq_cons (character : Char) :
    ∃ first more, String.utf8EncodeChar character = first :: more ∧
      ∀ byte ∈ more, 128 ≤ byte.toNat := by
  rcases utf8_cases character with ⟨same, -⟩ | ⟨-, large⟩
  · exact ⟨_, [], same, nofun⟩
  · obtain ⟨first, more, same⟩ :=
      List.exists_cons_of_ne_nil (String.utf8EncodeChar_ne_nil (c := character))
    exact ⟨first, more, same, fun byte member => large byte (same ▸ List.mem_cons_of_mem _ member)⟩

/-- If the bytes of a text start with one of ASCII, the text starts with its character. -/
theorem exists_of_bytesOf_eq_cons {rest : List UInt8} (starts : bytesOf text = byte :: rest)
    (ascii : byte.toNat < 128) : ∃ later, text = Char.ofNat byte.toNat :: later := by
  rcases text with _ | ⟨character, later⟩
  · cases starts
  · obtain ⟨first, more, same, -⟩ := exists_utf8EncodeChar_eq_cons character
    have here : first = byte := by
      rw [bytesOf_cons, same] at starts
      exact (List.cons.inj starts).1
    have member : byte ∈ String.utf8EncodeChar character := by
      rw [same, here]
      exact List.mem_cons_self
    exact ⟨later, by rw [← eq_of_mem_utf8EncodeChar member ascii]⟩

end Text

namespace Reader.InPlace

variable {text body rest : List Char} {character : Char} {byte : UInt8}

/-! ### Comments -/

/-- What stands in place of a character stands in place of its bytes. -/
theorem bytesOf_blanked (character : Char) :
    Text.bytesOf (Reader.blanked character) = (String.utf8EncodeChar character).map blanked := by
  unfold Reader.blanked
  split
  · rename_i lineBreak
    rcases lineBreak with rfl | rfl
    · rfl
    · rfl
  · rename_i other
    have space (count : Nat) : Text.bytesOf (List.replicate count ' ') =
        List.replicate count space := by
      rw [Text.bytesOf, List.flatMap_replicate]
      induction count with
      | zero => rfl
      | succ count inductionHypothesis =>
        rw [List.replicate_succ, List.replicate_succ, List.flatten_cons, inductionHypothesis]
        rfl
    rw [space, eq_comm, List.eq_replicate_iff, List.length_map, String.length_utf8EncodeChar]
    refine ⟨rfl, List.forall_mem_map.mpr fun byte member => if_neg ?_⟩
    rintro (rfl | rfl)
    · exact other (.inl (Text.eq_of_mem_utf8EncodeChar member (by decide)))
    · exact other (.inr (Text.eq_of_mem_utf8EncodeChar member (by decide)))

theorem bytesOf_flatMap_blanked (body : List Char) :
    Text.bytesOf (body.flatMap Reader.blanked) = (Text.bytesOf body).map blanked := by
  induction body with
  | nil => rfl
  | cons character body inductionHypothesis =>
    rw [List.flatMap_cons, Text.bytesOf_append, Text.bytesOf_cons, List.map_append,
      bytesOf_blanked, inductionHypothesis]

theorem closing?_cons {rest : List UInt8} {first : UInt8}
    (stays : first = star → rest.head? ≠ some slash) :
    closing? (first :: rest) = (closing? rest).map (· + 1) := by
  rcases rest with _ | ⟨second, rest⟩
  · rfl
  · refine if_neg ?_
    rintro ⟨marked, rfl⟩
    exact stays marked rfl

theorem closing?_append {front rest : List UInt8} (other : ∀ byte ∈ front, byte ≠ star) :
    closing? (front ++ rest) = (closing? rest).map (· + front.length) := by
  induction front with
  | nil => exact Option.map_id'.symm
  | cons first front inductionHypothesis =>
    obtain ⟨here, others⟩ := List.forall_mem_cons.mp other
    rw [List.cons_append, closing?_cons fun same => (here same).elim, inductionHypothesis others,
      Option.map_map]
    rfl

/-- A character that does not belong to the mark that closes a comment is passed over. -/
theorem closing?_bytesOf_cons (stays : ∀ later, character = '*' → text = '/' :: later → False) :
    closing? (Text.bytesOf (character :: text)) =
      (closing? (Text.bytesOf text)).map (· + (String.utf8EncodeChar character).length) := by
  by_cases marked : character = '*'
  · subst marked
    refine closing?_cons fun _ next => ?_
    obtain ⟨rest, starts⟩ := List.head?_eq_some_iff.mp next
    obtain ⟨later, same⟩ := Text.exists_of_bytesOf_eq_cons starts (by decide)
    exact stays later rfl same
  · refine closing?_append fun byte member => ?_
    rintro rfl
    exact marked (Text.eq_of_mem_utf8EncodeChar member (by decide))

/-- A comment ends at the first mark that closes it. -/
theorem closing?_of_unclosed (unclosed : ¬['*', '/'] <:+: body) (rest : List Char) :
    closing? (Text.bytesOf (body ++ '*' :: '/' :: rest)) = some (Text.bytesOf body).length := by
  induction body with
  | nil => rfl
  | cons first body inductionHypothesis =>
    have others := mt List.infix_cons unclosed
    rw [List.cons_append, closing?_bytesOf_cons (Lenient.stays_before_mark unclosed),
      inductionHypothesis others, Text.bytesOf_cons, List.length_append]
    exact congrArg some (Nat.add_comm _ _)

theorem closing?_eq_none (unclosed : ¬['*', '/'] <:+: text) :
    closing? (Text.bytesOf text) = none := by
  induction text with
  | nil => rfl
  | cons first text inductionHypothesis =>
    have others := mt List.infix_cons unclosed
    rw [closing?_bytesOf_cons (Lenient.stays_of_unclosed unclosed), inductionHypothesis others]
    rfl

/-! ### Neighbours of commas -/

theorem isBlank_of_mem (member : byte ∈ String.utf8EncodeChar character) :
    isBlank byte = Text.isAsciiBlank character := by
  have same (mark : Char) (ascii : mark.toNat < 128) :
      (character == mark) = (byte == UInt8.ofNat mark.toNat) :=
    (Text.beq_of_mem_utf8EncodeChar mark ascii member).symm
  rw [Text.isAsciiBlank, Text.isBlank, same ' ' (by decide), same '\t' (by decide),
    same '\n' (by decide), same '\r' (by decide), same '\x0c' (by decide), Bool.eq_iff_iff]
  simp only [isBlank, Bool.or_eq_true, beq_iff_eq]
  tauto

theorem closes_of_mem (member : byte ∈ String.utf8EncodeChar character) :
    closes byte = (character == ']' || character == '\x7d') := by
  rw [← Text.beq_of_mem_utf8EncodeChar ']' (by decide) member,
    ← Text.beq_of_mem_utf8EncodeChar '\x7d' (by decide) member]
  rfl

theorem endsValue_of_mem (member : byte ∈ String.utf8EncodeChar character) :
    endsValue byte = followsValue (some character) := by
  show _ = (!(character == '[') && !(character == '\x7b') && !(character == ','))
  rw [← Text.beq_of_mem_utf8EncodeChar '[' (by decide) member,
    ← Text.beq_of_mem_utf8EncodeChar '\x7b' (by decide) member,
    ← Text.beq_of_mem_utf8EncodeChar ',' (by decide) member]
  rfl

/-- A blank is a single byte. -/
theorem exists_of_isAsciiBlank (blank : Text.isAsciiBlank character = true) :
    ∃ byte, String.utf8EncodeChar character = [byte] := by
  rcases Text.utf8_cases character with ⟨same, -⟩ | ⟨large, -⟩
  · exact ⟨_, same⟩
  · simp only [Text.isAsciiBlank, Text.isBlank, Bool.or_eq_true, beq_iff_eq] at blank
    rcases blank with (((rfl | rfl) | rfl) | rfl) | rfl
    all_goals exact absurd large (by decide)

/-- The next byte that is not blank is a closing bracket if the next such character is. -/
theorem any_closes_find? (text : List Char) :
    ((Text.bytesOf text).find? fun byte => !isBlank byte).any closes = closesNext text := by
  induction text with
  | nil => rfl
  | cons character text inductionHypothesis =>
    cases blank : Text.isAsciiBlank character with
    | true =>
      obtain ⟨byte, same⟩ := exists_of_isAsciiBlank blank
      have isBlank : isBlank byte = true := by
        rw [isBlank_of_mem (same ▸ List.mem_singleton_self byte), blank]
      rw [Lenient.closesNext_cons_blank blank, ← inductionHypothesis, Text.bytesOf_cons, same,
        List.singleton_append, List.find?_cons_of_neg (by simp [isBlank])]
    | false =>
      obtain ⟨first, more, same, -⟩ := Text.exists_utf8EncodeChar_eq_cons character
      have member : first ∈ String.utf8EncodeChar character := same ▸ List.mem_cons_self
      rw [Lenient.closesNext_cons blank, Text.bytesOf_cons, same, List.cons_append,
        List.find?_cons_of_pos (by rw [isBlank_of_mem member, blank]; rfl), ← closes_of_mem member]
      rfl

/-- The same for the last byte and the last character that are not blank. -/
theorem any_endsValue_last? (text : List Char) :
    (last? (Text.bytesOf text)).any endsValue = followsValue (Lenient.lastVisible text) := by
  induction text using List.reverseRecOn with
  | nil => rfl
  | append_singleton text character inductionHypothesis =>
    have split : Text.bytesOf (text ++ [character]) =
        Text.bytesOf text ++ String.utf8EncodeChar character := by simp
    cases blank : Text.isAsciiBlank character with
    | true =>
      obtain ⟨byte, same⟩ := exists_of_isAsciiBlank blank
      have isBlank : isBlank byte = true := by
        rw [isBlank_of_mem (same ▸ List.mem_singleton_self byte), blank]
      rw [Lenient.lastVisible_concat_blank blank, ← inductionHypothesis, split, same, last?, last?,
        List.reverse_append, List.reverse_singleton, List.singleton_append,
        List.find?_cons_of_neg (by simp [isBlank])]
    | false =>
      obtain ⟨front, final, same⟩ :=
        (List.eq_nil_or_concat' (String.utf8EncodeChar character)).resolve_left
          String.utf8EncodeChar_ne_nil
      have member : final ∈ String.utf8EncodeChar character := by simp [same]
      rw [Lenient.lastVisible_concat blank, split, same, ← List.append_assoc, last?,
        List.reverse_append, List.reverse_singleton, List.singleton_append,
        List.find?_cons_of_pos (by rw [isBlank_of_mem member, blank]; rfl),
        ← endsValue_of_mem member]
      rfl

end Reader.InPlace

end JsonOverlay
