/-
This file shows that errors are located in the text as it was given. A location only depends on
where the line breaks are, and overwriting keeps them. Whatever the options, a text that is refused
is refused at the last byte that was read of it.
-/

import JsonOverlay.Parse
import JsonOverlay.Proofs.Lenient.Relax
import JsonOverlay.Proofs.Location
import JsonOverlay.Proofs.Reader.Extent

namespace JsonOverlay

open Reader

/-! ### Line breaks -/

namespace Location

variable {first second : List UInt8}

theorem blanked_eq_iff {mark : UInt8} (breaks : mark = lineFeed ∨ mark = carriageReturn)
    (byte : UInt8) : InPlace.blanked byte = mark ↔ byte = mark := by
  unfold InPlace.blanked
  split
  · rfl
  · rename_i other
    refine iff_of_false ?_ ?_
    · rintro rfl
      rcases breaks with absurd | absurd
      · cases absurd
      · cases absurd
    · rintro rfl
      exact other breaks

/-- The last line looks the same if only line breaks are left of the bytes. -/
theorem takeWhile_map_blanked (bytes : List UInt8) :
    (bytes.map InPlace.blanked).takeWhile (· != lineFeed) =
      (bytes.takeWhile (· != lineFeed)).map InPlace.blanked := by
  have same : ((· != lineFeed) ∘ InPlace.blanked) = (· != lineFeed) := by
    funext byte
    rw [Function.comp_apply, Bool.eq_iff_iff, bne_iff_ne, bne_iff_ne, ne_eq, ne_eq,
      blanked_eq_iff (.inl rfl)]
  rw [List.takeWhile_map, same]

theorem after_map_blanked (bytes : List UInt8) :
    after (bytes.map InPlace.blanked) = after bytes := by
  have feeds : (bytes.map InPlace.blanked).count lineFeed = bytes.count lineFeed := by
    rw [List.count_eq_countP, List.count_eq_countP, List.countP_map]
    refine List.countP_congr fun byte _ => ?_
    rw [Function.comp_apply, beq_iff_eq, beq_iff_eq, blanked_eq_iff (.inl rfl)]
  rw [after, after, feeds, ← List.map_reverse, takeWhile_map_blanked, List.length_map]

theorem ofLast_map_blanked (bytes : List UInt8) :
    ofLast (bytes.map InPlace.blanked) = ofLast bytes := by
  have closed : closedLineLength (bytes.map InPlace.blanked) = closedLineLength bytes := by
    have carriage (line : List UInt8) : (line.map InPlace.blanked).head? = some carriageReturn ↔
        line.head? = some carriageReturn := by
      cases line with
      | nil => rfl
      | cons byte line =>
        show some _ = _ ↔ some _ = _
        rw [Option.some.injEq, Option.some.injEq, blanked_eq_iff (.inr rfl)]
    rw [closedLineLength, closedLineLength, ← List.map_dropLast, ← List.map_reverse,
      takeWhile_map_blanked]
    simp only [carriage, List.length_map]
  rw [ofLast, ofLast, after_map_blanked, closed]

end Location

namespace Lenient

variable {options : ParseOptions} {trailingCommas : Bool} {text out : List Char} {part : Part}
  {before after : List Part} {byte left : UInt8}

theorem Becomes.blanked_eq (becomes : Becomes trailingCommas before after part byte left) :
    InPlace.blanked left = InPlace.blanked byte := by
  cases becomes with
  | space _ noFeed noReturn =>
    exact (if_neg (not_or.mpr ⟨noFeed, noReturn⟩)).symm
  | lineBreak => rfl
  | trailing => rfl
  | itself => rfl

/-- What is left of a text has its line breaks. -/
theorem map_blanked_relax (relaxed : Reader.relax options text = .ok out) :
    (Text.bytesOf out).map InPlace.blanked = (Text.bytesOf text).map InPlace.blanked := by
  rcases divides_or_unclosed options.comments text with
    ⟨parts, divides, rfl⟩ | ⟨allowed, parts, after, unclosed⟩
  · rw [divides.relax_eq] at relaxed
    cases relaxed
    have leaves := leaves_overwritten options.trailingCommas parts
    refine List.ext_getElem? fun index => ?_
    rw [List.getElem?_map, List.getElem?_map]
    cases present : (Text.bytesOf (textOf parts))[index]? with
    | none =>
      rw [List.getElem?_eq_none_iff] at present
      rw [List.getElem?_eq_none (leaves.length ▸ present)]
    | some byte =>
      obtain ⟨inside, -⟩ := List.getElem?_eq_some_iff.mp present
      obtain ⟨before, part, after, belongs⟩ := leaves.divided index inside
      obtain ⟨left, remains, becomes⟩ :=
        leaves.becomes before part after index byte belongs present
      rw [remains]
      exact congrArg some becomes.blanked_eq
  · cases relaxed.symm.trans (unclosed.relax_eq allowed)

end Lenient

namespace Tree

/-- A text that is refused is refused at the last byte that was read, and at least one was. The
reader reports a location of what was made of the text, which is the same in the text itself. The
error shows it after looking up the line that a line feed has closed: that comes to the location of
the last byte in the text as it was given. -/
theorem refused_at_last_byte (options : ParseOptions) (text : String) (relaxed : List Char)
    (failure : Failure) (relaxes : Reader.relax options text.toList = .ok relaxed)
    (visible : relaxed.all Text.isUnicodeBlank = false)
    (refused : readAll relaxed = .error failure) :
    ∃ count reached shown,
      1 ≤ count ∧ count + failure.unread = (Text.bytesOf text.toList).length ∧
      reached = Location.after ((Text.bytesOf relaxed).take count) ∧
      reached = Location.after ((Text.bytesOf text.toList).take count) ∧
      shown = Location.settled relaxed reached ∧
      Tree.parse options text = .error (.malformed failure.fault reached shown) ∧
      ∀ location, Location.PointsAt (Text.bytesOf text.toList) (count - 1) location ↔
        location = shown := by
  have breaks := Lenient.map_blanked_relax relaxes
  have length : Text.byteLength relaxed = (Text.bytesOf text.toList).length := by
    have known := congrArg List.length breaks
    rwa [List.length_map, List.length_map, Text.length_bytesOf] at known
  have some : relaxed ≠ [] := by
    rintro rfl
    cases visible
  have unread := unread_lt_of_readAll some refused
  obtain ⟨count, total⟩ := Nat.exists_eq_add_of_le' (Nat.le_of_lt unread)
  have positive : 1 ≤ count := by omega
  have read : Text.bytesBefore relaxed failure.unread = (Text.bytesOf relaxed).take count := by
    rw [Text.bytesBefore, total, Nat.add_sub_cancel]
  have same : ((Text.bytesOf relaxed).take count).map InPlace.blanked =
      ((Text.bytesOf text.toList).take count).map InPlace.blanked := by
    rw [List.map_take, List.map_take, breaks]
  refine ⟨count, _, _, positive, total.symm.trans length, rfl, ?_, rfl, ?_, fun location => ?_⟩
  · rw [← Location.after_map_blanked, same, Location.after_map_blanked]
  · rw [Tree.parse, relaxes]
    dsimp only
    rw [if_neg (by simp [visible]), refused, Location.settled_after, ← read]
    rfl
  · rw [Location.pointsAt_iff (by omega), Nat.sub_add_cancel positive, Location.settled_after,
      ← Location.ofLast_map_blanked, ← same, Location.ofLast_map_blanked]

/-- The line break behind a comment is the last byte of this text. Neither of its two bytes
counts, and those of the comment count as they were. -/
theorem refused_at_last_byte_comment :
    Tree.parse { comments := true } "[\"\u00e9\",//\u00fc\r\n" =
        .error (.malformed .unfinishedValue ⟨2, 0⟩ ⟨1, 10⟩) ∧
      ∀ location, Location.PointsAt (Text.bytesOf "[\"\u00e9\",//\u00fc\r\n".toList) 11 location ↔
        location = ⟨1, 10⟩ := by
  obtain ⟨count, _, _, positive, total, rfl, -, rfl, parsed, points⟩ :=
    refused_at_last_byte { comments := true } "[\"\u00e9\",//\u00fc\r\n"
      "[\"\u00e9\",    \r\n".toList ⟨.unfinishedValue, 0⟩ (by rfl) (by rfl) (by rfl)
  obtain rfl : count = 12 := total
  exact ⟨parsed, points⟩

end Tree

end JsonOverlay
