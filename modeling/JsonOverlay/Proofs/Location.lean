/-
This file says what the location of the last byte read is. Its line counts the line feeds before
that byte, and its column the bytes of the line up to it, without a line break. The lines of a text
are found under the same numbers, whether bytes or characters are counted, so the line that a line
feed has closed can be looked up.
-/

import JsonOverlay.Proofs.Lenient.Bytes
import JsonOverlay.Text.Lines

namespace JsonOverlay

/-! ### The last line -/

section LastLine

variable {α : Type} [DecidableEq α] {mark : α} {before line : List α}

/-- What stands before a line: nothing, or something that a mark ends. -/
def EndsLine (mark : α) (before : List α) : Prop :=
  before = [] ∨ ∃ front, before = front ++ [mark]

/-- A list is made of lines that are closed and one that is open. -/
theorem exists_last_line (mark : α) (list : List α) :
    ∃ before line, list = before ++ line ∧ EndsLine mark before ∧ mark ∉ line := by
  induction list using List.reverseRecOn with
  | nil => exact ⟨[], [], rfl, .inl rfl, List.not_mem_nil⟩
  | append_singleton list last inductionHypothesis =>
    by_cases isMark : last = mark
    · exact ⟨list ++ [mark], [], by rw [isMark, List.append_nil], .inr ⟨list, rfl⟩,
        List.not_mem_nil⟩
    · obtain ⟨before, line, rfl, ends, free⟩ := inductionHypothesis
      refine ⟨before, line ++ [last], List.append_assoc _ _ _, ends, fun member => ?_⟩
      rcases List.mem_append.mp member with inside | atEnd
      · exact free inside
      · exact isMark (List.mem_singleton.mp atEnd).symm

/-- The open line is found from behind. -/
theorem takeWhile_reverse_eq (ends : EndsLine mark before) (free : mark ∉ line) :
    (before ++ line).reverse.takeWhile (· != mark) = line.reverse := by
  have passes : ∀ item ∈ line.reverse, (item != mark) = true := by
    intro item member
    rw [bne_iff_ne]
    rintro rfl
    exact free (List.mem_reverse.mp member)
  rw [List.reverse_append, List.takeWhile_append_of_pos passes]
  rcases ends with rfl | ⟨front, rfl⟩
  · rw [List.reverse_nil, List.takeWhile_nil, List.append_nil]
  · rw [List.reverse_append, List.reverse_singleton, List.singleton_append,
      List.takeWhile_cons_of_neg (by simp), List.append_nil]

end LastLine

namespace Location

variable {bytes before line rest : List UInt8} {last : UInt8} {index start : Nat}
  {location : Location}

/-! ### The location of a byte -/

/-- The line of a byte starts at another: in front of all bytes or behind a line feed, and with no
line feed between them. -/
structure LineStarts (bytes : List UInt8) (index start : Nat) : Prop where
  le : start ≤ index
  opens : start = 0 ∨ ∃ feed, start = feed + 1 ∧ bytes[feed]? = some lineFeed
  unbroken : ∀ between, start ≤ between → between < index → bytes[between]? ≠ some lineFeed

/-- How many bytes of a line break a byte ends: a line feed does, and takes a carriage return
before it along. -/
def breakLength (bytes : List UInt8) (index : Nat) : Nat :=
  if bytes[index]? = some lineFeed then
    if 0 < index ∧ bytes[index - 1]? = some carriageReturn then 2 else 1
  else 0

/-- A location is that of a byte. The line counts the line feeds before the byte; the column counts
the bytes of its line, the byte included, but no line break that it ends. -/
structure PointsAt (bytes : List UInt8) (index : Nat) (location : Location) : Prop where
  line : location.line = 1 + (bytes.take index).count lineFeed
  column : ∃ start, LineStarts bytes index start ∧
    location.column = index + 1 - start - breakLength bytes index

/-- A line starts in one place. -/
theorem lineStarts_iff (ends : EndsLine lineFeed before) (free : lineFeed ∉ line) :
    LineStarts (before ++ (line ++ rest)) (before.length + line.length) start ↔
      start = before.length := by
  have unbroken {offset : Nat} (inside : offset < line.length) :
      (before ++ (line ++ rest))[before.length + offset]? ≠ some lineFeed := by
    rw [List.getElem?_append_right (Nat.le_add_right _ _), Nat.add_sub_cancel_left,
      List.getElem?_append_left inside]
    exact fun isFeed => free (List.mem_of_getElem? isFeed)
  constructor
  · intro starts
    rcases Nat.lt_trichotomy start before.length with early | same | late
    · rcases ends with rfl | ⟨front, rfl⟩
      · exact absurd early (Nat.not_lt_zero _)
      · rw [List.length_append, List.length_singleton] at early starts
        refine (starts.unbroken front.length (by omega) (by omega) ?_).elim
        rw [List.append_assoc, List.getElem?_append_right (Nat.le_refl _), Nat.sub_self]
        rfl
    · exact same
    · rcases starts.opens with rfl | ⟨feed, rfl, isFeed⟩
      · exact absurd late (Nat.not_lt_zero _)
      · have le := starts.le
        obtain ⟨offset, rfl⟩ := Nat.exists_eq_add_of_le (Nat.le_of_lt_succ late)
        have inside : offset < line.length := by omega
        exact (unbroken inside isFeed).elim
  · rintro rfl
    refine ⟨Nat.le_add_right _ _, ?_, ?_⟩
    · rcases ends with rfl | ⟨front, rfl⟩
      · exact .inl rfl
      · refine .inr ⟨front.length, by rw [List.length_append, List.length_singleton], ?_⟩
        rw [List.append_assoc, List.getElem?_append_right (Nat.le_refl _), Nat.sub_self]
        rfl
    · intro between behind inside isFeed
      obtain ⟨offset, rfl⟩ := Nat.exists_eq_add_of_le behind
      have inside : offset < line.length := by omega
      exact unbroken inside isFeed

/-- The bytes of an open line that count if a byte follows. -/
def lineLength (line : List UInt8) (last : UInt8) : Nat :=
  if last = lineFeed then
    if line.getLast? = some carriageReturn then line.length - 1 else line.length
  else line.length + 1

/-- Behind a line feed the next line starts. -/
theorem after_lineFeed (free : lineFeed ∉ line) :
    after (before ++ line ++ [lineFeed]) = ⟨before.count lineFeed + 2, 0⟩ := by
  rw [after, List.count_append, List.count_append, List.count_eq_zero.mpr free,
    List.count_singleton_self, List.reverse_append, List.reverse_singleton,
    List.singleton_append, List.takeWhile_cons_of_neg (by decide)]
  rfl

/-- The location of the last byte, from the line that it stands in. -/
theorem ofLast_append (ends : EndsLine lineFeed before) (free : lineFeed ∉ line) (last : UInt8) :
    ofLast (before ++ line ++ [last]) = ⟨before.count lineFeed + 1, lineLength line last⟩ := by
  by_cases isFeed : last = lineFeed
  · subst isFeed
    have closed : closedLineLength (before ++ line ++ [lineFeed]) = lineLength line lineFeed := by
      rw [closedLineLength, List.dropLast_concat, takeWhile_reverse_eq ends free,
        List.head?_reverse, List.length_reverse, lineLength, if_pos rfl]
    rw [ofLast, after_lineFeed free, if_pos ⟨rfl, Nat.lt_add_left _ Nat.one_lt_two⟩, closed]
    rfl
  · have longer : lineFeed ∉ line ++ [last] := by
      rw [List.mem_append, List.mem_singleton]
      exact not_or.mpr ⟨free, fun same => isFeed same.symm⟩
    have reached : after (before ++ line ++ [last]) =
        ⟨before.count lineFeed + 1, line.length + 1⟩ := by
      rw [after, List.append_assoc, takeWhile_reverse_eq ends longer, List.count_append,
        List.count_eq_zero.mpr longer, List.length_reverse, List.length_append]
      rfl
    rw [ofLast, reached, if_neg (by simp), lineLength, if_neg isFeed]

theorem breakLength_append (ends : EndsLine lineFeed before) (line rest : List UInt8)
    (last : UInt8) :
    line.length + 1 - breakLength (before ++ (line ++ last :: rest))
      (before.length + line.length) = lineLength line last := by
  have here : (before ++ (line ++ last :: rest))[before.length + line.length]? = some last := by
    rw [← List.append_assoc, ← List.length_append, List.getElem?_append_right (Nat.le_refl _),
      Nat.sub_self]
    rfl
  -- The byte before the last is one of the line, or a line feed.
  have carriage : (0 < before.length + line.length ∧
      (before ++ (line ++ last :: rest))[before.length + line.length - 1]? =
        some carriageReturn) ↔ line.getLast? = some carriageReturn := by
    rcases List.eq_nil_or_concat' line with rfl | ⟨front, final, rfl⟩
    · rcases ends with rfl | ⟨front, rfl⟩
      · exact iff_of_false (fun present => absurd present.1 (Nat.lt_irrefl 0)) nofun
      · rw [List.length_append, List.append_assoc,
          List.getElem?_append_right (by rw [List.length_singleton]; omega)]
        refine iff_of_false (fun present => ?_) nofun
        have position : front.length + [lineFeed].length + ([] : List UInt8).length - 1 -
            front.length = 0 := by
          simp
        rw [position] at present
        exact absurd (Option.some.inj present.2) (by decide)
    · rw [List.getLast?_concat, List.length_append, List.length_singleton,
        List.getElem?_append_right (by omega), List.append_assoc,
        List.getElem?_append_right (by omega)]
      have position :
          before.length + (front.length + 1) - 1 - before.length - front.length = 0 := by omega
      rw [position]
      exact ⟨And.right, fun same => ⟨by omega, same⟩⟩
  rw [breakLength, here, lineLength]
  simp only [carriage, Option.some.injEq]
  split
  · split
    · omega
    · omega
  · omega

/-- There is one location of each byte, the one that errors are shown at. -/
theorem pointsAt_iff (inside : index < bytes.length) :
    PointsAt bytes index location ↔ location = ofLast (bytes.take (index + 1)) := by
  obtain ⟨before, line, same, ends, free⟩ := exists_last_line lineFeed (bytes.take index)
  have parted : bytes = before ++ (line ++ bytes[index] :: bytes.drop (index + 1)) := by
    rw [← List.append_assoc, ← same, List.getElem_cons_drop, List.take_append_drop]
  have place : index = before.length + line.length := by
    rw [← List.length_append, ← same, List.length_take, Nat.min_eq_left (Nat.le_of_lt inside)]
  have feeds : (bytes.take index).count lineFeed = before.count lineFeed := by
    rw [same, List.count_append, List.count_eq_zero.mpr free, Nat.add_zero]
  have last : bytes.take (index + 1) = before ++ line ++ [bytes[index]] := by
    rw [← same, List.take_append_getElem]
  have starts {start : Nat} : LineStarts bytes index start ↔ start = before.length := by
    have known : LineStarts (before ++ (line ++ bytes[index] :: bytes.drop (index + 1)))
        (before.length + line.length) start ↔ start = before.length := lineStarts_iff ends free
    rwa [← parted, ← place] at known
  have column : index + 1 - before.length - breakLength bytes index =
      lineLength line bytes[index] := by
    have known := breakLength_append ends line (bytes.drop (index + 1)) bytes[index]
    rw [← parted, ← place] at known
    rw [← known]
    omega
  rw [last, ofLast_append ends free]
  constructor
  · rintro ⟨lineSame, start, starts', columnSame⟩
    obtain rfl := starts.mp starts'
    rcases location with ⟨lineNumber, columnNumber⟩
    dsimp only at lineSame columnSame
    rw [lineSame, columnSame, feeds, column, Nat.add_comm 1]
  · rintro rfl
    exact ⟨by rw [feeds, Nat.add_comm 1], before.length, starts.mpr rfl, column.symm⟩

end Location

/-! ### Lines by number -/

namespace Text

variable {text front line rest : List Char} {character : Char} {bytes : List UInt8}

theorem length_endedLines (front : List Char) :
    (endedLines (front ++ ['\n'])).length = front.count '\n' + 1 := by
  induction front with
  | nil => rfl
  | cons first front inductionHypothesis =>
    rw [List.cons_append, endedLines]
    split
    · rename_i isFeed
      rw [List.length_cons, inductionHypothesis, isFeed, List.count_cons_self]
    · rename_i other
      rw [List.count_cons_of_ne other, ← inductionHypothesis]
      cases same : endedLines (front ++ ['\n']) with
      | nil =>
        rw [same] at inductionHypothesis
        cases inductionHypothesis
      | cons line lines => rfl

/-- Lines are cut behind each line feed. -/
theorem endedLines_append (front rest : List Char) :
    endedLines (front ++ '\n' :: rest) = endedLines (front ++ ['\n']) ++ endedLines rest := by
  induction front with
  | nil => rfl
  | cons first front inductionHypothesis =>
    rw [List.cons_append, List.cons_append, endedLines, endedLines, inductionHypothesis]
    split
    · rfl
    · have length := length_endedLines front
      cases same : endedLines (front ++ ['\n']) with
      | nil =>
        rw [same] at length
        cases length
      | cons line lines => rfl

/-- A line ends at its line feed. -/
theorem endedLines_line (free : '\n' ∉ line) :
    endedLines (line ++ ['\n']) = [line ++ ['\n']] := by
  induction line with
  | nil => rfl
  | cons first line inductionHypothesis =>
    have other : first ≠ '\n' := fun same => free (same ▸ List.mem_cons_self)
    rw [List.cons_append, endedLines, if_neg other,
      inductionHypothesis fun member => free (List.mem_cons_of_mem first member)]

/-- The line that a line feed closes is found under its number. -/
theorem getElem?_endedLines {before : List Char} (ends : EndsLine '\n' before)
    (free : '\n' ∉ line) (rest : List Char) :
    (endedLines (before ++ line ++ '\n' :: rest))[before.count '\n']? =
      some (line ++ ['\n']) := by
  have here : endedLines (line ++ '\n' :: rest) = (line ++ ['\n']) :: endedLines rest := by
    rw [endedLines_append, endedLines_line free]
    rfl
  rcases ends with rfl | ⟨front, rfl⟩
  · rw [List.nil_append, here]
    rfl
  · rw [List.append_assoc, List.append_assoc, List.singleton_append, endedLines_append, here,
      List.count_append, List.count_singleton_self, ← length_endedLines,
      List.getElem?_append_right (Nat.le_refl _), Nat.sub_self]
    rfl

theorem withoutBreak_append (line : List Char) :
    withoutBreak (line ++ ['\n']) =
      if line.getLast? = some '\r' then line.dropLast else line := by
  rw [withoutBreak, List.getLast?_concat, if_pos rfl, List.dropLast_concat]

theorem count_utf8EncodeChar (character : Char) :
    (String.utf8EncodeChar character).count Location.lineFeed =
      if character == '\n' then 1 else 0 := by
  split
  · rename_i isFeed
    rw [beq_iff_eq.mp isFeed]
    rfl
  · rename_i other
    refine List.count_eq_zero.mpr fun member => other ?_
    rw [← beq_of_mem_utf8EncodeChar '\n' (by decide) member]
    rfl

/-- There are as many line feeds among the bytes as among the characters. -/
theorem count_bytesOf (text : List Char) :
    (bytesOf text).count Location.lineFeed = text.count '\n' := by
  induction text with
  | nil => rfl
  | cons character text inductionHypothesis =>
    rw [bytesOf_cons, List.count_append, inductionHypothesis, count_utf8EncodeChar,
      List.count_cons, Nat.add_comm]

/-- A line feed among the bytes is one among the characters, with all that stands before it. -/
theorem exists_of_bytesOf_eq_append {before after : List UInt8}
    (parted : bytesOf text = before ++ Location.lineFeed :: after) :
    ∃ front rest, text = front ++ '\n' :: rest ∧ bytesOf front = before := by
  induction text generalizing before with
  | nil => cases (List.append_eq_nil_iff.mp parted.symm).2
  | cons character text inductionHypothesis =>
    rw [bytesOf_cons] at parted
    rcases List.append_eq_append_iff.mp parted with ⟨more, rfl, same⟩ | ⟨more, same, behind⟩
    · obtain ⟨front, rest, rfl, rfl⟩ := inductionHypothesis same
      exact ⟨character :: front, rest, rfl, rfl⟩
    · rcases more with _ | ⟨feed, more⟩
      · have further : bytesOf text = [] ++ Location.lineFeed :: after := behind.symm
        obtain ⟨front, rest, rfl, nothing⟩ := inductionHypothesis further
        refine ⟨character :: front, rest, rfl, ?_⟩
        rw [bytesOf_cons, nothing, same, List.append_nil, List.append_nil]
      · -- The line feed is a byte of the first character, so it is all of it.
        obtain rfl : Location.lineFeed = feed := (List.cons.inj behind).1
        have member : Location.lineFeed ∈ String.utf8EncodeChar character := by
          rw [same]
          exact List.mem_append_right _ List.mem_cons_self
        obtain rfl : character = '\n' := eq_of_mem_utf8EncodeChar member (by decide)
        rcases before with _ | ⟨first, before⟩
        · exact ⟨[], text, rfl, rfl⟩
        · cases (List.append_eq_nil_iff.mp (List.cons.inj same).2.symm).2

theorem endsLine_bytesOf (ends : EndsLine '\n' text) :
    EndsLine Location.lineFeed (bytesOf text) := by
  rcases ends with rfl | ⟨front, rfl⟩
  · exact .inl rfl
  · exact .inr ⟨bytesOf front, bytesOf_append front ['\n']⟩

/-- A line ends in a carriage return if its bytes do. -/
theorem getLast?_bytesOf (line : List Char) :
    (bytesOf line).getLast? = some Location.carriageReturn ↔ line.getLast? = some '\r' := by
  rcases List.eq_nil_or_concat' line with rfl | ⟨front, final, rfl⟩
  · exact iff_of_false nofun nofun
  · obtain ⟨more, last, same⟩ :=
      (List.eq_nil_or_concat' (String.utf8EncodeChar final)).resolve_left
        String.utf8EncodeChar_ne_nil
    have member : last ∈ String.utf8EncodeChar final := by simp [same]
    have known := beq_of_mem_utf8EncodeChar '\r' (by decide) member
    rw [bytesOf_append, bytesOf_cons, bytesOf_nil, List.append_nil, same, ← List.append_assoc,
      List.getLast?_concat, List.getLast?_concat, Option.some.injEq, Option.some.injEq,
      ← beq_iff_eq, ← beq_iff_eq (a := final), ← known]
    rfl

/-- The line that a line feed closes has as many bytes as its characters take. -/
theorem byteLength_withoutBreak (line : List Char) :
    byteLength (withoutBreak (line ++ ['\n'])) =
      Location.lineLength (bytesOf line) Location.lineFeed := by
  rw [withoutBreak_append, Location.lineLength, if_pos rfl, ← length_bytesOf]
  simp only [getLast?_bytesOf]
  split
  · rename_i carriage
    obtain ⟨front, rfl⟩ := List.getLast?_eq_some_iff.mp carriage
    rw [List.dropLast_concat, bytesOf_append, List.length_append]
    rfl
  · rfl

end Text

namespace Location

theorem settled_lineFeed {before line : List Char} (ends : EndsLine '\n' before)
    (free : '\n' ∉ line) (rest : List Char) :
    settled (before ++ line ++ '\n' :: rest) ⟨before.count '\n' + 2, 0⟩ =
      ⟨before.count '\n' + 1, lineLength (Text.bytesOf line) lineFeed⟩ := by
  rw [settled, if_pos ⟨rfl, Nat.lt_add_left _ Nat.one_lt_two⟩]
  show Location.mk _ (((Text.lines _)[before.count '\n']?.map Text.byteLength).getD 0) = _
  rw [Text.lines, List.getElem?_map, Text.getElem?_endedLines ends free]
  exact congrArg (Location.mk _) (Text.byteLength_withoutBreak line)

/-- The line that a line feed has closed is looked up by its number, which comes to counting back
from the line feed. -/
theorem settled_after (text : List Char) (count : Nat) :
    settled text (after ((Text.bytesOf text).take count)) =
      ofLast ((Text.bytesOf text).take count) := by
  by_cases closes : ∃ front, (Text.bytesOf text).take count = front ++ [lineFeed]
  · obtain ⟨front, read⟩ := closes
    have parted : Text.bytesOf text = front ++ lineFeed :: (Text.bytesOf text).drop count := by
      rw [← List.singleton_append, ← List.append_assoc, ← read, List.take_append_drop]
    obtain ⟨characters, rest, rfl, rfl⟩ := Text.exists_of_bytesOf_eq_append parted
    obtain ⟨before, line, rfl, ends, free⟩ := exists_last_line '\n' characters
    have freeBytes : lineFeed ∉ Text.bytesOf line := fun member =>
      free (Text.mem_of_mem_bytesOf member (by decide))
    rw [read, Text.bytesOf_append, after_lineFeed freeBytes,
      ofLast_append (Text.endsLine_bytesOf ends) freeBytes, Text.count_bytesOf,
      settled_lineFeed ends free]
  · -- Where no line feed is the last byte, neither of the two starts a line.
    have inLine : ¬((after ((Text.bytesOf text).take count)).column = 0 ∧
        1 < (after ((Text.bytesOf text).take count)).line) := by
      rcases List.eq_nil_or_concat' ((Text.bytesOf text).take count) with read | ⟨front, last, read⟩
      · rw [read]
        exact fun absurd => Nat.lt_irrefl 1 absurd.2
      · have other : last ≠ lineFeed := by
          rintro rfl
          exact closes ⟨front, read⟩
        rw [read, after, List.reverse_append, List.reverse_singleton, List.singleton_append,
          List.takeWhile_cons_of_pos (by simpa using other)]
        exact fun absurd => Nat.succ_ne_zero _ absurd.1
    rw [settled, ofLast, if_neg inLine, if_neg inLine]

end Location

end JsonOverlay
