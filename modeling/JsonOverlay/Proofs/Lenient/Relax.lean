/-
This file says what a lenient text becomes, byte by byte. Every byte belongs to one part of the
text. Bytes of comments, but for line breaks, and commas that trail become spaces, if that is
allowed; all others stay. So a text keeps its length and its lines, and what is left of it is
UTF-8 again. There is no such text only if a block comment is not closed.
-/

import JsonOverlay.Proofs.Lenient.InPlace
import JsonOverlay.Proofs.Lenient.Unchanged

namespace JsonOverlay

open Reader

namespace Lenient

variable {options : ParseOptions} {trailingCommas comments : Bool} {text rest : List Char}
  {part : Part} {before after front parts : List Part} {byte left : UInt8} {index : Nat}

/-! ### Bytes of parts -/

/-- What a byte of a part between others becomes. -/
inductive Becomes (trailingCommas : Bool) (before after : List Part) (part : Part) :
    UInt8 → UInt8 → Prop where
  | space {byte : UInt8} (isComment : part.region = .comment) (noFeed : byte ≠ Location.lineFeed)
      (noReturn : byte ≠ Location.carriageReturn) :
      Becomes trailingCommas before after part byte InPlace.space
  | lineBreak {byte : UInt8} (isComment : part.region = .comment)
      (breaks : byte = Location.lineFeed ∨ byte = Location.carriageReturn) :
      Becomes trailingCommas before after part byte byte
  | trailing (allowed : trailingCommas = true) (isComma : part = ⟨.plain, [',']⟩)
      (trails : Trailing before after) :
      Becomes trailingCommas before after part InPlace.comma InPlace.space
  | itself {byte : UInt8} (noComment : part.region ≠ .comment)
      (stays : trailingCommas = true → part = ⟨.plain, [',']⟩ → ¬Trailing before after) :
      Becomes trailingCommas before after part byte byte

/-- A byte is only ever overwritten with a space, in comments and where a comma trails. -/
theorem Becomes.eq_or (becomes : Becomes trailingCommas before after part byte left) :
    left = byte ∨ left = InPlace.space ∧ (part.region = .comment ∨
      trailingCommas = true ∧ part = ⟨.plain, [',']⟩ ∧ Trailing before after) := by
  cases becomes with
  | space isComment => exact .inr ⟨rfl, .inl isComment⟩
  | lineBreak => exact .inl rfl
  | trailing allowed isComma trails => exact .inr ⟨rfl, .inr ⟨allowed, isComma, trails⟩⟩
  | itself => exact .inl rfl

/-- Line breaks and strings stay. -/
theorem Becomes.eq_of (becomes : Becomes trailingCommas before after part byte left)
    (kept : byte = Location.lineFeed ∨ byte = Location.carriageReturn ∨ part.region = .string) :
    left = byte := by
  cases becomes with
  | space isComment noFeed noReturn =>
    rcases kept with feed | carriage | isString
    · exact (noFeed feed).elim
    · exact (noReturn carriage).elim
    · cases isComment.symm.trans isString
  | lineBreak => rfl
  | trailing allowed isComma =>
    rcases kept with feed | carriage | isString
    · cases feed
    · cases carriage
    · rw [isComma] at isString
      cases isString
  | itself => rfl

/-- Where a comma trails it is overwritten, and nothing else is plain and overwritten. -/
theorem Part.overwritten_plain_cases (trailingCommas : Bool) (before after : List Part)
    (characters : List Char) :
    (trailingCommas = true ∧ characters = [','] ∧ Trailing before after ∧
        Part.overwritten trailingCommas before after ⟨.plain, characters⟩ = [' ']) ∨
      ((trailingCommas = true → characters = [','] → ¬Trailing before after) ∧
        Part.overwritten trailingCommas before after ⟨.plain, characters⟩ = characters) := by
  by_cases dropped : trailingCommas ∧ characters = [','] ∧ trails before after
  · exact .inl ⟨dropped.1, dropped.2.1, trails_iff.mp dropped.2.2, if_pos dropped⟩
  · refine .inr ⟨fun allowed isComma trails => ?_, if_neg dropped⟩
    exact dropped ⟨allowed, isComma, trails_iff.mpr trails⟩

theorem Part.length_overwritten (trailingCommas : Bool) (before after : List Part) (part : Part) :
    (Text.bytesOf (part.overwritten trailingCommas before after)).length =
      (Text.bytesOf part.characters).length := by
  rcases part with ⟨_ | _ | _, characters⟩
  · rcases Part.overwritten_plain_cases trailingCommas before after characters with
      ⟨-, rfl, -, same⟩ | ⟨-, same⟩
    · rw [same]
      rfl
    · rw [same]
  · rfl
  · show (Text.bytesOf (characters.flatMap blanked)).length = _
    rw [InPlace.bytesOf_flatMap_blanked, List.length_map]

/-- What is left of the bytes of a part is what each of them becomes. -/
theorem Part.getElem?_overwritten (trailingCommas : Bool) (before after : List Part)
    (present : (Text.bytesOf part.characters)[index]? = some byte) :
    ∃ left, (Text.bytesOf (part.overwritten trailingCommas before after))[index]? = some left ∧
      Becomes trailingCommas before after part byte left := by
  rcases part with ⟨_ | _ | _, characters⟩
  · rcases Part.overwritten_plain_cases trailingCommas before after characters with
      ⟨allowed, rfl, trails, same⟩ | ⟨stays, same⟩
    · rw [same]
      rcases index with _ | index
      · cases present
        exact ⟨_, rfl, .trailing allowed rfl trails⟩
      · cases present
    · rw [same]
      exact ⟨byte, present, .itself nofun fun allowed isComma =>
        stays allowed (congrArg Part.characters isComma)⟩
  · exact ⟨byte, present, .itself nofun nofun⟩
  · show ∃ left, (Text.bytesOf (characters.flatMap blanked))[index]? = some left ∧ _
    rw [InPlace.bytesOf_flatMap_blanked, List.getElem?_map, present]
    refine ⟨_, rfl, ?_⟩
    unfold InPlace.blanked
    split
    · rename_i breaks
      exact .lineBreak rfl breaks
    · rename_i other
      exact .space rfl (not_or.mp other).1 (not_or.mp other).2

/-! ### Bytes of texts -/

/-- The part that a byte of a text belongs to, with the parts before it and those behind it. -/
structure Belongs (parts before : List Part) (part : Part) (after : List Part) (index : Nat) :
    Prop where
  parted : parts = before ++ part :: after
  start : (Text.bytesOf (textOf before)).length ≤ index
  stop : index < (Text.bytesOf (textOf (before ++ [part]))).length

/-- Every byte belongs to a part. -/
theorem exists_belongs (inside : index < (Text.bytesOf (textOf parts)).length) :
    ∃ before part after, Belongs parts before part after index := by
  induction parts using List.reverseRecOn with
  | nil => exact absurd inside (Nat.not_lt_zero index)
  | append_singleton parts part inductionHypothesis =>
    by_cases earlier : index < (Text.bytesOf (textOf parts)).length
    · obtain ⟨before, other, after, belongs⟩ := inductionHypothesis earlier
      refine ⟨before, other, after ++ [part], ?_, belongs.start, belongs.stop⟩
      rw [belongs.parted, List.append_assoc, List.cons_append]
    · exact ⟨parts, part, [], rfl, Nat.not_lt.mp earlier, inside⟩

/-- What is left of parts has as many bytes. -/
theorem length_overwritten (trailingCommas : Bool) (front parts : List Part) :
    (Text.bytesOf (overwritten trailingCommas front parts)).length =
      (Text.bytesOf (textOf parts)).length := by
  induction parts generalizing front with
  | nil => rfl
  | cons part parts inductionHypothesis =>
    rw [overwritten, textOf_cons, Text.bytesOf_append, Text.bytesOf_append, List.length_append,
      List.length_append, Part.length_overwritten, inductionHypothesis]

theorem overwritten_append (trailingCommas : Bool) (front before after : List Part) :
    ∃ left, overwritten trailingCommas front (before ++ after) =
        left ++ overwritten trailingCommas (front ++ before) after ∧
      (Text.bytesOf left).length = (Text.bytesOf (textOf before)).length := by
  induction before generalizing front with
  | nil => exact ⟨[], by rw [List.append_nil]; rfl, rfl⟩
  | cons part before inductionHypothesis =>
    obtain ⟨left, same, length⟩ := inductionHypothesis (front ++ [part])
    refine ⟨part.overwritten trailingCommas front (before ++ after) ++ left, ?_, ?_⟩
    · rw [List.cons_append, overwritten, same, List.append_assoc, List.append_assoc,
        List.singleton_append]
    · rw [textOf_cons, Text.bytesOf_append, Text.bytesOf_append, List.length_append,
        List.length_append, Part.length_overwritten, length]

theorem getElem?_bytesOf_append {first second third : List Char} {offset : Nat}
    (within : offset < (Text.bytesOf second).length) :
    (Text.bytesOf (first ++ (second ++ third)))[(Text.bytesOf first).length + offset]? =
      (Text.bytesOf second)[offset]? := by
  rw [Text.bytesOf_append, Text.bytesOf_append, List.getElem?_append_right (Nat.le_add_right _ _),
    Nat.add_sub_cancel_left, List.getElem?_append_left within]

/-- What is left of the bytes of a text is what each of them becomes. -/
theorem Belongs.getElem?_overwritten (belongs : Belongs parts before part after index)
    (present : (Text.bytesOf (textOf parts))[index]? = some byte) :
    ∃ left, (Text.bytesOf (overwritten trailingCommas [] parts))[index]? = some left ∧
      Becomes trailingCommas before after part byte left := by
  obtain ⟨parted, start, stop⟩ := belongs
  obtain ⟨offset, rfl⟩ := Nat.exists_eq_add_of_le start
  have within : offset < (Text.bytesOf part.characters).length := by
    rw [textOf_append, textOf_cons, textOf_nil, List.append_nil, Text.bytesOf_append,
      List.length_append] at stop
    exact Nat.lt_of_add_lt_add_left stop
  obtain ⟨left, same, length⟩ := overwritten_append trailingCommas [] before (part :: after)
  rw [parted, textOf_append, textOf_cons, getElem?_bytesOf_append within] at present
  rw [parted, same, List.nil_append, overwritten, ← length, getElem?_bytesOf_append]
  · exact Part.getElem?_overwritten trailingCommas before after present
  · rwa [Part.length_overwritten]

/-- What is left of the bytes of a text that is divided into parts: as many bytes, each of them
the byte that was there or a space in place of one of a comment or of a comma that trails. Line
breaks and strings stay, and the bytes are those of characters. -/
structure Leaves (trailingCommas : Bool) (parts : List Part) (bytes out : List UInt8) : Prop where
  length : out.length = bytes.length
  divided : ∀ index < bytes.length, ∃ before part after, Belongs parts before part after index
  becomes : ∀ before part after index byte, Belongs parts before part after index →
    bytes[index]? = some byte → ∃ left, out[index]? = some left ∧
      Becomes trailingCommas before after part byte left
  overwrites : ∀ before part after index byte left, Belongs parts before part after index →
    bytes[index]? = some byte → out[index]? = some left →
      left = byte ∨ left = InPlace.space ∧ (part.region = .comment ∨
        trailingCommas = true ∧ part = ⟨.plain, [',']⟩ ∧ Trailing before after)
  keeps : ∀ before part after index byte, Belongs parts before part after index →
    bytes[index]? = some byte →
      byte = Location.lineFeed ∨ byte = Location.carriageReturn ∨ part.region = .string →
        out[index]? = some byte
  valid : out.toByteArray.IsValidUTF8

theorem leaves_overwritten (trailingCommas : Bool) (parts : List Part) :
    Leaves trailingCommas parts (Text.bytesOf (textOf parts))
      (Text.bytesOf (overwritten trailingCommas [] parts)) where
  length := length_overwritten trailingCommas [] parts
  divided _ inside := exists_belongs inside
  becomes _ _ _ _ _ belongs present := belongs.getElem?_overwritten present
  overwrites _ _ _ _ _ _ belongs present remains := by
    obtain ⟨left, same, becomes⟩ := belongs.getElem?_overwritten present
    cases remains.symm.trans same
    exact becomes.eq_or
  keeps _ _ _ _ _ belongs present kept := by
    obtain ⟨left, same, becomes⟩ := belongs.getElem?_overwritten present
    rwa [becomes.eq_of kept] at same
  valid := ⟨_, rfl⟩

/-! ### What the mark of an unclosed comment is -/

theorem Unclosed.bytesBefore {left : List Char} (unclosed : Unclosed text parts left) :
    Text.bytesBefore text (Text.byteLength left + 2) = Text.bytesOf (textOf parts) := by
  have mark : Text.byteLength ('/' :: '*' :: left) = Text.byteLength left + 2 := by
    rw [Text.byteLength_cons, Text.byteLength_cons]
    show 1 + (1 + _) = _
    omega
  rw [Text.bytesBefore, unclosed.same, Text.byteLength_append, mark, Nat.add_sub_cancel,
    Text.bytesOf_append, ← Text.length_bytesOf, List.take_left]

end Lenient

namespace Reader.InPlace

open Lenient

/-- The bytes of a text become what its characters become, or the answer is the location of what
is left of it where its characters cannot be overwritten. -/
theorem relax_bytesOf (options : ParseOptions) (text : List Char) :
    relax options (Text.bytesOf text) =
      some (((Reader.relax options text).map Text.bytesOf).mapError fun left =>
        Location.next (Text.bytesBefore text left)) := by
  rcases divides_or_unclosed options.comments text with
    ⟨parts, divides, rfl⟩ | ⟨allowed, parts, after, unclosed⟩
  · rw [relax_textOf divides, divides.relax_eq]
    rfl
  · rw [relax_unclosed allowed unclosed, unclosed.relax_eq allowed, ← unclosed.bytesBefore]
    rfl

/-- Exactly the texts with a block comment that is not closed are refused. -/
theorem relax_eq_error_iff (options : ParseOptions) (text : List Char) :
    (∃ location, relax options (Text.bytesOf text) = some (.error location)) ↔
      options.comments = true ∧ ∃ parts after, Unclosed text parts after := by
  constructor
  · rintro ⟨location, refused⟩
    rcases divides_or_unclosed options.comments text with ⟨parts, divides, rfl⟩ | unclosed
    · cases refused.symm.trans (relax_textOf divides)
    · exact unclosed
  · rintro ⟨allowed, parts, after, unclosed⟩
    exact ⟨_, relax_unclosed allowed unclosed⟩

theorem relax_of_denotes {numerals : Grammar.Numeral → Number → Prop} {text : List Char}
    {tree : Tree} (denotes : Grammar.Denotes ⟨false, false, numerals⟩ text tree)
    (options : ParseOptions) :
    relax options (Text.bytesOf text) = some (.ok (Text.bytesOf text)) := by
  rw [relax_bytesOf, denotes.relax_eq options]
  rfl

/-- Overwriting bytes in place comes to what is done to characters: never are there no bytes to
look at. It fails exactly if comments are allowed and a block comment is not closed, with the
location of its mark. Otherwise only bytes of comments and commas that trail become spaces. What
is left is left alone, and so is a text that is JSON without any extension. -/
theorem relax_overwrites (options : ParseOptions) (text : List Char) :
    relax options (Text.bytesOf text) =
      some (((Reader.relax options text).map Text.bytesOf).mapError fun left =>
        Location.next (Text.bytesBefore text left)) ∧
    ((∃ location, relax options (Text.bytesOf text) = some (.error location)) ↔
      options.comments = true ∧ ∃ parts after, Unclosed text parts after) ∧
    (∀ parts after, options.comments = true → Unclosed text parts after →
      relax options (Text.bytesOf text) =
        some (.error (Location.next (Text.bytesOf (textOf parts))))) ∧
    (¬(options.comments = true ∧ ∃ parts after, Unclosed text parts after) →
      ∃ parts, Divides options.comments [] parts ∧ textOf parts = text) ∧
    (∀ parts, Divides options.comments [] parts → textOf parts = text →
      ∃ out, relax options (Text.bytesOf text) = some (.ok out) ∧
        Leaves options.trailingCommas parts (Text.bytesOf text) out ∧
        relax options out = some (.ok out)) ∧
    ((∃ numerals tree, Grammar.Denotes ⟨false, false, numerals⟩ text tree) →
      relax options (Text.bytesOf text) = some (.ok (Text.bytesOf text))) ∧
    (∀ tree, Tree.parse .strict (String.ofList text) = .ok tree →
      relax options (Text.bytesOf text) = some (.ok (Text.bytesOf text))) := by
  refine ⟨relax_bytesOf options text, relax_eq_error_iff options text,
    fun parts after allowed unclosed => relax_unclosed allowed unclosed, ?_, ?_, ?_, ?_⟩
  · exact fun closed => (divides_or_unclosed options.comments text).resolve_right closed
  · rintro parts divides rfl
    refine ⟨_, relax_textOf divides, leaves_overwritten options.trailingCommas parts, ?_⟩
    rw [relax_bytesOf, divides.relax_overwritten]
    rfl
  · rintro ⟨numerals, tree, denotes⟩
    exact relax_of_denotes denotes options
  · intro tree parsed
    obtain ⟨denotes, -⟩ := Tree.parse_eq_ok_iff.mp parsed
    rw [String.toList_ofList] at denotes
    exact relax_of_denotes denotes options

/-- Within a string nothing is a comment, and a comma trails that stands before a comment and a
bracket. The slash that opens a block comment does not close it. -/
theorem relax_overwrites_comment :
    relax { comments := true, trailingCommas := true }
        (Text.bytesOf "[\"/*\u00e9\",/*\u00e9*/]//".toList) =
      some (.ok (Text.bytesOf "[\"/*\u00e9\"       ]  ".toList)) ∧
    relax { comments := true } (Text.bytesOf "[]\n /*/".toList) = some (.error ⟨2, 2⟩) :=
  ⟨(relax_overwrites { comments := true, trailingCommas := true }
    "[\"/*\u00e9\",/*\u00e9*/]//".toList).1,
    (relax_overwrites { comments := true } "[]\n /*/".toList).1⟩

end Reader.InPlace

end JsonOverlay
