/-
This file shows that the loops over the bytes of a text do what is done to its characters. Each
loop is looked at where it stands: between the bytes behind it, as they have become, and those
before it, as they were. It takes one part of the text after the other, and never asks for a byte
behind the end.
-/

import JsonOverlay.Proofs.Lenient.Bytes

namespace JsonOverlay.Reader.InPlace

open Lenient

variable {ρ α : Type} {done front rest inside : List UInt8} {byte : UInt8}

/-! ### Searches -/

section

variable {test : UInt8 → Bool} {missing : α} {found : Nat → Option α}

theorem search_eq {bytes : List UInt8} {index : Nat} (within : index ≤ bytes.length) :
    search bytes index test missing found =
      ((bytes.drop index).findIdx? test).elim (some missing) fun offset =>
        found (index + offset) := by
  unfold search
  split
  · simp only [from?, if_pos within, Option.bind_eq_bind, Option.bind_some]
    cases (bytes.drop index).findIdx? test <;> rfl
  · rename_i behind
    rw [List.drop_eq_nil_of_le (Nat.not_lt.mp behind)]
    rfl

theorem search_append : search (done ++ rest) done.length test missing found =
    (rest.findIdx? test).elim (some missing) fun offset => found (done.length + offset) := by
  rw [search_eq (by simp), List.drop_left]

theorem search_nil : search (done ++ []) done.length test missing found = some missing := by
  rw [search_append]
  rfl

theorem search_hit (passes : test byte = true) :
    search (done ++ byte :: rest) done.length test missing found = found done.length := by
  rw [search_append, List.findIdx?_cons, if_pos passes]
  rfl

/-- A byte that does not pass the test is passed over. -/
theorem search_miss (fails : test byte = false) :
    search (done ++ byte :: rest) done.length test missing found =
      search (done ++ byte :: rest) (done.length + 1) test missing found := by
  have behind : (done ++ byte :: rest).drop (done.length + 1) = rest := by
    rw [List.append_cons, ← List.length_singleton (a := byte), ← List.length_append, List.drop_left]
  rw [search_append, search_eq (by simp), behind, List.findIdx?_cons, if_neg (by simp [fails])]
  cases rest.findIdx? test with
  | none => rfl
  | some offset =>
    show found (done.length + (offset + 1)) = found (done.length + 1 + offset)
    rw [Nat.add_assoc, Nat.add_comm offset 1]

end

/-! ### Loops -/

namespace Loop

variable {loop : Loop ρ} {bytes next : List UInt8} {index position : Nat}

/-- What a loop comes to behind a turn. -/
def after (loop : Loop ρ) : Turn ρ → Option ρ
  | .ends result => some result
  | .goesOn bytes index => loop.run bytes index

theorem run_eq (loop : Loop ρ) (bytes : List UInt8) (index : Nat) :
    loop.run bytes index = (loop.turn bytes index).bind loop.after := by
  rw [run]
  split
  · rename_i turned
    rw [turned]
    rfl
  · rename_i turned
    rw [turned]
    rfl
  · rename_i turned
    rw [turned]
    rfl

theorem run_goesOn (turned : loop.turn bytes index = some (.goesOn next position)) :
    loop.run bytes index = loop.run next position := by
  rw [run_eq, turned]
  rfl

theorem run_ends {result : ρ} (turned : loop.turn bytes index = some (.ends result)) :
    loop.run bytes index = some result := by
  rw [run_eq, turned]
  rfl

theorem run_congr (same : loop.turn bytes index = loop.turn next position) :
    loop.run bytes index = loop.run next position := by
  rw [run_eq, same, ← run_eq]

/-- What a loop comes to that stands between some bytes and others. -/
def resume (loop : Loop ρ) (done rest : List UInt8) : Option ρ :=
  loop.run (done ++ rest) done.length

/-- A turn of the loop does the same behind a byte as before it. -/
def PassesOver (loop : Loop ρ) (byte : UInt8) : Prop :=
  ∀ done rest, loop.turn (done ++ byte :: rest) done.length =
    loop.turn (done ++ byte :: rest) (done.length + 1)

theorem resume_append (passes : ∀ byte ∈ front, loop.PassesOver byte) :
    loop.resume done (front ++ rest) = loop.resume (done ++ front) rest := by
  induction front generalizing done with
  | nil => rw [List.append_nil, List.nil_append]
  | cons first front inductionHypothesis =>
    obtain ⟨here, others⟩ := List.forall_mem_cons.mp passes
    have passed : loop.resume done (first :: (front ++ rest)) =
        loop.resume (done ++ [first]) (front ++ rest) := by
      rw [resume, run_congr (here done (front ++ rest)), resume, List.append_assoc,
        List.singleton_append, List.length_append, List.length_singleton]
    rw [List.cons_append, passed, inductionHypothesis others, List.append_assoc,
      List.singleton_append]

end Loop

/-! ### Strings -/

theorem passesOver_skipLoop (noQuote : byte ≠ quote) (noEscape : byte ≠ backslash) :
    skipLoop.PassesOver byte := by
  intro done rest
  show skipTurn _ _ = skipTurn _ _
  rw [skipTurn, search_miss (by simp [noQuote, noEscape]), skipTurn]

theorem skip_nil : skipLoop.resume done [] = some done.length := by
  have turned : skipLoop.turn (done ++ []) done.length = some (.ends (done ++ []).length) := by
    show skipTurn _ _ = _
    rw [skipTurn, search_nil]
  rw [Loop.resume, Loop.run_ends turned, List.append_nil]

theorem getElem?_length : (done ++ byte :: rest)[done.length]? = some byte := by
  rw [List.getElem?_append_right (Nat.le_refl _), Nat.sub_self]
  rfl

theorem skip_quote : skipLoop.resume done (quote :: rest) = some (done.length + 1) := by
  have turned : skipLoop.turn (done ++ quote :: rest) done.length =
      some (.ends (done.length + 1)) := by
    show skipTurn _ _ = _
    rw [skipTurn, search_hit (by rfl), getElem?_length]
    rfl
  exact Loop.run_ends turned

theorem skipTurn_backslash : skipTurn (done ++ backslash :: rest) done.length =
    some (.goesOn (done ++ backslash :: rest) (done.length + 2)) := by
  rw [skipTurn, search_hit (by rfl), getElem?_length]
  rfl

theorem skip_escape : skipLoop.resume done (backslash :: byte :: rest) =
    skipLoop.resume (done ++ [backslash, byte]) rest := by
  have turned : skipLoop.turn (done ++ backslash :: byte :: rest) done.length = _ :=
    skipTurn_backslash
  rw [Loop.resume, Loop.run_goesOn turned, Loop.resume]
  simp

/-- A backslash at the end of the text escapes nothing. -/
theorem skip_lastEscape : skipLoop.resume done [backslash] = some (done.length + 1) := by
  have turned : skipLoop.turn (done ++ [backslash]) done.length = _ := skipTurn_backslash
  have ends : skipLoop.turn (done ++ [backslash]) (done.length + 2) =
      some (.ends (done ++ [backslash]).length) := if_neg (by simp)
  rw [Loop.resume, Loop.run_goesOn turned, Loop.run_ends ends, List.length_append,
    List.length_singleton]

theorem ne_of_mem_utf8EncodeChar {mark : UInt8} {character : Char} (ascii : mark.toNat < 128)
    (other : character ≠ Char.ofNat mark.toNat) :
    ∀ byte ∈ String.utf8EncodeChar character, byte ≠ mark := by
  rintro byte member rfl
  exact other (Text.eq_of_mem_utf8EncodeChar member ascii)

theorem ne_of_large {mark : UInt8} (large : 128 ≤ byte.toNat) (ascii : mark.toNat < 128) :
    byte ≠ mark := by
  rintro rfl
  omega

/-- The inside of a string is passed over. Behind a backslash that is the first byte of a
character only, but the others are neither quotes nor backslashes. -/
theorem skip_quoted {body : List Char} (quoted : Quoted body) :
    skipLoop.resume done (Text.bytesOf body ++ rest) =
      skipLoop.resume (done ++ Text.bytesOf body) rest := by
  induction quoted generalizing done with
  | nothing => rw [Text.bytesOf_nil, List.append_nil, List.nil_append]
  | @other character body noQuote noEscape _ inductionHypothesis =>
    have passes : ∀ byte ∈ String.utf8EncodeChar character, skipLoop.PassesOver byte :=
      fun byte member => passesOver_skipLoop
        (ne_of_mem_utf8EncodeChar (by decide) noQuote byte member)
        (ne_of_mem_utf8EncodeChar (by decide) noEscape byte member)
    rw [Text.bytesOf_cons, List.append_assoc, Loop.resume_append passes, inductionHypothesis,
      List.append_assoc]
  | @escape character body _ inductionHypothesis =>
    obtain ⟨first, more, same, large⟩ := Text.exists_utf8EncodeChar_eq_cons character
    have bytes : Text.bytesOf ('\\' :: character :: body) =
        backslash :: first :: (more ++ Text.bytesOf body) := by
      rw [Text.bytesOf_cons, Text.bytesOf_cons, same]
      rfl
    have passes : ∀ byte ∈ more, skipLoop.PassesOver byte := fun byte member =>
      passesOver_skipLoop (ne_of_large (large byte member) (by decide))
        (ne_of_large (large byte member) (by decide))
    -- One byte is passed with the backslash; what is left of the character lies above ASCII.
    rw [bytes, List.cons_append, List.cons_append, skip_escape, List.append_assoc,
      Loop.resume_append passes, inductionHypothesis]
    simp

/-! ### Passes -/

namespace Pass

variable {pass : Pass ρ}

theorem passesOver_loop (noQuote : byte ≠ quote) (noMark : byte ≠ pass.mark) :
    pass.loop.PassesOver byte := by
  intro done rest
  show pass.turn _ _ = pass.turn _ _
  rw [turn, search_miss (by simp [noQuote, noMark]), turn]

theorem resume_nil : pass.loop.resume done [] = some (pass.result done) := by
  have turned : pass.loop.turn (done ++ []) done.length =
      some (.ends (pass.result (done ++ []))) := by
    show pass.turn _ _ = _
    rw [turn, search_nil]
  rw [Loop.resume, Loop.run_ends turned, List.append_nil]

/-- A character that is neither a quote nor a mark is passed over. -/
theorem resume_plain {character : Char} (ascii : pass.mark.toNat < 128) (noQuote : character ≠ '"')
    (noMark : character ≠ Char.ofNat pass.mark.toNat) :
    pass.loop.resume done (String.utf8EncodeChar character ++ rest) =
      pass.loop.resume (done ++ String.utf8EncodeChar character) rest := by
  exact Loop.resume_append fun byte member => passesOver_loop
    (ne_of_mem_utf8EncodeChar (by decide) noQuote byte member)
    (ne_of_mem_utf8EncodeChar ascii noMark byte member)

/-- A string is passed over if its end is found. -/
theorem resume_quote (skipped : skipLoop.resume (done ++ [quote]) (inside ++ rest) =
      some (done ++ quote :: inside).length) :
    pass.loop.resume done (quote :: (inside ++ rest)) =
      pass.loop.resume (done ++ quote :: inside) rest := by
  have found : skipString (done ++ quote :: (inside ++ rest)) done.length =
      some (done ++ quote :: inside).length := by
    rw [← skipped, Loop.resume, skipString]
    simp
  have turned : pass.loop.turn (done ++ quote :: (inside ++ rest)) done.length =
      some (.goesOn (done ++ quote :: (inside ++ rest)) (done ++ quote :: inside).length) := by
    show pass.turn _ _ = _
    rw [turn, search_hit (by rfl), getElem?_length]
    show (do return Turn.goesOn _ (← skipString _ _)) = _
    rw [found]
    rfl
  rw [Loop.resume, Loop.run_goesOn turned, Loop.resume, List.append_assoc, List.cons_append]

/-- A mark is acted on. -/
theorem turn_mark (other : pass.mark ≠ quote) :
    pass.loop.turn (done ++ pass.mark :: rest) done.length =
      pass.act (done ++ pass.mark :: rest) done.length := by
  show pass.turn _ _ = _
  rw [turn, search_hit (by simp), getElem?_length]
  exact if_neg other

/-- A string stays as it is, and the pass goes on behind it. -/
theorem resume_string {allowed : Bool} {part : Part} {text : List Char}
    (first : First allowed part text) (isString : part.region = .string)
    (ends : text = [] → rest = []) :
    pass.loop.resume done (Text.bytesOf part.characters ++ rest) =
      pass.loop.resume (done ++ Text.bytesOf part.characters) rest := by
  cases first with
  | plain => cases isString
  | lineComment => cases isString
  | blockComment => cases isString
  | @string body _ quoted =>
    have bytes : Text.bytesOf ('"' :: (body ++ ['"'])) =
        quote :: (Text.bytesOf body ++ [quote]) := by
      rw [Text.bytesOf_cons, Text.bytesOf_append]
      rfl
    rw [bytes]
    refine resume_quote ?_
    rw [List.append_assoc, skip_quoted quoted, List.singleton_append, skip_quote]
    simp [Nat.add_assoc]
  | @openString body _ quoted last =>
    obtain rfl := ends last
    have bytes : Text.bytesOf ('"' :: body) = quote :: Text.bytesOf body := Text.bytesOf_cons _ _
    rw [bytes]
    refine resume_quote ?_
    rw [skip_quoted quoted, skip_nil]
    simp
  | @openEscape body _ quoted last =>
    obtain rfl := ends last
    have bytes : Text.bytesOf ('"' :: (body ++ ['\\'])) =
        quote :: (Text.bytesOf body ++ [backslash]) := by
      rw [Text.bytesOf_cons, Text.bytesOf_append]
      rfl
    rw [bytes]
    refine resume_quote ?_
    rw [List.append_nil, skip_quoted quoted, skip_lastEscape]
    simp [Nat.add_assoc]

end Pass

/-! ### Changes -/

theorem change?_append (done middle rest : List UInt8) (change : UInt8 → UInt8) :
    change? (done ++ (middle ++ rest)) done.length (done ++ middle).length change =
      some (done ++ middle.map change ++ rest) := by
  have bounds : done.length ≤ (done ++ middle).length ∧
      (done ++ middle).length ≤ (done ++ middle ++ rest).length := by simp
  rw [← List.append_assoc, change?, if_pos bounds, List.take_left, List.drop_left,
    List.drop_left, List.append_assoc done middle rest, List.take_left]

/-- The bytes of a comment are overwritten, and the pass goes on behind it. -/
theorem Pass.resume_overwrite {pass : Pass ρ} {middle : List UInt8} {change : UInt8 → UInt8}
    (other : pass.mark ≠ quote)
    (acted : pass.act (done ++ pass.mark :: (middle ++ rest)) done.length =
      overwrite (done ++ pass.mark :: (middle ++ rest)) done.length
        (done ++ pass.mark :: middle).length change) :
    pass.loop.resume done (pass.mark :: (middle ++ rest)) =
      pass.loop.resume (done ++ (pass.mark :: middle).map change) rest := by
  have changed := change?_append done (pass.mark :: middle) rest change
  have turned : pass.loop.turn (done ++ pass.mark :: (middle ++ rest)) done.length =
      some (.goesOn (done ++ (pass.mark :: middle).map change ++ rest)
        (done ++ pass.mark :: middle).length) := by
    rw [Pass.turn_mark other, acted, overwrite, ← List.cons_append, changed]
    rfl
  rw [Loop.resume, Loop.run_goesOn turned, Loop.resume]
  simp

/-! ### Comments -/

theorem comments_turn : comments.loop.turn (done ++ slash :: rest) done.length =
    overwriteComment (done ++ slash :: rest) done.length :=
  Pass.turn_mark (by decide)

theorem getElem?_length_succ : (done ++ byte :: rest)[done.length + 1]? = rest.head? := by
  have behind : done.length + 1 - done.length = 1 := Nat.add_sub_cancel_left _ _
  rw [List.getElem?_append_right (Nat.le_add_right _ 1), behind, List.getElem?_cons_succ,
    List.head?_eq_getElem?]

theorem head?_bytesOf_ne {mark : UInt8} {text : List Char} (ascii : mark.toNat < 128)
    (absent : ∀ later, text ≠ Char.ofNat mark.toNat :: later) :
    (Text.bytesOf text).head? ≠ some mark := by
  intro same
  obtain ⟨rest, starts⟩ := List.head?_eq_some_iff.mp same
  obtain ⟨later, parts⟩ := Text.exists_of_bytesOf_eq_cons starts ascii
  exact absent later parts

/-- A slash that opens no comment stays. -/
theorem comments_slash {text : List Char} (noComment : ¬OpensComment ('/' :: text)) :
    comments.loop.resume done (slash :: Text.bytesOf text) =
      comments.loop.resume (done ++ [slash]) (Text.bytesOf text) := by
  have noLine : (Text.bytesOf text).head? ≠ some slash :=
    head?_bytesOf_ne (by decide) fun later same => noComment ⟨later, .inl (congrArg _ same)⟩
  have noBlock : (Text.bytesOf text).head? ≠ some star :=
    head?_bytesOf_ne (by decide) fun later same => noComment ⟨later, .inr (congrArg _ same)⟩
  have turned : comments.loop.turn (done ++ slash :: Text.bytesOf text) done.length =
      some (.goesOn (done ++ slash :: Text.bytesOf text) (done.length + 1)) := by
    rw [comments_turn, overwriteComment, getElem?_length_succ, if_neg noLine, if_neg noBlock]
    rfl
  rw [Loop.resume, Loop.run_goesOn turned, Loop.resume]
  simp

theorem from?_length : from? (done ++ rest) done.length = some rest := by
  rw [from?, if_pos (by simp), List.drop_left]

theorem lineEnd?_append {middle : List UInt8} (line : ∀ byte ∈ middle, byte ≠ Location.lineFeed)
    (ends : ∀ next ∈ rest.head?, next = Location.lineFeed) :
    lineEnd? (done ++ (middle ++ rest)) done.length = some (done ++ middle).length := by
  have inside : middle.findIdx? (· == Location.lineFeed) = none :=
    List.findIdx?_eq_none_iff.mpr fun byte member => by simpa using line byte member
  rw [lineEnd?, from?_length]
  refine congrArg some ?_
  rw [List.findIdx?_append, inside, Option.none_or]
  rcases rest with _ | ⟨next, rest⟩
  · simp
  · obtain rfl := ends next rfl
    have here : (Location.lineFeed :: rest).findIdx? (· == Location.lineFeed) = some 0 := rfl
    rw [here]
    simp

/-- A line comment goes on up to the line feed. -/
theorem overwriteComment_line {middle : List UInt8}
    (line : ∀ byte ∈ slash :: slash :: middle, byte ≠ Location.lineFeed)
    (ends : ∀ next ∈ rest.head?, next = Location.lineFeed) :
    overwriteComment (done ++ slash :: (slash :: middle ++ rest)) done.length =
      overwrite (done ++ slash :: (slash :: middle ++ rest)) done.length
        (done ++ slash :: slash :: middle).length blanked := by
  have opens : (slash :: middle ++ rest).head? = some slash := rfl
  have found : lineEnd? (done ++ slash :: (slash :: middle ++ rest)) done.length = _ :=
    lineEnd?_append line ends
  rw [overwriteComment, getElem?_length_succ, if_pos opens, found]
  rfl

theorem from?_add_two {first second : UInt8} :
    from? (done ++ first :: second :: rest) (done.length + 2) = some rest := by
  have parted : done ++ first :: second :: rest = (done ++ [first, second]) ++ rest := by simp
  have length : done.length + 2 = (done ++ [first, second]).length := by simp
  rw [parted, length, from?_length]

/-- A block comment goes on up to the mark that closes it. -/
theorem overwriteComment_block {offset : Nat} (closed : closing? rest = some offset) :
    overwriteComment (done ++ slash :: star :: rest) done.length =
      overwrite (done ++ slash :: star :: rest) done.length (done.length + 2 + offset + 2)
        blanked := by
  have noLine : (star :: rest).head? ≠ some slash := by simp; decide
  have opens : (star :: rest).head? = some star := rfl
  rw [overwriteComment, getElem?_length_succ, if_neg noLine, if_pos opens]
  simp only [from?_add_two, Option.bind_eq_bind, Option.bind_some, closed]

/-- If there is none, the location of its own mark is the answer. -/
theorem overwriteComment_unclosed (unclosed : closing? rest = none) :
    overwriteComment (done ++ slash :: star :: rest) done.length =
      some (.ends (.error (Location.next done))) := by
  have noLine : (star :: rest).head? ≠ some slash := by simp; decide
  have opens : (star :: rest).head? = some star := rfl
  have before : before? (done ++ slash :: star :: rest) done.length = some done := by
    rw [before?, if_pos (by simp), List.take_left]
  rw [overwriteComment, getElem?_length_succ, if_neg noLine, if_pos opens]
  simp only [from?_add_two, Option.bind_eq_bind, Option.bind_some, unclosed, before]
  rfl

/-- A comment is overwritten, and the pass goes on behind it. -/
theorem comments_comment {part : Part} {text : List Char} (first : First true part text)
    (isComment : part.region = .comment) :
    comments.loop.resume done (Text.bytesOf part.characters ++ Text.bytesOf text) =
      comments.loop.resume (done ++ (Text.bytesOf part.characters).map blanked)
        (Text.bytesOf text) := by
  cases first with
  | plain => cases isComment
  | string => cases isComment
  | openString => cases isComment
  | openEscape => cases isComment
  | @lineComment body _ allowed line ends =>
    refine Pass.resume_overwrite (by decide) (overwriteComment_line ?_ ?_)
    · refine List.forall_mem_cons.mpr ⟨by decide, List.forall_mem_cons.mpr ⟨by decide, ?_⟩⟩
      rintro byte member rfl
      exact line (Text.mem_of_mem_bytesOf member (by decide))
    · rcases text with _ | ⟨next, text⟩
      · nofun
      · obtain rfl := ends next rfl
        rintro next ⟨⟩
        rfl
  | @blockComment body _ allowed unclosed =>
    have closed := closing?_of_unclosed unclosed text
    have parted : Text.bytesOf (body ++ '*' :: '/' :: text) =
        Text.bytesOf (body ++ ['*', '/']) ++ Text.bytesOf text := by simp
    rw [parted] at closed
    refine Pass.resume_overwrite (by decide) ((overwriteComment_block closed).trans ?_)
    have mark : (Text.bytesOf ['*', '/']).length = 2 := rfl
    have stop : done.length + 2 + (Text.bytesOf body).length + 2 =
        (done ++ slash :: star :: Text.bytesOf (body ++ ['*', '/'])).length := by
      simp only [Text.bytesOf_append, List.length_append, List.length_cons, mark]
      omega
    rw [stop]
    rfl

/-- The pass goes on behind every part. -/
theorem comments_part {part : Part} {text : List Char} (first : First true part text) :
    comments.loop.resume done (Text.bytesOf part.characters ++ Text.bytesOf text) =
      comments.loop.resume (done ++ Text.bytesOf part.uncommented) (Text.bytesOf text) := by
  have nothing (same : text = []) : Text.bytesOf text = [] := congrArg Text.bytesOf same
  have comment (isComment : part.region = .comment) :
      Text.bytesOf part.uncommented = (Text.bytesOf part.characters).map blanked := by
    rw [Part.uncommented, isComment, bytesOf_flatMap_blanked]
  cases whole : first with
  | lineComment => exact (comments_comment first rfl).trans (by rw [← comment rfl])
  | blockComment => exact (comments_comment first rfl).trans (by rw [← comment rfl])
  | string => exact Pass.resume_string first rfl nothing
  | openString => exact Pass.resume_string first rfl nothing
  | openEscape => exact Pass.resume_string first rfl nothing
  | @plain character _ noQuote noComment =>
    show comments.loop.resume done (Text.bytesOf [character] ++ Text.bytesOf text) =
      comments.loop.resume (done ++ Text.bytesOf [character]) (Text.bytesOf text)
    by_cases marked : character = '/'
    · subst marked
      exact comments_slash (noComment rfl)
    · rw [Text.bytesOf_cons, Text.bytesOf_nil, List.append_nil]
      exact Pass.resume_plain (by decide) noQuote marked

theorem comments_parts {parts : List Part} {text : List Char} (divides : Divides true text parts) :
    comments.loop.resume done (Text.bytesOf (textOf parts ++ text)) =
      comments.loop.resume (done ++ Text.bytesOf (uncommented parts)) (Text.bytesOf text) := by
  induction divides generalizing done with
  | nothing => rw [uncommented_nil, Text.bytesOf_nil, List.append_nil, textOf_nil, List.nil_append]
  | cons first _ inductionHypothesis =>
    rw [textOf_cons, List.append_assoc, Text.bytesOf_append, comments_part first,
      inductionHypothesis, uncommented_cons, Text.bytesOf_append, List.append_assoc]

theorem run_comments {parts : List Part} (divides : Divides true [] parts) :
    comments.loop.run (Text.bytesOf (textOf parts)) 0 =
      some (.ok (Text.bytesOf (uncommented parts))) := by
  have whole : comments.loop.resume [] (Text.bytesOf (textOf parts ++ [])) = _ :=
    comments_parts divides
  rw [List.append_nil] at whole
  exact whole.trans Pass.resume_nil

/-! ### Locations -/

/-- A location depends only on where the line feeds are. -/
theorem next_congr {first second : List UInt8}
    (same : first.map (· == Location.lineFeed) = second.map (· == Location.lineFeed)) :
    Location.next first = Location.next second := by
  have line (bytes : List UInt8) : bytes.count Location.lineFeed =
      (bytes.map (· == Location.lineFeed)).count true := by
    rw [List.count, List.count, List.countP_map]
    congr 1
    funext byte
    simp
  have column (bytes : List UInt8) :
      (bytes.reverse.takeWhile (· != Location.lineFeed)).length =
        ((bytes.map (· == Location.lineFeed)).reverse.takeWhile (!·)).length := by
    rw [← List.map_reverse, List.takeWhile_map, List.length_map]
    rfl
  rw [Location.next, Location.next, Location.after, Location.after, line, line, column, column,
    same]

theorem map_beq_lineFeed_uncommented (parts : List Part) :
    (Text.bytesOf (uncommented parts)).map (· == Location.lineFeed) =
      (Text.bytesOf (textOf parts)).map (· == Location.lineFeed) := by
  have stays (byte : UInt8) :
      (blanked byte == Location.lineFeed) = (byte == Location.lineFeed) := by
    unfold blanked
    split
    · rfl
    · rename_i other
      rw [beq_eq_false_iff_ne.mpr (not_or.mp other).1]
      rfl
  induction parts with
  | nil => rfl
  | cons part parts inductionHypothesis =>
    rw [uncommented_cons, textOf_cons, Text.bytesOf_append, Text.bytesOf_append, List.map_append,
      List.map_append, inductionHypothesis]
    congr 1
    rcases part with ⟨_ | _ | _, characters⟩
    · rfl
    · rfl
    · rw [Part.uncommented, bytesOf_flatMap_blanked, List.map_map]
      exact List.map_congr_left fun byte _ => stays byte

/-- The location is that of the mark in the text as it was. -/
theorem run_comments_unclosed {parts : List Part} {text after : List Char}
    (unclosed : Unclosed text parts after) :
    comments.loop.run (Text.bytesOf text) 0 =
      some (.error (Location.next (Text.bytesOf (textOf parts)))) := by
  have before : comments.loop.resume [] (Text.bytesOf (textOf parts ++ '/' :: '*' :: after)) = _ :=
    comments_parts unclosed.divides
  have turned : comments.loop.turn
      (Text.bytesOf (uncommented parts) ++ slash :: star :: Text.bytesOf after)
      (Text.bytesOf (uncommented parts)).length = _ :=
    comments_turn.trans (overwriteComment_unclosed (closing?_eq_none unclosed.unclosed))
  rw [← unclosed.same] at before
  -- The loop looks at bytes of which some are overwritten already, but no line feed is.
  refine before.trans ((Loop.run_ends turned).trans ?_)
  rw [next_congr (map_beq_lineFeed_uncommented parts)]

/-! ### Trailing commas -/

theorem overwriteComma_eq (done text : List Char) :
    overwriteComma (Text.bytesOf done ++ comma :: Text.bytesOf text) (Text.bytesOf done).length =
      if closesNext text && followsValue (lastVisible done) then
        overwrite (Text.bytesOf done ++ comma :: Text.bytesOf text) (Text.bytesOf done).length
          ((Text.bytesOf done).length + 1) fun _ => space
      else some (.goesOn (Text.bytesOf done ++ comma :: Text.bytesOf text)
        ((Text.bytesOf done).length + 1)) := by
  have before : before? (Text.bytesOf done ++ comma :: Text.bytesOf text)
      (Text.bytesOf done).length = some (Text.bytesOf done) := by
    rw [before?, if_pos (by simp), List.take_left]
  have behind : from? (Text.bytesOf done ++ comma :: Text.bytesOf text)
      ((Text.bytesOf done).length + 1) = some (Text.bytesOf text) := by
    have length : (Text.bytesOf done).length + 1 = (Text.bytesOf done ++ [comma]).length := by simp
    rw [List.append_cons, length, from?_length]
  rw [overwriteComma, before]
  simp only [Option.bind_eq_bind, Option.bind_some, next?, behind, any_closes_find?,
    any_endsValue_last?]
  rfl

theorem commaPass_trailingCommas : CommaPass fun done rest =>
    trailingCommas.loop.resume (Text.bytesOf done) (Text.bytesOf rest) where
  plain {done rest character} noQuote noComma := by
    rw [Text.bytesOf_append, Text.bytesOf_cons, Text.bytesOf_cons, Text.bytesOf_nil,
      List.append_nil]
    exact Pass.resume_plain (by decide) noQuote noComma
  comma {done rest} := by
    have acted := overwriteComma_eq done rest
    rw [Text.bytesOf_append]
    split at acted
    · rename_i trails
      rw [if_pos trails]
      have passed : trailingCommas.loop.resume (Text.bytesOf done)
          (comma :: ([] ++ Text.bytesOf rest)) = trailingCommas.loop.resume
            (Text.bytesOf done ++ [comma].map fun _ => space) (Text.bytesOf rest) :=
        Pass.resume_overwrite (by decide) (by rw [List.length_append]; exact acted)
      exact passed
    · rename_i stays
      rw [if_neg stays]
      have turned : trailingCommas.loop.turn (Text.bytesOf done ++ comma :: Text.bytesOf rest)
          (Text.bytesOf done).length = _ := (Pass.turn_mark (by decide)).trans acted
      have length : (Text.bytesOf done).length + 1 =
          (Text.bytesOf done ++ Text.bytesOf [',']).length := by rw [List.length_append]; rfl
      refine (Loop.run_goesOn turned).trans ?_
      rw [length, List.append_cons]
      rfl
  string {comments part text done rest} first isString ends := by
    rw [Text.bytesOf_append, Text.bytesOf_append]
    exact Pass.resume_string first isString fun nothing => congrArg Text.bytesOf (ends nothing)

theorem run_trailingCommas {allowed : Bool} {parts : List Part}
    (divides : Divides allowed [] parts) :
    trailingCommas.loop.run (Text.bytesOf (uncommented parts)) 0 =
      some (Text.bytesOf (overwritten true [] parts)) :=
  (commaPass_trailingCommas.run_whole divides).trans Pass.resume_nil

/-! ### Whole texts -/

theorem relaxComments_textOf {options : ParseOptions} {parts : List Part}
    (divides : Divides options.comments [] parts) :
    relaxComments options (Text.bytesOf (textOf parts)) =
      some (.ok (Text.bytesOf (uncommented parts))) := by
  unfold relaxComments
  split
  · rename_i allowed
    rw [allowed] at divides
    exact run_comments divides
  · rename_i refused
    rw [Bool.not_eq_true] at refused
    rw [refused] at divides
    rw [uncommented_eq_textOf divides]

theorem relaxCommas_uncommented {options : ParseOptions} {parts : List Part}
    (divides : Divides options.comments [] parts) :
    relaxCommas options (Text.bytesOf (uncommented parts)) =
      some (Text.bytesOf (overwritten options.trailingCommas [] parts)) := by
  unfold relaxCommas
  cases options.trailingCommas with
  | false => rw [if_neg Bool.false_ne_true, overwritten_false]
  | true => rw [if_pos rfl, run_trailingCommas divides]

/-- The bytes of what is left of a text are what is left of its bytes. -/
theorem relax_textOf {options : ParseOptions} {parts : List Part}
    (divides : Divides options.comments [] parts) :
    relax options (Text.bytesOf (textOf parts)) =
      some (.ok (Text.bytesOf (overwritten options.trailingCommas [] parts))) := by
  simp only [relax, relaxComments_textOf divides, relaxCommas_uncommented divides,
    Option.bind_eq_bind, Option.bind_some]
  rfl

theorem relax_unclosed {options : ParseOptions} {parts : List Part} {text after : List Char}
    (allowed : options.comments = true) (unclosed : Unclosed text parts after) :
    relax options (Text.bytesOf text) =
      some (.error (Location.next (Text.bytesOf (textOf parts)))) := by
  have ran : relaxComments options (Text.bytesOf text) = _ :=
    (if_pos allowed).trans (run_comments_unclosed unclosed)
  rw [relax, ran]
  rfl

end JsonOverlay.Reader.InPlace
