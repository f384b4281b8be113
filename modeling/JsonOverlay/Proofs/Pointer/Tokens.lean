/-
This file reads texts as tokens and tokens as texts. A text is made of slashes, of characters as
they are escaped, and of tildes that escape nothing; it is read as tokens unless there is such a
tilde, and the text that is read as given tokens is what is written for them.
-/

import JsonOverlay.Pointer

namespace JsonOverlay.Pointer

variable {text rest : List Char} {tokens : List (List Char)} {other : Char}

/-! ### The parts of a text -/

/-- A text that follows a tilde without making it an escape. -/
def Strays (rest : List Char) : Prop := rest.head? ≠ some '0' ∧ rest.head? ≠ some '1'

/-- A text has a tilde that escapes nothing. -/
def HasStrayTilde (text : List Char) : Prop :=
  ∃ before after, text = before ++ '~' :: after ∧ Strays after

theorem hasStrayTilde_cons :
    HasStrayTilde (other :: rest) ↔ (other = '~' ∧ Strays rest) ∨ HasStrayTilde rest := by
  constructor
  · rintro ⟨_ | ⟨first, before⟩, after, same, strays⟩
    · cases same
      exact .inl ⟨rfl, strays⟩
    · cases same
      exact .inr ⟨before, after, rfl, strays⟩
  · rintro (⟨rfl, strays⟩ | ⟨before, after, rfl, strays⟩)
    · exact ⟨[], rest, rfl, strays⟩
    · exact ⟨other :: before, after, rfl, strays⟩

theorem escape_plain (noTilde : other ≠ '~') (noSlash : other ≠ '/') : escape other = [other] := by
  rw [escape, if_neg noTilde, if_neg noSlash]

/-- A text is made of slashes, of characters as they are escaped, and of stray tildes. -/
theorem induction_text {motive : List Char → Prop} (nil : motive [])
    (slash : ∀ rest, motive rest → motive ('/' :: rest))
    (character : ∀ other rest, motive rest → motive (escape other ++ rest))
    (stray : ∀ rest, Strays rest → motive ('~' :: rest)) (text : List Char) : motive text := by
  induction text using unescape.induct with
  | case1 => exact nil
  | case2 rest inductionHypothesis => exact character '~' rest inductionHypothesis
  | case3 rest inductionHypothesis => exact character '/' rest inductionHypothesis
  | case4 rest noZero noOne =>
    refine stray rest ⟨fun zero => ?_, fun one => ?_⟩
    · obtain ⟨last, rfl⟩ := List.head?_eq_some_iff.mp zero
      exact noZero last rfl
    · obtain ⟨last, rfl⟩ := List.head?_eq_some_iff.mp one
      exact noOne last rfl
  | case5 other rest _ _ noTilde inductionHypothesis =>
    by_cases atSlash : other = '/'
    · rw [atSlash]
      exact slash rest inductionHypothesis
    · have whole := character other rest inductionHypothesis
      rwa [escape_plain noTilde atSlash] at whole

theorem hasStrayTilde_escape : HasStrayTilde (escape other ++ rest) ↔ HasStrayTilde rest := by
  by_cases tilde : other = '~'
  · subst tilde
    simp [escape, hasStrayTilde_cons, Strays]
  · by_cases slash : other = '/'
    · subst slash
      simp [escape, hasStrayTilde_cons, Strays]
    · rw [escape_plain tilde slash, List.singleton_append, hasStrayTilde_cons,
        or_iff_right (tilde ·.1)]

/-! ### Tokens -/

/-- The tokens that stand between the slashes of a text. -/
def tokens? (text : List Char) : Option (List (List Char)) := (splitSlashes text).mapM unescape

/-- Tokens as they are written, each behind a slash. -/
def written (tokens : List (List Char)) : List Char :=
  tokens.flatMap fun token => '/' :: token.flatMap escape

theorem splitSlashes_cons (plain : other ≠ '/') (rest : List Char) :
    splitSlashes (other :: rest) = (splitSlashes rest).modifyHead (other :: ·) := by
  have nonempty : splitSlashes rest ≠ [] := by
    fun_cases splitSlashes rest <;> simp
  rw [splitSlashes]
  · cases parts : splitSlashes rest with
    | nil => exact absurd parts nonempty
    | cons part parts => rfl
  · exact plain

theorem mapM_modifyHead {α β : Type} {read : α → Option β} {before : α → α} {after : β → β}
    (same : ∀ part, read (before part) = (read part).map after) (parts : List α) :
    (parts.modifyHead before).mapM read = (parts.mapM read).map (List.modifyHead after) := by
  cases parts with
  | nil => rfl
  | cons part parts =>
    rw [List.modifyHead_cons, List.mapM_cons, List.mapM_cons, same]
    cases read part with
    | none => rfl
    | some found => cases parts.mapM read <;> rfl

theorem unescape_escape_append (other : Char) (rest : List Char) :
    unescape (escape other ++ rest) = (unescape rest).map (other :: ·) := by
  by_cases tilde : other = '~'
  · subst tilde
    rfl
  · by_cases slash : other = '/'
    · subst slash
      rfl
    · rw [escape_plain tilde slash, List.singleton_append, unescape]
      · exact fun _ same => absurd same tilde
      · exact fun _ same => absurd same tilde
      · exact tilde

theorem escape_ne_nil (other : Char) : escape other ≠ [] := by
  unfold escape
  split
  · nofun
  · split <;> nofun

theorem slash_notMem_escape (other : Char) : '/' ∉ escape other := by
  unfold escape
  split
  · decide
  · split
    · decide
    · rename_i noSlash
      exact fun member => noSlash (List.mem_singleton.mp member).symm

theorem splitSlashes_append {front : List Char} (plain : '/' ∉ front) (rest : List Char) :
    splitSlashes (front ++ rest) = (splitSlashes rest).modifyHead (front ++ ·) := by
  induction front with
  | nil => exact (congrFun List.modifyHead_id _).symm
  | cons other front inductionHypothesis =>
    rw [List.mem_cons, not_or] at plain
    rw [List.cons_append, splitSlashes_cons (Ne.symm plain.1), inductionHypothesis plain.2,
      List.modifyHead_modifyHead]
    rfl

theorem tokens?_slash (rest : List Char) : tokens? ('/' :: rest) = (tokens? rest).map ([] :: ·) := by
  rw [tokens?, splitSlashes, List.mapM_cons, unescape, tokens?]
  cases (splitSlashes rest).mapM unescape <;> rfl

/-- An escaped character belongs to the first token. -/
theorem tokens?_escape (other : Char) (rest : List Char) :
    tokens? (escape other ++ rest) = (tokens? rest).map (List.modifyHead (other :: ·)) := by
  rw [tokens?, splitSlashes_append (slash_notMem_escape other),
    mapM_modifyHead (unescape_escape_append other), tokens?]

theorem tokens?_stray (strays : Strays rest) : tokens? ('~' :: rest) = none := by
  have refused (part : List Char) (strays : Strays part) : unescape ('~' :: part) = none := by
    rw [unescape]
    · rintro last rfl
      exact strays.1 rfl
    · rintro last rfl
      exact strays.2 rfl
  rw [tokens?, splitSlashes_cons (by decide)]
  -- The first part ends where the text ends or at a slash, and neither makes an escape.
  obtain ⟨part, parts, same, strays⟩ :
      ∃ part parts, splitSlashes rest = part :: parts ∧ Strays part := by
    fun_cases splitSlashes rest with
    | case1 => exact ⟨_, _, rfl, nofun, nofun⟩
    | case2 rest => exact ⟨_, _, rfl, nofun, nofun⟩
    | case3 other rest noSlash absent => exact ⟨_, _, rfl, strays.1, strays.2⟩
    | case4 other rest noSlash part parts present => exact ⟨_, _, rfl, strays.1, strays.2⟩
  rw [same, List.modifyHead_cons, List.mapM_cons, refused part strays]
  rfl

theorem written_cons (token : List Char) (tokens : List (List Char)) :
    written (token :: tokens) = '/' :: (token.flatMap escape ++ written tokens) := by
  simp [written]

/-- What is written for a token belongs to the first token. -/
theorem tokens?_flatMap_escape (token rest : List Char) :
    tokens? (token.flatMap escape ++ rest) = (tokens? rest).map (List.modifyHead (token ++ ·)) := by
  induction token with
  | nil =>
    show tokens? rest = (tokens? rest).map (List.modifyHead id)
    rw [List.modifyHead_id, Option.map_id, id]
  | cons other token inductionHypothesis =>
    rw [List.flatMap_cons, List.append_assoc, tokens?_escape, inductionHypothesis, Option.map_map]
    refine congrArg (Option.map · (tokens? rest)) (funext fun tokens => ?_)
    exact List.modifyHead_modifyHead

/-- What is written for tokens is read as these tokens. -/
theorem tokens?_written (token : List Char) (tokens : List (List Char)) :
    tokens? (token.flatMap escape ++ written tokens) = some (token :: tokens) := by
  induction tokens generalizing token with
  | nil =>
    rw [tokens?_flatMap_escape]
    exact congrArg (fun token => some [token]) (List.append_nil token)
  | cons next tokens inductionHypothesis =>
    rw [tokens?_flatMap_escape, written_cons, tokens?_slash, inductionHypothesis]
    exact congrArg (fun token => some (token :: next :: tokens)) (List.append_nil token)

/-- A text that is read as tokens is what is written for them, but for the first slash. -/
theorem written_of_tokens? (read : tokens? text = some tokens) :
    tokens ≠ [] ∧ written tokens = '/' :: text := by
  induction text using induction_text generalizing tokens with
  | nil =>
    cases read
    exact ⟨List.cons_ne_nil _ _, rfl⟩
  | slash rest inductionHypothesis =>
    rw [tokens?_slash] at read
    obtain ⟨after, found, rfl⟩ := Option.map_eq_some_iff.mp read
    refine ⟨List.cons_ne_nil _ _, ?_⟩
    rw [written_cons, List.flatMap_nil, List.nil_append, (inductionHypothesis found).2]
  | character other rest inductionHypothesis =>
    rw [tokens?_escape] at read
    obtain ⟨after, found, rfl⟩ := Option.map_eq_some_iff.mp read
    obtain ⟨nonempty, same⟩ := inductionHypothesis found
    cases after with
    | nil => exact absurd rfl nonempty
    | cons token after =>
      rw [written_cons, List.cons.injEq] at same
      refine ⟨List.cons_ne_nil _ _, ?_⟩
      rw [List.modifyHead_cons, written_cons, List.flatMap_cons, List.append_assoc, same.2]
  | stray rest strays =>
    rw [tokens?_stray strays] at read
    cases read

/-- Only a stray tilde keeps a text from being read. -/
theorem tokens?_eq_none_iff : tokens? text = none ↔ HasStrayTilde text := by
  induction text using induction_text with
  | nil =>
    refine iff_of_false nofun ?_
    rintro ⟨before, after, same, -⟩
    cases before <;> cases same
  | slash rest inductionHypothesis =>
    rw [tokens?_slash, Option.map_eq_none_iff, inductionHypothesis, hasStrayTilde_cons,
      or_iff_right fun tilde => absurd tilde.1 (by decide)]
  | character other rest inductionHypothesis =>
    rw [tokens?_escape, Option.map_eq_none_iff, inductionHypothesis, hasStrayTilde_escape]
  | stray rest strays => exact iff_of_true (tokens?_stray strays) ⟨[], rest, rfl, strays⟩

theorem tokens?_eq_some_iff :
    tokens? text = some tokens ↔ tokens ≠ [] ∧ written tokens = '/' :: text := by
  refine ⟨written_of_tokens?, fun ⟨nonempty, same⟩ => ?_⟩
  cases tokens with
  | nil => exact absurd rfl nonempty
  | cons token tokens =>
    rw [written_cons, List.cons.injEq] at same
    rw [← same.2, tokens?_written]

theorem written_concat (tokens : List (List Char)) (token : List Char) :
    written (tokens ++ [token]) = written tokens ++ '/' :: token.flatMap escape := by
  simp [written]

/-- What is written for tokens ends in a slash if the last of them is empty, and only then. -/
theorem getLast?_written_concat (tokens : List (List Char)) (token : List Char) :
    (written (tokens ++ [token])).getLast? = some '/' ↔ token = [] := by
  rw [written_concat]
  constructor
  · intro ends
    rw [List.getLast?_append, List.getLast?_cons, Option.some_or, Option.some.injEq] at ends
    cases final : (token.flatMap escape).getLast? with
    | none =>
      have nothing := List.flatMap_eq_nil_iff.mp (List.getLast?_eq_none_iff.mp final)
      exact List.eq_nil_iff_forall_not_mem.mpr fun other member =>
        escape_ne_nil other (nothing other member)
    | some last =>
      rw [final, Option.getD_some] at ends
      obtain ⟨other, -, member⟩ := List.mem_flatMap.mp (List.mem_of_getLast? final)
      rw [ends] at member
      exact absurd member (slash_notMem_escape other)
  · rintro rfl
    exact List.getLast?_concat

end JsonOverlay.Pointer
