/-
This file shows which paths are pointers, and to which. Every list of tokens has a path, as a slash
at the end of a path adds nothing. For the same reason a pointer whose last token is empty has a
text that is not its own: it is read as the pointer above.
-/

import JsonOverlay.Proofs.Pointer.Tokens

namespace JsonOverlay.Pointer

variable {text rest : List Char} {path : String} {pointer : Pointer}

/-! ### The slash at the end -/

theorem dropFinalSlash_concat (front : List Char) : dropFinalSlash (front ++ ['/']) = front := by
  rw [dropFinalSlash, List.getLast?_concat, if_pos rfl, List.dropLast_concat]

theorem dropFinalSlash_of_ne (plain : text.getLast? ≠ some '/') : dropFinalSlash text = text :=
  if_neg plain

theorem dropFinalSlash_prefix (text : List Char) : dropFinalSlash text <+: text := by
  unfold dropFinalSlash
  split
  · exact List.dropLast_prefix text
  · exact List.prefix_rfl

theorem dropFinalSlash_cons (nonempty : rest ≠ []) (other : Char) :
    dropFinalSlash (other :: rest) = other :: dropFinalSlash rest := by
  rw [dropFinalSlash, dropFinalSlash, List.getLast?_cons, List.dropLast_cons_of_ne_nil nonempty,
    List.getLast?_eq_some_getLast nonempty, Option.getD_some]
  split <;> rfl

/-- The text of the tokens of a pointer. -/
theorem toList_text {pointer : Pointer} (nonempty : pointer.tokens ≠ []) :
    pointer.text.toList = written (pointer.tokens.map String.toList) := by
  rw [Pointer.text, if_neg (by simpa using nonempty), String.toList_ofList, written, List.flatMap_map]

/-- Without the slash at its end a text still ends in one if there were two. -/
theorem getLast?_dropFinalSlash :
    (dropFinalSlash text).getLast? = some '/' ↔ ['/', '/'] <:+ text := by
  constructor
  · intro ends
    by_cases slash : text.getLast? = some '/'
    · obtain ⟨front, rfl⟩ := List.getLast?_eq_some_iff.mp slash
      rw [dropFinalSlash_concat] at ends
      obtain ⟨front, rfl⟩ := List.getLast?_eq_some_iff.mp ends
      exact ⟨front, (List.append_assoc front ['/'] ['/']).symm⟩
    · rw [dropFinalSlash_of_ne slash] at ends
      exact absurd ends slash
  · rintro ⟨front, rfl⟩
    have apart : front ++ ['/', '/'] = (front ++ ['/']) ++ ['/'] :=
      (List.append_assoc front ['/'] ['/']).symm
    rw [apart, dropFinalSlash_concat, List.getLast?_concat]

theorem head?_toList_text (pointer : Pointer) : pointer.text.toList.head? = some '/' := by
  obtain ⟨_ | ⟨token, tokens⟩⟩ := pointer
  · rfl
  · rw [toList_text (List.cons_ne_nil _ _), List.map_cons, written_cons, List.head?_cons]

/-! ### Paths -/

/-- A path with a first slash and something behind it is read token by token. -/
theorem parse_slash (same : path.toList = '/' :: rest) (nonempty : rest ≠ []) :
    parse path = (tokens? (dropFinalSlash rest)).elim (.error (.pointerEscape path))
      fun tokens => .ok ⟨tokens.map String.ofList⟩ := by
  rw [parse, same]
  split
  · rename_i nothing
    cases nothing
  · rename_i alone
    cases alone
    exact absurd rfl nonempty
  · rename_i same
    cases same
    rw [tokens?]
    split
    · rename_i found
      rw [found, Option.elim_some]
    · rename_i absent
      rw [absent, Option.elim_none]
  · rename_i other
    exact absurd rfl (other rest)

theorem parse_relative (nonempty : path ≠ "") (relative : path.toList.head? ≠ some '/') :
    parse path = .error (.relativePointer path) := by
  rw [parse]
  split
  · rename_i nothing
    exact absurd (String.toList_inj.mp nothing) nonempty
  · rename_i alone
    exact absurd (congrArg List.head? alone) relative
  · rename_i same
    exact absurd (congrArg List.head? same) relative
  · rfl

theorem parse_slash_eq_ok_iff (same : path.toList = '/' :: rest) (nonempty : rest ≠ []) :
    parse path = .ok pointer ↔
      tokens? (dropFinalSlash rest) = some (pointer.tokens.map String.toList) := by
  rw [parse_slash same nonempty]
  cases tokens? (dropFinalSlash rest) with
  | none => exact iff_of_false nofun nofun
  | some tokens =>
    rw [Option.elim_some, Except.ok.injEq, Option.some.injEq]
    constructor
    · rintro rfl
      simp [Function.comp_def]
    · rintro rfl
      simp [Function.comp_def]

/-- What a path is read as: the pointer whose text it is, but for a slash at its end. -/
theorem parse_eq_ok_iff : parse path = .ok pointer ↔
    if path = "" ∨ path = "/" then pointer = root
    else pointer.tokens ≠ [] ∧ pointer.text.toList = dropFinalSlash path.toList := by
  split
  · rename_i short
    have read : parse path = .ok root := by
      rcases short with rfl | rfl <;> rfl
    rw [read, Except.ok.injEq, eq_comm]
  · rename_i long
    rw [not_or] at long
    by_cases slash : path.toList.head? = some '/'
    · obtain ⟨rest, same⟩ := List.head?_eq_some_iff.mp slash
      have behind : rest ≠ [] := by
        rintro rfl
        exact long.2 (String.toList_inj.mp same)
      rw [parse_slash_eq_ok_iff same behind, tokens?_eq_some_iff, same, dropFinalSlash_cons behind,
        ne_eq, List.map_eq_nil_iff]
      exact and_congr_right fun nonempty => by rw [toList_text nonempty]
    · rw [parse_relative long.1 slash]
      refine iff_of_false nofun fun ⟨nonempty, text⟩ => slash ?_
      obtain ⟨after, same⟩ := dropFinalSlash_prefix path.toList
      obtain ⟨more, starts⟩ := List.head?_eq_some_iff.mp (head?_toList_text pointer)
      rw [← same, ← text, starts]
      rfl

theorem hasStrayTilde_dropFinalSlash : HasStrayTilde (dropFinalSlash text) ↔ HasStrayTilde text := by
  unfold dropFinalSlash
  split
  · rename_i ends
    obtain ⟨front, rfl⟩ := List.getLast?_eq_some_iff.mp ends
    rw [List.dropLast_concat]
    clear ends
    induction front with
    | nil =>
      exact (hasStrayTilde_cons.trans (or_iff_right fun tilde => absurd tilde.1 (by decide))).symm
    | cons other front inductionHypothesis =>
      have strays : Strays (front ++ ['/']) ↔ Strays front := by
        cases front <;> simp [Strays]
      rw [List.cons_append, hasStrayTilde_cons, hasStrayTilde_cons, strays, inductionHypothesis]
  · exact Iff.rfl

/-- Which paths are refused, and why. -/
theorem parse_eq_error_iff {error : Error} : parse path = .error error ↔
    (path ≠ "" ∧ path.toList.head? ≠ some '/' ∧ error = .relativePointer path) ∨
    (path.toList.head? = some '/' ∧ HasStrayTilde path.toList ∧ error = .pointerEscape path) := by
  by_cases slash : path.toList.head? = some '/'
  · obtain ⟨rest, same⟩ := List.head?_eq_some_iff.mp slash
    have tilde : HasStrayTilde path.toList ↔ HasStrayTilde (dropFinalSlash rest) := by
      rw [same, hasStrayTilde_cons, hasStrayTilde_dropFinalSlash]
      exact or_iff_right fun tilde => absurd tilde.1 (by decide)
    rw [or_iff_right fun relative => relative.2.1 slash, and_iff_right slash, tilde,
      ← tokens?_eq_none_iff]
    cases rest with
    | nil =>
      obtain rfl : path = "/" := String.toList_inj.mp same
      exact iff_of_false nofun fun refused => nomatch refused.1
    | cons first rest =>
      rw [parse_slash same (List.cons_ne_nil _ _)]
      cases tokens? (dropFinalSlash (first :: rest)) with
      | none => simp [eq_comm]
      | some tokens => simp
  · rw [or_iff_left fun absolute => slash absolute.1, and_iff_right slash]
    by_cases nothing : path = ""
    · subst nothing
      exact iff_of_false nofun fun refused => refused.1 rfl
    · rw [parse_relative nothing slash, Except.error.injEq, and_iff_right nothing, eq_comm]

/-! ### Texts of pointers -/

/-- Puts something else in the place of a character wherever it stands. -/
def replaced (old : Char) (new text : List Char) : List Char :=
  text.flatMap fun character => if character = old then new else [character]

/-- Escaping is replacing the tildes, and the slashes after them. -/
theorem flatMap_escape (token : List Char) :
    token.flatMap escape = replaced '/' ['~', '1'] (replaced '~' ['~', '0'] token) := by
  rw [replaced, replaced, List.flatMap_assoc]
  refine congrArg (List.flatMap · token) (funext fun character => ?_)
  unfold escape
  split
  · decide
  · rw [List.flatMap_singleton]

/-- The text of a pointer with one more slash behind it is read as the pointer. -/
theorem parse_text_slash (nonempty : pointer.tokens ≠ []) :
    parse (pointer.text ++ "/") = .ok pointer := by
  obtain ⟨more, starts⟩ := List.head?_eq_some_iff.mp (head?_toList_text pointer)
  have behind : (pointer.text ++ "/").toList = ('/' :: more) ++ ['/'] := by
    rw [String.toList_append, starts]
    rfl
  have long : ¬ (pointer.text ++ "/" = "" ∨ pointer.text ++ "/" = "/") := by
    rw [← String.toList_inj, ← String.toList_inj, behind]
    simp
  rw [parse_eq_ok_iff, if_neg long]
  refine ⟨nonempty, ?_⟩
  rw [behind, dropFinalSlash_concat, starts]

/-- Tokens are written as the text of their pointer, and this text with one more slash behind it
is read as just these tokens. The paths that are refused are those that say something without a
slash in front, and those with a tilde in front of anything but a zero or a one. -/
theorem parse_exact :
    (∀ tokens : List String, tokens ≠ [] →
      (Pointer.text ⟨tokens⟩).toList = tokens.flatMap (fun token =>
        '/' :: replaced '/' ['~', '1'] (replaced '~' ['~', '0'] token.toList)) ∧
      parse (Pointer.text ⟨tokens⟩ ++ "/") = .ok ⟨tokens⟩) ∧
    ∀ path, ((∃ error, parse path = .error error) ↔
        (path ≠ "" ∧ path.toList.head? ≠ some '/') ∨ HasStrayTilde path.toList) ∧
      ∀ error, parse path = .error error → error =
        if path.toList.head? = some '/' then .pointerEscape path else .relativePointer path := by
  refine ⟨fun tokens nonempty => ?_, fun path => ⟨?_, fun error refused => ?_⟩⟩
  · have text : (Pointer.text ⟨tokens⟩).toList = written (tokens.map String.toList) :=
      toList_text nonempty
    refine ⟨?_, parse_text_slash nonempty⟩
    simp only [text, written, List.flatMap_map, flatMap_escape]
  · constructor
    · rintro ⟨error, refused⟩
      rcases parse_eq_error_iff.mp refused with ⟨nonempty, relative, -⟩ | ⟨-, tilde, -⟩
      · exact .inl ⟨nonempty, relative⟩
      · exact .inr tilde
    · intro malformed
      by_cases slash : path.toList.head? = some '/'
      · have tilde := malformed.resolve_left fun relative => relative.2 slash
        exact ⟨_, parse_eq_error_iff.mpr (.inr ⟨slash, tilde, rfl⟩)⟩
      · have nonempty : path ≠ "" := by
          rintro rfl
          rcases malformed with ⟨nonempty, -⟩ | ⟨before, after, same, -⟩
          · exact nonempty rfl
          · cases before <;> cases same
        exact ⟨_, parse_eq_error_iff.mpr (.inl ⟨nonempty, slash, rfl⟩)⟩
  · rcases parse_eq_error_iff.mp refused with ⟨-, relative, same⟩ | ⟨slash, -, same⟩
    · rw [same, if_neg relative]
    · rw [same, if_pos slash]

/-- An escape in one token and an empty token behind it. -/
theorem parse_exact_emptyToken :
    ["~/", ""] ≠ [] ∧ (Pointer.text ⟨["~/", ""]⟩).toList = "/~0~1/".toList ∧
      parse "/~0~1//" = .ok ⟨["~/", ""]⟩ ∧ ∃ error, parse "/~0~1//~" = .error error := by
  obtain ⟨written, refused⟩ := parse_exact
  obtain ⟨text, read⟩ := written ["~/", ""] (by decide)
  refine ⟨by decide, text.trans rfl, read, (refused _).1.mpr (.inr ?_)⟩
  exact ⟨"/~0~1//".toList, [], rfl, by decide, by decide⟩

/-- The text of a pointer whose last token is empty is read as the pointer above. -/
theorem parse_text_empty (front : List String) :
    parse (Pointer.text ⟨front ++ [""]⟩) = .ok ⟨front⟩ := by
  cases front with
  | nil => rfl
  | cons first rest =>
    have nonempty : (⟨first :: rest⟩ : Pointer).tokens ≠ [] := List.cons_ne_nil _ _
    rw [← parse_text_slash nonempty]
    refine congrArg parse (String.toList_inj.mp ?_)
    have whole : (⟨first :: rest ++ [""]⟩ : Pointer).tokens ≠ [] := List.cons_ne_nil _ _
    rw [String.toList_append, toList_text nonempty, toList_text whole, List.map_append,
      List.map_singleton, written_concat]
    rfl

/-- The text of a pointer ends in a slash if the last token is empty, and only then. -/
theorem getLast?_text (front : List String) (last : String) :
    (Pointer.text ⟨front ++ [last]⟩).toList.getLast? = some '/' ↔ last = "" := by
  have nonempty : (⟨front ++ [last]⟩ : Pointer).tokens ≠ [] := by simp
  rw [toList_text nonempty, List.map_append, List.map_singleton, getLast?_written_concat]
  exact (String.toList_inj : last.toList = "".toList ↔ last = "")

/-- A text that does not end in a slash is read as it was written. -/
theorem parse_text_of_getLast? (nonempty : pointer.tokens ≠ [])
    (plain : pointer.text.toList.getLast? ≠ some '/') : parse pointer.text = .ok pointer := by
  have long : ¬ (pointer.text = "" ∨ pointer.text = "/") := by
    rintro (same | same)
    · have starts := head?_toList_text pointer
      rw [same] at starts
      cases starts
    · exact plain (by rw [same]; rfl)
  rw [parse_eq_ok_iff, if_neg long, dropFinalSlash_of_ne plain]
  exact ⟨nonempty, rfl⟩

/-- A path that is read as a pointer gives back its own text, but for a slash at its end. That text
is read as the same pointer unless the path ended in two slashes. Then the last token is empty,
its slash is taken for one that adds nothing, and the text is read as the pointer above. -/
theorem parse_text_iff (read : parse path = .ok pointer) :
    (parse pointer.text = .ok pointer ↔ ¬ ['/', '/'] <:+ path.toList) ∧
    (['/', '/'] <:+ path.toList → ∃ parent, pointer.splitLast? = some (parent, "") ∧
      parse pointer.text = .ok parent) ∧
    pointer.text.toList = if pointer.isRoot then ['/'] else dropFinalSlash path.toList := by
  obtain ⟨tokens⟩ := pointer
  rw [parse_eq_ok_iff] at read
  rcases List.eq_nil_or_concat tokens with rfl | ⟨front, last, same⟩
  · split at read
    · rename_i short
      have single : ¬ ['/', '/'] <:+ path.toList := by
        rcases short with rfl | rfl <;> decide
      exact ⟨iff_of_true rfl single, fun double => absurd double single, rfl⟩
    · exact absurd rfl read.1
  · rw [List.concat_eq_append] at same
    subst same
    split at read
    · exact absurd (congrArg Pointer.tokens read) (by simp [root])
    · obtain ⟨nonempty, text⟩ := read
      have ends : ['/', '/'] <:+ path.toList ↔ last = "" := by
        rw [← getLast?_dropFinalSlash, ← text, getLast?_text]
      have above : (Pointer.mk (front ++ [last])).splitLast? = some (⟨front⟩, last) := by
        rw [splitLast?, List.getLast?_concat, Option.map_some, List.dropLast_concat]
      have notRoot : (Pointer.mk (front ++ [last])).isRoot = false := by simp [isRoot]
      rw [ends, notRoot]
      refine ⟨⟨fun again empty => ?_, fun full => ?_⟩, fun empty => ?_, text⟩
      · subst empty
        rw [parse_text_empty] at again
        simp at again
      · exact parse_text_of_getLast? nonempty (mt (getLast?_text front last).mp full)
      · subst empty
        exact ⟨⟨front⟩, above, parse_text_empty front⟩

/-- Two slashes behind an escape. -/
theorem parse_text_twoSlashes :
    parse "/a~1b//" = .ok ⟨["a/b", ""]⟩ ∧ (Pointer.text ⟨["a/b", ""]⟩).toList = "/a~1b/".toList ∧
      parse (Pointer.text ⟨["a/b", ""]⟩) ≠ .ok ⟨["a/b", ""]⟩ ∧
      parse (Pointer.text ⟨["a/b", ""]⟩) = .ok ⟨["a/b"]⟩ := by
  have read : parse "/a~1b//" = .ok ⟨["a/b", ""]⟩ := rfl
  have double : ['/', '/'] <:+ "/a~1b//".toList := ⟨"/a~1b".toList, rfl⟩
  obtain ⟨again, above, text⟩ := parse_text_iff read
  obtain ⟨parent, same, readAbove⟩ := above double
  cases same
  exact ⟨read, text, fun whole => again.mp whole double, readAbove⟩

end JsonOverlay.Pointer
