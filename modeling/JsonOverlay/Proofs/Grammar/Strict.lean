/-
This file shows that the strict reader reads a tree exactly from the texts in which the tokens
of the tree are laid out with blanks between them, as long as the tree is not nested too
deeply. Both directions follow the tree: what is read from a text was laid out there, and what
is laid out is read up to where it ends.
-/

import JsonOverlay.Proofs.Grammar.Layout
import JsonOverlay.Proofs.Grammar.Scalar

namespace JsonOverlay.Grammar

open Reader

variable {text after rest middle : List Char} {tree item : Tree} {bound count : Nat}

/-- The tokens of a tree are laid out with blanks between them. -/
abbrev LaidStrictly (tokens : List Token) (text rest : List Char) : Prop :=
  Laid Numeral.Denotes false tokens text rest

/-! ### What is laid out is read -/

theorem Laid.opens {tokens : List Token} (derives : Derives false tokens tree)
    {later : List Token} (laid : LaidStrictly (tokens ++ later) text rest) :
    Opens (skipBlanks text) := by
  obtain ⟨first, others, rfl, opens, -⟩ := derives.exists_eq_cons
  obtain ⟨spelling, after, spells, same, -⟩ := laid_cons_iff.mp laid
  obtain ⟨character, more, rfl, other, closing⟩ := spells.exists_eq_cons
  rw [opens, Bool.or_eq_false_iff, beq_eq_false_iff_ne] at closing
  exact ⟨character, more ++ after, same, other, closing.1⟩

theorem readValue_scalar {token : Token} (single : IsScalar token tree)
    (laid : LaidStrictly [token] text rest) (delimits : Delimits rest) (bound : Nat) :
    readValue bound text = .ok (tree, rest) := by
  obtain ⟨spelling, after, spells, same, others⟩ := laid_cons_iff.mp laid
  obtain rfl := laid_nil_iff.mp others
  have read := readScalar_spelling single spells delimits
  obtain ⟨first, later, rfl, -⟩ := spells.exists_eq_cons
  -- A bracket would have been refused as a scalar.
  have array : first ≠ '[' := by rintro rfl; cases read
  have object : first ≠ '\x7b' := by rintro rfl; cases read
  exact (readValue_eq_readScalar bound same array object).trans read

theorem delimits_laterItems {items : List Tree}
    (laid : LaidStrictly (Tree.laterItems items ++ [.closeArray]) text rest) : Delimits text := by
  cases items with
  | nil => exact laid.delimits rfl (delimits_cons [] rfl (by decide) (by decide) (by decide))
  | cons => exact laid.delimits rfl (delimits_cons [] rfl (by decide) (by decide) (by decide))

theorem delimits_laterMembers {members : List (String × Tree)}
    (laid : LaidStrictly (Tree.laterMembers members ++ [.closeObject]) text rest) :
    Delimits text := by
  cases members with
  | nil => exact laid.delimits rfl (delimits_cons [] rfl (by decide) (by decide) (by decide))
  | cons => exact laid.delimits rfl (delimits_cons [] rfl (by decide) (by decide) (by decide))

theorem laid_string_iff {name : String} {tokens : List Token} :
    LaidStrictly (.string name :: .colon :: tokens) text rest ↔
      ∃ source value after, StringBody source value ∧ name = String.ofList value ∧
        skipBlanks text = '"' :: (source ++ '"' :: after) ∧
        LaidStrictly (.colon :: tokens) after rest := by
  refine laid_cons_iff.trans ⟨?_, ?_⟩
  · rintro ⟨spelling, after, spells, same, others⟩
    cases spells with
    | fixed known => cases known
    | string body => exact ⟨_, _, after, body, rfl, by simpa using same, others⟩
  · rintro ⟨source, value, after, body, rfl, same, others⟩
    exact ⟨_, after, .string body, by simpa using same, others⟩

theorem length_le_laterItems (items : List Tree) :
    items.length ≤ (Tree.laterItems items).length := by
  induction items with
  | nil => exact Nat.zero_le _
  | cons item rest inductionHypothesis =>
    rw [Tree.laterItems, List.length_cons, List.length_cons, List.length_append]
    omega

theorem length_le_laterMembers (members : List (String × Tree)) :
    members.length ≤ (Tree.laterMembers members).length := by
  induction members with
  | nil => exact Nat.zero_le _
  | cons member rest inductionHypothesis =>
    simp only [Tree.laterMembers, List.length_cons, List.length_append]
    omega

mutual

/-- What is laid out is read, up to where it ends. -/
theorem readValue_laid : ∀ (tree : Tree) {bound : Nat} {text rest : List Char},
    LaidStrictly tree.tokens text rest → tree.depth ≤ bound → Delimits rest →
      readValue bound text = .ok (tree, rest)
  | .null, bound, _, _, laid, _, delimits => readValue_scalar .null laid delimits bound
  | .bool value, bound, _, _, laid, _, delimits =>
    readValue_scalar (.bool value) laid delimits bound
  | .number value, bound, _, _, laid, _, delimits =>
    readValue_scalar (.number value) laid delimits bound
  | .string value, bound, _, _, laid, _, delimits =>
    readValue_scalar (.string value) laid delimits bound
  | .array [], bound, text, rest, laid, shallow, _ => by
    obtain ⟨bound, rfl⟩ := Nat.exists_eq_succ_of_ne_zero (Nat.ne_zero_of_lt shallow)
    obtain ⟨inside, opened, others⟩ := (laid_mark_iff rfl).mp laid
    obtain ⟨after, closed, nothing⟩ := (laid_mark_iff rfl).mp others
    obtain rfl := laid_nil_iff.mp nothing
    rw [readValue, opened]
    simp only [readArray, closed]
  | .array (item :: items), bound, text, rest, laid, shallow, _ => by
    obtain ⟨bound, rfl⟩ := Nat.exists_eq_succ_of_ne_zero (Nat.ne_zero_of_lt shallow)
    rw [Tree.depth, Tree.depthItems] at shallow
    obtain ⟨inside, opened, others⟩ := (laid_mark_iff rfl).mp laid
    have trimmed := (laid_skipBlanks_iff (tokens_ne_nil item _)).mpr others
    obtain ⟨middle, first, more⟩ := laid_append_iff.mp trimmed
    have read : readValue bound _ = .ok (item, middle) :=
      readValue_laid item first (by omega) (delimits_laterItems more)
    have length := trimmed.length_le
    have fewer := length_le_laterItems items
    simp only [List.length_append, List.length_singleton] at length
    rw [readValue, opened]
    exact readArray_of_opens (others.opens (derives_tokens false item))
      (readElements_laid items read more (by omega) (by omega))
  | .object [], bound, text, rest, laid, shallow, _ => by
    obtain ⟨bound, rfl⟩ := Nat.exists_eq_succ_of_ne_zero (Nat.ne_zero_of_lt shallow)
    obtain ⟨inside, opened, others⟩ := (laid_mark_iff rfl).mp laid
    obtain ⟨after, closed, nothing⟩ := (laid_mark_iff rfl).mp others
    obtain rfl := laid_nil_iff.mp nothing
    rw [readValue, opened]
    simp only [readObject, closed]
  | .object ((name, child) :: members), bound, text, rest, laid, shallow, _ => by
    obtain ⟨bound, rfl⟩ := Nat.exists_eq_succ_of_ne_zero (Nat.ne_zero_of_lt shallow)
    rw [Tree.depth, Tree.depthMembers] at shallow
    obtain ⟨inside, opened, others⟩ := (laid_mark_iff rfl).mp laid
    have trimmed := (laid_skipBlanks_iff (List.cons_ne_nil _ _)).mpr others
    obtain ⟨source, value, named, body, rfl, same, colon⟩ := laid_string_iff.mp others
    obtain ⟨valued, separated, behind⟩ := (laid_mark_iff rfl).mp colon
    obtain ⟨middle, first, more⟩ := laid_append_iff.mp behind
    have read : readValue bound _ = .ok (child, middle) :=
      readValue_laid child first (by omega) (delimits_laterMembers more)
    have length := trimmed.length_le
    have fewer := length_le_laterMembers members
    simp only [List.length_cons, List.length_append, List.length_nil] at length
    rw [readValue, opened]
    refine readObject_of_opens same (readMembers_laid members ?_ more (by omega) (by omega))
    rw [same, readMember, readString_body body]
    simp only [andThen, separated, read]

theorem readElements_laid : ∀ (items : List Tree) {item : Tree} {bound count : Nat}
    {text middle rest : List Char}, readValue bound text = .ok (item, middle) →
    LaidStrictly (Tree.laterItems items ++ [.closeArray]) middle rest →
    Tree.depthItems items ≤ bound → items.length < count →
      readElements (readValue bound) count text = .ok (item :: items, rest)
  | [], _, _, count, _, _, _, read, laid, _, enough => by
    obtain ⟨count, rfl⟩ := Nat.exists_eq_succ_of_ne_zero (Nat.ne_zero_of_lt enough)
    obtain ⟨after, closed, nothing⟩ := (laid_mark_iff rfl).mp laid
    obtain rfl := laid_nil_iff.mp nothing
    exact readElements_last read closed
  | second :: items, _, bound, count, _, _, _, read, laid, shallow, enough => by
    obtain ⟨count, rfl⟩ := Nat.exists_eq_succ_of_ne_zero (Nat.ne_zero_of_lt enough)
    rw [Tree.depthItems] at shallow
    rw [Tree.laterItems, List.cons_append, List.append_assoc] at laid
    obtain ⟨after, comma, others⟩ := (laid_mark_iff rfl).mp laid
    have trimmed := (laid_skipBlanks_iff (tokens_ne_nil second _)).mpr others
    obtain ⟨middle, next, more⟩ := laid_append_iff.mp trimmed
    have readNext : readValue bound _ = .ok (second, middle) :=
      readValue_laid second next (by omega) (delimits_laterItems more)
    exact readElements_more read comma (others.opens (derives_tokens false second))
      (readElements_laid items readNext more (by omega) (Nat.lt_of_succ_lt_succ enough))

theorem readMembers_laid : ∀ (members : List (String × Tree)) {member : String × Tree}
    {bound count : Nat} {text middle rest : List Char},
    readMember (readValue bound) text = .ok (member, middle) →
    LaidStrictly (Tree.laterMembers members ++ [.closeObject]) middle rest →
    Tree.depthMembers members ≤ bound → members.length < count →
      readMembers (readValue bound) count text = .ok (member :: members, rest)
  | [], _, _, count, _, _, _, read, laid, _, enough => by
    obtain ⟨count, rfl⟩ := Nat.exists_eq_succ_of_ne_zero (Nat.ne_zero_of_lt enough)
    obtain ⟨after, closed, nothing⟩ := (laid_mark_iff rfl).mp laid
    obtain rfl := laid_nil_iff.mp nothing
    exact readMembers_last read closed
  | (name, child) :: members, _, bound, count, _, _, _, read, laid, shallow, enough => by
    obtain ⟨count, rfl⟩ := Nat.exists_eq_succ_of_ne_zero (Nat.ne_zero_of_lt enough)
    rw [Tree.depthMembers] at shallow
    rw [Tree.laterMembers, List.cons_append, List.cons_append, List.cons_append,
      List.append_assoc] at laid
    obtain ⟨after, comma, others⟩ := (laid_mark_iff rfl).mp laid
    obtain ⟨source, value, named, body, rfl, same, colon⟩ := laid_string_iff.mp others
    obtain ⟨valued, separated, behind⟩ := (laid_mark_iff rfl).mp colon
    obtain ⟨middle, next, more⟩ := laid_append_iff.mp behind
    have readNext : readValue bound _ = .ok (child, middle) :=
      readValue_laid child next (by omega) (delimits_laterMembers more)
    refine readMembers_more read comma same
      (readMembers_laid members ?_ more (by omega) (Nat.lt_of_succ_lt_succ enough))
    rw [same, readMember, readString_body body]
    simp only [andThen, separated, readNext]

end

/-! ### What is read was laid out -/

theorem IsScalar.tokens_eq {token : Token} (single : IsScalar token tree) :
    tree.tokens = [token] ∧ tree.depth = 0 := by
  cases single <;> exact ⟨rfl, rfl⟩

theorem laid_of_readScalar (ok : readScalar (skipBlanks text) = .ok (tree, rest)) :
    LaidStrictly tree.tokens text rest ∧ tree.depth = 0 := by
  obtain ⟨token, spelling, single, spells, same⟩ := exists_of_readScalar ok
  obtain ⟨tokens, flat⟩ := single.tokens_eq
  rw [tokens]
  exact ⟨laid_cons_iff.mpr ⟨spelling, rest, spells, same, .nil⟩, flat⟩

/-- A reader reads trees of a bounded depth, and only where they are laid out. -/
def ReadsLaid (read : List Char → Reading Tree) (bound : Nat) : Prop :=
  ∀ {text rest : List Char} {tree : Tree}, read text = .ok (tree, rest) →
    LaidStrictly tree.tokens text rest ∧ tree.depth ≤ bound

variable {read : List Char → Reading Tree}

theorem laid_of_readElements (known : ReadsLaid read bound) {items : List Tree}
    (ok : readElements read count text = .ok (items, rest)) : ∃ item later, items = item :: later ∧
      LaidStrictly (item.tokens ++ (Tree.laterItems later ++ [.closeArray])) text rest ∧
      Tree.depthItems (item :: later) ≤ bound := by
  induction count generalizing text items with
  | zero => cases ok
  | succ count inductionHypothesis =>
    obtain ⟨item, after, first, next⟩ := andThen_eq_ok ok
    obtain ⟨laid, shallow⟩ := known first
    split at next
    · rename_i closed
      cases next
      refine ⟨item, [], rfl, ?_, by simpa [Tree.depthItems] using shallow⟩
      exact laid_append_iff.mpr ⟨after, laid, (laid_mark_iff rfl).mpr ⟨rest, closed, .nil⟩⟩
    · rename_i behind comma
      split at next
      · cases next
      · cases next
      · obtain ⟨items, last, others, same⟩ := andThen_eq_ok next
        cases same
        obtain ⟨second, later, rfl, more, deep⟩ := inductionHypothesis others
        replace more := (laid_skipBlanks_iff (tokens_ne_nil second _)).mp more
        refine ⟨item, second :: later, rfl, laid_append_iff.mpr ⟨after, laid, ?_⟩, ?_⟩
        · rw [Tree.laterItems, List.cons_append, List.append_assoc]
          exact (laid_mark_iff rfl).mpr ⟨behind, comma, more⟩
        · rw [Tree.depthItems]
          exact Nat.max_le.mpr ⟨shallow, deep⟩
    · unfold blameNext at next
      split at next <;> cases next

theorem laid_of_readMember (known : ReadsLaid read bound) {member : String × Tree}
    {later : List Token} (ok : readMember read text = .ok (member, middle))
    (others : LaidStrictly later middle rest) :
    LaidStrictly (.string member.1 :: .colon :: (member.2.tokens ++ later)) text rest ∧
      member.2.depth ≤ bound := by
  unfold readMember at ok
  split at ok
  · obtain ⟨name, named, string, next⟩ := andThen_eq_ok ok
    split at next
    · rename_i valued separated
      obtain ⟨child, last, value, same⟩ := andThen_eq_ok next
      cases same
      obtain ⟨laid, shallow⟩ := known value
      obtain ⟨source, characters, body, rfl, rfl⟩ := exists_of_readString string
      refine ⟨laid_string_iff.mpr ⟨source, characters, named, body, rfl, ?_, ?_⟩, shallow⟩
      · exact skipBlanks_cons rfl _
      · exact (laid_mark_iff rfl).mpr ⟨valued, separated, laid_append_iff.mpr ⟨_, laid, others⟩⟩
    · unfold blameNext at next
      split at next <;> cases next
  · cases ok

theorem laid_of_readMembers (known : ReadsLaid read bound) {members : List (String × Tree)}
    (ok : readMembers read count text = .ok (members, rest)) :
    ∃ name child later, members = (name, child) :: later ∧
      LaidStrictly (.string name :: .colon ::
        (child.tokens ++ (Tree.laterMembers later ++ [.closeObject]))) text rest ∧
      Tree.depthMembers ((name, child) :: later) ≤ bound := by
  induction count generalizing text members with
  | zero => cases ok
  | succ count inductionHypothesis =>
    obtain ⟨⟨name, child⟩, after, first, next⟩ := andThen_eq_ok ok
    split at next
    · rename_i closed
      cases next
      have ending : LaidStrictly [.closeObject] after rest :=
        (laid_mark_iff rfl).mpr ⟨rest, closed, .nil⟩
      obtain ⟨laid, shallow⟩ := laid_of_readMember known first ending
      exact ⟨name, child, [], rfl, laid, by simpa [Tree.depthMembers] using shallow⟩
    · rename_i behind comma
      split at next
      · cases next
      · cases next
      · obtain ⟨members, last, others, same⟩ := andThen_eq_ok next
        cases same
        obtain ⟨second, inner, later, rfl, more, deep⟩ := inductionHypothesis others
        replace more := (laid_skipBlanks_iff (List.cons_ne_nil _ _)).mp more
        have separated : LaidStrictly (.comma :: _) after rest :=
          (laid_mark_iff rfl).mpr ⟨behind, comma, more⟩
        obtain ⟨laid, shallow⟩ := laid_of_readMember known first separated
        refine ⟨name, child, (second, inner) :: later, rfl, ?_, ?_⟩
        · simpa only [Tree.laterMembers, List.cons_append, List.append_assoc] using laid
        · rw [Tree.depthMembers]
          exact Nat.max_le.mpr ⟨shallow, deep⟩
    · unfold blameNext at next
      split at next <;> cases next

theorem laid_of_readArray (known : ReadsLaid read bound)
    (ok : readArray read after = .ok (tree, rest)) (opened : skipBlanks text = '[' :: after) :
    LaidStrictly tree.tokens text rest ∧ tree.depth ≤ bound + 1 := by
  unfold readArray at ok
  split at ok
  · cases ok
  · rename_i closed
    cases ok
    refine ⟨(laid_mark_iff rfl).mpr ⟨after, opened, ?_⟩, Nat.le_add_left _ _⟩
    exact (laid_mark_iff rfl).mpr ⟨rest, closed, .nil⟩
  · obtain ⟨items, last, others, same⟩ := andThen_eq_ok ok
    cases same
    obtain ⟨item, later, rfl, laid, deep⟩ := laid_of_readElements known others
    replace laid := (laid_skipBlanks_iff (tokens_ne_nil item _)).mp laid
    exact ⟨(laid_mark_iff rfl).mpr ⟨after, opened, laid⟩, Nat.succ_le_succ deep⟩

theorem laid_of_readObject (known : ReadsLaid read bound)
    (ok : readObject read after = .ok (tree, rest)) (opened : skipBlanks text = '\x7b' :: after) :
    LaidStrictly tree.tokens text rest ∧ tree.depth ≤ bound + 1 := by
  unfold readObject at ok
  split at ok
  · cases ok
  · rename_i closed
    cases ok
    refine ⟨(laid_mark_iff rfl).mpr ⟨after, opened, ?_⟩, Nat.le_add_left _ _⟩
    exact (laid_mark_iff rfl).mpr ⟨rest, closed, .nil⟩
  · obtain ⟨members, last, others, same⟩ := andThen_eq_ok ok
    cases same
    obtain ⟨name, child, later, rfl, laid, deep⟩ := laid_of_readMembers known others
    replace laid := (laid_skipBlanks_iff (List.cons_ne_nil _ _)).mp laid
    exact ⟨(laid_mark_iff rfl).mpr ⟨after, opened, laid⟩, Nat.succ_le_succ deep⟩

/-- What is read was laid out. -/
theorem laid_of_readValue (bound : Nat) : ReadsLaid (readValue bound) bound := by
  induction bound with
  | zero =>
    intro text rest tree ok
    rw [readValue] at ok
    split at ok
    · cases ok
    · cases ok
    · obtain ⟨laid, flat⟩ := laid_of_readScalar ok
      exact ⟨laid, flat.le⟩
  | succ bound inductionHypothesis =>
    intro text rest tree ok
    rw [readValue] at ok
    split at ok
    · rename_i opened
      exact laid_of_readArray inductionHypothesis ok opened
    · rename_i opened
      exact laid_of_readObject inductionHypothesis ok opened
    · obtain ⟨laid, flat⟩ := laid_of_readScalar ok
      exact ⟨laid, flat.le.trans (Nat.zero_le _)⟩

/-- A text is read as a tree if the tokens of the tree are laid out in it, with nothing but
blanks behind them, and it is not nested too deeply. -/
theorem readAll_eq_ok_iff : readAll text = .ok tree ↔
    LaidOut Numeral.Denotes false tree.tokens text ∧ tree.depth ≤ greatestDepth := by
  constructor
  · intro ok
    unfold readAll at ok
    split at ok
    · cases ok
    · rename_i found last read
      split at ok
      · rename_i nothing
        cases ok
        obtain ⟨laid, shallow⟩ := laid_of_readValue greatestDepth read
        exact ⟨⟨last, laid, .gap (gap_of_isBlank (List.dropWhile_eq_nil_iff.mp nothing))⟩, shallow⟩
      · cases ok
  · rintro ⟨⟨last, laid, ending⟩, shallow⟩
    have nothing : skipBlanks last = [] := List.dropWhile_eq_nil_iff.mpr ending.isBlank
    rw [readAll, readValue_laid tree laid shallow (delimits_of_isBlank ending.isBlank)]
    simp only [nothing]

end JsonOverlay.Grammar
