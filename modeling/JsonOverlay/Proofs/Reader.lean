/-
This file shows that a tree is read back from its text, up to the representation of its
numbers. A value is read whatever blanks stand before it and whatever ends it behind, which
is what the readers of lists need to know of their children.
-/

import JsonOverlay.Parse
import JsonOverlay.Proofs.Reader.Scalar
import JsonOverlay.Proofs.Writer

namespace JsonOverlay

namespace Reader

variable {text later start after rest : List Char} {next : Char} {tree : Tree}

/-! ### Blanks -/

theorem skipBlanks_cons (other : Text.isBlank next = false) (rest : List Char) :
    skipBlanks (next :: rest) = next :: rest :=
  List.dropWhile_cons_of_neg (by simp [other])

theorem skipBlanks_append {blanks : List Char} (blank : ∀ character ∈ blanks,
    Text.isBlank character = true) (text : List Char) :
    skipBlanks (blanks ++ text) = skipBlanks text :=
  List.dropWhile_append_of_pos blank

/-- What follows blanks ends a numeral if it does so itself. -/
theorem delimits_of_skipBlanks (same : skipBlanks text = next :: rest)
    (delimits : Delimits (next :: rest)) : Delimits text := by
  rcases text with _ | ⟨first, later⟩
  · exact delimits_nil
  · by_cases blank : Text.isBlank first = true
    · simp only [Text.isBlank, Bool.or_eq_true, beq_iff_eq] at blank
      rcases blank with ((rfl | rfl) | rfl) | rfl
      all_goals exact delimits_cons later rfl (by decide) (by decide) (by decide)
    · rw [skipBlanks_cons (by simpa using blank)] at same
      rw [same]
      exact delimits

theorem isBlank_of_mem_lineBreak {options : WriteOptions} {depth : Nat} {character : Char}
    (member : character ∈ (Writer.lineBreak options depth).toList) :
    Text.isBlank character = true := by
  unfold Writer.lineBreak at member
  split at member
  · cases member
  · rw [String.toList_ofList] at member
    rcases List.mem_cons.mp member with rfl | space
    · rfl
    · rw [List.eq_of_mem_replicate space]
      rfl

theorem skipBlanks_lineBreak (options : WriteOptions) (depth : Nat) (text : List Char) :
    skipBlanks ((Writer.lineBreak options depth).toList ++ text) = skipBlanks text :=
  skipBlanks_append (fun _ => isBlank_of_mem_lineBreak) text

theorem skipBlanks_ending (options : WriteOptions) (count depth : Nat) (text : List Char) :
    skipBlanks ((Writer.ending options count depth).toList ++ text) = skipBlanks text := by
  unfold Writer.ending
  split
  · rfl
  · exact skipBlanks_lineBreak options depth text

/-! ### What a reader of values does -/

/-- A text can start a value that an array has room for. -/
def Opens (text : List Char) : Prop :=
  ∃ first rest, text = first :: rest ∧ Text.isUnicodeBlank first = false ∧ first ≠ ']'

/-- A reader reads a tree from its text, after any blanks and before whatever ends it. -/
structure Reads (read : List Char → Reading Tree) (text : List Char) (tree : Tree) : Prop where
  opens : Opens text
  read : ∀ {start after : List Char}, skipBlanks start = text ++ after → Delimits after →
    read start = .ok (tree, after)

theorem Opens.append (opens : Opens text) (after : List Char) : Opens (text ++ after) := by
  obtain ⟨first, rest, rfl, other, noBracket⟩ := opens
  exact ⟨first, rest ++ after, rfl, other, noBracket⟩

theorem Opens.length_pos (opens : Opens text) : 0 < text.length := by
  obtain ⟨first, rest, rfl, _⟩ := opens
  exact Nat.succ_pos _

theorem Opens.skipBlanks_append (opens : Opens text) (after : List Char) :
    skipBlanks (text ++ after) = text ++ after := by
  obtain ⟨first, rest, rfl, other, _⟩ := opens
  refine skipBlanks_cons ?_ (rest ++ after)
  by_contra blank
  rw [Text.isUnicodeBlank_of_isBlank (by simpa using blank)] at other
  cases other

/-! ### Values without children -/

theorem readValue_eq_readScalar (bound : Nat) (same : skipBlanks start = next :: rest)
    (array : next ≠ '[') (object : next ≠ '\x7b') :
    readValue bound start = readScalar (next :: rest) := by
  cases bound <;> simp [readValue, same, array, object]

theorem reads_null (bound : Nat) : Reads (readValue bound) "null".toList .null where
  opens := ⟨'n', _, rfl, by decide, by decide⟩
  read same _ := readValue_eq_readScalar bound same (by decide) (by decide)

theorem reads_bool (bound : Nat) (value : Bool) :
    Reads (readValue bound) (if value then "true" else "false").toList (.bool value) := by
  cases value with
  | false =>
    exact ⟨⟨'f', _, rfl, by decide, by decide⟩, fun same _ =>
      readValue_eq_readScalar bound same (by decide) (by decide)⟩
  | true =>
    exact ⟨⟨'t', _, rfl, by decide, by decide⟩, fun same _ =>
      readValue_eq_readScalar bound same (by decide) (by decide)⟩

theorem toList_quoteJson (text : String) (after : List Char) :
    (Text.quoteJson text).toList ++ after =
      '"' :: (text.toList.flatMap Text.escapeJson ++ '"' :: after) := by
  simp [Text.quoteJson]

theorem reads_string (bound : Nat) (value : String) :
    Reads (readValue bound) (Text.quoteJson value).toList (.string value) where
  opens := ⟨'"', _, String.toList_ofList, by decide, by decide⟩
  read same _ := by
    rw [toList_quoteJson] at same
    rw [readValue_eq_readScalar bound same (by decide) (by decide), readScalar,
      readString_quoteJson]
    rfl

theorem isUnicodeBlank_of_isDigit {digit : Char} (isDigit : digit.isDigit = true) :
    Text.isUnicodeBlank digit = false := by
  have bounds : 48 ≤ digit.toNat ∧ digit.toNat ≤ 57 := Char.isDigit_iff_toNat.mp isDigit
  simp only [Text.isUnicodeBlank, Bool.or_eq_false_iff, Bool.and_eq_false_iff, beq_eq_false_iff_ne,
    decide_eq_false_iff_not]
  omega

/-- A number is read back if its numeral is. -/
theorem reads_number (bound : Nat) {layout : DecimalLayout} {number : Number}
    (known : layout.ReadsBack number) :
    Reads (readValue bound) (layout.number number).toList (.number number.canonical) := by
  have back : ∀ {after : List Char}, Delimits after →
      readScalar ((layout.number number).toList ++ after) = .ok (.number number.canonical, after) :=
    fun delimits => readScalar_append delimits known
  rcases readNumeral_of_readScalar known with ⟨later, text, _⟩ | ⟨first, later, text, digit, _⟩
  · rw [text] at back ⊢
    exact ⟨⟨'-', later, rfl, by decide, by decide⟩, fun same delimits =>
      (readValue_eq_readScalar bound same (by decide) (by decide)).trans (back delimits)⟩
  · rw [text] at back ⊢
    have other : ∀ mark : Char, mark.isDigit = false → first ≠ mark := by
      rintro mark noDigit rfl
      rw [noDigit] at digit
      cases digit
    exact ⟨⟨first, later, rfl, isUnicodeBlank_of_isDigit digit, other ']' rfl⟩,
      fun same delimits => (readValue_eq_readScalar bound same (other '[' rfl)
        (other '\x7b' rfl)).trans (back delimits)⟩

/-! ### Arrays -/

theorem skipBlanks_separator_zero (options : WriteOptions) (depth : Nat) (text : List Char) :
    skipBlanks ((Writer.separator options 0 depth).toList ++ text) = skipBlanks text := by
  rw [Writer.separator, if_pos rfl, String.empty_append, skipBlanks_lineBreak]

theorem skipBlanks_separator_succ (options : WriteOptions) (count depth : Nat) (text : List Char) :
    skipBlanks ((Writer.separator options (count + 1) depth).toList ++ text) =
      ',' :: ((Writer.lineBreak options depth).toList ++ text) := by
  rw [Writer.separator, if_neg (Nat.succ_ne_zero count), String.toList_append, List.append_assoc]
  exact skipBlanks_cons rfl _

theorem length_separator_succ (options : WriteOptions) (count depth : Nat) :
    0 < (Writer.separator options (count + 1) depth).toList.length := by
  rw [Writer.separator, if_neg (Nat.succ_ne_zero count), String.toList_append]
  exact Nat.succ_pos _

theorem readElements_last {read : List Char → Reading Tree} {bound : Nat} {last : List Char}
    (ok : read text = .ok (tree, last)) (closes : skipBlanks last = ']' :: after) :
    readElements read (bound + 1) text = .ok ([tree], after) := by
  rw [readElements, ok]
  simp only [andThen, closes]

theorem readElements_more {read : List Char → Reading Tree} {bound : Nat} {trees : List Tree}
    {more : List Char} (ok : read text = .ok (tree, more)) (comma : skipBlanks more = ',' :: later)
    (opens : Opens (skipBlanks later))
    (others : readElements read bound (skipBlanks later) = .ok (trees, after)) :
    readElements read (bound + 1) text = .ok (tree :: trees, after) := by
  obtain ⟨first, rest, same, _, noBracket⟩ := opens
  rw [same] at others
  rw [readElements, ok]
  simp [andThen, comma, same, noBracket, others]

variable {read : List Char → Reading Tree} {options : WriteOptions} {depth bound : Nat}
  {last : List Char}

/-- Elements are read one after the other, up to the bracket behind the last one. -/
theorem readElements_render {item : Tree} {items : List Tree} (count : Nat)
    (known : ∀ child ∈ item :: items,
      Reads read (child.render options depth).toList child.canonical)
    (enough : items.length < bound) (closes : skipBlanks last = ']' :: after) :
    readElements read bound ((item.render options depth).toList ++
        ((Tree.renderItems options depth (count + 1) items).toList ++ last)) =
      .ok (item.canonical :: Tree.canonicalItems items, after) := by
  obtain ⟨bound, rfl⟩ := Nat.exists_eq_succ_of_ne_zero (Nat.ne_zero_of_lt enough)
  have first := known item List.mem_cons_self
  induction items generalizing item count bound with
  | nil =>
    have delimits := delimits_of_skipBlanks closes
      (delimits_cons after rfl (by decide) (by decide) (by decide))
    exact readElements_last (first.read (first.opens.skipBlanks_append _) delimits) closes
  | cons second items inductionHypothesis =>
    have next := known second (by simp)
    rw [Tree.renderItems_cons, String.toList_append, String.toList_append, List.append_assoc,
      List.append_assoc]
    have comma := skipBlanks_separator_succ options count depth
      ((second.render options depth).toList ++
        ((Tree.renderItems options depth (count + 1 + 1) items).toList ++ last))
    have delimits := delimits_of_skipBlanks comma
      (delimits_cons _ rfl (by decide) (by decide) (by decide))
    have skipped := (skipBlanks_lineBreak options depth _).trans (next.opens.skipBlanks_append
      ((Tree.renderItems options depth (count + 1 + 1) items).toList ++ last))
    refine readElements_more (first.read (first.opens.skipBlanks_append _) delimits) comma ?_ ?_
    · rw [skipped]
      exact next.opens.append _
    · rw [skipped]
      obtain ⟨bound, rfl⟩ := Nat.exists_eq_succ_of_ne_zero
        (Nat.ne_zero_of_lt (Nat.lt_of_succ_lt_succ enough))
      exact inductionHypothesis (count + 1)
        (fun child later => known child (List.mem_cons_of_mem _ later)) bound
        (Nat.lt_of_succ_lt_succ enough) next

theorem length_le_renderItems (options : WriteOptions) (depth count : Nat) (items : List Tree) :
    items.length ≤ (Tree.renderItems options depth (count + 1) items).toList.length := by
  induction items generalizing count with
  | nil => exact Nat.zero_le _
  | cons item rest inductionHypothesis =>
    have longer := inductionHypothesis (count + 1)
    have comma := length_separator_succ options count depth
    rw [Tree.renderItems_cons, String.toList_append, String.toList_append, List.length_append,
      List.length_append, List.length_cons]
    omega

theorem readArray_of_opens {items : List Tree} (opens : Opens (skipBlanks text))
    (ok : readElements read (skipBlanks text).length (skipBlanks text) = .ok (items, after)) :
    readArray read text = .ok (.array items, after) := by
  obtain ⟨first, rest, same, _, noBracket⟩ := opens
  rw [same, List.length_cons] at ok
  rw [readArray, same]
  simp [ok, noBracket, andThen]

/-- An array is read after its opening bracket. -/
theorem readArray_render {items : List Tree}
    (known : ∀ child ∈ items, Reads read (child.render options depth).toList child.canonical)
    (closes : skipBlanks last = ']' :: after) :
    readArray read ((Tree.renderItems options depth 0 items).toList ++ last) =
      .ok (.array (Tree.canonicalItems items), after) := by
  rcases items with _ | ⟨item, items⟩
  · rw [readArray, Tree.renderItems]
    simp [closes, Tree.canonicalItems]
  · have opens := (known item List.mem_cons_self).opens
    rw [Tree.renderItems_cons, String.toList_append, String.toList_append, List.append_assoc,
      List.append_assoc]
    have skipped := (skipBlanks_separator_zero options depth _).trans (opens.skipBlanks_append
      ((Tree.renderItems options depth (0 + 1) items).toList ++ last))
    refine readArray_of_opens ?_ ?_
    · rw [skipped]
      exact opens.append _
    · rw [skipped]
      refine readElements_render 0 known ?_ closes
      have longer := length_le_renderItems options depth 0 items
      have some := opens.length_pos
      rw [List.length_append, List.length_append]
      omega

/-! ### Objects -/

theorem toList_renderMember (options : WriteOptions) (depth : Nat) (member : String × Tree)
    (after : List Char) : (Tree.renderMember options depth member).toList ++ after =
      '"' :: (member.1.toList.flatMap Text.escapeJson ++ '"' ::
        ((Writer.colon options).toList ++ ((member.2.render options depth).toList ++ after))) := by
  rw [Tree.renderMember, String.toList_append, String.toList_append, List.append_assoc,
    List.append_assoc, toList_quoteJson]

theorem skipBlanks_renderMember (options : WriteOptions) (depth : Nat) (member : String × Tree)
    (after : List Char) : skipBlanks ((Tree.renderMember options depth member).toList ++ after) =
      (Tree.renderMember options depth member).toList ++ after := by
  rw [toList_renderMember]
  exact skipBlanks_cons rfl _

theorem toList_colon (options : WriteOptions) : ∃ blanks : List Char,
    (Writer.colon options).toList = ':' :: blanks ∧
      ∀ character ∈ blanks, Text.isBlank character = true := by
  unfold Writer.colon
  split
  · exact ⟨[' '], rfl, by simp [Text.isBlank]⟩
  · exact ⟨[], rfl, List.forall_mem_nil _⟩

theorem readMember_render {member : String × Tree}
    (known : Reads read (member.2.render options depth).toList member.2.canonical)
    (delimits : Delimits last) :
    readMember read ((Tree.renderMember options depth member).toList ++ last) =
      .ok ((member.1, member.2.canonical), last) := by
  obtain ⟨blanks, same, blank⟩ := toList_colon options
  have skipped := (skipBlanks_append blank _).trans (known.opens.skipBlanks_append last)
  rw [toList_renderMember, readMember, readString_quoteJson, same, List.cons_append]
  simp only [andThen, skipBlanks_cons (show Text.isBlank ':' = false from rfl),
    known.read skipped delimits]

theorem readMembers_last {member : String × Tree} (ok : readMember read text = .ok (member, last))
    (closes : skipBlanks last = '\x7d' :: after) :
    readMembers read (bound + 1) text = .ok ([member], after) := by
  rw [readMembers, ok]
  simp only [andThen, closes]

theorem readMembers_more {member : String × Tree} {members : List (String × Tree)}
    {more : List Char} (ok : readMember read text = .ok (member, more))
    (comma : skipBlanks more = ',' :: later) (opens : skipBlanks later = '"' :: rest)
    (others : readMembers read bound (skipBlanks later) = .ok (members, after)) :
    readMembers read (bound + 1) text = .ok (member :: members, after) := by
  rw [opens] at others
  rw [readMembers, ok]
  simp [andThen, comma, opens, others]

/-- Members are read one after the other, up to the bracket behind the last one. -/
theorem readMembers_render {member : String × Tree} {members : List (String × Tree)} (count : Nat)
    (known : ∀ child ∈ (member :: members).map Prod.snd,
      Reads read (child.render options depth).toList child.canonical)
    (enough : members.length < bound) (closes : skipBlanks last = '\x7d' :: after) :
    readMembers read bound ((Tree.renderMember options depth member).toList ++
        ((Tree.renderMembers options depth (count + 1) members).toList ++ last)) =
      .ok ((member.1, member.2.canonical) :: Tree.canonicalMembers members, after) := by
  obtain ⟨bound, rfl⟩ := Nat.exists_eq_succ_of_ne_zero (Nat.ne_zero_of_lt enough)
  have first := known member.2 List.mem_cons_self
  induction members generalizing member count bound with
  | nil =>
    have delimits := delimits_of_skipBlanks closes
      (delimits_cons after rfl (by decide) (by decide) (by decide))
    exact readMembers_last (readMember_render first delimits) closes
  | cons second members inductionHypothesis =>
    have next := known second.2 (by simp)
    rw [Tree.renderMembers_cons, String.toList_append, String.toList_append, List.append_assoc,
      List.append_assoc]
    have comma := skipBlanks_separator_succ options count depth
      ((Tree.renderMember options depth second).toList ++
        ((Tree.renderMembers options depth (count + 1 + 1) members).toList ++ last))
    have delimits := delimits_of_skipBlanks comma
      (delimits_cons _ rfl (by decide) (by decide) (by decide))
    have opens := toList_renderMember options depth second
      ((Tree.renderMembers options depth (count + 1 + 1) members).toList ++ last)
    have skipped := (skipBlanks_lineBreak options depth _).trans
      (skipBlanks_renderMember options depth second
        ((Tree.renderMembers options depth (count + 1 + 1) members).toList ++ last))
    refine readMembers_more (readMember_render first delimits) comma (skipped.trans opens) ?_
    rw [skipped]
    obtain ⟨bound, rfl⟩ := Nat.exists_eq_succ_of_ne_zero
      (Nat.ne_zero_of_lt (Nat.lt_of_succ_lt_succ enough))
    exact inductionHypothesis (count + 1)
      (fun child later => known child (List.mem_cons_of_mem _ later)) bound
      (Nat.lt_of_succ_lt_succ enough) next

theorem length_le_renderMembers (options : WriteOptions) (depth count : Nat)
    (members : List (String × Tree)) :
    members.length ≤ (Tree.renderMembers options depth (count + 1) members).toList.length := by
  induction members generalizing count with
  | nil => exact Nat.zero_le _
  | cons member rest inductionHypothesis =>
    have longer := inductionHypothesis (count + 1)
    have comma := length_separator_succ options count depth
    rw [Tree.renderMembers_cons, String.toList_append, String.toList_append, List.length_append,
      List.length_append, List.length_cons]
    omega

theorem readObject_of_opens {members : List (String × Tree)} (opens : skipBlanks text = '"' :: rest)
    (ok : readMembers read (skipBlanks text).length (skipBlanks text) = .ok (members, after)) :
    readObject read text = .ok (.object members, after) := by
  rw [opens, List.length_cons] at ok
  rw [readObject, opens]
  simp [ok, andThen]

/-- An object is read after its opening bracket. -/
theorem readObject_render {members : List (String × Tree)}
    (known : ∀ child ∈ members.map Prod.snd,
      Reads read (child.render options depth).toList child.canonical)
    (closes : skipBlanks last = '\x7d' :: after) :
    readObject read ((Tree.renderMembers options depth 0 members).toList ++ last) =
      .ok (.object (Tree.canonicalMembers members), after) := by
  rcases members with _ | ⟨member, members⟩
  · rw [readObject, Tree.renderMembers]
    simp [closes, Tree.canonicalMembers]
  · rw [Tree.renderMembers_cons, String.toList_append, String.toList_append, List.append_assoc,
      List.append_assoc]
    have opens := toList_renderMember options depth member
      ((Tree.renderMembers options depth (0 + 1) members).toList ++ last)
    have skipped := (skipBlanks_separator_zero options depth _).trans
      (skipBlanks_renderMember options depth member
        ((Tree.renderMembers options depth (0 + 1) members).toList ++ last))
    refine readObject_of_opens (skipped.trans opens) ?_
    rw [skipped]
    refine readMembers_render 0 known ?_ closes
    have longer := length_le_renderMembers options depth 0 members
    rw [opens]
    simp only [List.length_cons, List.length_append]
    omega

/-! ### Values -/

theorem toList_render_array (options : WriteOptions) (depth : Nat) (items : List Tree)
    (after : List Char) : ((Tree.array items).render options depth).toList ++ after =
      '[' :: ((Tree.renderItems options (depth + 1) 0 items).toList ++
        ((Writer.ending options items.length depth).toList ++ ']' :: after)) := by
  simp [Tree.render]

theorem toList_render_object (options : WriteOptions) (depth : Nat)
    (members : List (String × Tree)) (after : List Char) :
    ((Tree.object members).render options depth).toList ++ after =
      '\x7b' :: ((Tree.renderMembers options (depth + 1) 0 members).toList ++
        ((Writer.ending options members.length depth).toList ++ '\x7d' :: after)) := by
  simp [Tree.render]

/-- A tree that is not nested too deeply is read back from its text, provided that the
numerals of its doubles are. -/
theorem reads_render (options : WriteOptions) (tree : Tree) (depth bound : Nat)
    (shallow : tree.depth ≤ bound)
    (doubles : ∀ double ∈ tree.doubles, options.numbers.ReadsBack (.double double)) :
    Reads (readValue bound) (tree.render options depth).toList tree.canonical := by
  induction tree using Tree.induction_levels generalizing depth bound with
  | level tree inductionHypothesis =>
    have below : ∀ child ∈ tree.content.children, Reads (readValue (bound - 1))
        (child.render options (depth + 1)).toList child.canonical := fun child member =>
      inductionHypothesis child member (depth + 1) (bound - 1)
        (Nat.le_sub_one_of_lt (Nat.lt_of_lt_of_le (Tree.depth_lt_of_mem_children member) shallow))
        fun double held => doubles double (Tree.mem_doubles_of_mem_children member held)
    cases tree with
    | null => exact reads_null bound
    | bool value => exact reads_bool bound value
    | string value => exact reads_string bound value
    | number value =>
      refine reads_number bound ?_
      rcases value with value | value | value
      · exact options.numbers.readsBack_int value
      · exact options.numbers.readsBack_uint value
      · exact doubles value (List.mem_singleton_self value)
    | array items =>
      have text := toList_render_array options depth items
      obtain ⟨bound, rfl⟩ := Nat.exists_eq_succ_of_ne_zero (Nat.ne_zero_of_lt shallow)
      refine ⟨⟨'[', _, (List.append_nil _).symm.trans (text []), by decide, by decide⟩, ?_⟩
      intro start after same _
      rw [text] at same
      rw [readValue, same]
      exact readArray_render below
        ((skipBlanks_ending options items.length depth _).trans (skipBlanks_cons rfl after))
    | object members =>
      have text := toList_render_object options depth members
      obtain ⟨bound, rfl⟩ := Nat.exists_eq_succ_of_ne_zero (Nat.ne_zero_of_lt shallow)
      refine ⟨⟨'\x7b', _, (List.append_nil _).symm.trans (text []), by decide, by decide⟩, ?_⟩
      intro start after same _
      rw [text] at same
      rw [readValue, same]
      exact readObject_render below
        ((skipBlanks_ending options members.length depth _).trans (skipBlanks_cons rfl after))

/-- The whole text of a tree is read. -/
theorem readAll_render (options : WriteOptions) (tree : Tree) (shallow : tree.depth ≤ greatestDepth)
    (doubles : ∀ double ∈ tree.doubles, options.numbers.ReadsBack (.double double)) :
    readAll (tree.render options 0).toList = .ok tree.canonical := by
  have reads := reads_render options tree 0 greatestDepth shallow doubles
  have read := reads.read ((reads.opens.skipBlanks_append [])) delimits_nil
  rw [List.append_nil] at read
  rw [readAll, read]
  rfl

end Reader

/-- A strict text is parsed as it is read. -/
theorem Tree.parse_render (options : WriteOptions) (tree : Tree)
    (shallow : tree.depth ≤ Reader.greatestDepth)
    (doubles : ∀ double ∈ tree.doubles, options.numbers.ReadsBack (.double double)) :
    Tree.parse .strict (tree.render options 0) = .ok tree.canonical := by
  have reads := Reader.reads_render options tree 0 Reader.greatestDepth shallow doubles
  obtain ⟨first, rest, same, other, _⟩ := reads.opens
  have value : (tree.render options 0).toList.all Text.isUnicodeBlank = false := by
    rw [same, List.all_cons, other, Bool.false_and]
  have whole := Reader.readAll_render options tree shallow doubles
  have relaxed : Reader.relax .strict (tree.render options 0).toList =
      .ok (tree.render options 0).toList := rfl
  simp only [parse, relaxed, value, whole, Bool.false_eq_true, if_false]

end JsonOverlay
