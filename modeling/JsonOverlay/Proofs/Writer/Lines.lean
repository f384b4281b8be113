/-
This file compares indented text with text on one line. Two writers, one with an indentation and one
without, take the same events side by side. A caret that goes through the indented text finds all
blanks in their places and leaves the other text. What the caret knows then agrees with the
containers that are open.
-/

import JsonOverlay.Proofs.Writer.Caching
import JsonOverlay.Proofs.Writer.Streams
import JsonOverlay.Proofs.Writer.Whitespace

namespace JsonOverlay.Writer

open Caret

variable {width count : Nat} {options : WriteOptions} {caret : Caret} {scope : Scope}
  {outer stack : List Frame} {indented compact ready next : Writer} {event : Event}
  {events : List Event} {tree : Tree} {bracket : Char}

/-! ### Layout on one line -/

theorem toList_lineBreak (indent : options.indent = some width) (depth : Nat) :
    (lineBreak options depth).toList = newLine width depth := by
  rw [lineBreak, indent, newLine, Nat.mul_comm]
  exact String.toList_ofList

theorem colon_eq (indent : options.indent = some width) : colon options = ": " :=
  if_pos (Option.isSome_of_eq_some indent)

/-- The options with which the text stands on one line. -/
def oneLine (options : WriteOptions) : WriteOptions := { options with indent := none }

/-- The options with which the text is indented by some spaces for each open container. -/
def indentedBy (width : Nat) (options : WriteOptions) : WriteOptions :=
  { options with indent := some width }

theorem colon_oneLine (options : WriteOptions) : colon (oneLine options) = ":" :=
  if_neg Bool.false_ne_true

theorem ending_oneLine (options : WriteOptions) (count depth : Nat) :
    ending (oneLine options) count depth = "" := by
  rw [ending]
  split <;> rfl

/-- The text of a value that holds no others does not depend on the layout. -/
theorem render_oneLine (known : event.scalar? = some tree) (options : WriteOptions) (depth : Nat) :
    tree.render (oneLine options) depth = tree.render options depth := by
  cases event <;> cases known <;> rfl

/-! ### Between events and in front of values -/

/-- Containers with entries, none of which is still a key only. -/
def Filled (stack : List Frame) : Prop := ∀ frame ∈ stack, frame.count ≠ 0 ∧ frame.afterKey = false

/-- What a caret knows between events, given the containers that are open: it stands in front of the
text, behind the bracket of an empty container, behind the space after a key, or behind a value. -/
inductive Rests : Caret → List Frame → Prop where
  | start : Rests start []
  | opened (scope : Scope) {bracket : Char} {outer : List Frame}
      (opens : isOpening bracket = true) (filled : Filled outer) :
      Rests { depth := outer.length + 1, last := some bracket } (⟨scope, 0, false⟩ :: outer)
  | behindKey (count : Nat) {outer : List Frame} (filled : Filled outer) :
      Rests { depth := outer.length + 1, last := some ':', blanks := [' '] }
        (⟨.object, count + 1, true⟩ :: outer)
  | behindValue {last : Char} {stack : List Frame} (ends : Ends last) (filled : Filled stack) :
      Rests { depth := stack.length, last := some last } stack

/-- What a caret knows in front of a value or a key: the blanks that belong there are behind it. -/
structure Ready (width : Nat) (caret : Caret) (stack : List Frame) : Prop where
  outside : caret.region = .outside
  depth : caret.depth = stack.length
  blanks : caret.blanks = caret.blanksInside width
  filled : Filled stack

/-- A comma, if there is an entry already, and a new line make room for the next entry. -/
theorem Rests.separated (rests : Rests caret (⟨scope, count, false⟩ :: outer))
    (indent : options.indent = some width) :
    ∃ later, Passes width caret (separator options count (outer.length + 1)).toList
        (separator (oneLine options) count (outer.length + 1)).toList later ∧
      Ready width later (⟨scope, count + 1, false⟩ :: outer) := by
  have filled_cons (filled : Filled outer) : Filled (⟨scope, count + 1, false⟩ :: outer) :=
    List.forall_mem_cons.mpr ⟨⟨Nat.succ_ne_zero count, rfl⟩, filled⟩
  have line := toList_lineBreak indent (outer.length + 1)
  rw [separator, separator, String.toList_append, String.toList_append, line]
  cases rests with
  | @opened scope bracket outer opens filled =>
    have passes := passes_newLine width (outer.length + 1) (some bracket) (outer.length + 1)
    exact ⟨_, passes, rfl, rfl, by simp [blanksInside, opens], filled_cons filled⟩
  | @behindValue last stack ends filled =>
    obtain ⟨⟨nonzero, -⟩, filled⟩ := List.forall_mem_cons.mp filled
    have comma : Passes width { depth := outer.length + 1, last := some last } [','] [',']
        { depth := outer.length + 1, last := some ',' } := passes_behind width _ ends rfl rfl
    have passes := comma.append (passes_newLine width _ _ (outer.length + 1))
    rw [if_neg nonzero]
    exact ⟨_, passes, rfl, rfl, by simp [blanksInside], filled_cons filled⟩

/-- The bracket that closes an empty container stands behind the one that opens it, and that of any
other on a new line. -/
theorem Rests.closed (rests : Rests caret (⟨scope, count, false⟩ :: outer))
    (indent : options.indent = some width) (closes : isClosing bracket = true) :
    ∃ later, Passes width caret ((ending options count outer.length).toList ++ [bracket])
        ((ending (oneLine options) count outer.length).toList ++ [bracket]) later ∧
      Rests later outer := by
  have ends := ends_of_isClosing closes
  rw [ending_oneLine]
  cases rests with
  | @opened scope opening outer opens filled =>
    have passes : Passes width { depth := outer.length + 1, last := some opening } [bracket] [bracket]
        { depth := outer.length, last := some bracket } :=
      passes_closing closes rfl (if_pos opens).symm
    exact ⟨_, passes, .behindValue ends filled⟩
  | @behindValue last stack behind filled =>
    obtain ⟨⟨nonzero, -⟩, filled⟩ := List.forall_mem_cons.mp filled
    have line := passes_newLine width (outer.length + 1) (some last) outer.length
    have inside : ¬ isOpening last = true := Bool.eq_false_iff.mp behind.1
    have passes : Passes width
        { depth := outer.length + 1, last := some last, blanks := newLine width outer.length }
        [bracket] [bracket] { depth := outer.length, last := some bracket } :=
      passes_closing closes rfl (if_neg inside).symm
    rw [ending, if_neg nonzero, toList_lineBreak indent]
    exact ⟨_, line.append passes, .behindValue ends filled⟩

/-! ### Side by side -/

/-- Two writers with the same containers open, the first of which indents. A caret that passes the
text of the first leaves that of the second, and what it knows then is related to the containers. -/
structure Abreast (width : Nat) (relation : Caret → List Frame → Prop)
    (indented compact : Writer) : Prop where
  indent : indented.options.indent = some width
  sign : indented.options.WritesNumerals
  options : compact.options = oneLine indented.options
  stack : compact.stack = indented.stack
  passes : ∃ caret, Passes width start indented.text.toList compact.text.toList caret ∧
    relation caret indented.stack

theorem abreast_new (indent : options.indent = some width) (sign : options.WritesNumerals) :
    Abreast width Rests (new options) (new (oneLine options)) :=
  ⟨indent, sign, rfl, rfl, start, .nil start, .start⟩

/-- Two writers stay side by side if a caret passes what the first writes, leaves what the second
writes, and knows then what it has to. -/
theorem Abreast.write {relation other : Caret → List Frame → Prop}
    (abreast : Abreast width relation indented compact) {first second : String}
    (writes : ∀ caret, relation caret indented.stack →
      ∃ later, Passes width caret first.toList second.toList later ∧ other later stack) :
    Abreast width other ⟨indented.options, indented.text ++ first, stack⟩
      ⟨compact.options, compact.text ++ second, stack⟩ := by
  obtain ⟨indent, sign, options, -, caret, passes, related⟩ := abreast
  obtain ⟨later, further, others⟩ := writes caret related
  refine ⟨indent, sign, options, rfl, later, ?_, others⟩
  rw [String.toList_append, String.toList_append]
  exact passes.append further

/-- Both writers make room for a value. -/
theorem Begins.abreast (begins : Begins indented ready)
    (abreast : Abreast width Rests indented compact) :
    ∃ after, compact.beginValue = .ok after ∧ Abreast width (Ready width) ready after := by
  have known := abreast
  obtain ⟨plain, text, stack⟩ := compact
  obtain ⟨indent, sign, rfl, rfl, caret, passes, rests⟩ := abreast
  cases begins with
  | first options =>
    have nothing : text = "" := String.toList_eq_nil_iff.mp passes.squeezed_eq.symm
    obtain rfl : start = caret := passes.after_eq
    subst nothing
    exact ⟨_, rfl, indent, sign, rfl, rfl, start, passes, rfl, rfl, rfl, List.forall_mem_nil _⟩
  | member options written count outer =>
    refine ⟨_, rfl, indent, sign, rfl, rfl, caret, passes, ?_⟩
    cases rests with
    | behindKey count filled =>
      exact ⟨rfl, rfl, rfl, List.forall_mem_cons.mpr ⟨⟨Nat.succ_ne_zero _, rfl⟩, filled⟩⟩
    | behindValue ends filled => cases (List.forall_mem_cons.mp filled).1.2
  | element options written count afterKey outer =>
    obtain rfl : afterKey = false := by
      cases rests with
      | opened => rfl
      | behindValue ends filled => exact (List.forall_mem_cons.mp filled).1.2
    exact ⟨_, rfl, known.write fun caret rests => rests.separated indent⟩

/-- Both writers write a value that holds no others. -/
theorem Abreast.solid (abreast : Abreast width (Ready width) indented compact) {text : String}
    (solid : Solid text.toList) :
    Abreast width Rests ⟨indented.options, indented.text ++ text, indented.stack⟩
      ⟨compact.options, compact.text ++ text, compact.stack⟩ := by
  rw [abreast.stack]
  refine abreast.write fun caret ready => ?_
  obtain ⟨last, ends, passes⟩ := solid width caret ready.outside ready.blanks
  rw [ready.depth] at passes
  exact ⟨_, passes, .behindValue ends ready.filled⟩

/-- Both writers open a container. -/
theorem Abreast.opens (abreast : Abreast width (Ready width) indented compact) {text : String}
    (spelled : text.toList = [bracket]) (opens : isOpening bracket = true) (scope : Scope) :
    Abreast width Rests
      ⟨indented.options, indented.text ++ text, ⟨scope, 0, false⟩ :: indented.stack⟩
      ⟨compact.options, compact.text ++ text, ⟨scope, 0, false⟩ :: compact.stack⟩ := by
  rw [abreast.stack]
  refine abreast.write fun caret ready => ?_
  rw [spelled]
  have passes := passes_opening opens ready.outside ready.blanks
  rw [ready.depth] at passes
  exact ⟨_, passes, .opened scope opens ready.filled⟩

/-- Both writers close a container. -/
theorem Abreast.closes {text : String}
    (abreast : Abreast width Rests ⟨options, text, ⟨scope, count, false⟩ :: outer⟩ compact)
    (closing : String) (spelled : closing.toList = [bracket]) (closes : isClosing bracket = true) :
    ∃ after, compact.closeScope scope closing = (after, none) ∧
      Abreast width Rests ⟨options, text ++ ending options count outer.length ++ closing, outer⟩
        after := by
  have written : Abreast width Rests
      ⟨options, text ++ (ending options count outer.length ++ closing), outer⟩
      ⟨compact.options, compact.text ++ (ending compact.options count outer.length ++ closing),
        outer⟩ := by
    refine abreast.write fun caret rests => ?_
    rw [String.toList_append, String.toList_append, spelled, abreast.options]
    exact rests.closed abreast.indent closes
  obtain ⟨plain, other, stack⟩ := compact
  obtain rfl : stack = ⟨scope, count, false⟩ :: outer := abreast.stack
  rw [← String.append_assoc, ← String.append_assoc] at written
  exact ⟨_, closeScope_same plain other scope count outer closing, written⟩

/-- Both writers write a key. -/
theorem Abreast.key {text : String}
    (abreast : Abreast width Rests ⟨options, text, ⟨.object, count, false⟩ :: outer⟩ compact)
    (name : String) :
    Abreast width Rests
      ⟨options, text ++ separator options count (outer.length + 1) ++ Text.quoteJson name ++
        colon options, ⟨.object, count + 1, true⟩ :: outer⟩
      ⟨compact.options, compact.text ++ separator compact.options count (outer.length + 1) ++
        Text.quoteJson name ++ colon compact.options, ⟨.object, count + 1, true⟩ :: outer⟩ := by
  simp only [String.append_assoc]
  refine abreast.write fun caret rests => ?_
  obtain ⟨between, first, ready⟩ := rests.separated abreast.indent
  obtain ⟨last, ends, quoted⟩ := solid_quoteJson name width between ready.outside ready.blanks
  have mark : Passes width { depth := between.depth, last := some last } [':'] [':']
      { depth := between.depth, last := some ':' } := passes_behind width _ ends rfl rfl
  have space : Passes width { depth := between.depth, last := some ':' } [' '] []
      { depth := between.depth, last := some ':', blanks := [' '] } := .blank rfl rfl (.nil _)
  have passes := first.append (quoted.append (mark.append space))
  rw [ready.depth] at passes
  simp only [String.toList_append, abreast.options, colon_oneLine, colon_eq abreast.indent]
  exact ⟨_, passes, .behindKey count (List.forall_mem_cons.mp ready.filled).2⟩

/-- What one writer takes the other takes too, and they stay side by side. -/
theorem Takes.abreast (takes : Takes indented event next)
    (abreast : Abreast width Rests indented compact) :
    ∃ after, compact.send event = (after, none) ∧ Abreast width Rests next after := by
  cases takes with
  | @scalar indented ready event tree known begins =>
    obtain ⟨after, room, both⟩ := begins.abreast abreast
    have written := both.solid (solid_render both.sign known ready.stack.length)
    refine ⟨_, ?_, written⟩
    rw [send_scalar known compact ready.stack.length, scalar_of_begins room,
      ← options_of_begins room, both.options, render_oneLine known]
  | openArray begins =>
    obtain ⟨after, room, both⟩ := begins.abreast abreast
    exact ⟨_, openScope_of_begins room .array "[", both.opens rfl rfl .array⟩
  | openObject begins =>
    obtain ⟨after, room, both⟩ := begins.abreast abreast
    exact ⟨_, openScope_of_begins room .object "\x7b", both.opens rfl rfl .object⟩
  | key options text name count outer =>
    have written := abreast.key name
    obtain ⟨plain, other, stack⟩ := compact
    obtain rfl : stack = ⟨.object, count, false⟩ :: outer := abreast.stack
    exact ⟨_, rfl, written⟩
  | closeArray => exact abreast.closes "]" rfl rfl
  | closeObject => exact abreast.closes "\x7d" rfl rfl

theorem TakesAll.abreast (takes : TakesAll indented events next)
    (abreast : Abreast width Rests indented compact) :
    ∃ after, handler.receiveAll events compact = (after, none) ∧
      Abreast width Rests next after := by
  induction takes generalizing compact with
  | nil => exact ⟨compact, rfl, abreast⟩
  | cons first others inductionHypothesis =>
    obtain ⟨middle, sent, between⟩ := first.abreast abreast
    obtain ⟨after, received, both⟩ := inductionHypothesis between
    refine ⟨after, ?_, both⟩
    rw [Handler.receiveAll, receive_handler, sent]
    exact received

/-! ### The whole text -/

/-- The depth of what a caret knows between events is the number of open containers, and there are
blanks behind it only after a key. -/
theorem Rests.blanks_eq (rests : Rests caret stack) :
    caret.region = .outside ∧ caret.depth = stack.length ∧
      caret.blanks = if caret.last = some ':' then [' '] else [] := by
  cases rests with
  | start => exact ⟨rfl, rfl, rfl⟩
  | @opened scope bracket outer opens filled =>
    refine ⟨rfl, rfl, (if_neg ?_).symm⟩
    rintro ⟨⟩
    cases opens
  | behindKey count filled => exact ⟨rfl, rfl, rfl⟩
  | behindValue ends filled =>
    refine ⟨rfl, rfl, (if_neg ?_).symm⟩
    rintro ⟨⟩
    exact ends.2.2 rfl

theorem Abreast.lines (abreast : Abreast width Rests indented compact) :
    start.squeezed indented.text.toList = compact.text.toList ∧
      Indented width indented.text.toList ∧
      (start.after indented.text.toList).depth = indented.stack.length := by
  obtain ⟨caret, passes, rests⟩ := abreast.passes
  obtain ⟨outside, depth, blanks⟩ := rests.blanks_eq
  refine ⟨passes.squeezed_eq, ⟨passes.blanks_eq, fun _ => ?_⟩, ?_⟩
  · rw [passes.after_eq, blanks]
  · rw [passes.after_eq, depth]

/-- A writer that indents takes the same events as one that does not, and has the same containers
open then. Without the spaces and line feeds outside the string literals its text is that of the
other. In its text every entry of a container starts on a new line that is indented by the depth, a
bracket that closes a container stands on a new line that is indented by the depth outside, or next
to the bracket that opens the container if that is empty, and one space stands behind the colon
after a key; there are no other blanks. A cache of indentations changes nothing of that: each one
that is asked for is there. -/
theorem indented_exact (options : WriteOptions) (sign : options.WritesNumerals) (width : Nat)
    (events : List Event) :
    ((handler.receiveAll events (new (indentedBy width options))).2 = none ↔
      (handler.receiveAll events (new (oneLine options))).2 = none) ∧
    (∀ indented compact : Writer,
      handler.receiveAll events (new (indentedBy width options)) = (indented, none) →
      handler.receiveAll events (new (oneLine options)) = (compact, none) →
        start.squeezed indented.text.toList = compact.text.toList ∧
        Indented width indented.text.toList ∧
        compact.stack = indented.stack ∧
        (start.after indented.text.toList).depth = indented.stack.length) ∧
    ∀ options : WriteOptions, ∃ caching : CachingWriter,
      (CachingWriter.new options).receiveAll? events =
        some (caching, (handler.receiveAll events (new options)).2) ∧
      caching.writer = (handler.receiveAll events (new options)).1 := by
  refine ⟨?_, fun indented compact taken received => ?_, fun options => ?_⟩
  · rw [receiveAll_iff, receiveAll_iff]
  · have starts : Abreast width Rests (new (indentedBy width options)) (new (oneLine options)) :=
      abreast_new rfl sign
    obtain ⟨after, same, abreast⟩ := (takesAll_of_receiveAll taken).abreast starts
    obtain rfl : after = compact := congrArg Prod.fst (same.symm.trans received)
    obtain ⟨squeezed, lines, depth⟩ := abreast.lines
    exact ⟨squeezed, lines, abreast.stack, depth⟩
  · obtain ⟨caching, received, becomes, -⟩ :=
      CachingWriter.receiveAll?_agrees (CachingWriter.sound_new options) events
    exact ⟨caching, received, becomes⟩

/-- The beginning of an object: a string with marks in it, an empty container, and a key whose value
is missing yet. -/
def linedEvents : List Event :=
  [.startObject, .key "a", .startArray, .bool true, .string "[ \"", .endArray 2, .key "b",
    .startObject, .endObject 0, .key "c"]

theorem indented_exact_linedEvents :
    ∃ indented compact : Writer,
      handler.receiveAll linedEvents (new (indentedBy 2 .compact)) = (indented, none) ∧
      handler.receiveAll linedEvents (new .compact) = (compact, none) ∧
      indented.text = "\x7b\n  \"a\": [\n    true,\n    \"[ \\\"\"\n  ],\n  \"b\": \x7b\x7d,\n  \"c\": " ∧
      compact.text = "\x7b\"a\":[true,\"[ \\\"\"],\"b\":\x7b\x7d,\"c\":" ∧
      start.squeezed indented.text.toList = compact.text.toList ∧
      Indented 2 indented.text.toList := by
  obtain ⟨-, lines, -⟩ := indented_exact .compact (.inl rfl) 2 linedEvents
  obtain ⟨squeezed, spaced, -⟩ := lines _ _ rfl rfl
  exact ⟨_, _, rfl, rfl, rfl, rfl, squeezed, spaced⟩

end JsonOverlay.Writer
