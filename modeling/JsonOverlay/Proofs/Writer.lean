/-
This file gives the text of a tree in closed form. A writer that is ready for a value
takes every event of a walk, so no tree is refused; what it appends depends only on the
layout and on how many containers are open.
-/

import JsonOverlay.Proofs.Event
import JsonOverlay.Proofs.Tree.Canonical
import JsonOverlay.Writer

namespace JsonOverlay

/-! ### The text of a tree -/

/-- What stands between the last entry of a container and its closing bracket. -/
def Writer.ending (options : WriteOptions) (count depth : Nat) : String :=
  if count = 0 then "" else lineBreak options depth

namespace Tree

mutual

/-- The text of a tree that stands inside some open containers. -/
def render (options : WriteOptions) (depth : Nat) : Tree → String
  | null => "null"
  | bool value => if value then "true" else "false"
  | number value => options.numbers.number value
  | string value => Text.quoteJson value
  | array items =>
    "[" ++ renderItems options (depth + 1) 0 items ++
      Writer.ending options items.length depth ++ "]"
  | object members =>
    "\x7b" ++ renderMembers options (depth + 1) 0 members ++
      Writer.ending options members.length depth ++ "\x7d"

/-- The text of the elements of an array that come after some others. -/
def renderItems (options : WriteOptions) (depth count : Nat) : List Tree → String
  | [] => ""
  | item :: rest =>
    Writer.separator options count depth ++ item.render options depth ++
      renderItems options depth (count + 1) rest

/-- The text of the members of an object that come after some others. -/
def renderMembers (options : WriteOptions) (depth count : Nat) : List (String × Tree) → String
  | [] => ""
  | (name, child) :: rest =>
    Writer.separator options count depth ++ Text.quoteJson name ++ Writer.colon options ++
      child.render options depth ++ renderMembers options depth (count + 1) rest

end

/-- The text of a member that stands inside some open containers. -/
def renderMember (options : WriteOptions) (depth : Nat) (member : String × Tree) : String :=
  Text.quoteJson member.1 ++ (Writer.colon options ++ member.2.render options depth)

theorem renderMembers_cons (options : WriteOptions) (depth count : Nat) (member : String × Tree)
    (rest : List (String × Tree)) : renderMembers options depth count (member :: rest) =
      Writer.separator options count depth ++ (renderMember options depth member ++
        renderMembers options depth (count + 1) rest) := by
  rw [renderMembers, renderMember]
  simp only [String.append_assoc]

theorem renderItems_cons (options : WriteOptions) (depth count : Nat) (item : Tree)
    (rest : List Tree) : renderItems options depth count (item :: rest) =
      Writer.separator options count depth ++ (item.render options depth ++
        renderItems options depth (count + 1) rest) := by
  rw [renderItems, String.append_assoc]

end Tree

namespace Writer

variable {writer ready : Writer} {event : Event} {tree : Tree}

/-! ### Single events -/

theorem receive_handler (event : Event) (writer : Writer) :
    handler.receive event writer = writer.send event := rfl

/-- A widened integer is the same. -/
theorem toInt_ofInt_toInt32 (value : Int32) : (Int64.ofInt value.toInt).toInt = value.toInt := by
  have low := value.le_toInt
  have high := value.toInt_lt
  exact Int64.toInt_ofInt_of_le (by omega) (by omega)

theorem toNat_ofNat_toNat32 (value : UInt32) :
    (UInt64.ofNat value.toNat).toNat = value.toNat :=
  UInt64.toNat_ofNat_of_lt' (Nat.lt_trans value.toNat_lt (by decide))

/-- An event that is a value by itself is written as that. -/
theorem send_scalar (known : event.scalar? = some tree) (writer : Writer) (depth : Nat) :
    writer.send event = writer.scalar (tree.render writer.options depth) := by
  cases event <;> cases known
  case int value => rw [Tree.render, DecimalLayout.number, toInt_ofInt_toInt32]; rfl
  case uint value => rw [Tree.render, DecimalLayout.number, toNat_ofNat_toNat32]; rfl
  all_goals rfl

theorem scalar_of_begins (begins : writer.beginValue = .ok ready) (text : String) :
    writer.scalar text = ({ ready with text := ready.text ++ text }, none) := by
  rw [scalar, begins]

theorem openScope_of_begins (begins : writer.beginValue = .ok ready) (scope : Scope)
    (bracket : String) : writer.openScope scope bracket =
      (⟨ready.options, ready.text ++ bracket, ⟨scope, 0, false⟩ :: ready.stack⟩, none) := by
  rw [openScope, begins]

theorem closeScope_same (options : WriteOptions) (text : String) (scope : Scope) (count : Nat)
    (outer : List Frame) (bracket : String) :
    closeScope ⟨options, text, ⟨scope, count, false⟩ :: outer⟩ scope bracket =
      (⟨options, text ++ ending options count outer.length ++ bracket, outer⟩, none) :=
  if_pos ⟨rfl, rfl⟩

/-- Making room for a value does not change the layout. -/
theorem options_of_begins (begins : writer.beginValue = .ok ready) :
    ready.options = writer.options := by
  unfold beginValue at begins
  repeat' split at begins
  all_goals cases begins
  all_goals rfl

/-! ### Streams -/

mutual

/-- A writer that is ready for a value takes a whole stream. -/
theorem receiveAll_streams : ∀ {events : List Event} {tree : Tree} {writer ready : Writer},
    Streams events tree → writer.beginValue = .ok ready →
    handler.receiveAll events writer =
      ({ ready with text := ready.text ++ tree.render ready.options ready.stack.length }, none)
  | _, _, writer, ready, .scalar known, begins => by
    rw [← Handler.receive_eq, receive_handler, send_scalar known writer ready.stack.length,
      scalar_of_begins begins, options_of_begins begins]
  | _, _, writer, ready, .array count ofItems, begins => by
    have opened : handler.receive .startArray writer =
        (⟨ready.options, ready.text ++ "[", ⟨.array, 0, false⟩ :: ready.stack⟩, none) :=
      openScope_of_begins begins .array "["
    rw [Handler.receiveAll, opened, Handler.andThen, Handler.receiveAll_append,
      receiveAll_streamsItems ofItems, Handler.andThen, ← Handler.receive_eq,
      receive_handler, send, closeScope_same, Nat.zero_add]
    simp only [Tree.render, String.append_assoc]
  | _, _, writer, ready, .object count ofMembers, begins => by
    have opened : handler.receive .startObject writer =
        (⟨ready.options, ready.text ++ "\x7b", ⟨.object, 0, false⟩ :: ready.stack⟩, none) :=
      openScope_of_begins begins .object "\x7b"
    rw [Handler.receiveAll, opened, Handler.andThen, Handler.receiveAll_append,
      receiveAll_streamsMembers ofMembers, Handler.andThen, ← Handler.receive_eq,
      receive_handler, send, closeScope_same, Nat.zero_add]
    simp only [Tree.render, String.append_assoc]

theorem receiveAll_streamsItems : ∀ {events : List Event} {items : List Tree},
    StreamsItems events items → ∀ {options : WriteOptions} {text : String} {count : Nat}
    {outer : List Frame},
    handler.receiveAll events ⟨options, text, ⟨.array, count, false⟩ :: outer⟩ =
      (⟨options, text ++ Tree.renderItems options (outer.length + 1) count items,
        ⟨.array, count + items.length, false⟩ :: outer⟩, none)
  | _, _, .nil, options, text, count, outer => by
    rw [Tree.renderItems, String.append_empty]
    rfl
  | _, _, .cons ofFirst ofOthers, options, text, count, outer => by
    have begins : beginValue ⟨options, text, ⟨.array, count, false⟩ :: outer⟩ =
        .ok ⟨options, text ++ separator options count (outer.length + 1),
          ⟨.array, count + 1, false⟩ :: outer⟩ := rfl
    rw [Handler.receiveAll_append, receiveAll_streams ofFirst begins, Handler.andThen,
      receiveAll_streamsItems ofOthers, Tree.renderItems]
    simp only [String.append_assoc, List.length_cons, Nat.add_assoc, Nat.add_comm 1]

theorem receiveAll_streamsMembers : ∀ {events : List Event} {members : List (String × Tree)},
    StreamsMembers events members → ∀ {options : WriteOptions} {text : String} {count : Nat}
    {outer : List Frame},
    handler.receiveAll events ⟨options, text, ⟨.object, count, false⟩ :: outer⟩ =
      (⟨options, text ++ Tree.renderMembers options (outer.length + 1) count members,
        ⟨.object, count + members.length, false⟩ :: outer⟩, none)
  | _, _, .nil, options, text, count, outer => by
    rw [Tree.renderMembers, String.append_empty]
    rfl
  | _, _, .cons name ofFirst ofOthers, options, text, count, outer => by
    have announced : handler.receive (.key name) ⟨options, text, ⟨.object, count, false⟩ :: outer⟩ =
        (⟨options, text ++ separator options count (outer.length + 1) ++ Text.quoteJson name ++
          colon options, ⟨.object, count + 1, true⟩ :: outer⟩, none) := rfl
    have begins : beginValue ⟨options, text ++ separator options count (outer.length + 1) ++
          Text.quoteJson name ++ colon options, ⟨.object, count + 1, true⟩ :: outer⟩ =
        .ok ⟨options, text ++ separator options count (outer.length + 1) ++
          Text.quoteJson name ++ colon options, ⟨.object, count + 1, false⟩ :: outer⟩ := rfl
    rw [Handler.receiveAll, announced, Handler.andThen, Handler.receiveAll_append,
      receiveAll_streams ofFirst begins, Handler.andThen, receiveAll_streamsMembers ofOthers,
      Tree.renderMembers]
    simp only [String.append_assoc, List.length_cons, Nat.add_assoc, Nat.add_comm 1]

end

/-- A writer that is ready for a value takes a whole tree. -/
theorem accept_handler (tree : Tree) (begins : writer.beginValue = .ok ready) :
    tree.accept handler writer =
      ({ ready with text := ready.text ++ tree.render ready.options ready.stack.length }, none) := by
  rw [Tree.accept_eq]
  exact receiveAll_streams (streams_events tree) begins

end Writer

/-- The text of an integer does not depend on its representation. -/
theorem DecimalLayout.number_canonical (layout : DecimalLayout) (number : Number) :
    layout.number number.canonical = layout.number number := by
  rcases number with value | value | value
  · rw [Number.canonical]
    split
    · rfl
    · rename_i positive
      exact congrArg DecimalLayout.integer (Number.toNat_ofInt_toInt positive)
  · rfl
  · rfl

namespace Tree

theorem text_eq (options : WriteOptions) (tree : Tree) :
    tree.text options = tree.render options 0 := by
  have begins : (Writer.new options).beginValue = .ok (Writer.new options) := rfl
  rw [text, Writer.accept_handler tree begins]
  exact String.empty_append

/-- No tree is refused. -/
theorem write_eq (options : WriteOptions) (tree : Tree) :
    tree.write options = .ok (tree.text options) := by
  have begins : (Writer.new options).beginValue = .ok (Writer.new options) := rfl
  rw [write, text, Writer.accept_handler tree begins]

/-! ### Other representations of the numbers -/

mutual

/-- The text of a tree does not depend on how its integers are represented. -/
theorem render_canonical (options : WriteOptions) : ∀ (tree : Tree) (depth : Nat),
    tree.canonical.render options depth = tree.render options depth
  | .null, _ => rfl
  | .bool _, _ => rfl
  | .number value, _ => options.numbers.number_canonical value
  | .string _, _ => rfl
  | .array items, depth => by
    rw [canonical, render, render, renderItems_canonicalItems options items, length_canonicalItems]
  | .object members, depth => by
    rw [canonical, render, render, renderMembers_canonicalMembers options members,
      length_canonicalMembers]

theorem renderItems_canonicalItems (options : WriteOptions) : ∀ (items : List Tree)
    (depth count : Nat), renderItems options depth count (canonicalItems items) =
      renderItems options depth count items
  | [], _, _ => rfl
  | item :: rest, depth, count => by
    rw [canonicalItems, renderItems, renderItems, render_canonical options item,
      renderItems_canonicalItems options rest]

theorem renderMembers_canonicalMembers (options : WriteOptions) :
    ∀ (members : List (String × Tree)) (depth count : Nat),
      renderMembers options depth count (canonicalMembers members) =
        renderMembers options depth count members
  | [], _, _ => rfl
  | (name, child) :: rest, depth, count => by
    rw [canonicalMembers, renderMembers, renderMembers, render_canonical options child,
      renderMembers_canonicalMembers options rest]

end

end Tree

end JsonOverlay
