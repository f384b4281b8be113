/-
This file shows that a writer takes exactly the event streams of values. The stack of a writer
says what events it still waits for. An event that it takes leaves what it waits for behind
that event, and every stack can be closed, so whatever was taken can be completed to the stream
of a value; and a stream is taken event by event and leaves the text of its tree.
-/

import JsonOverlay.Proofs.Writer
import JsonOverlay.Value

namespace JsonOverlay

/-! ### Texts are not empty -/

namespace DecimalLayout

theorem positional_ne_nil (digits : List Char) (point : Int) : positional digits point ≠ [] := by
  dsimp only [positional]
  split
  · exact List.cons_ne_nil _ _
  · split <;> simp

theorem decimal_ne_nil (layout : DecimalLayout) (number : Decimal) :
    layout.decimal number ≠ [] := by
  rw [decimal]
  split
  · exact positional_ne_nil _ _
  · simp [scientific]

theorem integer_ne_empty (value : Int) : integer value ≠ "" := by
  simp [integer, String.ext_iff, Nat.toDigits_ne_nil]

theorem double_ne_empty (layout : DecimalLayout) (number : Double) : layout.double number ≠ "" := by
  dsimp only [double]
  split
  · split
    · split <;> simp [String.ext_iff]
    · split <;> simp [String.ext_iff, layout.decimal_ne_nil]
  · decide

theorem number_ne_empty (layout : DecimalLayout) (number : Number) : layout.number number ≠ "" := by
  rcases number with value | value | value
  · exact integer_ne_empty _
  · exact integer_ne_empty _
  · exact layout.double_ne_empty value

end DecimalLayout

theorem Tree.render_ne_empty (options : WriteOptions) (depth : Nat) (tree : Tree) :
    tree.render options depth ≠ "" := by
  cases tree with
  | null => simp [render]
  | bool value => cases value <;> simp [render]
  | number value => exact options.numbers.number_ne_empty value
  | string value => simp [render, Text.quoteJson, String.ext_iff]
  | array items => simp [render, String.ext_iff]
  | object members => simp [render, String.ext_iff]

namespace Writer

variable {options : WriteOptions} {writer ready next : Writer} {event : Event}
  {events later : List Event} {tree : Tree} {frame : Frame} {outer : List Frame} {refusal : Error}

/-! ### Single events -/

/-- How a writer makes room for a value: for the first one, for one whose key is written, or
for one more element. -/
inductive Begins : Writer → Writer → Prop where
  | first (options : WriteOptions) : Begins ⟨options, "", []⟩ ⟨options, "", []⟩
  | member (options : WriteOptions) (text : String) (count : Nat) (outer : List Frame) :
      Begins ⟨options, text, ⟨.object, count, true⟩ :: outer⟩
        ⟨options, text, ⟨.object, count, false⟩ :: outer⟩
  | element (options : WriteOptions) (text : String) (count : Nat) (afterKey : Bool)
      (outer : List Frame) :
      Begins ⟨options, text, ⟨.array, count, afterKey⟩ :: outer⟩
        ⟨options, text ++ separator options count (outer.length + 1),
          ⟨.array, count + 1, afterKey⟩ :: outer⟩

theorem begins_of_beginValue (ok : writer.beginValue = .ok ready) : Begins writer ready := by
  obtain ⟨options, text, _ | ⟨⟨_ | _, count, _ | _⟩, outer⟩⟩ := writer
  · simp only [beginValue] at ok
    split at ok
    · rename_i empty
      cases ok
      rw [String.isEmpty_iff.mp empty]
      exact .first options
    · cases ok
  all_goals cases ok
  · exact .member options text count outer
  · exact .element options text count false outer
  · exact .element options text count true outer

/-- What a writer becomes with an event that it takes. -/
inductive Takes : Writer → Event → Writer → Prop where
  | scalar {writer ready : Writer} {event : Event} {tree : Tree}
      (known : event.scalar? = some tree) (begins : Begins writer ready) :
      Takes writer event ⟨ready.options,
        ready.text ++ tree.render ready.options ready.stack.length, ready.stack⟩
  | openArray {writer ready : Writer} (begins : Begins writer ready) :
      Takes writer .startArray
        ⟨ready.options, ready.text ++ "[", ⟨.array, 0, false⟩ :: ready.stack⟩
  | openObject {writer ready : Writer} (begins : Begins writer ready) :
      Takes writer .startObject
        ⟨ready.options, ready.text ++ "\x7b", ⟨.object, 0, false⟩ :: ready.stack⟩
  | key (options : WriteOptions) (text name : String) (count : Nat) (outer : List Frame) :
      Takes ⟨options, text, ⟨.object, count, false⟩ :: outer⟩ (.key name)
        ⟨options, text ++ separator options count (outer.length + 1) ++ Text.quoteJson name ++
          colon options, ⟨.object, count + 1, true⟩ :: outer⟩
  | closeArray (options : WriteOptions) (text : String) (count closing : Nat)
      (outer : List Frame) :
      Takes ⟨options, text, ⟨.array, count, false⟩ :: outer⟩ (.endArray closing)
        ⟨options, text ++ ending options count outer.length ++ "]", outer⟩
  | closeObject (options : WriteOptions) (text : String) (count closing : Nat)
      (outer : List Frame) :
      Takes ⟨options, text, ⟨.object, count, false⟩ :: outer⟩ (.endObject closing)
        ⟨options, text ++ ending options count outer.length ++ "\x7d", outer⟩

theorem takes_scalar (known : event.scalar? = some tree) (ok : writer.send event = (next, none)) :
    Takes writer event next := by
  cases begins : writer.beginValue with
  | error refusal =>
    rw [send_scalar known writer 0, scalar, begins] at ok
    cases ok
  | ok ready =>
    rw [send_scalar known writer ready.stack.length, scalar_of_begins begins,
      ← options_of_begins begins] at ok
    cases ok
    exact .scalar known (begins_of_beginValue begins)

theorem exists_begins_of_openScope {scope : Scope} {bracket : String}
    (ok : writer.openScope scope bracket = (next, none)) : ∃ ready, Begins writer ready ∧
      next = ⟨ready.options, ready.text ++ bracket, ⟨scope, 0, false⟩ :: ready.stack⟩ := by
  cases begins : writer.beginValue with
  | error refusal =>
    rw [openScope, begins] at ok
    cases ok
  | ok ready =>
    rw [openScope_of_begins begins] at ok
    cases ok
    exact ⟨ready, begins_of_beginValue begins, rfl⟩

/-- The container is given up if it is not the one to close. -/
theorem closeScope_other {scope : Scope} {bracket text : String}
    (other : ¬ (frame.scope = scope ∧ frame.afterKey = false)) :
    closeScope ⟨options, text, frame :: outer⟩ scope bracket =
      (⟨options, text, outer⟩, some (.unbalancedClose scope)) :=
  if_neg other

theorem exists_frame_of_closeScope {scope : Scope} {bracket : String}
    (ok : writer.closeScope scope bracket = (next, none)) : ∃ options text count outer,
      writer = ⟨options, text, ⟨scope, count, false⟩ :: outer⟩ ∧
        next = ⟨options, text ++ ending options count outer.length ++ bracket, outer⟩ := by
  obtain ⟨options, text, _ | ⟨⟨other, count, afterKey⟩, outer⟩⟩ := writer
  · cases ok
  · by_cases same : other = scope ∧ afterKey = false
    · obtain ⟨rfl, rfl⟩ := same
      rw [closeScope_same] at ok
      cases ok
      exact ⟨options, text, count, outer, rfl, rfl⟩
    · rw [closeScope_other same] at ok
      cases ok

/-- What an event does that is not refused. -/
theorem takes_of_send (ok : writer.send event = (next, none)) : Takes writer event next := by
  cases event with
  | startArray =>
    obtain ⟨ready, begins, rfl⟩ := exists_begins_of_openScope ok
    exact .openArray begins
  | startObject =>
    obtain ⟨ready, begins, rfl⟩ := exists_begins_of_openScope ok
    exact .openObject begins
  | endArray closing =>
    obtain ⟨options, text, count, outer, rfl, rfl⟩ := exists_frame_of_closeScope ok
    exact .closeArray options text count closing outer
  | endObject closing =>
    obtain ⟨options, text, count, outer, rfl, rfl⟩ := exists_frame_of_closeScope ok
    exact .closeObject options text count closing outer
  | key name =>
    obtain ⟨options, text, _ | ⟨⟨_ | _, count, _ | _⟩, outer⟩⟩ := writer
    all_goals cases ok
    exact .key options text name count outer
  | _ => exact takes_scalar rfl ok

/-- What a writer becomes with events that it takes. -/
inductive TakesAll : Writer → List Event → Writer → Prop where
  | nil {writer : Writer} : TakesAll writer [] writer
  | cons {writer middle next : Writer} {event : Event} {events : List Event}
      (first : Takes writer event middle) (others : TakesAll middle events next) :
      TakesAll writer (event :: events) next

theorem takesAll_of_receiveAll (ok : handler.receiveAll events writer = (next, none)) :
    TakesAll writer events next := by
  induction events generalizing writer with
  | nil =>
    cases ok
    exact .nil
  | cons event events inductionHypothesis =>
    rw [Handler.receiveAll, receive_handler] at ok
    rcases sent : writer.send event with ⟨middle, _ | refusal⟩
    · rw [sent] at ok
      exact .cons (takes_of_send sent) (inductionHypothesis ok)
    · rw [sent] at ok
      cases ok

/-! ### What a writer waits for -/

/-- The events that close containers, from the innermost to the outermost: more elements or
members, and the closing event. A key waits for its value before that. -/
inductive Owes : List Frame → List Event → Prop where
  | nothing : Owes [] []
  | array {inside later : List Event} {items : List Tree} {count : Nat} {outer : List Frame}
      (closing : Nat) (ofItems : StreamsItems inside items) (rest : Owes outer later) :
      Owes (⟨.array, count, false⟩ :: outer) (inside ++ .endArray closing :: later)
  | object {inside later : List Event} {members : List (String × Tree)} {count : Nat}
      {outer : List Frame} (closing : Nat) (ofMembers : StreamsMembers inside members)
      (rest : Owes outer later) :
      Owes (⟨.object, count, false⟩ :: outer) (inside ++ .endObject closing :: later)
  | value {first later : List Event} {tree : Tree} {count : Nat} {outer : List Frame}
      (ofFirst : Streams first tree) (rest : Owes (⟨.object, count, false⟩ :: outer) later) :
      Owes (⟨.object, count, true⟩ :: outer) (first ++ later)

/-- What a writer waits for: a value if it is new, and otherwise what closes its containers. -/
def Awaits (writer : Writer) (later : List Event) : Prop :=
  if writer.stack = [] ∧ writer.text = "" then ∃ tree, Streams later tree
  else Owes writer.stack later

theorem awaits_iff (started : writer.stack ≠ [] ∨ writer.text ≠ "") :
    writer.Awaits later ↔ Owes writer.stack later := by
  rw [Awaits, if_neg]
  rintro ⟨nothing, empty⟩
  exact started.elim (· nothing) (· empty)

theorem append_ne_empty {text last : String} (some : last ≠ "") : text ++ last ≠ "" := by
  simp [String.append_eq_empty_iff, some]

/-- A writer that is ready for a value waits for one, and for what it waits for then. -/
theorem Begins.awaits (begins : Begins writer ready) (ofFirst : Streams events tree)
    (rest : Owes ready.stack later) : writer.Awaits (events ++ later) := by
  cases begins with
  | first options =>
    cases rest
    rw [List.append_nil, Awaits, if_pos ⟨rfl, rfl⟩]
    exact ⟨tree, ofFirst⟩
  | member options text count outer =>
    exact (awaits_iff (.inl (List.cons_ne_nil _ _))).mpr (.value ofFirst rest)
  | element options text count afterKey outer =>
    rw [awaits_iff (.inl (List.cons_ne_nil _ _))]
    cases rest with
    | array closing ofItems behind =>
      rw [← List.append_assoc]
      exact .array closing (.cons ofFirst ofItems) behind

/-- An event that is taken comes before what the writer waits for then. -/
theorem Takes.awaits (takes : Takes writer event next) (rest : next.Awaits later) :
    writer.Awaits (event :: later) := by
  cases takes with
  | scalar known begins =>
    rw [awaits_iff (.inr (append_ne_empty (Tree.render_ne_empty _ _ _)))] at rest
    exact begins.awaits (.scalar known) rest
  | openArray begins =>
    rw [awaits_iff (.inl (List.cons_ne_nil _ _))] at rest
    cases rest with
    | array closing ofItems behind =>
      have whole := begins.awaits (.array closing ofItems) behind
      simpa using whole
  | openObject begins =>
    rw [awaits_iff (.inl (List.cons_ne_nil _ _))] at rest
    cases rest with
    | object closing ofMembers behind =>
      have whole := begins.awaits (.object closing ofMembers) behind
      simpa using whole
  | key options text name count outer =>
    rw [awaits_iff (.inl (List.cons_ne_nil _ _))] at rest ⊢
    cases rest with
    | value ofFirst owed =>
      cases owed with
      | object closing ofMembers behind =>
        have whole : Owes (⟨.object, count, false⟩ :: outer) _ :=
          .object closing (.cons name ofFirst ofMembers) behind
        simpa using whole
  | closeArray options text count closing outer =>
    rw [awaits_iff (.inr (append_ne_empty (by decide)))] at rest
    rw [awaits_iff (.inl (List.cons_ne_nil _ _))]
    exact .array closing .nil rest
  | closeObject options text count closing outer =>
    rw [awaits_iff (.inr (append_ne_empty (by decide)))] at rest
    rw [awaits_iff (.inl (List.cons_ne_nil _ _))]
    exact .object closing .nil rest

theorem TakesAll.awaits (takes : TakesAll writer events next) (rest : next.Awaits later) :
    writer.Awaits (events ++ later) := by
  induction takes with
  | nil => exact rest
  | cons first _ inductionHypothesis => exact first.awaits (inductionHypothesis rest)

/-! ### Every writer can be completed -/

/-- Only an object waits for the value of a key. -/
def Sound (writer : Writer) : Prop :=
  ∀ frame ∈ writer.stack, frame.scope = .array → frame.afterKey = false

theorem Begins.sound (begins : Begins writer ready) (sound : writer.Sound) : ready.Sound := by
  cases begins with
  | first => exact sound
  | member =>
    obtain ⟨-, others⟩ := List.forall_mem_cons.mp sound
    exact List.forall_mem_cons.mpr ⟨nofun, others⟩
  | element =>
    obtain ⟨here, others⟩ := List.forall_mem_cons.mp sound
    exact List.forall_mem_cons.mpr ⟨here, others⟩

theorem Takes.sound (takes : Takes writer event next) (sound : writer.Sound) : next.Sound := by
  cases takes with
  | scalar _ begins => exact begins.sound sound
  | openArray begins => exact List.forall_mem_cons.mpr ⟨fun _ => rfl, begins.sound sound⟩
  | openObject begins => exact List.forall_mem_cons.mpr ⟨nofun, begins.sound sound⟩
  | key =>
    obtain ⟨-, others⟩ := List.forall_mem_cons.mp sound
    exact List.forall_mem_cons.mpr ⟨nofun, others⟩
  | closeArray => exact (List.forall_mem_cons.mp sound).2
  | closeObject => exact (List.forall_mem_cons.mp sound).2

theorem TakesAll.sound (takes : TakesAll writer events next) (sound : writer.Sound) :
    next.Sound := by
  induction takes with
  | nil => exact sound
  | cons first _ inductionHypothesis => exact inductionHypothesis (first.sound sound)

theorem streams_null : Streams [.null] .null := .scalar rfl

theorem exists_owes {stack : List Frame}
    (sound : ∀ frame ∈ stack, frame.scope = .array → frame.afterKey = false) :
    ∃ later, Owes stack later := by
  induction stack with
  | nil => exact ⟨[], .nothing⟩
  | cons frame outer inductionHypothesis =>
    obtain ⟨here, others⟩ := List.forall_mem_cons.mp sound
    obtain ⟨later, owes⟩ := inductionHypothesis others
    obtain ⟨scope, count, afterKey⟩ := frame
    cases scope with
    | array =>
      obtain rfl : afterKey = false := here rfl
      exact ⟨_, .array 0 .nil owes⟩
    | object =>
      cases afterKey with
      | false => exact ⟨_, .object 0 .nil owes⟩
      | true => exact ⟨_, .value streams_null (.object 0 .nil owes)⟩

theorem Sound.exists_awaits (sound : writer.Sound) : ∃ later, writer.Awaits later := by
  unfold Awaits
  split
  · exact ⟨_, .null, streams_null⟩
  · exact exists_owes sound

/-! ### Streams and prefixes of streams -/

theorem awaits_new (options : WriteOptions) :
    (new options).Awaits later ↔ ∃ tree, Streams later tree :=
  iff_of_eq (if_pos ⟨rfl, rfl⟩)

theorem sound_new (options : WriteOptions) : (new options).Sound := nofun

/-- A stream is taken as a whole and leaves the text of its tree. -/
theorem receiveAll_new (options : WriteOptions) (streams : Streams events tree) :
    handler.receiveAll events (new options) = (⟨options, tree.render options 0, []⟩, none) := by
  have begins : (new options).beginValue = .ok (new options) := rfl
  rw [receiveAll_streams streams begins]
  exact congrArg (fun text => ((⟨options, text, []⟩ : Writer), none)) String.empty_append

/-- A writer takes the beginnings of event streams and nothing else. -/
theorem receiveAll_iff (options : WriteOptions) (events : List Event) :
    (handler.receiveAll events (new options)).2 = none ↔
      ∃ later tree, Streams (events ++ later) tree := by
  constructor
  · intro taken
    have takes := takesAll_of_receiveAll (Prod.ext rfl taken)
    obtain ⟨later, rest⟩ := (takes.sound (sound_new options)).exists_awaits
    exact ⟨later, (awaits_new options).mp (takes.awaits rest)⟩
  · rintro ⟨later, tree, streams⟩
    have whole := receiveAll_new options streams
    rw [Handler.receiveAll_append] at whole
    rcases received : handler.receiveAll events (new options) with ⟨writer, _ | refusal⟩
    · rfl
    · rw [received] at whole
      cases whole

theorem isComplete_iff : writer.isComplete = true ↔ writer.stack = [] ∧ writer.text ≠ "" := by
  simp [isComplete]

theorem isComplete_render (options : WriteOptions) (tree : Tree) :
    isComplete ⟨options, tree.render options 0, []⟩ = true :=
  isComplete_iff.mpr ⟨rfl, tree.render_ne_empty options 0⟩

/-- A writer takes a whole stream, and nothing else makes a new one complete. -/
theorem isComplete_receiveAll_iff (options : WriteOptions) (events : List Event) :
    (handler.receiveAll events (new options)).2 = none ∧
        (handler.receiveAll events (new options)).1.isComplete = true ↔
      ∃ tree, Streams events tree := by
  constructor
  · rintro ⟨taken, complete⟩
    obtain ⟨closed, some⟩ := isComplete_iff.mp complete
    have takes := takesAll_of_receiveAll (Prod.ext rfl taken)
    have nothing : (handler.receiveAll events (new options)).1.Awaits [] := by
      rw [awaits_iff (.inr some), closed]
      exact .nothing
    have whole := (awaits_new options).mp (takes.awaits nothing)
    rwa [List.append_nil] at whole
  · rintro ⟨tree, streams⟩
    rw [receiveAll_new options streams]
    exact ⟨rfl, isComplete_render options tree⟩

/-- A writer takes exactly the beginnings of event streams, whatever its options, and is complete
after exactly the whole ones. What a value shows is walked in one of its streams, so it is
taken as a whole, and every value has a text. -/
theorem takes_exactly_streams (options : WriteOptions) (events : List Event) :
    ((handler.receiveAll events (new options)).2 = none ↔
      ∃ later tree, Streams (events ++ later) tree) ∧
    ((handler.receiveAll events (new options)).2 = none ∧
        (handler.receiveAll events (new options)).1.isComplete = true ↔
      ∃ tree, Streams events tree) ∧
    (∀ (heap : Heap) (value : Value),
      Streams (value.visible heap).events (value.visible heap) ∧
      ((value.visible heap).accept handler (new options)).2 = none ∧
      ((value.visible heap).accept handler (new options)).1.isComplete = true ∧
      ∃ text, (value.visible heap).write options = .ok text) := by
  refine ⟨receiveAll_iff options events, isComplete_receiveAll_iff options events, ?_⟩
  intro heap value
  have streams := streams_events (value.visible heap)
  rw [Tree.accept_eq, receiveAll_new options streams]
  exact ⟨streams, rfl, isComplete_render options _, _, Tree.write_eq options _⟩

end Writer

end JsonOverlay
