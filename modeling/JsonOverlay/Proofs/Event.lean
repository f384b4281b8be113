/-
This file says what the event streams of trees are. A walk over a tree sends the events of one
of its streams, whatever handler receives them.
-/

import JsonOverlay.Event

namespace JsonOverlay

/-! ### Handlers -/

namespace Handler

variable {σ ε : Type} (handler : Handler σ ε)

theorem andThen_assoc (first : σ × Option ε) (second third : σ → σ × Option ε) :
    andThen (andThen first second) third =
      andThen first fun state => andThen (second state) third := by
  obtain ⟨state, _ | refusal⟩ := first <;> rfl

theorem receiveAll_append (first second : List Event) (state : σ) :
    handler.receiveAll (first ++ second) state =
      andThen (handler.receiveAll first state) (handler.receiveAll second) := by
  induction first generalizing state with
  | nil => rfl
  | cons event rest inductionHypothesis =>
    rw [List.cons_append, receiveAll, receiveAll, andThen_assoc]
    exact congrArg (andThen _) (funext inductionHypothesis)

theorem receive_eq (event : Event) : handler.receive event = handler.receiveAll [event] := by
  funext state
  rw [receiveAll]
  obtain ⟨next, _ | refusal⟩ := handler.receive event state <;> rfl

end Handler

namespace Tree

variable {σ ε : Type} (handler : Handler σ ε)

mutual

/-- A walk sends the events of the tree. -/
theorem accept_eq : ∀ tree : Tree, tree.accept handler = handler.receiveAll tree.events
  | null => handler.receive_eq _
  | bool _ => handler.receive_eq _
  | number _ => handler.receive_eq _
  | string _ => handler.receive_eq _
  | array items => by
    funext state
    rw [accept, events, Handler.receiveAll]
    refine congrArg _ (funext fun opened => ?_)
    rw [handler.receiveAll_append, acceptItems_eq items, handler.receive_eq]
  | object members => by
    funext state
    rw [accept, events, Handler.receiveAll]
    refine congrArg _ (funext fun opened => ?_)
    rw [handler.receiveAll_append, acceptMembers_eq members, handler.receive_eq]

theorem acceptItems_eq : ∀ items : List Tree,
    acceptItems handler items = handler.receiveAll (eventsOfItems items)
  | [] => rfl
  | item :: rest => by
    funext state
    rw [acceptItems, eventsOfItems, handler.receiveAll_append, accept_eq item,
      acceptItems_eq rest]

theorem acceptMembers_eq : ∀ members : List (String × Tree),
    acceptMembers handler members = handler.receiveAll (eventsOfMembers members)
  | [] => rfl
  | (name, child) :: rest => by
    funext state
    rw [acceptMembers, eventsOfMembers, Handler.receiveAll]
    refine congrArg _ (funext fun named => ?_)
    rw [handler.receiveAll_append, accept_eq child, acceptMembers_eq rest]

end

end Tree

/-! ### Event streams -/

/-- The tree that an event stands for by itself. -/
def Event.scalar? : Event → Option Tree
  | .null => some .null
  | .bool value => some (.bool value)
  | .int value => some (.number (.int (Int64.ofInt value.toInt)))
  | .uint value => some (.number (.uint (UInt64.ofNat value.toNat)))
  | .int64 value => some (.number (.int value))
  | .uint64 value => some (.number (.uint value))
  | .double value => some (.number (.double value))
  | .string value => some (.string value)
  | .startObject | .key _ | .endObject _ | .startArray | .endArray _ => none

mutual

/-- The event streams of a tree. The counts of closing events may be any. -/
inductive Streams : List Event → Tree → Prop where
  | scalar {event : Event} {tree : Tree} (known : event.scalar? = some tree) : Streams [event] tree
  | array {inside : List Event} {items : List Tree} (count : Nat)
      (ofItems : StreamsItems inside items) :
      Streams (.startArray :: (inside ++ [.endArray count])) (.array items)
  | object {inside : List Event} {members : List (String × Tree)} (count : Nat)
      (ofMembers : StreamsMembers inside members) :
      Streams (.startObject :: (inside ++ [.endObject count])) (.object members)

/-- The event streams of values one after the other. -/
inductive StreamsItems : List Event → List Tree → Prop where
  | nil : StreamsItems [] []
  | cons {first others : List Event} {item : Tree} {items : List Tree} (ofFirst : Streams first item)
      (ofOthers : StreamsItems others items) : StreamsItems (first ++ others) (item :: items)

/-- The event streams of values one after the other, each behind its key. -/
inductive StreamsMembers : List Event → List (String × Tree) → Prop where
  | nil : StreamsMembers [] []
  | cons (name : String) {first others : List Event} {child : Tree}
      {members : List (String × Tree)} (ofFirst : Streams first child)
      (ofOthers : StreamsMembers others members) :
      StreamsMembers (.key name :: (first ++ others)) ((name, child) :: members)

end

/-- An integer that fits 32 bits is announced by an event that stands for it. -/
theorem Event.scalar?_ofNumber (number : Number) :
    (Event.ofNumber number).scalar? = some (.number number) := by
  rcases number with value | value | value
  · rw [Event.ofNumber]
    split
    · rename_i small
      have bounds : -2 ^ 31 ≤ value.toInt ∧ value.toInt ≤ 2 ^ 31 - 1 := of_decide_eq_true small
      have same : (Int32.ofInt value.toInt).toInt = value.toInt :=
        Int32.toInt_ofInt_of_le bounds.1 (by omega)
      rw [scalar?, same, Int64.ofInt_toInt]
    · rfl
  · rw [Event.ofNumber]
    split
    · rename_i small
      have bounds : 0 ≤ (value.toNat : Int) ∧ (value.toNat : Int) ≤ 2 ^ 32 - 1 :=
        of_decide_eq_true small
      have same : (UInt32.ofNat value.toNat).toNat = value.toNat :=
        UInt32.toNat_ofNat_of_lt' (show value.toNat < 2 ^ 32 by omega)
      rw [scalar?, same, UInt64.ofNat_toNat]
    · rfl
  · rfl

mutual

/-- The events of a tree are a stream of it. -/
theorem streams_events : ∀ tree : Tree, Streams tree.events tree
  | .null => .scalar rfl
  | .bool _ => .scalar rfl
  | .number value => .scalar (Event.scalar?_ofNumber value)
  | .string _ => .scalar rfl
  | .array items => .array items.length (streams_eventsOfItems items)
  | .object members => .object members.length (streams_eventsOfMembers members)

theorem streams_eventsOfItems : ∀ items : List Tree,
    StreamsItems (Tree.eventsOfItems items) items
  | [] => .nil
  | item :: rest => .cons (streams_events item) (streams_eventsOfItems rest)

theorem streams_eventsOfMembers : ∀ members : List (String × Tree),
    StreamsMembers (Tree.eventsOfMembers members) members
  | [] => .nil
  | (name, child) :: rest => .cons name (streams_events child) (streams_eventsOfMembers rest)

end

end JsonOverlay
