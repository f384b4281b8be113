/-
This file describes the events of a depth-first walk and the handlers that receive them.
A walk stops at the first event that its handler refuses.
-/

import JsonOverlay.Tree

namespace JsonOverlay

/-- One step of a depth-first walk. Integers that fit 32 bits arrive as such; a closing
event carries the number of children of the container it closes. -/
inductive Event where
  | null
  | bool (value : Bool)
  | int (value : Int32)
  | uint (value : UInt32)
  | int64 (value : Int64)
  | uint64 (value : UInt64)
  | double (value : Double)
  | string (value : String)
  | startObject
  | key (name : String)
  | endObject (memberCount : Nat)
  | startArray
  | endArray (elementCount : Nat)
deriving DecidableEq, Repr, Inhabited

namespace Event

/-- The event of a number. -/
def ofNumber : Number → Event
  | .int value => if (Number.int value).isInt32 then int (Int32.ofInt value.toInt) else int64 value
  | .uint value =>
    if (Number.uint value).isUInt32 then uint (UInt32.ofNat value.toNat) else uint64 value
  | .double value => double value

/-- The event as it reaches a handler that knows no 32-bit integers. -/
def widen : Event → Event
  | int value => int64 (Int64.ofInt value.toInt)
  | uint value => uint64 (UInt64.ofNat value.toNat)
  | event => event

end Event

/-- Something that receives events one by one. It may refuse an event, and what it has
become by then is kept either way. -/
structure Handler (σ ε : Type) where
  receive : Event → σ → σ × Option ε

namespace Handler

variable {σ ε : Type}

/-- A handler without 32-bit integers of its own. -/
def widened (handler : Handler σ ε) : Handler σ ε := ⟨fun event => handler.receive event.widen⟩

/-- Carries on only if nothing was refused so far. -/
def andThen (first : σ × Option ε) (next : σ → σ × Option ε) : σ × Option ε :=
  match first with
  | (state, some refusal) => (state, some refusal)
  | (state, none) => next state

/-- Sends events in order until one is refused. -/
def receiveAll (handler : Handler σ ε) : List Event → σ → σ × Option ε
  | [], state => (state, none)
  | event :: rest, state => andThen (handler.receive event state) (receiveAll handler rest)

/-- The handler that keeps the events it receives in order. With a limit it refuses the
event that comes after that many. -/
def recorder (limit : Option Nat) : Handler (List Event) Unit where
  receive event received :=
    if limit = some received.length then (received, some ()) else (received ++ [event], none)

end Handler

namespace Tree

/-! ### The walk -/

mutual

/-- Walks a tree depth first, children in order, each member announced by its key. -/
def accept {σ ε : Type} (handler : Handler σ ε) : Tree → σ → σ × Option ε
  | null => handler.receive .null
  | bool value => handler.receive (.bool value)
  | number value => handler.receive (Event.ofNumber value)
  | string value => handler.receive (.string value)
  | array items => fun state =>
    Handler.andThen (handler.receive .startArray state) fun state =>
      Handler.andThen (acceptItems handler items state) (handler.receive (.endArray items.length))
  | object members => fun state =>
    Handler.andThen (handler.receive .startObject state) fun state =>
      Handler.andThen (acceptMembers handler members state)
        (handler.receive (.endObject members.length))

/-- Walks the elements of an array. -/
def acceptItems {σ ε : Type} (handler : Handler σ ε) : List Tree → σ → σ × Option ε
  | [] => fun state => (state, none)
  | item :: rest => fun state =>
    Handler.andThen (item.accept handler state) (acceptItems handler rest)

/-- Walks the members of an object. -/
def acceptMembers {σ ε : Type} (handler : Handler σ ε) :
    List (String × Tree) → σ → σ × Option ε
  | [] => fun state => (state, none)
  | (name, child) :: rest => fun state =>
    Handler.andThen (handler.receive (.key name) state) fun state =>
      Handler.andThen (child.accept handler state) (acceptMembers handler rest)

end

/-! ### The stream -/

mutual

/-- The events of a tree in the order of a depth-first walk. -/
def events : Tree → List Event
  | null => [.null]
  | bool value => [.bool value]
  | number value => [Event.ofNumber value]
  | string value => [.string value]
  | array items => .startArray :: (eventsOfItems items ++ [.endArray items.length])
  | object members => .startObject :: (eventsOfMembers members ++ [.endObject members.length])

/-- The events of the elements of an array. -/
def eventsOfItems : List Tree → List Event
  | [] => []
  | item :: rest => item.events ++ eventsOfItems rest

/-- The events of the members of an object. -/
def eventsOfMembers : List (String × Tree) → List Event
  | [] => []
  | (name, child) :: rest => .key name :: (child.events ++ eventsOfMembers rest)

end

end Tree

end JsonOverlay
