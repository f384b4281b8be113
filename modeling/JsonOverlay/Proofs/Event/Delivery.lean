/-
This file says which calls a handler receives. The events of a tree are described apart from the
walk over it. A stream of events is delivered in order, up to the first event that the handler
refuses, and that is the last call. A handler without 32-bit integers of its own receives integers
of the same values.
-/

import JsonOverlay.Proofs.Event
import Mathlib.Data.List.Forall2

namespace JsonOverlay

/-! ### The events of a tree -/

/-- The event that announces a number. An integer that fits 32 bits is announced as such. -/
inductive Number.Announces : Number → Event → Prop where
  | int {value : Int64} {small : Int32} (same : small.toInt = value.toInt) :
      Announces (.int value) (.int small)
  | int64 {value : Int64} (large : value.toInt < -2 ^ 31 ∨ 2 ^ 31 ≤ value.toInt) :
      Announces (.int value) (.int64 value)
  | uint {value : UInt64} {small : UInt32} (same : small.toNat = value.toNat) :
      Announces (.uint value) (.uint small)
  | uint64 {value : UInt64} (large : 2 ^ 32 ≤ value.toNat) :
      Announces (.uint value) (.uint64 value)
  | double (value : Double) : Announces (.double value) (.double value)

theorem Number.isInt32_iff {value : Int64} : (Number.int value).isInt32 = true ↔
    -2 ^ 31 ≤ value.toInt ∧ value.toInt ≤ 2 ^ 31 - 1 := decide_eq_true_iff

theorem Number.isUInt32_iff {value : UInt64} : (Number.uint value).isUInt32 = true ↔
    (0 : Int) ≤ value.toNat ∧ (value.toNat : Int) ≤ 2 ^ 32 - 1 := decide_eq_true_iff

/-- Every number is announced by the event that the walk sends for it. -/
theorem Number.announces_ofNumber (number : Number) : number.Announces (Event.ofNumber number) := by
  cases number with
  | int value =>
    rw [Event.ofNumber]
    split
    · rename_i small
      obtain ⟨low, high⟩ := isInt32_iff.mp small
      exact .int (Int32.toInt_ofInt_of_le low (by omega))
    · rename_i large
      rw [isInt32_iff] at large
      exact .int64 (by omega)
  | uint value =>
    rw [Event.ofNumber]
    split
    · rename_i small
      obtain ⟨-, high⟩ := isUInt32_iff.mp small
      exact .uint (UInt32.toNat_ofNat_of_lt' (show value.toNat < 2 ^ 32 by omega))
    · rename_i large
      rw [isUInt32_iff] at large
      exact .uint64 (by omega)
  | double value => exact .double value

/-- A number is announced by one event. -/
theorem Number.announces_iff {number : Number} {event : Event} :
    number.Announces event ↔ event = Event.ofNumber number := by
  constructor
  · intro announced
    cases announced with
    | @int value small same =>
      have fits : (Number.int value).isInt32 = true :=
        decide_eq_true ⟨same ▸ small.le_toInt, same ▸ small.toInt_le⟩
      rw [Event.ofNumber, if_pos fits, ← same, Int32.ofInt_toInt]
    | int64 large =>
      refine (if_neg fun fits => ?_).symm
      have bounds := isInt32_iff.mp fits
      omega
    | @uint value small same =>
      have bound := small.toNat_lt
      have fits : (Number.uint value).isUInt32 = true := isUInt32_iff.mpr (by omega)
      rw [Event.ofNumber, if_pos fits, ← same, UInt32.ofNat_toNat]
    | uint64 large =>
      refine (if_neg fun fits => ?_).symm
      have bounds := isUInt32_iff.mp fits
      omega
    | double value => rfl
  · rintro rfl
    exact number.announces_ofNumber

namespace Tree

mutual

/-- The events of a tree, depth first. A container stands between two events, the second of which
counts its children. -/
inductive Unfolds : Tree → List Event → Prop where
  | null : Unfolds .null [.null]
  | bool (value : Bool) : Unfolds (.bool value) [.bool value]
  | number {value : Number} {event : Event} (announces : value.Announces event) :
      Unfolds (.number value) [event]
  | string (text : String) : Unfolds (.string text) [.string text]
  | array {items : List Tree} {inside : List Event} (ofItems : UnfoldsItems items inside) :
      Unfolds (.array items) (.startArray :: (inside ++ [.endArray items.length]))
  | object {members : List (String × Tree)} {inside : List Event}
      (ofMembers : UnfoldsMembers members inside) :
      Unfolds (.object members) (.startObject :: (inside ++ [.endObject members.length]))

/-- The events of values one after the other. -/
inductive UnfoldsItems : List Tree → List Event → Prop where
  | nil : UnfoldsItems [] []
  | cons {item : Tree} {items : List Tree} {first others : List Event}
      (ofFirst : Unfolds item first) (ofOthers : UnfoldsItems items others) :
      UnfoldsItems (item :: items) (first ++ others)

/-- The events of values one after the other, each behind its key. -/
inductive UnfoldsMembers : List (String × Tree) → List Event → Prop where
  | nil : UnfoldsMembers [] []
  | cons (name : String) {child : Tree} {members : List (String × Tree)} {first others : List Event}
      (ofFirst : Unfolds child first) (ofOthers : UnfoldsMembers members others) :
      UnfoldsMembers ((name, child) :: members) (.key name :: (first ++ others))

end

mutual

theorem unfolds_events : ∀ tree : Tree, tree.Unfolds tree.events
  | null => .null
  | bool value => .bool value
  | number value => .number value.announces_ofNumber
  | string text => .string text
  | array items => .array (unfolds_eventsOfItems items)
  | object members => .object (unfolds_eventsOfMembers members)

theorem unfolds_eventsOfItems : ∀ items : List Tree, UnfoldsItems items (eventsOfItems items)
  | [] => .nil
  | item :: rest => .cons (unfolds_events item) (unfolds_eventsOfItems rest)

theorem unfolds_eventsOfMembers : ∀ members : List (String × Tree),
    UnfoldsMembers members (eventsOfMembers members)
  | [] => .nil
  | (name, child) :: rest => .cons name (unfolds_events child) (unfolds_eventsOfMembers rest)

end

mutual

theorem Unfolds.eq_events {tree : Tree} {stream : List Event} (unfolds : tree.Unfolds stream) :
    stream = tree.events := by
  cases unfolds with
  | null => rfl
  | bool value => rfl
  | number announces => rw [events, Number.announces_iff.mp announces]
  | string text => rfl
  | array ofItems => rw [events, ofItems.eq_events]
  | object ofMembers => rw [events, ofMembers.eq_events]

theorem UnfoldsItems.eq_events {items : List Tree} {stream : List Event}
    (unfolds : UnfoldsItems items stream) : stream = eventsOfItems items := by
  cases unfolds with
  | nil => rfl
  | cons ofFirst ofOthers => rw [eventsOfItems, ofFirst.eq_events, ofOthers.eq_events]

theorem UnfoldsMembers.eq_events {members : List (String × Tree)} {stream : List Event}
    (unfolds : UnfoldsMembers members stream) : stream = eventsOfMembers members := by
  cases unfolds with
  | nil => rfl
  | cons name ofFirst ofOthers => rw [eventsOfMembers, ofFirst.eq_events, ofOthers.eq_events]

end

/-- A tree has one stream of events, which is the one that a walk sends. -/
theorem unfolds_iff {tree : Tree} {stream : List Event} :
    tree.Unfolds stream ↔ stream = tree.events := by
  constructor
  · exact Unfolds.eq_events
  · rintro rfl
    exact tree.unfolds_events

end Tree

/-! ### Calls up to the first that is refused -/

namespace Handler

variable {σ ε : Type} {handler : Handler σ ε} {stream rest calls log : List Event} {event : Event}
  {state next final : σ} {outcome : σ × Option ε}

/-- The handler takes events one after the other, which leads it from one state to another. -/
inductive Takes (handler : Handler σ ε) : List Event → σ → σ → Prop where
  | nil (state : σ) : Takes handler [] state state
  | cons {event : Event} {rest : List Event} {state next final : σ}
      (taken : handler.receive event state = (next, none)) (others : Takes handler rest next final) :
      Takes handler (event :: rest) state final

/-- The calls by which a stream is delivered, and what becomes of the handler. It takes all events,
or it refuses one after it took those before it. Then that is the last call. -/
inductive Delivers (handler : Handler σ ε) (stream : List Event) (state : σ) :
    List Event → σ × Option ε → Prop where
  | taken {final : σ} (takes : handler.Takes stream state final) :
      Delivers handler stream state stream (final, none)
  | refused {before after : List Event} {event : Event} {between final : σ} {refusal : ε}
      (split : stream = before ++ event :: after) (takes : handler.Takes before state between)
      (refuses : handler.receive event between = (final, some refusal)) :
      Delivers handler stream state (before ++ [event]) (final, some refusal)

/-- The handler that notes every call. -/
def logged (handler : Handler σ ε) : Handler (List Event × σ) ε where
  receive event state :=
    let (next, refusal) := handler.receive event state.2
    ((state.1 ++ [event], next), refusal)

theorem receive_logged : handler.logged.receive event (log, state) =
    ((log ++ [event], (handler.receive event state).1), (handler.receive event state).2) := rfl

/-- Noting the calls changes nothing of what becomes of the handler. -/
theorem receiveAll_eq_logged (log : List Event) (state : σ) : handler.receiveAll stream state =
    ((handler.logged.receiveAll stream (log, state)).1.2,
      (handler.logged.receiveAll stream (log, state)).2) := by
  induction stream generalizing log state with
  | nil => rfl
  | cons event rest inductionHypothesis =>
    rw [receiveAll, receiveAll, receive_logged]
    obtain ⟨next, _ | refusal⟩ := handler.receive event state
    · exact inductionHypothesis (log ++ [event]) next
    · rfl

theorem Takes.receiveAll_logged (takes : handler.Takes stream state final) (log : List Event) :
    handler.logged.receiveAll stream (log, state) = ((log ++ stream, final), none) := by
  induction takes generalizing log with
  | nil state => rw [receiveAll, List.append_nil]
  | @cons event rest state next final taken others inductionHypothesis =>
    rw [receiveAll, receive_logged, taken, List.append_cons log event rest]
    exact inductionHypothesis (log ++ [event])

theorem Delivers.receiveAll_logged (delivers : handler.Delivers stream state calls outcome)
    (log : List Event) :
    handler.logged.receiveAll stream (log, state) = ((log ++ calls, outcome.1), outcome.2) := by
  cases delivers with
  | taken takes => exact takes.receiveAll_logged log
  | refused split takes refuses =>
    rw [split, receiveAll_append, takes.receiveAll_logged, andThen, receiveAll, receive_logged,
      refuses, List.append_assoc]
    rfl

theorem Delivers.cons (taken : handler.receive event state = (next, none))
    (delivers : handler.Delivers rest next calls outcome) :
    handler.Delivers (event :: rest) state (event :: calls) outcome := by
  cases delivers with
  | taken takes => exact .taken (.cons taken takes)
  | refused split takes refuses =>
    exact .refused (congrArg (List.cons event) split) (.cons taken takes) refuses

theorem exists_delivers (handler : Handler σ ε) (stream : List Event) (state : σ) :
    ∃ calls outcome, handler.Delivers stream state calls outcome := by
  induction stream generalizing state with
  | nil => exact ⟨[], _, .taken (.nil state)⟩
  | cons event rest inductionHypothesis =>
    rcases answer : handler.receive event state with ⟨next, _ | refusal⟩
    · obtain ⟨calls, outcome, delivers⟩ := inductionHypothesis next
      exact ⟨event :: calls, outcome, delivers.cons answer⟩
    · have split : event :: rest = [] ++ event :: rest := rfl
      exact ⟨_, _, .refused split (.nil state) answer⟩

/-- A stream is delivered in one way, which is to send its events until one is refused. -/
theorem delivers_iff : handler.Delivers stream state calls outcome ↔
    handler.logged.receiveAll stream ([], state) = ((calls, outcome.1), outcome.2) := by
  constructor
  · exact fun delivers => delivers.receiveAll_logged []
  · intro sent
    obtain ⟨others, result, delivers⟩ := handler.exists_delivers stream state
    rw [delivers.receiveAll_logged, List.nil_append, Prod.mk.injEq, Prod.mk.injEq] at sent
    obtain ⟨⟨rfl, same⟩, refusal⟩ := sent
    rwa [← Prod.ext same refusal]

/-! ### Integers of 64 bits only -/

theorem receiveAll_widened (handler : Handler σ ε) (stream : List Event) :
    handler.widened.receiveAll stream = handler.receiveAll (stream.map Event.widen) := by
  induction stream with
  | nil => rfl
  | cons event rest inductionHypothesis =>
    funext state
    rw [receiveAll, inductionHypothesis]
    rfl

end Handler

namespace Event

/-- What arrives at a handler without 32-bit integers of its own. -/
inductive Widens : Event → Event → Prop where
  | int {small : Int32} {value : Int64} (same : value.toInt = small.toInt) :
      Widens (.int small) (.int64 value)
  | uint {small : UInt32} {value : UInt64} (same : value.toNat = small.toNat) :
      Widens (.uint small) (.uint64 value)
  | other {event : Event} (signed : ∀ small, event ≠ .int small)
      (unsigned : ∀ small, event ≠ .uint small) : Widens event event

theorem widens_widen (event : Event) : event.Widens event.widen := by
  cases event with
  | int small =>
    have low := small.le_toInt
    have high := small.toInt_lt
    exact .int (Int64.toInt_ofInt_of_le (by omega) (by omega))
  | uint small =>
    have bound := small.toNat_lt
    exact .uint (UInt64.toNat_ofNat_of_lt' (show small.toNat < 2 ^ 64 by omega))
  | _ => exact .other (by rintro small ⟨⟩) (by rintro small ⟨⟩)

theorem widens_iff {first second : Event} : first.Widens second ↔ second = first.widen := by
  constructor
  · intro widens
    cases widens with
    | int same => exact congrArg int64 (by rw [← same, Int64.ofInt_toInt])
    | uint same => exact congrArg uint64 (by rw [← same, UInt64.ofNat_toNat])
    | other signed unsigned =>
      cases first with
      | int small => exact absurd rfl (signed small)
      | uint small => exact absurd rfl (unsigned small)
      | _ => rfl
  · rintro rfl
    exact first.widens_widen

theorem forall₂_widens_iff {stream arrived : List Event} :
    List.Forall₂ Widens stream arrived ↔ arrived = stream.map widen := by
  constructor
  · intro widens
    induction widens with
    | nil => rfl
    | cons first others inductionHypothesis =>
      rw [widens_iff.mp first, inductionHypothesis, List.map_cons]
  · rintro rfl
    exact List.forall₂_map_right_iff.mpr (List.forall₂_same.mpr fun event _ => event.widens_widen)

end Event

end JsonOverlay
