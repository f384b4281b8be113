/-
This file writes texts to sinks, which may refuse to take some bytes or to finish.
-/

import JsonOverlay.Parse
import JsonOverlay.Writer

namespace JsonOverlay

/-- Something that takes bytes. What it has become is kept even if it refuses, which it
does for a reason of its own. -/
structure Sink (σ : Type) where
  take : List UInt8 → σ → σ × Option String
  flush : σ → σ × Option String

/-- A sink with room for some bytes. What does not fit is refused for a reason, and so is
finishing if there is a reason for that. -/
def Sink.bounded (room : Nat) (fullReason : String) (flushReason : Option String) :
    Sink (List UInt8) where
  take bytes taken :=
    let left := room - taken.length
    (taken ++ bytes.take left, if left < bytes.length then some fullReason else none)
  flush taken := (taken, flushReason)

namespace Tree

/-- Writes the text of a tree to a sink, which is flushed once it has taken all of it. -/
def writeTo {σ : Type} (sink : Sink σ) (options : WriteOptions) (tree : Tree) (state : σ) :
    σ × Option Error :=
  match tree.write options with
  | .error refusal => (state, some refusal)
  | .ok text =>
    match sink.take (Text.bytesOf text.toList) state with
    | (taken, some reason) => (taken, some (.stream reason))
    | (taken, none) =>
      let (flushed, refusal) := sink.flush taken
      (flushed, refusal.map .stream)

end Tree

end JsonOverlay
