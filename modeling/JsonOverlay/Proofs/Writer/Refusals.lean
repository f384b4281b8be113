/-
This file shows what becomes of a writer that refuses an event. It stays as it was, except that
a refused closing event gives up the innermost container, whose bracket stays open in the text.
While no container is given up, refused events make no difference to a run. Once one is, the
text has a bracket too many for good and is no JSON, even if the writer takes it for complete.
-/

import JsonOverlay.Proofs.Grammar.Nesting
import JsonOverlay.Proofs.Writer.Streams

namespace JsonOverlay

open Grammar Reader

/-- Whether an event closes a container. -/
def Event.closes : Event → Bool
  | endObject _ | endArray _ => true
  | _ => false

namespace Writer

variable {options : WriteOptions} {writer ready next : Writer} {event : Event}
  {events : List Event} {tree : Tree} {refusal : Error} {extra : Int}

/-! ### What is left after a refusal -/

/-- What is left of a writer that refuses an event. -/
def afterRefusal (writer : Writer) (event : Event) : Writer :=
  if event.closes then { writer with stack := writer.stack.tail } else writer

/-- Whether a writer gives up a container with an event. -/
def givesUp (writer : Writer) (event : Event) : Bool :=
  event.closes && !writer.stack.isEmpty && (writer.send event).2.isSome

theorem eq_of_scalar_refused {text : String} (refused : writer.scalar text = (next, some refusal)) :
    next = writer := by
  unfold scalar at refused
  split at refused
  all_goals cases refused
  rfl

theorem eq_of_openScope_refused {scope : Scope} {bracket : String}
    (refused : writer.openScope scope bracket = (next, some refusal)) : next = writer := by
  unfold openScope at refused
  split at refused
  all_goals cases refused
  rfl

theorem eq_of_key_refused {name : String} (refused : writer.key name = (next, some refusal)) :
    next = writer := by
  unfold key at refused
  split at refused
  all_goals cases refused
  rfl

theorem eq_of_closeScope_refused {scope : Scope} {bracket : String}
    (refused : writer.closeScope scope bracket = (next, some refusal)) :
    next = { writer with stack := writer.stack.tail } := by
  obtain ⟨options, text, _ | ⟨⟨other, count, afterKey⟩, outer⟩⟩ := writer
  · cases refused
    rfl
  · by_cases same : other = scope ∧ afterKey = false
    · obtain ⟨rfl, rfl⟩ := same
      rw [closeScope_same] at refused
      cases refused
    · rw [closeScope_other same] at refused
      cases refused
      rfl

/-- A refused event leaves the text as it was, and gives up a container if it closes one. -/
theorem send_refused (refused : writer.send event = (next, some refusal)) :
    next = writer.afterRefusal event := by
  cases event with
  | startObject => exact eq_of_openScope_refused refused
  | startArray => exact eq_of_openScope_refused refused
  | key => exact eq_of_key_refused refused
  | endObject => exact eq_of_closeScope_refused refused
  | endArray => exact eq_of_closeScope_refused refused
  | _ => exact eq_of_scalar_refused refused

theorem afterRefusal_eq_iff (refused : writer.send event = (next, some refusal)) :
    writer.afterRefusal event = writer ↔ writer.givesUp event = false := by
  have known : (writer.send event).2.isSome = true := by rw [refused]; rfl
  rw [givesUp, known, afterRefusal]
  obtain ⟨options, text, _ | ⟨frame, outer⟩⟩ := writer
  · cases event.closes <;> simp
  · cases event.closes <;> simp

/-! ### Runs that ignore refusals -/

/-- Sends events in order, whatever is refused. -/
def sendAll : List Event → Writer → Writer
  | [], writer => writer
  | event :: rest, writer => sendAll rest (writer.send event).1

/-- The events that are not refused. -/
def taken : List Event → Writer → List Event
  | [], _ => []
  | event :: rest, writer =>
    match writer.send event with
    | (next, none) => event :: taken rest next
    | (next, some _) => taken rest next

/-- How many containers are given up. -/
def givenUp : List Event → Writer → Nat
  | [], _ => 0
  | event :: rest, writer =>
    (if writer.givesUp event then 1 else 0) + givenUp rest (writer.send event).1

/-- While no container is given up, the events that are taken do all that is done. -/
theorem receiveAll_taken (kept : givenUp events writer = 0) :
    handler.receiveAll (taken events writer) writer = (sendAll events writer, none) := by
  induction events generalizing writer with
  | nil => rfl
  | cons event events inductionHypothesis =>
    rw [givenUp, Nat.add_eq_zero_iff] at kept
    obtain ⟨here, later⟩ := kept
    rcases sent : writer.send event with ⟨next, _ | refusal⟩
    · rw [sent] at later
      rw [taken, sendAll, sent, Handler.receiveAll, receive_handler, sent]
      exact inductionHypothesis later
    · have stays : writer.afterRefusal event = writer := by
        rw [afterRefusal_eq_iff sent]
        simpa using here
      obtain rfl : next = writer := (send_refused sent).trans stays
      rw [sent] at later
      rw [taken, sendAll, sent]
      exact inductionHypothesis later

/-! ### Brackets -/

/-- The text has the bracket of each open container, and some more. -/
def Surplus (extra : Int) (writer : Writer) : Prop :=
  writer.options.WritesNumerals ∧ ∀ rest, balance false (writer.text.toList ++ rest) =
    writer.stack.length + extra + balance false rest

theorem balance_lineBreak (options : WriteOptions) (depth : Nat) (rest : List Char) :
    balance false ((lineBreak options depth).toList ++ rest) = balance false rest :=
  balance_blanks (fun _ member => isBlank_of_mem_lineBreak member) rest

theorem balance_separator (options : WriteOptions) (count depth : Nat) (rest : List Char) :
    balance false ((separator options count depth).toList ++ rest) = balance false rest := by
  rw [separator, String.toList_append, List.append_assoc]
  split
  · exact balance_lineBreak options depth rest
  · have comma : ∀ character ∈ ",".toList, character ≠ '"' ∧ bracketChange character = 0 :=
      List.forall_mem_singleton.mpr ⟨by decide, rfl⟩
    exact (balance_append comma _).trans (balance_lineBreak options depth rest)

theorem balance_ending (options : WriteOptions) (count depth : Nat) (rest : List Char) :
    balance false ((ending options count depth).toList ++ rest) = balance false rest := by
  unfold ending
  split
  · rfl
  · exact balance_lineBreak options depth rest

theorem balance_colon (options : WriteOptions) (rest : List Char) :
    balance false ((colon options).toList ++ rest) = balance false rest := by
  obtain ⟨blanks, colon, blank⟩ := toList_colon options
  rw [colon]
  exact (balance_cons (by decide) _).trans ((Int.zero_add _).trans (balance_blanks blank rest))

theorem balance_quoteJson (text : String) (rest : List Char) :
    balance false ((Text.quoteJson text).toList ++ rest) = balance false rest :=
  have spells : Spells anyNumeral (.string text) (Text.quoteJson text).toList :=
    spells_quoteJson text
  (spells.balance_append rest).trans (Int.zero_add _)

theorem balance_render (sign : options.WritesNumerals) (tree : Tree) (depth : Nat)
    (rest : List Char) :
    balance false ((tree.render options depth).toList ++ rest) = balance false rest := by
  rw [(laid_render sign tree depth rest).balance_eq, change_derives (derives_tokens false _),
    Int.zero_add]

theorem surplus_new (sign : options.WritesNumerals) : Surplus 0 (new options) :=
  ⟨sign, fun _ => (Int.zero_add _).symm⟩

theorem Begins.surplus (begins : Begins writer ready) (known : Surplus extra writer) :
    Surplus extra ready := by
  obtain ⟨sign, known⟩ := known
  cases begins with
  | first => exact ⟨sign, known⟩
  | member => exact ⟨sign, known⟩
  | element =>
    refine ⟨sign, fun rest => ?_⟩
    rw [String.toList_append, List.append_assoc, known, balance_separator]
    rfl

theorem Surplus.opened (known : Surplus extra ready) {bracket : String}
    (opens : ∀ rest, balance false (bracket.toList ++ rest) = 1 + balance false rest)
    (frame : Frame) :
    Surplus extra ⟨ready.options, ready.text ++ bracket, frame :: ready.stack⟩ := by
  obtain ⟨sign, known⟩ := known
  refine ⟨sign, fun rest => ?_⟩
  rw [String.toList_append, List.append_assoc, known, opens, List.length_cons]
  omega

theorem Surplus.closed {text bracket : String} {frame : Frame} {outer : List Frame}
    (known : Surplus extra ⟨options, text, frame :: outer⟩)
    (closes : ∀ rest, balance false (bracket.toList ++ rest) = -1 + balance false rest)
    (count : Nat) :
    Surplus extra ⟨options, text ++ ending options count outer.length ++ bracket, outer⟩ := by
  obtain ⟨sign, known⟩ := known
  refine ⟨sign, fun rest => ?_⟩
  simp only [String.toList_append, List.append_assoc]
  rw [known, balance_ending, closes, List.length_cons]
  omega

theorem Takes.surplus (takes : Takes writer event next) (known : Surplus extra writer) :
    Surplus extra next := by
  cases takes with
  | scalar _ begins =>
    obtain ⟨sign, ready⟩ := begins.surplus known
    refine ⟨sign, fun rest => ?_⟩
    rw [String.toList_append, List.append_assoc, ready, balance_render sign]
  | openArray begins => exact (begins.surplus known).opened (fun _ => rfl) _
  | openObject begins => exact (begins.surplus known).opened (fun _ => rfl) _
  | key =>
    obtain ⟨sign, known⟩ := known
    refine ⟨sign, fun rest => ?_⟩
    simp only [String.toList_append, List.append_assoc]
    rw [known, balance_separator, balance_quoteJson, balance_colon]
    rfl
  | closeArray => exact known.closed (fun _ => rfl) _
  | closeObject => exact known.closed (fun _ => rfl) _

/-- Giving up a container leaves its bracket in the text. -/
theorem Surplus.send (known : Surplus extra writer) (event : Event) :
    Surplus (extra + if writer.givesUp event then 1 else 0) (writer.send event).1 := by
  rcases sent : writer.send event with ⟨next, _ | refusal⟩
  · have keeps : writer.givesUp event = false := by simp [givesUp, sent]
    rw [keeps]
    simpa using (takes_of_send sent).surplus known
  · have left := send_refused sent
    cases gives : writer.givesUp event with
    | false =>
      obtain rfl : next = writer := left.trans ((afterRefusal_eq_iff sent).mpr gives)
      simpa using known
    | true =>
      simp only [givesUp, Bool.and_eq_true] at gives
      obtain ⟨options, text, _ | ⟨frame, outer⟩⟩ := writer
      · simp at gives
      · rw [afterRefusal, if_pos gives.1.1] at left
        subst left
        refine ⟨known.1, fun rest => (known.2 rest).trans ?_⟩
        simp only [List.length_cons, List.tail_cons, if_true]
        omega

theorem Surplus.sendAll (known : Surplus extra writer) (events : List Event) :
    Surplus (extra + givenUp events writer) (sendAll events writer) := by
  induction events generalizing writer extra with
  | nil => simpa [givenUp, Writer.sendAll] using known
  | cons event events inductionHypothesis =>
    have later := inductionHypothesis (known.send event)
    rw [givenUp, Writer.sendAll]
    push_cast
    rwa [Int.add_assoc] at later

/-! ### Complete writers -/

/-- A complete writer that gave up no container holds the text of the tree whose stream it
took. -/
theorem exists_of_isComplete (kept : givenUp events (new options) = 0)
    (complete : (sendAll events (new options)).isComplete = true) :
    ∃ tree, Streams (taken events (new options)) tree ∧
      (sendAll events (new options)).text = tree.render options 0 := by
  have received := receiveAll_taken kept
  obtain ⟨tree, streams⟩ := (isComplete_receiveAll_iff options _).mp
    ⟨congrArg Prod.snd received, (congrArg (isComplete ∘ Prod.fst) received).trans complete⟩
  rw [receiveAll_new options streams] at received
  exact ⟨tree, streams, congrArg (Writer.text ∘ Prod.fst) received.symm⟩

/-- The text of a complete writer has a bracket too many for each container given up. -/
theorem balance_of_isComplete (sign : options.WritesNumerals)
    (complete : (sendAll events (new options)).isComplete = true) :
    balance false (sendAll events (new options)).text.toList = givenUp events (new options) := by
  obtain ⟨closed, -⟩ := isComplete_iff.mp complete
  have counted := ((surplus_new sign).sendAll events).2 []
  rw [closed, List.append_nil] at counted
  simpa [balance] using counted

/-- A refused event leaves a writer as it was, unless it gives up the innermost container. So
long as no container is given up, a run is one of the events that were not refused. A complete
writer holds JSON, namely the text of the tree whose stream it took, if and only if no
container was given up, whatever was refused on the way. -/
theorem refusals_unnoticed_iff (options : WriteOptions) (sign : options.WritesNumerals)
    (events : List Event) :
    (∀ (writer next : Writer) (event : Event) (refusal : Error),
      writer.send event = (next, some refusal) → next = writer.afterRefusal event ∧
        (next = writer ↔ writer.givesUp event = false)) ∧
    (givenUp events (new options) = 0 →
      handler.receiveAll (taken events (new options)) (new options) =
        (sendAll events (new options), none)) ∧
    ((sendAll events (new options)).isComplete = true →
      ((∃ tree, Denotes .json (sendAll events (new options)).text.toList tree) ↔
        givenUp events (new options) = 0) ∧
      (givenUp events (new options) = 0 → ∃ tree, Streams (taken events (new options)) tree ∧
        (sendAll events (new options)).text = tree.render options 0 ∧
        Denotes .json (sendAll events (new options)).text.toList tree.written)) := by
  have whole (kept : givenUp events (new options) = 0)
      (complete : (sendAll events (new options)).isComplete = true) :
      ∃ tree, Streams (taken events (new options)) tree ∧
        (sendAll events (new options)).text = tree.render options 0 ∧
        Denotes .json (sendAll events (new options)).text.toList tree.written := by
    obtain ⟨tree, streams, text⟩ := exists_of_isComplete kept complete
    exact ⟨tree, streams, text, text ▸ denotes_render sign tree 0⟩
  refine ⟨fun writer next event refusal refused => ?_, receiveAll_taken, fun complete => ⟨⟨?_, ?_⟩,
    fun kept => whole kept complete⟩⟩
  · obtain rfl := send_refused refused
    exact ⟨rfl, afterRefusal_eq_iff refused⟩
  · rintro ⟨tree, denotes⟩
    have nothing := denotes.balance_eq rfl
    rw [balance_of_isComplete sign complete] at nothing
    exact Int.natCast_eq_zero.mp nothing
  · intro kept
    obtain ⟨tree, -, -, denotes⟩ := whole kept complete
    exact ⟨_, denotes⟩

/-- An object that a closing array gives up leaves its bracket, which is no JSON, to a writer
that takes it for complete. -/
theorem refusals_unnoticed_openObject :
    WriteOptions.compact.WritesNumerals ∧
      sendAll [.startObject, .endArray 0] (new .compact) = ⟨.compact, "\x7b", []⟩ ∧
      (new .compact).isComplete = false ∧
      (sendAll [.startObject, .endArray 0] (new .compact)).isComplete = true ∧
      givenUp [.startObject, .endArray 0] (new .compact) = 1 ∧
      ¬ ∃ tree, Denotes .json (sendAll [.startObject, .endArray 0] (new .compact)).text.toList
        tree := by
  have complete : (sendAll [.startObject, .endArray 0] (new .compact)).isComplete = true := rfl
  obtain ⟨-, -, whole⟩ :=
    refusals_unnoticed_iff .compact (.inl rfl) [.startObject, .endArray 0]
  refine ⟨.inl rfl, rfl, rfl, complete, rfl, fun denoted => ?_⟩
  exact absurd ((whole complete).1.mp denoted) (by decide)

end Writer

end JsonOverlay
