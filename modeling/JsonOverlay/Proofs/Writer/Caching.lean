/-
This file shows that a cache of indentations changes nothing of what is written. Whatever was cached
at a depth is the indentation of that depth, and the one that a step asks for is there. So a caching
writer takes and refuses the same events as one that makes every indentation anew, and writes the
same text.
-/

import JsonOverlay.Writer.Caching

namespace JsonOverlay

/-! ### What is in the cache -/

namespace Indents

variable {indents : Indents} {width depth : Nat}

/-- The spaces that indent a line at a depth. -/
def spaces (width depth : Nat) : String := String.ofList (List.replicate (depth * width) ' ')

/-- A cache is sound if it has the indentation of the depth at each index, and that of depth zero. -/
structure Sound (width : Nat) (indents : Indents) : Prop where
  unit : indents.unit = spaces width 1
  started : 0 < indents.cache.size
  cached : ∀ depth, (inside : depth < indents.cache.size) → indents.cache[depth] = spaces width depth

theorem spaces_zero (width : Nat) : spaces width 0 = "" := by
  rw [spaces, Nat.zero_mul]
  rfl

theorem spaces_succ (width depth : Nat) :
    spaces width (depth + 1) = spaces width depth ++ spaces width 1 := by
  rw [spaces, spaces, spaces, ← String.ofList_append, List.replicate_append_replicate,
    Nat.succ_mul, Nat.one_mul]

theorem sound_new (options : WriteOptions) : Sound (options.indent.getD 0) (new options) where
  unit := by
    rw [new, spaces, Nat.one_mul]
    cases options.indent <;> rfl
  started := Nat.zero_lt_one
  cached depth inside := by
    obtain rfl : depth = 0 := Nat.lt_one_iff.mp inside
    exact (spaces_zero _).symm

/-- The next indentation is one unit longer than the last one. -/
theorem Sound.grow (sound : indents.Sound width) : indents.grow.Sound width where
  unit := sound.unit
  started := by
    rw [size_grow]
    exact Nat.succ_pos _
  cached depth inside := by
    have last : indents.cache.back? = some (spaces width (indents.cache.size - 1)) := by
      rw [Array.back?_eq_getElem?, Array.getElem?_eq_getElem (Nat.sub_one_lt_of_lt sound.started),
        sound.cached]
    rw [size_grow] at inside
    simp only [Indents.grow, last, Array.getElem_push]
    split
    · rename_i earlier
      exact sound.cached depth earlier
    · rename_i late
      obtain rfl : depth = indents.cache.size := by omega
      rw [sound.unit, ← spaces_succ, Nat.sub_one_add_one (Nat.ne_of_gt sound.started)]

/-- The cache reaches a depth once it has been extended to it. -/
theorem Sound.extend (sound : indents.Sound width) (depth : Nat) :
    (indents.extend depth).Sound width ∧ depth < (indents.extend depth).cache.size := by
  induction indents using extend.induct depth with
  | case1 indents short inductionHypothesis =>
    rw [Indents.extend, if_pos short]
    exact inductionHypothesis sound.grow
  | case2 indents long =>
    rw [Indents.extend, if_neg long]
    exact ⟨sound, Nat.lt_of_not_le long⟩

/-- Without a unit there are no spaces at any depth. -/
theorem Sound.spaces_eq (sound : indents.Sound width) (empty : indents.unit.isEmpty = true)
    (depth : Nat) : spaces width depth = "" := by
  have nothing := String.isEmpty_iff.mp empty
  rw [sound.unit, spaces, Nat.one_mul, ← String.toList_inj, String.toList_ofList] at nothing
  have none : width = 0 := (List.replicate_eq_nil_iff ' ').mp nothing
  rw [spaces, none, Nat.mul_zero]
  rfl

/-- The indentation that is asked for is there. -/
theorem Sound.indentation? (sound : indents.Sound width) (depth : Nat) :
    ∃ later, indents.indentation? depth = some (later, spaces width depth) ∧ later.Sound width := by
  rw [Indents.indentation?]
  split
  · rename_i nothing
    have same : spaces width depth = "" := by
      rcases nothing with rfl | empty
      · exact spaces_zero width
      · exact sound.spaces_eq empty depth
    exact ⟨indents, by rw [same], sound⟩
  · have kept : (if indents.cache.size ≤ depth then indents.extend depth else indents) =
        indents.extend depth := by
      split
      · rfl
      · rename_i long
        rw [Indents.extend, if_neg long]
    obtain ⟨extended, inside⟩ := sound.extend depth
    simp only [kept, Array.getElem?_eq_getElem inside, extended.cached, Option.map_some]
    exact ⟨_, rfl, extended⟩

end Indents

/-! ### Writing with the cache -/

namespace CachingWriter

variable {caching : CachingWriter} {scope : Scope} {bracket text : String}

/-- The writer without the cache. -/
def writer (caching : CachingWriter) : Writer := ⟨caching.options, caching.text, caching.stack⟩

def Sound (caching : CachingWriter) : Prop :=
  caching.indents.Sound (caching.options.indent.getD 0)

/-- A step ends, and leaves a sound cache beside what the writer without the cache has become. -/
def Becomes (step : Option CachingWriter) (writer : Writer) : Prop :=
  ∃ after : CachingWriter, step = some after ∧ after.writer = writer ∧ after.Sound

/-- A step ends as that of the writer without the cache, with the same refusal. -/
def Agrees (step : Option (CachingWriter × Option Error)) (outcome : Writer × Option Error) : Prop :=
  ∃ after : CachingWriter, step = some (after, outcome.2) ∧ after.writer = outcome.1 ∧ after.Sound

theorem lineBreak_eq (options : WriteOptions) {width : Nat} (indent : options.indent = some width)
    (depth : Nat) : Writer.lineBreak options depth = "\n" ++ Indents.spaces width depth := by
  rw [Writer.lineBreak, indent, Indents.spaces, ← String.toList_inj]
  simp only [String.toList_append, String.toList_ofList]
  rfl

theorem breakLine?_becomes (sound : caching.Sound) (depth : Nat) :
    Becomes (caching.breakLine? depth) { caching.writer with
      text := caching.text ++ Writer.lineBreak caching.options depth } := by
  obtain ⟨later, found, kept⟩ := Indents.Sound.indentation? sound depth
  cases indent : caching.options.indent with
  | none =>
    refine ⟨caching, ?_, ?_, sound⟩
    · rw [breakLine?, indent]
      rfl
    · rw [Writer.lineBreak, indent, String.append_empty]
      rfl
  | some width =>
    refine ⟨{ caching with
      text := caching.text ++ "\n" ++ Indents.spaces width depth, indents := later }, ?_, ?_, kept⟩
    · rw [breakLine?, if_pos (Option.isSome_of_eq_some indent), found, indent]
      rfl
    · rw [lineBreak_eq _ indent, ← String.append_assoc]
      rfl

theorem separate?_becomes {frame : Frame} {outer : List Frame} (sound : caching.Sound)
    (stack : caching.stack = frame :: outer) :
    Becomes caching.separate? { caching.writer with
      text := caching.text ++ Writer.separator caching.options frame.count (outer.length + 1)
      stack := { frame with count := frame.count + 1 } :: outer } := by
  let counted : CachingWriter := { caching with
    text := if frame.count = 0 then caching.text else caching.text ++ ","
    stack := { frame with count := frame.count + 1 } :: outer }
  have begins : caching.separate? = counted.breakLine? (outer.length + 1) := by
    rw [separate?, stack]
    rfl
  have written : counted.text ++ Writer.lineBreak caching.options (outer.length + 1) =
      caching.text ++ Writer.separator caching.options frame.count (outer.length + 1) := by
    show (if frame.count = 0 then caching.text else caching.text ++ ",") ++ _ = _
    rw [Writer.separator]
    split
    · rw [String.empty_append]
    · rw [String.append_assoc]
  have kept : counted.Sound := sound
  rw [begins, ← written]
  exact breakLine?_becomes kept (outer.length + 1)

/-- What a writer becomes when it makes room for a value, or refuses it. -/
def begun (writer : Writer) : Writer × Option Error :=
  match writer.beginValue with
  | .error refusal => (writer, some refusal)
  | .ok ready => (ready, none)

theorem beginValue?_agrees (sound : caching.Sound) :
    Agrees caching.beginValue? (begun caching.writer) := by
  obtain ⟨options, text, _ | ⟨⟨_ | _, count, _ | _⟩, outer⟩, indents⟩ := caching
  · cases empty : text.isEmpty
    all_goals
      rw [beginValue?, begun, writer, Writer.beginValue, empty]
      exact ⟨_, rfl, rfl, sound⟩
  · exact ⟨_, rfl, rfl, sound⟩
  · exact ⟨_, rfl, rfl, sound⟩
  all_goals
    obtain ⟨after, entered, same, kept⟩ := separate?_becomes sound rfl
    refine ⟨after, ?_, same, kept⟩
    rw [beginValue?]
    exact congrArg (Option.map fun ready => (ready, none)) entered

/-- What follows once there is room for a value. -/
theorem andThen?_agrees {change : CachingWriter → CachingWriter} {other : Writer → Writer}
    (sound : caching.Sound) (same : ∀ ready : CachingWriter, (change ready).writer = other ready.writer)
    (keeps : ∀ ready : CachingWriter, ready.Sound → (change ready).Sound) :
    Agrees (andThen? caching.beginValue? change)
      (Handler.andThen (begun caching.writer) fun ready => (other ready, none)) := by
  obtain ⟨after, begins, becomes, kept⟩ := beginValue?_agrees sound
  rw [andThen?, begins]
  rcases outcome : begun caching.writer with ⟨ready, _ | refusal⟩
  · rw [outcome] at becomes
    exact ⟨change after, rfl, (same after).trans (congrArg other becomes), keeps after kept⟩
  · rw [outcome] at becomes
    exact ⟨after, rfl, becomes, kept⟩

theorem scalar?_agrees (sound : caching.Sound) (text : String) :
    Agrees (caching.scalar? text) (caching.writer.scalar text) := by
  have steps : caching.writer.scalar text = Handler.andThen (begun caching.writer) fun ready =>
      ({ ready with text := ready.text ++ text }, none) := by
    rw [Writer.scalar, begun]
    cases caching.writer.beginValue <;> rfl
  rw [steps]
  exact andThen?_agrees sound (fun _ => rfl) fun _ kept => kept

theorem openScope?_agrees (sound : caching.Sound) (scope : Scope) (bracket : String) :
    Agrees (caching.openScope? scope bracket) (caching.writer.openScope scope bracket) := by
  have steps : caching.writer.openScope scope bracket =
      Handler.andThen (begun caching.writer) fun ready =>
        ({ ready with text := ready.text ++ bracket, stack := { scope } :: ready.stack }, none) := by
    rw [Writer.openScope, begun]
    cases caching.writer.beginValue <;> rfl
  rw [steps]
  exact andThen?_agrees sound (fun _ => rfl) fun _ kept => kept

theorem closeScope?_agrees (sound : caching.Sound) (scope : Scope) (bracket : String) :
    Agrees (caching.closeScope? scope bracket) (caching.writer.closeScope scope bracket) := by
  obtain ⟨options, text, _ | ⟨frame, outer⟩, indents⟩ := caching
  · exact ⟨_, rfl, rfl, sound⟩
  · have left : Sound ⟨options, text, outer, indents⟩ := sound
    rw [closeScope?, writer, Writer.closeScope]
    dsimp only
    by_cases fits : frame.scope = scope ∧ frame.afterKey = false
    · rw [if_pos fits, if_pos fits]
      by_cases empty : frame.count = 0
      · rw [if_neg (Nat.not_lt.mpr (Nat.le_of_eq empty)), if_pos empty, String.append_empty]
        exact ⟨_, rfl, rfl, left⟩
      · obtain ⟨after, broken, same, kept⟩ := breakLine?_becomes left outer.length
        rw [if_pos (Nat.pos_of_ne_zero empty), if_neg empty, broken]
        refine ⟨{ after with text := after.text ++ bracket }, rfl, ?_, kept⟩
        exact congrArg (fun writer : Writer => { writer with text := writer.text ++ bracket }) same
    · rw [if_neg fits, if_neg fits]
      exact ⟨_, rfl, rfl, left⟩

theorem text_colon (options : WriteOptions) (text : String) :
    (if options.indent.isSome = true then text ++ ":" ++ " " else text ++ ":") =
      text ++ Writer.colon options := by
  rw [Writer.colon]
  split
  · rw [String.append_assoc]
    rfl
  · rfl

theorem key?_agrees (sound : caching.Sound) (name : String) :
    Agrees (caching.key? name) (caching.writer.key name) := by
  obtain ⟨options, text, _ | ⟨⟨_ | _, count, _ | _⟩, outer⟩, indents⟩ := caching
  · exact ⟨_, rfl, rfl, sound⟩
  · obtain ⟨⟨_, _, _, later⟩, entered, same, kept⟩ := separate?_becomes sound rfl
    cases same
    have quoted := text_colon options (text ++ Writer.separator options count (outer.length + 1) ++
      Text.quoteJson name)
    rw [key?]
    dsimp only
    rw [if_pos ⟨rfl, rfl⟩, entered]
    refine ⟨_, rfl, ?_, kept⟩
    exact congrArg (fun text => (⟨options, text, ⟨.object, count + 1, true⟩ :: outer⟩ : Writer)) quoted
  all_goals exact ⟨_, rfl, rfl, sound⟩

/-- A writer with the cache takes and refuses what the one without it does, and becomes the same. -/
theorem send?_agrees (sound : caching.Sound) (event : Event) :
    Agrees (caching.send? event) (caching.writer.send event) := by
  cases event with
  | startObject => exact openScope?_agrees sound .object "\x7b"
  | startArray => exact openScope?_agrees sound .array "["
  | endObject memberCount => exact closeScope?_agrees sound .object "\x7d"
  | endArray elementCount => exact closeScope?_agrees sound .array "]"
  | key name => exact key?_agrees sound name
  | _ => exact scalar?_agrees sound _

/-- What holds of one event holds of a run, which ends with the first event that is refused. -/
theorem receiveAll?_agrees (sound : caching.Sound) (events : List Event) :
    Agrees (caching.receiveAll? events) (Writer.handler.receiveAll events caching.writer) := by
  induction events generalizing caching with
  | nil => exact ⟨caching, rfl, rfl, sound⟩
  | cons event rest inductionHypothesis =>
    obtain ⟨after, sent, becomes, kept⟩ := send?_agrees sound event
    have received : Writer.handler.receive event caching.writer = caching.writer.send event := rfl
    rw [receiveAll?, sent, Handler.receiveAll, received]
    rcases outcome : caching.writer.send event with ⟨next, _ | refusal⟩
    · rw [outcome] at becomes
      obtain rfl : after.writer = next := becomes
      exact inductionHypothesis kept
    · rw [outcome] at becomes
      exact ⟨after, rfl, becomes, kept⟩

theorem sound_new (options : WriteOptions) : (new options).Sound := Indents.sound_new options

end CachingWriter

end JsonOverlay
