/-
This file overwrites comments and trailing commas in place. Loops go through the bytes of a text
by index, jump from one mark to the next, and look around themselves in the bytes as they have
become. Where a loop would ask for bytes behind the end there is no answer. Each turn that does
not end a loop takes it nearer to the end of the text, so every loop comes to an end.
-/

import JsonOverlay.Location
import JsonOverlay.Reader.Lenient

namespace JsonOverlay.Reader.InPlace

/-! ### Bytes -/

def quote : UInt8 := 34

def backslash : UInt8 := 92

def slash : UInt8 := 47

def star : UInt8 := 42

def comma : UInt8 := 44

def space : UInt8 := 32

/-- The blanks of ASCII: tab, line feed, form feed, carriage return and space. -/
def isBlank (byte : UInt8) : Bool :=
  byte == 9 || byte == 10 || byte == 12 || byte == 13 || byte == space

/-- The two brackets that close. -/
def closes (byte : UInt8) : Bool := byte == 93 || byte == 125

/-- Anything but a bracket that opens or a comma. -/
def endsValue (byte : UInt8) : Bool := byte != 91 && byte != 123 && byte != comma

/-- What stands in place of a byte of a comment. Line breaks stay. -/
def blanked (byte : UInt8) : UInt8 :=
  if byte = Location.lineFeed ∨ byte = Location.carriageReturn then byte else space

/-! ### Access -/

/-- The bytes from an index on, if it does not lie behind the end. -/
def from? (bytes : List UInt8) (start : Nat) : Option (List UInt8) :=
  if start ≤ bytes.length then some (bytes.drop start) else none

/-- The bytes before an index, if it does not lie behind the end. -/
def before? (bytes : List UInt8) (stop : Nat) : Option (List UInt8) :=
  if stop ≤ bytes.length then some (bytes.take stop) else none

/-- Changes the bytes from one index to another, if the second does not lie before the first or
behind the end. -/
def change? (bytes : List UInt8) (start stop : Nat) (change : UInt8 → UInt8) :
    Option (List UInt8) :=
  if start ≤ stop ∧ stop ≤ bytes.length then
    some (bytes.take start ++ ((bytes.take stop).drop start).map change ++ bytes.drop stop)
  else none

theorem length_of_change? {bytes after : List UInt8} {start stop : Nat} {change : UInt8 → UInt8}
    (changed : change? bytes start stop change = some after) : after.length = bytes.length := by
  unfold change? at changed
  split at changed
  · rename_i bounds
    cases changed
    simp only [List.length_append, List.length_map, List.length_drop, List.length_take]
    omega
  · cases changed

/-- Where the first mark that closes a block comment is. -/
def closing? : List UInt8 → Option Nat
  | first :: second :: rest =>
    if first = star ∧ second = slash then some 0 else (closing? (second :: rest)).map (· + 1)
  | _ => none

/-! ### Loops -/

/-- What a turn of a loop comes to. -/
inductive Turn (ρ : Type) where
  | ends (result : ρ)
  | goesOn (bytes : List UInt8) (index : Nat)

/-- A loop over the bytes of a text. It only goes on behind an index inside the text, and the
number of bytes stays. -/
structure Loop (ρ : Type) where
  turn : List UInt8 → Nat → Option (Turn ρ)
  progress : ∀ {bytes index next position}, turn bytes index = some (.goesOn next position) →
    next.length = bytes.length ∧ index < bytes.length ∧ index < position

/-- Takes turn after turn. -/
def Loop.run {ρ : Type} (loop : Loop ρ) (bytes : List UInt8) (index : Nat) : Option ρ :=
  match _turned : loop.turn bytes index with
  | some (.goesOn next position) => loop.run next position
  | some (.ends result) => some result
  | none => none
termination_by bytes.length - index
decreasing_by
  have progress := loop.progress _turned
  omega

/-- Changes bytes and goes on behind them. -/
def overwrite {ρ : Type} (bytes : List UInt8) (start stop : Nat) (change : UInt8 → UInt8) :
    Option (Turn ρ) := do
  return .goesOn (← change? bytes start stop change) stop

theorem of_overwrite {ρ : Type} {bytes next : List UInt8} {start stop position : Nat}
    {change : UInt8 → UInt8}
    (acted : (overwrite bytes start stop change : Option (Turn ρ)) = some (.goesOn next position)) :
    next.length = bytes.length ∧ position = stop := by
  obtain ⟨after, changed, same⟩ := Option.bind_eq_some_iff.mp acted
  cases same
  exact ⟨length_of_change? changed, rfl⟩

/-- Goes on to the first byte from an index on that passes a test, if there is one. -/
def search {α : Type} (bytes : List UInt8) (index : Nat) (test : UInt8 → Bool) (missing : α)
    (found : Nat → Option α) : Option α :=
  if index < bytes.length then do
    match (← from? bytes index).findIdx? test with
    | none => return missing
    | some offset => found (index + offset)
  else return missing

/-- What a search comes to if it does not find what it ends with. -/
theorem exists_of_search {α : Type} {bytes : List UInt8} {index : Nat} {test : UInt8 → Bool}
    {missing result : α} {found : Nat → Option α} (other : result ≠ missing)
    (searched : search bytes index test missing found = some result) :
    ∃ place byte, index ≤ place ∧ place < bytes.length ∧ bytes[place]? = some byte ∧
      test byte = true ∧ found place = some result := by
  unfold search at searched
  split at searched
  · rename_i inside
    rw [from?, if_pos (Nat.le_of_lt inside)] at searched
    cases at? : (bytes.drop index).findIdx? test with
    | none =>
      simp only [Option.bind_eq_bind, Option.bind_some, at?] at searched
      exact (other (Option.some.inj searched).symm).elim
    | some offset =>
      simp only [Option.bind_eq_bind, Option.bind_some, at?] at searched
      obtain ⟨bound, passes, -⟩ := List.findIdx?_eq_some_iff_getElem.mp at?
      rw [List.getElem_drop] at passes
      rw [List.length_drop] at bound
      have inside : index + offset < bytes.length := by omega
      exact ⟨index + offset, bytes[index + offset], Nat.le_add_right _ _, inside,
        List.getElem?_eq_getElem inside, passes, searched⟩
  · exact (other (Option.some.inj searched).symm).elim

/-! ### Strings -/

/-- Looks for the quote that closes a string. A backslash and the byte behind it are passed at
once. -/
def skipTurn (bytes : List UInt8) (index : Nat) : Option (Turn Nat) :=
  search bytes index (fun byte => byte == quote || byte == backslash) (.ends bytes.length)
    fun place => do
      if (← bytes[place]?) = backslash then return .goesOn bytes (place + 2)
      else return .ends (place + 1)

theorem exists_of_skipTurn {bytes : List UInt8} {index : Nat} {turn : Turn Nat}
    (turned : skipTurn bytes index = some turn) :
    turn = .ends bytes.length ∨ ∃ place, index ≤ place ∧ place < bytes.length ∧
      (turn = .goesOn bytes (place + 2) ∨ turn = .ends (place + 1)) := by
  by_cases missing : turn = .ends bytes.length
  · exact .inl missing
  · obtain ⟨place, byte, further, inside, present, -, found⟩ := exists_of_search missing turned
    refine .inr ⟨place, further, inside, ?_⟩
    simp only [present, Option.bind_eq_bind, Option.bind_some] at found
    split at found
    · exact .inl (Option.some.inj found).symm
    · exact .inr (Option.some.inj found).symm

def skipLoop : Loop Nat where
  turn := skipTurn
  progress := by
    intro bytes index next position turned
    rcases exists_of_skipTurn turned with absurd | ⟨place, further, inside, same | absurd⟩
    · cases absurd
    · cases same
      omega
    · cases absurd

/-- The index behind the string that opens at an index. -/
def skipString (bytes : List UInt8) (start : Nat) : Option Nat := skipLoop.run bytes (start + 1)

theorem lt_of_run_skipLoop {bytes : List UInt8} {start index stop : Nat}
    (inside : start < bytes.length) (further : start < index)
    (skipped : skipLoop.run bytes index = some stop) : start < stop := by
  fun_induction skipLoop.run bytes index with
  | case1 bytes index next position turned inductionHypothesis =>
    rcases exists_of_skipTurn turned with absurd | ⟨place, behind, -, same | absurd⟩
    · cases absurd
    · cases same
      exact inductionHypothesis inside (by omega) skipped
    · cases absurd
  | case2 bytes index result turned =>
    cases skipped
    rcases exists_of_skipTurn turned with same | ⟨place, behind, -, absurd | same⟩
    · cases same
      exact inside
    · cases absurd
    · cases same
      omega
  | case3 => cases skipped

/-! ### Passes -/

/-- A pass over a text: what it does at a mark outside of strings, and what it ends with. -/
structure Pass (ρ : Type) where
  mark : UInt8
  result : List UInt8 → ρ
  act : List UInt8 → Nat → Option (Turn ρ)
  progress : ∀ {bytes start next position}, bytes[start]? = some mark →
    act bytes start = some (.goesOn next position) →
      next.length = bytes.length ∧ start < position

namespace Pass

variable {ρ : Type}

/-- Goes on to the next mark, or behind the next string. -/
def turn (pass : Pass ρ) (bytes : List UInt8) (index : Nat) : Option (Turn ρ) :=
  search bytes index (fun byte => byte == quote || byte == pass.mark) (.ends (pass.result bytes))
    fun start => do
      if (← bytes[start]?) = quote then return .goesOn bytes (← skipString bytes start)
      else pass.act bytes start

def loop (pass : Pass ρ) : Loop ρ where
  turn := pass.turn
  progress := by
    intro bytes index next position turned
    obtain ⟨start, byte, further, inside, present, test, found⟩ :=
      exists_of_search (by simp) turned
    simp only [present, Option.bind_eq_bind, Option.bind_some] at found
    split at found
    · obtain ⟨stop, skipped, same⟩ := Option.bind_eq_some_iff.mp found
      cases same
      have behind := lt_of_run_skipLoop inside (Nat.lt_succ_self start) skipped
      omega
    · rename_i other
      have marked : byte = pass.mark := by simpa [other] using test
      obtain ⟨length, behind⟩ := pass.progress (marked ▸ present) found
      omega

end Pass

/-! ### Comments -/

/-- Where the line of an index ends. -/
def lineEnd? (bytes : List UInt8) (start : Nat) : Option Nat := do
  let rest ← from? bytes start
  return ((rest.findIdx? (· == Location.lineFeed)).map (start + ·)).getD bytes.length

/-- A line does not end at a byte that is no line feed. -/
theorem lt_of_lineEnd? {bytes : List UInt8} {start stop : Nat} {byte : UInt8}
    (present : bytes[start]? = some byte) (noFeed : byte ≠ Location.lineFeed)
    (found : lineEnd? bytes start = some stop) : start < stop := by
  obtain ⟨inside, same⟩ := List.getElem?_eq_some_iff.mp present
  rw [lineEnd?, from?, if_pos (Nat.le_of_lt inside)] at found
  cases Option.some.inj found
  cases feed : (bytes.drop start).findIdx? (· == Location.lineFeed) with
  | none => exact inside
  | some offset =>
    obtain ⟨bound, isFeed, -⟩ := List.findIdx?_eq_some_iff_getElem.mp feed
    have later : offset ≠ 0 := by
      rintro rfl
      simp only [List.getElem_drop, Nat.add_zero, same, beq_iff_eq] at isFeed
      exact noFeed isFeed
    show start < start + offset
    omega

/-- Overwrites the comment that starts at a slash. If it is a block comment that is not closed,
the answer is its location. -/
def overwriteComment (bytes : List UInt8) (start : Nat) :
    Option (Turn (Except Location (List UInt8))) := do
  if bytes[start + 1]? = some slash then
    overwrite bytes start (← lineEnd? bytes start) blanked
  else if bytes[start + 1]? = some star then
    match closing? (← from? bytes (start + 2)) with
    | some offset => overwrite bytes start (start + 2 + offset + 2) blanked
    | none => return .ends (.error (Location.next (← before? bytes start)))
  else return .goesOn bytes (start + 1)

def comments : Pass (Except Location (List UInt8)) where
  mark := slash
  result bytes := .ok bytes
  act := overwriteComment
  progress := by
    intro bytes start next position marked acted
    unfold overwriteComment at acted
    split at acted
    · obtain ⟨stop, found, acted⟩ := Option.bind_eq_some_iff.mp acted
      obtain ⟨length, rfl⟩ := of_overwrite acted
      exact ⟨length, lt_of_lineEnd? marked (by decide) found⟩
    · split at acted
      · obtain ⟨rest, -, acted⟩ := Option.bind_eq_some_iff.mp acted
        split at acted
        · obtain ⟨length, rfl⟩ := of_overwrite acted
          exact ⟨length, by omega⟩
        · obtain ⟨read, -, absurd⟩ := Option.bind_eq_some_iff.mp acted
          cases absurd
      · cases acted
        exact ⟨rfl, Nat.lt_succ_self start⟩

/-! ### Trailing commas -/

/-- The next byte that is not blank. -/
def next? (bytes : List UInt8) (start : Nat) : Option UInt8 :=
  (from? bytes start).bind fun rest => rest.find? fun byte => !isBlank byte

/-- The last of some bytes that is not blank. -/
def last? (bytes : List UInt8) : Option UInt8 := bytes.reverse.find? fun byte => !isBlank byte

/-- Overwrites a comma if it stands between a value and a closing bracket. -/
def overwriteComma (bytes : List UInt8) (start : Nat) : Option (Turn (List UInt8)) := do
  let before ← before? bytes start
  if (next? bytes (start + 1)).any closes && (last? before).any endsValue then
    overwrite bytes start (start + 1) fun _ => space
  else return .goesOn bytes (start + 1)

def trailingCommas : Pass (List UInt8) where
  mark := comma
  result bytes := bytes
  act := overwriteComma
  progress := by
    intro bytes start next position _ acted
    obtain ⟨before, -, acted⟩ := Option.bind_eq_some_iff.mp acted
    split at acted
    · obtain ⟨length, rfl⟩ := of_overwrite acted
      exact ⟨length, Nat.lt_succ_self start⟩
    · cases acted
      exact ⟨rfl, Nat.lt_succ_self start⟩

/-! ### Both -/

/-- Overwrites comments if they are allowed. -/
def relaxComments (options : ParseOptions) (bytes : List UInt8) :
    Option (Except Location (List UInt8)) :=
  if options.comments then comments.loop.run bytes 0 else some (.ok bytes)

/-- Overwrites trailing commas if they are allowed. -/
def relaxCommas (options : ParseOptions) (bytes : List UInt8) : Option (List UInt8) :=
  if options.trailingCommas then trailingCommas.loop.run bytes 0 else some bytes

/-- Overwrites what the options allow, comments first. -/
def relax (options : ParseOptions) (bytes : List UInt8) :
    Option (Except Location (List UInt8)) := do
  match ← relaxComments options bytes with
  | .error location => return .error location
  | .ok uncommented => return .ok (← relaxCommas options uncommented)

end JsonOverlay.Reader.InPlace
