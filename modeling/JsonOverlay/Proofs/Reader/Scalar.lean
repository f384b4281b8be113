/-
This file shows that a value that contains no other is read back from its text. Integers,
strings and words always are; of a double it has to be known that its numeral is read back.
-/

import JsonOverlay.Proofs.Reader.Numeral
import JsonOverlay.Proofs.Reader.Text
import JsonOverlay.Reader

namespace JsonOverlay

open Reader

/-- The numeral of a number is read back, all of it. -/
def DecimalLayout.ReadsBack (layout : DecimalLayout) (number : Number) : Prop :=
  readScalar (layout.number number).toList = .ok (.number number.canonical, [])

namespace Reader

variable {text rest after : List Char} {number : Number}

/-! ### Readings -/

theorem andThen_eq_ok {α β : Type} {reading : Reading α} {next : α → List Char → Reading β}
    {result : β × List Char} (ok : andThen reading next = .ok result) :
    ∃ value rest, reading = .ok (value, rest) ∧ next value rest = .ok result := by
  rcases reading with failure | ⟨value, rest⟩
  · cases ok
  · exact ⟨value, rest, rfl, ok⟩

theorem readWord_eq_ok {α : Type} {value read : α} {word : List Char}
    (ok : readWord value word text = .ok (read, rest)) : read = value ∧ text = word ++ rest := by
  induction word generalizing text with
  | nil =>
    cases ok
    exact ⟨rfl, rfl⟩
  | cons expected word inductionHypothesis =>
    rcases text with _ | ⟨found, later⟩
    · cases ok
    · rw [readWord] at ok
      split at ok
      · rename_i same
        obtain ⟨equal, rfl⟩ := inductionHypothesis ok
        exact ⟨equal, by rw [same]; rfl⟩
      · cases ok

/-! ### Numbers -/

/-- What is read as a number is a numeral, behind a minus sign or not. -/
theorem readNumeral_of_readScalar (ok : readScalar text = .ok (.number number, rest)) :
    (∃ later, text = '-' :: later ∧ readNumeral true later = .ok (number, rest)) ∨
      ∃ first later, text = first :: later ∧ first.isDigit = true ∧
        readNumeral false text = .ok (number, rest) := by
  unfold readScalar at ok
  split at ok
  · cases ok
  · cases (readWord_eq_ok ok).1
  · cases (readWord_eq_ok ok).1
  · cases (readWord_eq_ok ok).1
  · have ⟨value, left, _, same⟩ := andThen_eq_ok ok
    cases same
  · have ⟨value, left, read, same⟩ := andThen_eq_ok ok
    cases same
    exact .inl ⟨_, rfl, read⟩
  · split at ok
    · rename_i digit
      have ⟨value, left, read, same⟩ := andThen_eq_ok ok
      cases same
      exact .inr ⟨_, _, rfl, digit, read⟩
    · cases ok

theorem readScalar_digit {first : Char} (digit : first.isDigit = true) (later : List Char) :
    readScalar (first :: later) =
      andThen (readNumeral false (first :: later)) fun value rest => .ok (.number value, rest) := by
  unfold readScalar
  split
  all_goals rename_i same
  all_goals cases same
  all_goals first
    | cases digit
    | exact if_pos digit

/-- A number is read up to the same place whatever follows that is not part of it. -/
theorem readScalar_append (delimits : Delimits after)
    (ok : readScalar text = .ok (.number number, rest)) :
    readScalar (text ++ after) = .ok (.number number, rest ++ after) := by
  rcases readNumeral_of_readScalar ok with ⟨later, rfl, read⟩ | ⟨first, later, rfl, digit, read⟩
  · rw [List.cons_append, readScalar, readNumeral_append delimits read]
    rfl
  · have longer := readNumeral_append delimits read
    rw [List.cons_append] at longer ⊢
    rw [readScalar_digit digit, longer]
    rfl

theorem readScalar_toDigits {value : Nat} (small : value ≤ greatestSignificand) :
    readScalar (Nat.toDigits 10 value) = .ok (.number (integral false value), []) := by
  have read : readNumeral false (Nat.toDigits 10 value) = _ := readNumeral_toDigits small
  have digits : ∀ digit ∈ Nat.toDigits 10 value, digit.isDigit = true := fun _ =>
    Nat.isDigit_of_mem_toDigits (by decide) (by decide)
  rcases same : Nat.toDigits 10 value with _ | ⟨first, later⟩
  · exact absurd same Nat.toDigits_ne_nil
  · rw [same] at read digits
    rw [readScalar_digit (digits first List.mem_cons_self), read]
    rfl

end Reader

namespace DecimalLayout

variable (layout : DecimalLayout)

theorem readsBack_int (value : Int64) : layout.ReadsBack (.int value) := by
  have low := value.le_toInt
  have high := value.toInt_lt
  have small : value.toInt.natAbs ≤ greatestSignificand := by
    rw [greatestSignificand]
    omega
  have read := integral_toInt value
  change readScalar (integer value.toInt).toList = _
  rw [integer, String.toList_ofList]
  by_cases negative : value.toInt < 0
  · rw [decide_eq_true negative] at read
    rw [if_pos negative, List.singleton_append, readScalar, readNumeral_toDigits small, read]
    rfl
  · rw [decide_eq_false negative] at read
    rw [if_neg negative, List.nil_append, readScalar_toDigits small, read]

theorem readsBack_uint (value : UInt64) : layout.ReadsBack (.uint value) := by
  have high : value.toNat < 2 ^ 64 := value.toNat_lt
  have small : value.toNat ≤ greatestSignificand := by
    rw [greatestSignificand]
    omega
  change readScalar (integer value.toNat).toList = _
  rw [integer, String.toList_ofList, if_neg (by omega), List.nil_append, Int.natAbs_natCast,
    readScalar_toDigits small, integral_toNat]
  rfl

/-- A double whose numeral is read back is finite, as any other is written as `null`. -/
theorem ReadsBack.isFinite {layout : DecimalLayout} {double : Double}
    (known : layout.ReadsBack (.double double)) : double.isFinite = true := by
  by_contra infinite
  have text : layout.double double = "null" := if_neg infinite
  change readScalar (layout.double double).toList = _ at known
  rw [text] at known
  cases known

end DecimalLayout

end JsonOverlay
