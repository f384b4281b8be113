/-
This file shows two things about numerals. A numeral that is read up to some place is read
up to that place whatever follows, unless what follows could be part of a numeral. And an
integer is read back from its numeral.
-/

import JsonOverlay.Decimal.Layout
import JsonOverlay.Reader.Numeral
import Mathlib.Data.List.TakeWhile
import Mathlib.Tactic.IntervalCases

namespace JsonOverlay.Reader

/-- What follows is not part of a numeral. -/
def Delimits (after : List Char) : Prop :=
  ∀ next rest, after = next :: rest →
    next.isDigit = false ∧ next ≠ '.' ∧ next ≠ 'e' ∧ next ≠ 'E'

theorem delimits_nil : Delimits [] := fun _ _ absurd => by cases absurd

theorem delimits_cons {next : Char} (rest : List Char) (digit : next.isDigit = false)
    (point : next ≠ '.') (lower : next ≠ 'e') (upper : next ≠ 'E') : Delimits (next :: rest) := by
  rintro other later same
  cases same
  exact ⟨digit, point, lower, upper⟩

variable {negative : Bool} {gathered : Gathered} {text rest after : List Char} {number : Number}

/-- A character that could be part of a numeral does not come from what follows. -/
theorem Delimits.starts {next : Char} (delimits : Delimits after)
    (same : text ++ after = next :: rest)
    (part : next.isDigit = true ∨ next = '.' ∨ next = 'e' ∨ next = 'E') :
    ∃ later, text = next :: later := by
  rcases text with _ | ⟨first, later⟩
  · have ⟨digit, point, lower, upper⟩ := delimits next rest same
    rcases part with isDigit | isPoint | isLower | isUpper
    · rw [digit] at isDigit
      cases isDigit
    · exact absurd isPoint point
    · exact absurd isLower lower
    · exact absurd isUpper upper
  · cases same
    exact ⟨later, rfl⟩

/-! ### What follows a numeral -/

theorem splitDigits_append (text : List Char) (delimits : Delimits after) :
    splitDigits (text ++ after) = ((splitDigits text).1, (splitDigits text).2 ++ after) := by
  induction text with
  | nil =>
    cases after with
    | nil => rfl
    | cons next later =>
      have stops := (delimits next later rfl).1
      simp [splitDigits, stops]
  | cons digit later inductionHypothesis =>
    simp only [splitDigits, Prod.mk.injEq] at inductionHypothesis
    simp only [splitDigits, List.cons_append, List.takeWhile_cons, List.dropWhile_cons]
    cases digit.isDigit with
    | false => rfl
    | true => simp [inductionHypothesis]

theorem finish_append (ok : finish negative gathered text = .ok (number, rest))
    (after : List Char) :
    finish negative gathered (text ++ after) = .ok (number, rest ++ after) := by
  unfold finish at ok ⊢
  cases known : scaled? gathered with
  | none =>
    rw [known] at ok
    cases ok
  | some value =>
    rw [known] at ok
    cases ok
    rfl

theorem readExponentDigits_append {down : Bool} {exponent : Nat} (delimits : Delimits after)
    (ok : readExponentDigits negative gathered down exponent text = .ok (number, rest)) :
    readExponentDigits negative gathered down exponent (text ++ after) =
      .ok (number, rest ++ after) := by
  induction text generalizing exponent with
  | nil =>
    have closed := finish_append ok after
    cases after with
    | nil => exact closed
    | cons next later =>
      rw [List.nil_append, readExponentDigits, if_neg (by simp [(delimits next later rfl).1])]
      exact closed
  | cons next later inductionHypothesis =>
    rw [readExponentDigits] at ok
    rw [List.cons_append, readExponentDigits]
    split at ok
    · rename_i digit
      rw [if_pos digit]
      simp only at ok ⊢
      split at ok
      · rename_i great
        rw [if_pos great]
        split at ok
        · cases ok
        · rename_i small
          cases ok
          rw [if_neg small, splitDigits_append later delimits]
      · rename_i small
        rw [if_neg small]
        exact inductionHypothesis ok
    · rename_i other
      rw [if_neg other]
      exact finish_append ok after

theorem readExponent_append (delimits : Delimits after)
    (ok : readExponent negative gathered text = .ok (number, rest)) :
    readExponent negative gathered (text ++ after) = .ok (number, rest ++ after) := by
  unfold readExponent at ok ⊢
  rcases text with _ | ⟨first, later⟩
  · cases ok
  split at ok
  split at ok
  · cases ok
  · rename_i down _ digit more same
    split at ok
    · rename_i isDigit
      have read := readExponentDigits_append delimits ok
      -- The digit stands behind a sign of either kind or in front.
      split at same
      · rename_i plus
        cases plus
        cases same
        exact (if_pos isDigit).trans read
      · rename_i minus
        cases minus
        cases same
        exact (if_pos isDigit).trans read
      · rename_i noPlus noMinus
        cases same
        have plus : first ≠ '+' := fun same => noPlus later (congrArg (· :: later) same)
        have minus : first ≠ '-' := fun same => noMinus later (congrArg (· :: later) same)
        simpa [plus, minus, isDigit] using read
    · cases ok

theorem readScale_append (delimits : Delimits after)
    (ok : readScale negative gathered text = .ok (number, rest)) :
    readScale negative gathered (text ++ after) = .ok (number, rest ++ after) := by
  unfold readScale at ok ⊢
  split at ok
  · exact readExponent_append delimits ok
  · exact readExponent_append delimits ok
  · rename_i noLower noUpper
    split
    · rename_i lower
      obtain ⟨later, rfl⟩ := delimits.starts lower (by decide)
      exact (noLower later rfl).elim
    · rename_i upper
      obtain ⟨later, rfl⟩ := delimits.starts upper (by decide)
      exact (noUpper later rfl).elim
    · exact finish_append ok after

theorem readDigits_append {digits : List Char} (delimits : Delimits after)
    (ok : readDigits negative digits text = .ok (number, rest)) :
    readDigits negative digits (text ++ after) = .ok (number, rest ++ after) := by
  unfold readDigits at ok ⊢
  simp only at ok ⊢
  split at ok
  · rename_i fraction
    rw [List.cons_append]
    simp only [splitDigits_append fraction delimits]
    split at ok
    · rename_i left _
      unfold blameNext at ok
      split at ok
      · cases ok
      · cases ok
    · rename_i decimals left some split
      rw [split]
      rcases decimals with _ | ⟨digit, decimals⟩
      · exact (some rfl).elim
      · exact readScale_append delimits ok
  · exact readExponent_append delimits ok
  · exact readExponent_append delimits ok
  · rename_i noPoint noLower noUpper
    split
    · rename_i point
      obtain ⟨later, rfl⟩ := delimits.starts point (by decide)
      exact (noPoint later rfl).elim
    · rename_i lower
      obtain ⟨later, rfl⟩ := delimits.starts lower (by decide)
      exact (noLower later rfl).elim
    · rename_i upper
      obtain ⟨later, rfl⟩ := delimits.starts upper (by decide)
      exact (noUpper later rfl).elim
    · split at ok
      · rename_i whole
        cases ok
        rw [if_pos whole]
      · rename_i scaled
        rw [if_neg scaled]
        exact finish_append ok after

/-- A numeral is read up to the same place whatever follows that is not part of one. -/
theorem readNumeral_append (delimits : Delimits after)
    (ok : readNumeral negative text = .ok (number, rest)) :
    readNumeral negative (text ++ after) = .ok (number, rest ++ after) := by
  unfold readNumeral at ok ⊢
  split at ok
  · cases ok
  · rename_i zeroRest
    simp only [List.cons_append]
    split at ok
    · rename_i next later
      split at ok
      · cases ok
      · rename_i other
        simp only [List.cons_append]
        rw [if_neg other]
        exact readDigits_append delimits ok
    · -- The zero ends the text, so no digit may follow.
      have read := readDigits_append delimits ok
      rcases after with _ | ⟨next, later⟩
      · exact read
      · have other := (delimits next later rfl).1
        simpa [other] using read
  · rename_i first later noZero
    split at ok
    · rename_i isDigit
      have read : readDigits negative (splitDigits (first :: later)).1
          ((splitDigits (first :: later)).2 ++ after) = .ok (number, rest ++ after) :=
        readDigits_append delimits ok
      have zero : first ≠ '0' := noZero
      have longer := splitDigits_append (first :: later) delimits
      rw [List.cons_append] at longer ⊢
      simpa [zero, isDigit, longer] using read
    · cases ok

/-! ### Integers -/

/-- Digits are gathered without a loss if the number that they make is small enough. -/
theorem gatherWhole_eq {significand : Nat} (digits : List Char)
    (small : Nat.ofDigitChars 10 digits significand ≤ greatestSignificand) :
    gatherWhole significand digits = ⟨Nat.ofDigitChars 10 digits significand, 0⟩ := by
  induction digits generalizing significand with
  | nil => rfl
  | cons digit rest inductionHypothesis =>
    have longer : Nat.ofDigitChars 10 (digit :: rest) significand =
        Nat.ofDigitChars 10 rest (significand * 10 + digitValue digit) := by
      rw [Nat.ofDigitChars_cons, Nat.mul_comm]
      rfl
    have grows : significand * 10 + digitValue digit ≤
        Nat.ofDigitChars 10 rest (significand * 10 + digitValue digit) := by
      rw [Nat.ofDigitChars_eq_ofDigitChars_zero]
      exact (Nat.le_mul_of_pos_left _ (Nat.pow_pos (by decide))).trans (Nat.le_add_right _ _)
    rw [longer] at small ⊢
    rw [gatherWhole, if_pos (by simp only [fits, decide_eq_true_eq]; omega),
      inductionHypothesis small]

theorem readDigits_nil (digits : List Char)
    (small : Nat.ofDigitChars 10 digits 0 ≤ greatestSignificand) :
    readDigits negative digits [] = .ok (integral negative (Nat.ofDigitChars 10 digits 0), []) := by
  rw [readDigits, gatherWhole_eq digits small]
  · exact if_pos rfl
  all_goals nofun

/-- No zero stands in front of the digits of a number but zero. -/
theorem exists_toDigits_eq_cons {value : Nat} (positive : 0 < value) :
    ∃ first rest, Nat.toDigits 10 value = first :: rest ∧ first ≠ '0' := by
  induction value using Nat.strongRecOn with
  | ind value inductionHypothesis =>
    by_cases small : value < 10
    · refine ⟨value.digitChar, [], Nat.toDigits_of_lt_base small, ?_⟩
      interval_cases value <;> decide
    · have ⟨first, rest, same, other⟩ :=
        inductionHypothesis (value / 10) (by omega) (by omega)
      rw [Nat.toDigits_of_base_le (by decide) (Nat.le_of_not_lt small), same]
      exact ⟨first, rest ++ [(value % 10).digitChar], rfl, other⟩

theorem splitDigits_toDigits (value : Nat) :
    splitDigits (Nat.toDigits 10 value) = (Nat.toDigits 10 value, []) := by
  have digits : ∀ digit ∈ Nat.toDigits 10 value, digit.isDigit = true := fun _ =>
    Nat.isDigit_of_mem_toDigits (by decide) (by decide)
  rw [splitDigits, List.takeWhile_eq_self_iff.mpr digits, List.dropWhile_eq_nil_iff.mpr digits]

/-- An integer is read back from its digits. -/
theorem readNumeral_toDigits {value : Nat} (small : value ≤ greatestSignificand) :
    readNumeral negative (Nat.toDigits 10 value) = .ok (integral negative value, []) := by
  have gathered : Nat.ofDigitChars 10 (Nat.toDigits 10 value) 0 = value :=
    Nat.ofDigitChars_ten_toDigits
  have read : readDigits negative (Nat.toDigits 10 value) [] =
      .ok (integral negative value, []) := by
    rw [readDigits_nil _ (gathered.trans_le small), gathered]
  rcases Nat.eq_zero_or_pos value with rfl | positive
  · exact read
  · have ⟨first, rest, same, other⟩ := exists_toDigits_eq_cons positive
    have digit : first.isDigit = true :=
      Nat.isDigit_of_mem_toDigits (by decide) (by decide) (same ▸ List.mem_cons_self)
    have split := splitDigits_toDigits value
    rw [same] at split read ⊢
    rw [readNumeral, if_pos digit, split]
    · exact read
    · exact other

/-- A negative integer is read as it was, any other as an unsigned one. -/
theorem integral_toInt (value : Int64) :
    integral (decide (value.toInt < 0)) value.toInt.natAbs = (Number.int value).canonical := by
  have low := value.le_toInt
  by_cases negative : value.toInt < 0
  · have size : -(value.toInt.natAbs : Int) = value.toInt := by omega
    rw [Number.canonical, if_pos negative, integral, decide_eq_true negative, if_pos rfl,
      if_pos (by omega), size, Int64.ofInt_toInt]
  · have high := value.toInt_lt
    have size : (value.toInt % 2 ^ 64).toNat = value.toInt.natAbs := by omega
    rw [Number.canonical, if_neg negative, integral, decide_eq_false negative,
      if_neg Bool.false_ne_true, UInt64.ofInt, size]

theorem integral_toNat (value : UInt64) : integral false value.toNat = .uint value :=
  congrArg Number.uint UInt64.ofNat_toNat

end JsonOverlay.Reader
