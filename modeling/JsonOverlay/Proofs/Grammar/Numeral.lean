/-
This file shows that numbers are read from numerals and from nothing else. What is read from
a text is the number of a numeral at its front, and every numeral whose number is in range is
read to its end.
-/

import JsonOverlay.Proofs.Grammar
import JsonOverlay.Proofs.Reader.Numeral

namespace JsonOverlay.Grammar

open Reader

variable {negative down : Bool} {gathered : Gathered} {text rest : List Char} {number : Number}

/-! ### Digits -/

theorem le_ofDigitChars (digits : List Char) (start : Nat) :
    start ≤ Nat.ofDigitChars 10 digits start := by
  induction digits generalizing start with
  | nil => exact Nat.le_refl start
  | cons digit rest inductionHypothesis =>
    have more := inductionHypothesis (10 * start + (digit.toNat - '0'.toNat))
    rw [Nat.ofDigitChars_cons]
    omega

theorem ofDigitChars_digitValue (digit : Char) (digits : List Char) (start : Nat) :
    Nat.ofDigitChars 10 (digit :: digits) start =
      Nat.ofDigitChars 10 digits (start * 10 + digitValue digit) := by
  rw [Nat.ofDigitChars_cons, Nat.mul_comm]
  rfl

theorem splitDigits_spec (text : List Char) :
    text = (splitDigits text).1 ++ (splitDigits text).2 ∧
      ∀ digit ∈ (splitDigits text).1, digit.isDigit = true :=
  ⟨List.takeWhile_append_dropWhile.symm, fun _ member => List.mem_takeWhile_imp member⟩

theorem splitDigits_digits {digits : List Char} (all : ∀ digit ∈ digits, digit.isDigit = true)
    (stops : ∀ next, text.head? = some next → next.isDigit = false) :
    splitDigits (digits ++ text) = (digits, text) := by
  have done : splitDigits text = ([], text) := by
    cases text with
    | nil => rfl
    | cons next later =>
      have other := stops next rfl
      simp [splitDigits, other]
  simp only [splitDigits, Prod.mk.injEq] at done ⊢
  rw [List.takeWhile_append_of_pos all, List.dropWhile_append_of_pos all, done.1, done.2,
    List.append_nil]
  exact ⟨rfl, rfl⟩

/-! ### Exponents -/

theorem finish_eq_ok (ok : finish negative gathered text = .ok (number, rest)) :
    (scaled? gathered).map (signed negative) = some number ∧ text = rest := by
  unfold finish at ok
  split at ok
  · rename_i known
    cases ok
    exact ⟨by rw [known]; rfl, rfl⟩
  · cases ok

theorem finish_of_scaled? (known : (scaled? gathered).map (signed negative) = some number)
    (text : List Char) : finish negative gathered text = .ok (number, text) := by
  obtain ⟨value, scaled, rfl⟩ := Option.map_eq_some_iff.mp known
  rw [finish, scaled]

theorem raised?_of_small {size : Nat} (small : size ≤ greatestExponent) :
    raised? negative gathered down size = (scaled? ⟨gathered.significand,
      max (-2 ^ 31) (min (2 ^ 31 - 1)
        (if down then gathered.exponent - size else gathered.exponent + size))⟩).map
          (signed negative) := by
  rw [raised?, if_neg (Nat.not_lt.mpr small)]

/-- The digits of an exponent are read up to the first character that is none. -/
theorem exists_of_readExponentDigits {size : Nat} (small : size ≤ greatestExponent)
    (ok : readExponentDigits negative gathered down size text = .ok (number, rest)) :
    ∃ digits, text = digits ++ rest ∧ (∀ digit ∈ digits, digit.isDigit = true) ∧
      raised? negative gathered down (Nat.ofDigitChars 10 digits size) = some number := by
  induction text generalizing size with
  | nil =>
    obtain ⟨known, rfl⟩ := finish_eq_ok ok
    exact ⟨[], rfl, nofun, (raised?_of_small small).trans known⟩
  | cons next later inductionHypothesis =>
    rw [readExponentDigits] at ok
    split at ok
    · rename_i digit
      simp only at ok
      split at ok
      · rename_i great
        -- The number is settled; the rest of the digits is passed over.
        split at ok
        · cases ok
        · rename_i settled
          cases ok
          obtain ⟨parts, digits⟩ := splitDigits_spec later
          refine ⟨next :: (splitDigits later).1, congrArg (next :: ·) parts, ?_, ?_⟩
          · exact List.forall_mem_cons.mpr ⟨digit, digits⟩
          · rw [ofDigitChars_digitValue, raised?, if_pos (great.trans_le (le_ofDigitChars _ _)),
              if_neg settled]
      · rename_i fits
        obtain ⟨digits, rfl, all, known⟩ := inductionHypothesis (Nat.not_lt.mp fits) ok
        refine ⟨next :: digits, rfl, List.forall_mem_cons.mpr ⟨digit, all⟩, ?_⟩
        rw [ofDigitChars_digitValue, known]
    · obtain ⟨known, rfl⟩ := finish_eq_ok ok
      exact ⟨[], rfl, nofun, (raised?_of_small small).trans known⟩

theorem readExponentDigits_digits {digits : List Char} {size : Nat}
    (all : ∀ digit ∈ digits, digit.isDigit = true) (small : size ≤ greatestExponent)
    (known : raised? negative gathered down (Nat.ofDigitChars 10 digits size) = some number) :
    readExponentDigits negative gathered down size digits = .ok (number, []) := by
  induction digits generalizing size with
  | nil =>
    refine finish_of_scaled? ?_ []
    rw [← raised?_of_small small]
    exact known
  | cons digit digits inductionHypothesis =>
    obtain ⟨isDigit, others⟩ := List.forall_mem_cons.mp all
    rw [ofDigitChars_digitValue] at known
    rw [readExponentDigits, if_pos isDigit]
    by_cases great : greatestExponent < size * 10 + digitValue digit
    · rw [raised?, if_pos (great.trans_le (le_ofDigitChars _ _))] at known
      simp only [if_pos great]
      split at known
      · cases known
      · rename_i settled
        have nothing : (splitDigits digits).2 = [] := List.dropWhile_eq_nil_iff.mpr others
        rw [if_neg settled, nothing, Option.some.inj known]
    · simp only [if_neg great]
      exact inductionHypothesis others (Nat.not_lt.mp great) known

theorem digitValue_le {digit : Char} (isDigit : digit.isDigit = true) :
    digitValue digit ≤ greatestExponent := by
  have bounds : digit.toNat ≤ 57 := by
    simp only [Char.isDigit, Bool.and_eq_true, decide_eq_true_eq] at isDigit
    exact isDigit.2
  have code : '0'.toNat = 48 := rfl
  rw [digitValue, greatestExponent]
  omega

theorem readExponent_sign (minus : Option Bool) {first : Char} (isDigit : first.isDigit = true)
    (later : List Char) : readExponent negative gathered (signText minus ++ first :: later) =
      readExponentDigits negative gathered (minus.getD false) (digitValue first) later := by
  unfold readExponent
  rcases minus with _ | _ | _
  · -- A digit is no sign.
    have plus : first ≠ '+' := by rintro rfl; cases isDigit
    have minus : first ≠ '-' := by rintro rfl; cases isDigit
    simp [signText, plus, minus, isDigit]
  · simp [signText, isDigit]
  · simp [signText, isDigit]

theorem exists_of_readExponent (capital : Bool)
    (ok : readExponent negative gathered text = .ok (number, rest)) :
    ∃ exponent, (if capital then 'E' else 'e') :: text = exponentText (some exponent) ++ rest ∧
      scaledBy? negative gathered (some exponent) = some number := by
  have parts : ∃ minus first later, text = signText minus ++ first :: later ∧
      first.isDigit = true := by
    unfold readExponent at ok
    simp only at ok
    split at ok
    · cases ok
    · rename_i _ first later same
      split at ok
      · rename_i isDigit
        split at same
        · cases same
          exact ⟨some false, first, later, rfl, isDigit⟩
        · cases same
          exact ⟨some true, first, later, rfl, isDigit⟩
        · cases same
          exact ⟨none, first, later, rfl, isDigit⟩
      · cases ok
  obtain ⟨minus, first, later, rfl, isDigit⟩ := parts
  rw [readExponent_sign minus isDigit] at ok
  obtain ⟨digits, rfl, all, known⟩ := exists_of_readExponentDigits (digitValue_le isDigit) ok
  refine ⟨⟨capital, minus, ⟨first :: digits, List.cons_ne_nil _ _,
    List.forall_mem_cons.mpr ⟨isDigit, all⟩⟩⟩, ?_, ?_⟩
  · simp only [exponentText, List.cons_append, List.append_assoc]
  · rw [scaledBy?, ofDigitChars_digitValue, Nat.zero_mul, Nat.zero_add]
    exact known

theorem readExponent_text {exponent : Exponent}
    (known : scaledBy? negative gathered (some exponent) = some number) :
    readExponent negative gathered (signText exponent.minus ++ exponent.digits.characters) =
      .ok (number, []) := by
  obtain ⟨capital, minus, ⟨characters, nonempty, all⟩⟩ := exponent
  obtain ⟨first, later, rfl⟩ := List.exists_cons_of_ne_nil nonempty
  obtain ⟨isDigit, others⟩ := List.forall_mem_cons.mp all
  rw [scaledBy?, ofDigitChars_digitValue, Nat.zero_mul, Nat.zero_add] at known
  exact (readExponent_sign minus isDigit later).trans
    (readExponentDigits_digits others (digitValue_le isDigit) known)

/-! ### Digits behind the point -/

theorem exists_of_readScale (ok : readScale negative gathered text = .ok (number, rest)) :
    ∃ exponent, text = exponentText exponent ++ rest ∧
      scaledBy? negative gathered exponent = some number := by
  unfold readScale at ok
  split at ok
  · obtain ⟨exponent, same, known⟩ := exists_of_readExponent false ok
    exact ⟨some exponent, same, known⟩
  · obtain ⟨exponent, same, known⟩ := exists_of_readExponent true ok
    exact ⟨some exponent, same, known⟩
  · obtain ⟨known, rfl⟩ := finish_eq_ok ok
    exact ⟨none, rfl, known⟩

theorem readScale_text {exponent : Option Exponent}
    (known : scaledBy? negative gathered exponent = some number) :
    readScale negative gathered (exponentText exponent) = .ok (number, []) := by
  rcases exponent with _ | ⟨_ | _, minus, digits⟩
  · exact finish_of_scaled? known []
  · exact readExponent_text known
  · exact readExponent_text known

/-- An exponent does not start with a digit. -/
theorem isDigit_head_exponentText (exponent : Option Exponent) (next : Char)
    (first : (exponentText exponent).head? = some next) : next.isDigit = false := by
  rcases exponent with _ | ⟨_ | _, minus, digits⟩
  · cases first
  · cases first
    decide
  · cases first
    decide

/-! ### Numerals -/

theorem exists_of_readDigits (whole : Digits)
    (proper : whole.characters.head? = some '0' → whole.characters = ['0'])
    (ok : readDigits negative whole.characters text = .ok (number, rest)) :
    ∃ numeral : Numeral, numeral.negative = negative ∧
      whole.characters ++ text = numeral.unsignedText ++ rest ∧
      numeral.number? = some number := by
  unfold readDigits at ok
  simp only at ok
  split at ok
  · rename_i behind
    obtain ⟨parts, all⟩ := splitDigits_spec behind
    split at ok
    · rename_i after _
      unfold blameNext at ok
      split at ok <;> cases ok
    · rename_i decimals after nonempty same
      rw [same] at parts all
      obtain ⟨exponent, rfl, known⟩ := exists_of_readScale ok
      refine ⟨⟨negative, whole, some ⟨decimals, ?_, all⟩, exponent, proper⟩, rfl, ?_, known⟩
      · rintro rfl
        exact nonempty rfl
      · simp only [Numeral.unsignedText, fractionText, parts, List.append_assoc, List.cons_append]
  · obtain ⟨exponent, same, known⟩ := exists_of_readExponent false ok
    refine ⟨⟨negative, whole, none, some exponent, proper⟩, rfl, ?_, known⟩
    simp only [Numeral.unsignedText, fractionText, List.nil_append, List.append_assoc, ← same,
      Bool.false_eq_true, if_false]
  · obtain ⟨exponent, same, known⟩ := exists_of_readExponent true ok
    refine ⟨⟨negative, whole, none, some exponent, proper⟩, rfl, ?_, known⟩
    simp only [Numeral.unsignedText, fractionText, List.nil_append, List.append_assoc, ← same,
      if_true]
  · have bare : ∀ known : Numeral.number? ⟨negative, whole, none, none, proper⟩ = some number,
        text = rest → ∃ numeral : Numeral, numeral.negative = negative ∧
          whole.characters ++ text = numeral.unsignedText ++ rest ∧
          numeral.number? = some number := by
      rintro known rfl
      exact ⟨_, rfl, by simp [Numeral.unsignedText, fractionText, exponentText], known⟩
    split at ok
    · rename_i fits
      cases ok
      exact bare (if_pos ⟨rfl, rfl, fits⟩) rfl
    · rename_i lost
      obtain ⟨known, same⟩ := finish_eq_ok ok
      exact bare ((if_neg fun all => lost all.2.2).trans known) same

theorem readDigits_text {numeral : Numeral} (known : numeral.number? = some number) :
    readDigits numeral.negative numeral.whole.characters
      (fractionText numeral.fraction ++ exponentText numeral.exponent) = .ok (number, []) := by
  obtain ⟨negative, whole, fraction, exponent, proper⟩ := numeral
  rcases fraction with _ | ⟨decimals, nonempty, all⟩
  · rcases exponent with _ | ⟨_ | _, minus, digits⟩
    · unfold Numeral.number? at known
      simp only [gatherDigits, Option.isNone_none, true_and] at known
      simp only [fractionText, exponentText, List.append_nil, readDigits]
      split at known
      · rename_i fits
        rw [if_pos fits, Option.some.inj known]
      · rename_i lost
        rw [if_neg lost]
        exact finish_of_scaled? known []
    · have scaled : scaledBy? negative (gatherWhole 0 whole.characters)
          (some ⟨false, minus, digits⟩) = some number := by
        simpa [Numeral.number?, gatherDigits] using known
      exact readExponent_text scaled
    · have scaled : scaledBy? negative (gatherWhole 0 whole.characters)
          (some ⟨true, minus, digits⟩) = some number := by
        simpa [Numeral.number?, gatherDigits] using known
      exact readExponent_text scaled
  · have split := splitDigits_digits all (isDigit_head_exponentText exponent)
    have scaled : scaledBy? negative (gatherFraction (gatherWhole 0 whole.characters) decimals)
        exponent = some number := by simpa [Numeral.number?, gatherDigits] using known
    obtain ⟨first, later, rfl⟩ := List.exists_cons_of_ne_nil nonempty
    simp only [fractionText, List.cons_append, readDigits] at split ⊢
    rw [split]
    exact readScale_text scaled

/-- What is read as a number is a numeral at the front of the text. -/
theorem exists_of_readNumeral (ok : readNumeral negative text = .ok (number, rest)) :
    ∃ numeral : Numeral, numeral.negative = negative ∧ text = numeral.unsignedText ++ rest ∧
      numeral.number? = some number := by
  have zero : ∀ later, readDigits negative ['0'] later = .ok (number, rest) →
      ∃ numeral : Numeral, numeral.negative = negative ∧
        '0' :: later = numeral.unsignedText ++ rest ∧ numeral.number? = some number :=
    fun later ok => exists_of_readDigits
      ⟨['0'], List.cons_ne_nil '0' [], List.forall_mem_singleton.mpr rfl⟩ (fun _ => rfl) ok
  unfold readNumeral at ok
  split at ok
  · cases ok
  · split at ok
    · split at ok
      · cases ok
      · exact zero _ ok
    · exact zero _ ok
  · rename_i first later noZero
    split at ok
    · rename_i isDigit
      obtain ⟨parts, all⟩ := splitDigits_spec (first :: later)
      have starts : (splitDigits (first :: later)).1 = first :: (splitDigits later).1 :=
        List.takeWhile_cons_of_pos isDigit
      rw [parts]
      refine exists_of_readDigits ⟨(splitDigits (first :: later)).1, ?_, all⟩ (fun head => ?_) ok
      · exact starts ▸ List.cons_ne_nil _ _
      · exact (noZero (Option.some.inj ((congrArg List.head? starts).symm.trans head))).elim
    · cases ok

/-- A numeral whose number is in range is read to its end. -/
theorem readNumeral_unsignedText {numeral : Numeral} (known : numeral.number? = some number) :
    readNumeral numeral.negative numeral.unsignedText = .ok (number, []) := by
  have read := readDigits_text known
  obtain ⟨negative, ⟨characters, nonempty, all⟩, fraction, exponent, proper⟩ := numeral
  obtain ⟨first, later, rfl⟩ := List.exists_cons_of_ne_nil nonempty
  have stops : ∀ next, (fractionText fraction ++ exponentText exponent).head? = some next →
      next.isDigit = false := by
    rcases fraction with _ | fraction
    · exact isDigit_head_exponentText exponent
    · rintro next same
      cases same
      decide
  by_cases zero : first = '0'
  · subst zero
    obtain rfl : later = [] := by simpa using proper rfl
    simp only [Numeral.unsignedText, List.cons_append, List.nil_append, readNumeral]
    split
    · rename_i next rest same
      have other := stops next (by rw [same]; rfl)
      rw [if_neg (by simp [other])]
      exact read
    · rename_i same
      rw [same] at read
      exact read
  · have isDigit := all first List.mem_cons_self
    have split := splitDigits_digits all stops
    rw [List.cons_append] at split
    simp only [Numeral.unsignedText, List.cons_append]
    rw [readNumeral, if_pos isDigit, split]
    · exact read
    · exact zero

end JsonOverlay.Grammar
