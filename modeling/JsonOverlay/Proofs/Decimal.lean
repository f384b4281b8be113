/-
This file shows that the text of every finite double is a numeral. That takes one fact about
the digits: the walk that looks for them always finds some. A grid that is no coarser than a
quarter of the last place has a point below the double that is still in its interval, and the
walk is long enough to reach such a grid.
-/

import JsonOverlay.Decimal.Layout
import JsonOverlay.Proofs.Grammar
import JsonOverlay.Proofs.Reader.Numeral
import Mathlib.Algebra.Order.Ring.Nat
import Mathlib.Data.Nat.Log

namespace JsonOverlay

/-! ### The coarsest grid -/

namespace RoundingInterval

variable {interval : RoundingInterval} {numerator denominator point : Nat} {power : Int}

theorem pos_of_contains (numerators : 0 < numerator) (low : 0 < interval.low)
    (inside : interval.contains numerator denominator point = true) : 0 < point := by
  rcases Nat.eq_zero_or_pos point with rfl | positive
  · have above : 0 < interval.low * numerator := Nat.mul_pos low numerators
    simp only [contains, Nat.zero_mul] at inside
    split at inside
    · have inner := of_decide_eq_true inside
      omega
    · have inner := of_decide_eq_true inside
      omega
  · exact positive

theorem nearestNat_eq_or (numerator denominator : Nat) :
    nearestNat numerator denominator = numerator / denominator ∨
      nearestNat numerator denominator = numerator / denominator + 1 := by
  unfold nearestNat
  dsimp only
  split
  · exact .inr rfl
  · exact .inl rfl

theorem pos_ite {condition : Prop} [Decidable condition] {first second : Nat} (left : 0 < first)
    (right : 0 < second) : 0 < if condition then first else second := by
  split
  · exact left
  · exact right

theorem pos_ten_pow (exponent : Nat) : 0 < 10 ^ exponent := Nat.pow_pos (by decide)

/-- A point that is found is not zero. -/
theorem pos_of_nearestMultiple? {found : Nat} (numerators : 0 < interval.numerator)
    (low : 0 < interval.low) (known : interval.nearestMultiple? power = some found) :
    0 < found := by
  have scaled : 0 < interval.numerator * if power < 0 then 10 ^ (-power).toNat else 1 :=
    Nat.mul_pos numerators (pos_ite (pos_ten_pow _) Nat.one_pos)
  unfold nearestMultiple? at known
  dsimp only at known
  split at known
  · cases known
  · rename_i below above
    cases known
    exact pos_of_contains scaled low below
  · cases known
    exact Nat.succ_pos _
  · rename_i below above
    have positive := pos_of_contains scaled low below
    cases known
    rcases nearestNat_eq_or _ _ with same | same
    · rw [same]
      exact positive
    · rw [same]
      exact Nat.succ_pos _

/-- A grid that is no coarser than a quarter of the last place has a point in the interval. -/
theorem isSome_nearestMultiple? (low : interval.low + 1 ≤ interval.value)
    (high : interval.value < interval.high) (numerators : 0 < interval.numerator)
    (denominators : 0 < interval.denominator)
    (fine : interval.denominator * (if power < 0 then 1 else 10 ^ power.toNat) ≤
      interval.numerator * if power < 0 then 10 ^ (-power).toNat else 1) :
    ∃ found, interval.nearestMultiple? power = some found := by
  have scaled : 0 < interval.numerator * if power < 0 then 10 ^ (-power).toNat else 1 :=
    Nat.mul_pos numerators (pos_ite (pos_ten_pow _) Nat.one_pos)
  have grid : 0 < interval.denominator * if power < 0 then 1 else 10 ^ power.toNat :=
    Nat.mul_pos denominators (pos_ite Nat.one_pos (pos_ten_pow _))
  unfold nearestMultiple?
  dsimp only
  generalize (interval.numerator * if power < 0 then 10 ^ (-power).toNat else 1) = numerator at *
  generalize (interval.denominator * if power < 0 then 1 else 10 ^ power.toNat) = denominator at *
  -- The point below is at most one step away, which is less than the way down to the end.
  have inside : interval.contains numerator denominator
      (interval.value * numerator / denominator) = true := by
    have below := Nat.div_mul_le_self (interval.value * numerator) denominator
    have above : interval.value * numerator < _ := Nat.lt_div_mul_add grid
    have lower : interval.low * numerator + numerator ≤ interval.value * numerator := by
      rw [← Nat.succ_mul]
      exact Nat.mul_le_mul_right _ low
    have upper := Nat.mul_lt_mul_of_pos_right high scaled
    simp only [contains]
    split
    · exact decide_eq_true ⟨by omega, by omega⟩
    · exact decide_eq_true ⟨by omega, by omega⟩
  rw [inside]
  cases interval.contains numerator denominator (interval.value * numerator / denominator + 1)
  · exact ⟨_, rfl⟩
  · exact ⟨_, rfl⟩

end RoundingInterval

/-! ### The walk to finer grids -/

namespace Decimal

theorem coefficient_normalize (steps : Nat) {decimal : Decimal} (some : decimal.coefficient ≠ 0) :
    (normalize steps decimal).coefficient ≠ 0 := by
  induction steps generalizing decimal with
  | zero => exact some
  | succ steps inductionHypothesis =>
    rw [normalize]
    split
    · rename_i whole
      refine inductionHypothesis ?_
      dsimp only
      omega
    · exact some

/-- The walk finds a point if it gets to a grid that has one. -/
theorem coefficient_search {interval : RoundingInterval} (numerators : 0 < interval.numerator)
    (low : 0 < interval.low) {last power : Int} {steps : Nat}
    (known : ∃ found, interval.nearestMultiple? last = some found) (above : last ≤ power)
    (reached : power < last + steps) : (search interval steps power).coefficient ≠ 0 := by
  induction steps generalizing power with
  | zero => omega
  | succ steps inductionHypothesis =>
    rw [search]
    split
    · rename_i found here
      have positive := RoundingInterval.pos_of_nearestMultiple? numerators low here
      exact coefficient_normalize 20 (Nat.ne_of_gt positive)
    · rename_i missing
      have other : last ≠ power := by
        rintro rfl
        obtain ⟨found, here⟩ := known
        cases missing.symm.trans here
      exact inductionHypothesis (by omega) (by omega)

/-! ### The digits of a double -/

theorem ten_pow_le_two_pow {small large : Nat} (enough : 10 * small ≤ 3 * large) :
    10 ^ small ≤ 2 ^ large := by
  have cubes : (10 ^ small) ^ 3 ≤ (2 ^ large) ^ 3 := by
    calc (10 ^ small) ^ 3 = (10 ^ 3) ^ small := by rw [← pow_mul, ← pow_mul, Nat.mul_comm]
      _ ≤ (2 ^ 10) ^ small := Nat.pow_le_pow_left (by decide) _
      _ = 2 ^ (10 * small) := by rw [← pow_mul]
      _ ≤ 2 ^ (3 * large) := Nat.pow_le_pow_right (by decide) enough
      _ = (2 ^ large) ^ 3 := by rw [← pow_mul, Nat.mul_comm]
  exact (Nat.pow_le_pow_iff_left (by decide)).mp cubes

theorem two_pow_le_ten_pow {small large : Nat} (enough : 10 * small ≤ 33 * large) :
    2 ^ small ≤ 10 ^ large := by
  have powers : (2 ^ small) ^ 10 ≤ (10 ^ large) ^ 10 := by
    calc (2 ^ small) ^ 10 = 2 ^ (10 * small) := by rw [← pow_mul, Nat.mul_comm]
      _ ≤ 2 ^ (33 * large) := Nat.pow_le_pow_right (by decide) enough
      _ = (2 ^ 33) ^ large := by rw [← pow_mul]
      _ ≤ (10 ^ 10) ^ large := Nat.pow_le_pow_left (by decide) _
      _ = (10 ^ large) ^ 10 := by rw [← pow_mul, ← pow_mul, Nat.mul_comm]
  exact (Nat.pow_le_pow_iff_left (by decide)).mp powers

/-- Twenty-one steps below the walk's start a grid is finer than a quarter of the last place. -/
theorem fine_of_le {quarter power : Int} (low : -1076 ≤ quarter) (high : quarter ≤ 969)
    (small : 100000 * power ≤ 30103 * quarter - 444335) :
    (if quarter < 0 then 2 ^ (-quarter).toNat else 1) *
        (if power < 0 then 1 else 10 ^ power.toNat) ≤
      (if quarter < 0 then 1 else 2 ^ quarter.toNat) *
        if power < 0 then 10 ^ (-power).toNat else 1 := by
  by_cases down : quarter < 0
  · have tiny : power < 0 := by omega
    rw [if_pos down, if_pos down, if_pos tiny, if_pos tiny, Nat.mul_one, Nat.one_mul]
    exact two_pow_le_ten_pow (by omega)
  · rw [if_neg down, if_neg down, Nat.one_mul]
    by_cases tiny : power < 0
    · rw [if_pos tiny, if_pos tiny]
      exact Nat.mul_pos (Nat.pow_pos (by decide)) (Nat.pow_pos (by decide))
    · rw [if_neg tiny, if_neg tiny, Nat.mul_one]
      exact ten_pow_le_two_pow (by omega)

/-! ### The significand and the exponent -/

theorem natAbs_significand (number : Double) :
    number.significand.natAbs = BinaryFormat.wide.significand number.magnitude := by
  unfold Double.significand
  dsimp only
  split <;> simp

theorem significand_bounds {number : Double} (nonzero : number.magnitude ≠ 0) :
    0 < number.significand.natAbs ∧ number.significand.natAbs < 2 ^ 53 := by
  rw [natAbs_significand]
  have bits : 2 ^ BinaryFormat.wide.fractionBits = 2 ^ 52 := rfl
  unfold BinaryFormat.significand
  split
  · rename_i small
    rw [bits] at small
    omega
  · rw [bits]
    omega

theorem exponent_bounds {number : Double} (finite : number.isFinite = true) :
    -1074 ≤ number.exponent ∧ number.exponent ≤ 971 := by
  have small : number.magnitude < (2 ^ 11 - 1) * 2 ^ 52 := of_decide_eq_true finite
  have places : BinaryFormat.wide.unitPlaces = 1074 := rfl
  simp only [Double.exponent, BinaryFormat.exponent, BinaryFormat.doublings, places]
  simp only [BinaryFormat.wide]
  omega

/-- The digits of a finite double that is not zero are not zero. -/
theorem coefficient_shortest {number : Double} (finite : number.isFinite = true)
    (nonzero : number.magnitude ≠ 0) : (shortest number).coefficient ≠ 0 := by
  obtain ⟨positive, below⟩ := significand_bounds nonzero
  obtain ⟨low, high⟩ := exponent_bounds finite
  have bits : number.significand.natAbs.log2 < 53 := (Nat.log2_lt (by omega)).mpr below
  have numerators : 0 < (RoundingInterval.ofDouble number).numerator :=
    RoundingInterval.pos_ite Nat.one_pos (Nat.pow_pos (by decide))
  have denominators : 0 < (RoundingInterval.ofDouble number).denominator :=
    RoundingInterval.pos_ite (Nat.pow_pos (by decide)) Nat.one_pos
  have ends : 0 < (RoundingInterval.ofDouble number).low ∧
      (RoundingInterval.ofDouble number).low + 1 ≤ (RoundingInterval.ofDouble number).value ∧
      (RoundingInterval.ofDouble number).value < (RoundingInterval.ofDouble number).high := by
    dsimp only [RoundingInterval.ofDouble]
    split <;> omega
  have last := fine_of_le (by omega : -1076 ≤ number.exponent - 2) (by omega)
    (by omega : 100000 * ((number.exponent + number.significand.natAbs.log2 + 1) * 30103 / 100000 +
      2 - 23) ≤ 30103 * (number.exponent - 2) - 444335)
  exact coefficient_search numerators ends.1
    (RoundingInterval.isSome_nearestMultiple? ends.2.1 ends.2.2 numerators denominators last)
    (by omega) (by omega)

end Decimal

/-! ### Numerals -/

namespace Grammar

/-- A text is a numeral without its sign. -/
def IsUnsigned (text : List Char) : Prop := ∃ numeral : Numeral, numeral.unsignedText = text

/-- A text is a numeral. -/
def IsNumeral (text : List Char) : Prop := ∃ numeral : Numeral, numeral.text = text

theorem IsUnsigned.signed {text : List Char} (known : IsUnsigned text) (negative : Bool) :
    IsNumeral ((if negative then ['-'] else []) ++ text) := by
  obtain ⟨numeral, rfl⟩ := known
  exact ⟨{ numeral with negative := negative }, rfl⟩

/-- The digits of a number. -/
def Digits.ofNat (value : Nat) : Digits :=
  ⟨Nat.toDigits 10 value, Nat.toDigits_ne_nil, fun _ member =>
    Nat.isDigit_of_mem_toDigits (by decide) (by decide) member⟩

theorem proper_ofNat (value : Nat) :
    (Digits.ofNat value).characters.head? = some '0' → (Digits.ofNat value).characters = ['0'] := by
  intro zero
  rcases Nat.eq_zero_or_pos value with rfl | positive
  · rfl
  · obtain ⟨first, rest, same, other⟩ := Reader.exists_toDigits_eq_cons positive
    have head : (Digits.ofNat value).characters.head? = some first := congrArg List.head? same
    cases head.symm.trans zero
    exact (other rfl).elim

/-- A run of zeros. -/
theorem isDigit_of_mem_replicate {count : Nat} {digit : Char}
    (member : digit ∈ List.replicate count '0') : digit.isDigit = true := by
  rw [List.eq_of_mem_replicate member]
  rfl

variable {first : Char} {rest : List Char}

/-- Digits on both sides of the point. -/
theorem isUnsigned_point {whole fraction : List Char} (left : whole ≠ []) (right : fraction ≠ [])
    (allLeft : ∀ digit ∈ whole, digit.isDigit = true)
    (allRight : ∀ digit ∈ fraction, digit.isDigit = true)
    (proper : whole.head? = some '0' → whole = ['0']) : IsUnsigned (whole ++ '.' :: fraction) := by
  refine ⟨⟨false, ⟨whole, left, allLeft⟩, some ⟨fraction, right, allRight⟩, none, proper⟩, ?_⟩
  simp [Numeral.unsignedText, fractionText, exponentText]

theorem isUnsigned_positional (digits : Digits) (starts : digits.characters = first :: rest) (other : first ≠ '0')
    (point : Int) : IsUnsigned (DecimalLayout.positional digits.characters point) := by
  have all := digits.digits
  have noZero : ∀ {text : List Char}, (first :: text).head? = some '0' → first :: text = ['0'] :=
    fun zero => (other (Option.some.inj zero)).elim
  rw [starts] at all ⊢
  dsimp only [DecimalLayout.positional]
  split
  · refine isUnsigned_point (List.cons_ne_nil _ []) (by simp) (List.forall_mem_singleton.mpr rfl) ?_
      fun _ => rfl
    exact List.forall_mem_append.mpr ⟨fun _ => isDigit_of_mem_replicate, all⟩
  split
  · rename_i positive inside
    obtain ⟨whole, same⟩ : ∃ whole, point.toNat = whole + 1 := ⟨point.toNat - 1, by omega⟩
    rw [same] at inside ⊢
    refine isUnsigned_point (List.cons_ne_nil _ _) ?_ (fun digit member =>
      all digit (List.mem_of_mem_take member)) (fun digit member =>
      all digit (List.mem_of_mem_drop member)) noZero
    rw [Ne, List.drop_eq_nil_iff]
    omega
  · refine isUnsigned_point (List.cons_ne_nil _ _) (List.cons_ne_nil '0' []) ?_
      (List.forall_mem_singleton.mpr rfl) noZero
    exact List.forall_mem_append.mpr ⟨all, fun _ => isDigit_of_mem_replicate⟩

/-- One digit before the point, and an exponent. -/
theorem isUnsigned_scientific (digits : Digits) (layout : DecimalLayout)
    (sign : layout.positiveExponentSign = "" ∨ layout.positiveExponentSign = "+")
    (starts : digits.characters = first :: rest) (point : Int) :
    IsUnsigned (layout.scientific digits.characters point) := by
  obtain ⟨minus, same⟩ : ∃ minus, signText minus =
      if point - 1 < 0 then ['-'] else layout.positiveExponentSign.toList := by
    split
    · exact ⟨some true, rfl⟩
    · rcases sign with sign | sign
      · exact ⟨none, by rw [sign]; rfl⟩
      · exact ⟨some false, by rw [sign]; rfl⟩
  have all := digits.digits
  rw [starts] at all ⊢
  obtain ⟨here, others⟩ := List.forall_mem_cons.mp all
  dsimp only [DecimalLayout.scientific]
  rw [← same]
  have leading : ∀ digit ∈ [first], digit.isDigit = true := List.forall_mem_singleton.mpr here
  cases rest with
  | nil =>
    refine ⟨⟨false, ⟨[first], List.cons_ne_nil _ _, leading⟩, none,
      some ⟨false, minus, .ofNat (point - 1).natAbs⟩, fun zero => by simpa using zero⟩, ?_⟩
    simp [Numeral.unsignedText, fractionText, exponentText, Digits.ofNat]
  | cons second rest =>
    refine ⟨⟨false, ⟨[first], List.cons_ne_nil _ _, leading⟩,
      some ⟨second :: rest, List.cons_ne_nil _ _, others⟩,
      some ⟨false, minus, .ofNat (point - 1).natAbs⟩, fun zero => by simpa using zero⟩, ?_⟩
    simp [Numeral.unsignedText, fractionText, exponentText, Digits.ofNat]

end Grammar

namespace DecimalLayout

open Grammar

/-- The text of an integer is a numeral. -/
theorem isNumeral_integer (value : Int) : IsNumeral (integer value).toList := by
  have digits : IsUnsigned (Nat.toDigits 10 value.natAbs) :=
    ⟨⟨false, .ofNat value.natAbs, none, none, proper_ofNat value.natAbs⟩, by
      simp [Numeral.unsignedText, fractionText, exponentText, Digits.ofNat]⟩
  have signed := digits.signed (decide (value < 0))
  simpa [integer] using signed

/-- The text of a finite double is a numeral. -/
theorem isNumeral_double (layout : DecimalLayout)
    (sign : layout.positiveExponentSign = "" ∨ layout.positiveExponentSign = "+")
    {number : Double} (finite : number.isFinite = true) :
    IsNumeral (layout.double number).toList := by
  rw [double, if_pos finite, String.toList_ofList]
  refine IsUnsigned.signed ?_ number.negative
  split
  · exact isUnsigned_point (List.cons_ne_nil '0' []) (List.cons_ne_nil '0' [])
      (List.forall_mem_singleton.mpr rfl) (List.forall_mem_singleton.mpr rfl) fun _ => rfl
  · rename_i nonzero
    have some := Nat.pos_of_ne_zero (Decimal.coefficient_shortest finite nonzero)
    obtain ⟨first, rest, starts, other⟩ := Reader.exists_toDigits_eq_cons some
    rw [decimal]
    split
    · exact isUnsigned_positional (.ofNat _) starts other _
    · exact isUnsigned_scientific (.ofNat _) layout sign starts _

end DecimalLayout

end JsonOverlay
