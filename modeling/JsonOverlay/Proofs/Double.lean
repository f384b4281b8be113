/-
This file says what the bits of a finite double stand for. Every finite double is a number of
units of one size, and magnitudes are in the order of their numbers of units. So the order of
doubles is that of their exact values, and two doubles have one exact value only if they are the
same but for the sign of zero.
-/

import JsonOverlay.Number.Comparison
import Mathlib.Algebra.Order.Field.Power
import Mathlib.Algebra.Order.Ring.Rat
import Mathlib.Order.Monotone.Basic
import Mathlib.Tactic.Positivity
import Mathlib.Tactic.Ring

namespace JsonOverlay

/-! ### Units -/

namespace BinaryFormat

variable (format : BinaryFormat)

/-- The number of units in a finite magnitude. -/
def units (magnitude : Nat) : Nat := format.significand magnitude * 2 ^ format.doublings magnitude

/-- A significand is a fraction field, with the leading bit that is not stored if the exponent field
is not zero. -/
theorem significand_eq (magnitude : Nat) : format.significand magnitude =
    magnitude % 2 ^ format.fractionBits +
      if magnitude / 2 ^ format.fractionBits = 0 then 0 else 2 ^ format.fractionBits := by
  rw [significand]
  by_cases small : magnitude < 2 ^ format.fractionBits
  · rw [if_pos small, if_pos (Nat.div_eq_of_lt small), Nat.mod_eq_of_lt small, Nat.add_zero]
  · have field := Nat.div_pos (Nat.le_of_not_lt small) (Nat.two_pow_pos _)
    rw [if_neg small, if_neg field.ne']

theorem div_fields (field : Nat) {fraction : Nat} (bound : fraction < 2 ^ format.fractionBits) :
    (field * 2 ^ format.fractionBits + fraction) / 2 ^ format.fractionBits = field := by
  rw [Nat.mul_comm, Nat.mul_add_div (Nat.two_pow_pos _), Nat.div_eq_of_lt bound, Nat.add_zero]

theorem significand_fields (field : Nat) {fraction : Nat}
    (bound : fraction < 2 ^ format.fractionBits) :
    format.significand (field * 2 ^ format.fractionBits + fraction) =
      fraction + if field = 0 then 0 else 2 ^ format.fractionBits := by
  rw [significand_eq, div_fields format field bound, Nat.mul_comm, Nat.mul_add_mod,
    Nat.mod_eq_of_lt bound]

theorem doublings_fields (field : Nat) {fraction : Nat}
    (bound : fraction < 2 ^ format.fractionBits) :
    format.doublings (field * 2 ^ format.fractionBits + fraction) = field - 1 := by
  rw [doublings, div_fields format field bound]

/-- The units of an exponent field and a fraction field. -/
theorem units_fields (field : Nat) {fraction : Nat} (bound : fraction < 2 ^ format.fractionBits) :
    format.units (field * 2 ^ format.fractionBits + fraction) =
      (fraction + if field = 0 then 0 else 2 ^ format.fractionBits) * 2 ^ (field - 1) := by
  rw [units, significand_fields format field bound, doublings_fields format field bound]

/-- Every magnitude has an exponent field and a fraction field. -/
theorem exists_fields (magnitude : Nat) : ∃ field fraction,
    fraction < 2 ^ format.fractionBits ∧
      magnitude = field * 2 ^ format.fractionBits + fraction :=
  ⟨_, _, Nat.mod_lt magnitude (Nat.two_pow_pos _), (Nat.div_add_mod' magnitude _).symm⟩

/-- A magnitude has fewer units than the next. -/
theorem units_lt_units_succ (magnitude : Nat) :
    format.units magnitude < format.units (magnitude + 1) := by
  obtain ⟨field, fraction, bound, rfl⟩ := format.exists_fields magnitude
  rw [units_fields format field bound]
  by_cases last : fraction + 1 < 2 ^ format.fractionBits
  · rw [Nat.add_assoc, units_fields format field last]
    refine Nat.mul_lt_mul_of_pos_right ?_ (Nat.two_pow_pos _)
    omega
  · -- The next fraction is zero, and the exponent field is one more.
    have next : field * 2 ^ format.fractionBits + fraction + 1 =
        (field + 1) * 2 ^ format.fractionBits + 0 := by
      rw [Nat.succ_mul]
      omega
    rw [next, units_fields format (field + 1) (Nat.two_pow_pos _), if_neg (Nat.succ_ne_zero _),
      Nat.zero_add, Nat.add_sub_cancel]
    cases field with
    | zero =>
      rw [if_pos rfl]
      omega
    | succ lower =>
      rw [if_neg (Nat.succ_ne_zero _), Nat.add_sub_cancel, Nat.pow_succ', ← Nat.mul_assoc,
        Nat.mul_comm (2 ^ format.fractionBits) 2]
      refine Nat.mul_lt_mul_of_pos_right ?_ (Nat.two_pow_pos _)
      omega

theorem units_strictMono : StrictMono format.units :=
  strictMono_nat_of_lt_succ format.units_lt_units_succ

theorem units_zero : format.units 0 = 0 := by
  rw [units, significand, if_pos (Nat.two_pow_pos _), Nat.zero_mul]

theorem units_eq_zero_iff {magnitude : Nat} : format.units magnitude = 0 ↔ magnitude = 0 := by
  rw [← format.units_strictMono.injective.eq_iff (a := magnitude), units_zero]

end BinaryFormat

namespace Double

open BinaryFormat

variable {number left right : Double}

/-- The number of units in a finite number, with its sign. -/
def units (number : Double) : Int :=
  if number.negative then -(wide.units number.magnitude : Int) else wide.units number.magnitude

theorem units_eq (number : Double) :
    number.units = number.significand * 2 ^ wide.doublings number.magnitude := by
  rw [units, significand, BinaryFormat.units]
  split
  · push_cast
    ring
  · push_cast
    ring

/-- An exponent field stands for an exponent. -/
theorem exponent_eq (number : Double) : number.exponent =
    ((number.magnitude / 2 ^ wide.fractionBits - 1 : Nat) : Int) - 1074 := rfl

/-- The exact value of a number is its significand times a power of two. -/
theorem toRat_eq (number : Double) :
    number.toRat = (number.significand : ℚ) * (2 : ℚ) ^ number.exponent := by
  rw [toRat]
  split
  · rename_i small
    obtain ⟨places, same⟩ := Int.eq_ofNat_of_zero_le (by omega : 0 ≤ -number.exponent)
    have exponent : number.exponent = -(places : Int) := by omega
    rw [exponent, neg_neg, Int.toNat_natCast, zpow_neg, zpow_natCast, ← div_eq_mul_inv,
      Rat.mkRat_eq_div]
    push_cast
    rfl
  · obtain ⟨places, same⟩ := Int.eq_ofNat_of_zero_le (by omega : 0 ≤ number.exponent)
    rw [same, Int.toNat_natCast, zpow_natCast]
    push_cast
    rfl

/-- The size of a unit. -/
theorem unit_pos : (0 : ℚ) < (2 : ℚ) ^ (-(wide.unitPlaces : Int)) := by positivity

/-- The exact value of a number is its number of units. -/
theorem toRat_eq_units (number : Double) :
    number.toRat = (number.units : ℚ) * (2 : ℚ) ^ (-(wide.unitPlaces : Int)) := by
  rw [toRat_eq, units_eq, exponent, BinaryFormat.exponent, sub_eq_add_neg,
    zpow_add₀ (two_ne_zero), zpow_natCast]
  push_cast
  ring

/-- The exact value of a number is its sign, its fraction field with the leading bit that is not
stored, and the power of two that its exponent field stands for. -/
theorem toRat_eq_fields (number : Double) : number.toRat =
    (if number.negative then -1 else 1) *
      ((number.magnitude % 2 ^ 52 + if number.magnitude / 2 ^ 52 = 0 then 0 else 2 ^ 52 : Nat) : ℚ) *
      (2 : ℚ) ^ ((number.magnitude / 2 ^ 52 - 1 : Nat) - 1074 : Int) := by
  have size : wide.significand number.magnitude = number.magnitude % 2 ^ 52 +
      if number.magnitude / 2 ^ 52 = 0 then 0 else 2 ^ 52 := wide.significand_eq _
  have power : number.exponent = (number.magnitude / 2 ^ 52 - 1 : Nat) - 1074 := exponent_eq _
  rw [toRat_eq, power, ← size, significand]
  split
  · push_cast
    ring
  · push_cast
    ring

/-! ### The order of exact values -/

theorem toRat_lt_toRat_iff : left.toRat < right.toRat ↔ left.units < right.units := by
  rw [toRat_eq_units, toRat_eq_units, mul_lt_mul_iff_left₀ unit_pos, Int.cast_lt]

/-- Numbers of units are in the order of bits. -/
theorem units_lt_units_iff : left.units < right.units ↔ left.rank < right.rank := by
  have less := wide.units_strictMono.lt_iff_lt (a := left.magnitude) (b := right.magnitude)
  have more := wide.units_strictMono.lt_iff_lt (a := right.magnitude) (b := left.magnitude)
  have zero : wide.units left.magnitude = 0 ↔ left.magnitude = 0 := wide.units_eq_zero_iff
  have otherZero : wide.units right.magnitude = 0 ↔ right.magnitude = 0 := wide.units_eq_zero_iff
  rw [units, units, rank, rank]
  split
  · split
    · omega
    · omega
  · split
    · omega
    · omega

/-- The order of doubles is that of their exact values. -/
theorem toRat_lt_iff_rank : left.toRat < right.toRat ↔ left.rank < right.rank :=
  toRat_lt_toRat_iff.trans units_lt_units_iff

theorem toRat_le_iff_rank : left.toRat ≤ right.toRat ↔ left.rank ≤ right.rank := by
  rw [← not_lt, ← not_lt, toRat_lt_iff_rank]

theorem toRat_eq_iff_rank : left.toRat = right.toRat ↔ left.rank = right.rank := by
  rw [le_antisymm_iff, le_antisymm_iff, toRat_le_iff_rank, toRat_le_iff_rank]

/-! ### Signs and magnitudes -/

theorem toNat_bits (number : Double) :
    number.bits.toNat = (if number.negative then 2 ^ 63 else 0) + number.magnitude := by
  have bound := number.bits.toNat_lt
  rw [negative, magnitude]
  split
  · rename_i large
    have known : 2 ^ 63 ≤ number.bits.toNat := of_decide_eq_true large
    omega
  · rename_i small
    have known : ¬ 2 ^ 63 ≤ number.bits.toNat := fun large => small (decide_eq_true large)
    omega

/-- Numbers of one sign and one magnitude are the same. -/
theorem eq_of_negative_eq (sign : left.negative = right.negative)
    (size : left.magnitude = right.magnitude) : left = right := by
  have same := left.toNat_bits
  rw [sign, size, ← right.toNat_bits] at same
  obtain ⟨leftBits⟩ := left
  obtain ⟨rightBits⟩ := right
  exact congrArg mk (UInt64.toNat_inj.mp same)

theorem toNat_ofMagnitude (sign : Bool) {size : Nat} (bound : size < 2 ^ 63) :
    (ofMagnitude sign size).bits.toNat = (if sign then 2 ^ 63 else 0) + size := by
  refine UInt64.toNat_ofNat_of_lt' (show _ < 2 ^ 64 from ?_)
  split <;> omega

theorem negative_ofMagnitude (sign : Bool) {size : Nat} (bound : size < 2 ^ 63) :
    (ofMagnitude sign size).negative = sign := by
  rw [negative, toNat_ofMagnitude sign bound]
  cases sign
  · exact decide_eq_false (by rw [if_neg Bool.false_ne_true]; omega)
  · exact decide_eq_true (Nat.le_add_right _ _)

theorem magnitude_ofMagnitude (sign : Bool) {size : Nat} (bound : size < 2 ^ 63) :
    (ofMagnitude sign size).magnitude = size := by
  rw [magnitude, toNat_ofMagnitude sign bound]
  split <;> omega

/-- Two numbers stand at one place only if they are the same but for the sign of zero. -/
theorem rank_eq_rank_iff : left.rank = right.rank ↔
    left = right ∨ left.magnitude = 0 ∧ right.magnitude = 0 := by
  constructor
  · intro same
    by_cases zero : left.magnitude = 0
    · rw [rank, rank, zero] at same
      refine .inr ⟨zero, ?_⟩
      split at same <;> split at same <;> omega
    · refine .inl ?_
      rw [rank, rank] at same
      cases sign : left.negative with
      | false =>
        rw [sign, if_neg Bool.false_ne_true] at same
        cases otherSign : right.negative with
        | false =>
          rw [otherSign, if_neg Bool.false_ne_true] at same
          exact eq_of_negative_eq (sign.trans otherSign.symm) (Int.ofNat_inj.mp same)
        | true =>
          rw [otherSign, if_pos rfl] at same
          omega
      | true =>
        rw [sign, if_pos rfl] at same
        cases otherSign : right.negative with
        | false =>
          rw [otherSign, if_neg Bool.false_ne_true] at same
          omega
        | true =>
          rw [otherSign, if_pos rfl] at same
          exact eq_of_negative_eq (sign.trans otherSign.symm)
            (Int.ofNat_inj.mp (Int.neg_inj.mp same))
  · rintro (rfl | ⟨zero, otherZero⟩)
    · rfl
    · rw [rank, rank, zero, otherZero]
      simp

theorem magnitude_eq_of_rank_eq (same : left.rank = right.rank) :
    left.magnitude = right.magnitude := by
  rcases rank_eq_rank_iff.mp same with rfl | ⟨zero, otherZero⟩
  · rfl
  · rw [zero, otherZero]

/-! ### Equality -/

theorem isInfinite_of_not_isFinite (known : number.isNaN = false)
    (unbounded : ¬ number.isFinite = true) : number.isInfinite = true := by
  have low : ¬ wide.infinity < number.magnitude := of_decide_eq_false known
  have high : ¬ number.magnitude < wide.infinity := fun small => unbounded (decide_eq_true small)
  exact decide_eq_true (by omega)

theorem isNaN_eq_false (finite : number.isFinite = true) : number.isNaN = false :=
  decide_eq_false (Nat.lt_asymm (of_decide_eq_true finite))

/-- Doubles that are no NaNs are equal if they stand at one place. -/
theorem equal_iff : left.equal right = true ↔
    left.isNaN = false ∧ right.isNaN = false ∧ left.rank = right.rank := by
  rw [rank_eq_rank_iff, equal]
  simp [and_assoc]

/-- Finite doubles are equal if their exact values are. -/
theorem equal_iff_toRat (finite : left.isFinite = true) (otherFinite : right.isFinite = true) :
    left.equal right = true ↔ left.toRat = right.toRat := by
  rw [equal_iff, toRat_eq_iff_rank]
  exact ⟨fun same => same.2.2, fun same =>
    ⟨isNaN_eq_false finite, isNaN_eq_false otherFinite, same⟩⟩

/-! ### Integers -/

/-- The exact value of a number that may have a fraction is an integer if its significand is a
multiple of the power of two that it is divided by. -/
theorem toRat_eq_intCast_iff {value : Int} (small : number.exponent < 0) :
    number.toRat = value ↔ number.significand = value * 2 ^ (-number.exponent).toNat := by
  rw [toRat, if_pos small, Rat.mkRat_eq_div]
  generalize (-number.exponent).toNat = places
  have scale : ((2 : ℚ) ^ places) ≠ 0 := by positivity
  push_cast
  rw [div_eq_iff scale]
  norm_cast

theorem toRat_of_exponent (large : ¬ number.exponent < 0) :
    number.toRat = ((number.significand * 2 ^ number.exponent.toNat : Int) : ℚ) :=
  if_neg large

/-- A number has an integer for its value if that is its exact value. -/
theorem integer?_eq_some_iff {value : Int} :
    number.integer? = some value ↔ number.isFinite = true ∧ number.toRat = value := by
  rw [integer?]
  by_cases finite : number.isFinite = true
  · rw [if_pos finite, and_iff_right finite]
    by_cases small : number.exponent < 0
    · rw [if_pos small, toRat_eq_intCast_iff small]
      dsimp only
      constructor
      · intro known
        split at known
        · rename_i whole
          rw [← Option.some.inj known, Int.ediv_mul_cancel (Int.dvd_of_emod_eq_zero whole)]
        · cases known
      · intro same
        have positive : (2 : Int) ^ (-number.exponent).toNat ≠ 0 := by positivity
        rw [same, if_pos (Int.mul_emod_left _ _), Int.mul_ediv_cancel _ positive]
    · rw [if_neg small, toRat_of_exponent small, Option.some.injEq, Int.cast_inj]
  · rw [if_neg finite]
    exact ⟨nofun, fun known => absurd known.1 finite⟩

/-- The integer part of an integer is the integer. -/
theorem truncate_of_toRat_eq {value : Int} (exact : number.toRat = value) :
    number.truncate = value := by
  rw [truncate]
  by_cases small : number.exponent < 0
  · have positive : (2 : Int) ^ (-number.exponent).toNat ≠ 0 := by positivity
    rw [if_pos small, (toRat_eq_intCast_iff small).mp exact, Int.mul_tdiv_cancel _ positive]
  · rw [if_neg small]
    rw [toRat_of_exponent small] at exact
    exact Int.cast_inj.mp exact

end Double

end JsonOverlay
