/-
This file shows that a number is found to be an integer of some type exactly if its exact value is
one. Then that integer is got from it, and what is made of the integer equals the number. Of any
other number the low bits are got, or for a double the integer part held at the ends of the type.
-/

import JsonOverlay.Number.Ranges
import JsonOverlay.Proofs.Number.Equality
import Mathlib.Data.Rat.Floor

namespace JsonOverlay

/-! ### Cutting off fractions -/

/-- A value without its fraction: the integer next to it on the side of zero. -/
def towardZero (value : ℚ) : Int := if value < 0 then ⌈value⌉ else ⌊value⌋

theorem towardZero_intCast (value : Int) : towardZero value = value := by
  rw [towardZero, Int.ceil_intCast, Int.floor_intCast, ite_self]

theorem towardZero_div (value : Int) {scale : Nat} (positive : 0 < scale) :
    towardZero ((value : ℚ) / (scale : Int)) = value.tdiv scale := by
  have scalePositive : (0 : ℚ) < (scale : Int) := by exact_mod_cast positive
  rw [towardZero, Int.cast_natCast, Rat.ceil_intCast_div_natCast, Rat.floor_intCast_div_natCast]
  by_cases negative : value < 0
  · have below : (value : ℚ) / (scale : ℚ) < 0 := by
      rw [Int.cast_natCast] at scalePositive
      exact div_neg_of_neg_of_pos (by exact_mod_cast negative) scalePositive
    obtain ⟨size, rfl⟩ := Int.exists_eq_neg_ofNat negative.le
    rw [if_pos below, Int.neg_tdiv, neg_neg]
    rfl
  · have above : ¬ (value : ℚ) / (scale : ℚ) < 0 := by
      rw [Int.cast_natCast] at scalePositive
      exact not_lt.mpr (div_nonneg (by exact_mod_cast not_lt.mp negative) scalePositive.le)
    rw [if_neg above, Int.tdiv_eq_ediv_of_nonneg (not_lt.mp negative)]

namespace Double

variable {number : Double}

/-- The integer part of a finite number is its exact value without the fraction. -/
theorem truncate_eq_towardZero (number : Double) : number.truncate = towardZero number.toRat := by
  rw [truncate]
  by_cases small : number.exponent < 0
  · have value : number.toRat =
        (number.significand : ℚ) / ((2 ^ (-number.exponent).toNat : Nat) : Int) := by
      rw [toRat, if_pos small, Rat.mkRat_eq_div]
      push_cast
      rfl
    rw [if_pos small, value, towardZero_div _ (Nat.two_pow_pos _)]
    push_cast
    rfl
  · rw [if_neg small, toRat_of_exponent small, towardZero_intCast]

/-- A number loses nothing without its fraction if its exact value is an integer. -/
theorem isWhole_iff (finite : number.isFinite = true) :
    number.isWhole = true ↔ ∃ value : Int, number.toRat = value := by
  obtain ⟨cutFinite, cut⟩ := toRat_truncated finite
  rw [isWhole, equal_iff_toRat cutFinite finite, cut]
  constructor
  · exact fun whole => ⟨_, whole.symm⟩
  · rintro ⟨value, exact⟩
    rw [truncate_of_toRat_eq exact, exact]

/-! ### Doubles between doubles -/

/-- A double stands for an integer. -/
def Denotes (number : Double) (value : Int) : Prop :=
  number.isFinite = true ∧ number.toRat = value

theorem denotes_of_integer? {value : Int} (known : number.integer? = some value) :
    number.Denotes value :=
  integer?_eq_some_iff.mp known

/-- What lies between finite numbers is finite. -/
theorem isFinite_of_rank {low high : Double} (lowFinite : low.isFinite = true)
    (highFinite : high.isFinite = true) (above : low.rank ≤ number.rank)
    (below : number.rank ≤ high.rank) : number.isFinite = true := by
  have lowBound : low.magnitude < BinaryFormat.wide.infinity := of_decide_eq_true lowFinite
  have highBound : high.magnitude < BinaryFormat.wide.infinity := of_decide_eq_true highFinite
  refine decide_eq_true ?_
  rw [rank, rank] at above below
  cases sign : number.negative with
  | false =>
    rw [sign, if_neg Bool.false_ne_true] at below
    split at below <;> omega
  | true =>
    rw [sign, if_pos rfl] at above
    split at above <;> omega

section

variable {low high : Double} {least greatest : Int} (lowDenotes : low.Denotes least)
include lowDenotes

/-- A double that is bounded above in some way is found to be an integer between two others if that
is its exact value. -/
theorem whole_iff {number : Double} {bounded : Bool}
    (finite : low.rank ≤ number.rank → bounded = true → number.isFinite = true)
    (bound : ∀ value, number.Denotes value → (bounded = true ↔ value ≤ greatest)) :
    (low.atMost number && bounded && number.isWhole) = true ↔
      ∃ value, number.Denotes value ∧ least ≤ value ∧ value ≤ greatest := by
  obtain ⟨lowFinite, lowExact⟩ := lowDenotes
  rw [Bool.and_eq_true, Bool.and_eq_true, and_assoc]
  constructor
  · rintro ⟨above, below, whole⟩
    have known := above
    rw [atMost, Bool.and_eq_true, decide_eq_true_iff] at known
    have finite := finite known.2 below
    obtain ⟨value, exact⟩ := (isWhole_iff finite).mp whole
    rw [atMost_iff lowFinite finite, lowExact, exact, Int.cast_le] at above
    exact ⟨value, ⟨finite, exact⟩, above, (bound value ⟨finite, exact⟩).mp below⟩
  · rintro ⟨value, ⟨finite, exact⟩, above, below⟩
    rw [atMost_iff lowFinite finite, lowExact, exact, Int.cast_le]
    exact ⟨above, (bound value ⟨finite, exact⟩).mpr below, (isWhole_iff finite).mpr ⟨value, exact⟩⟩

theorem isWholeUpTo_iff (highDenotes : high.Denotes greatest) (number : Double) :
    number.isWholeUpTo low high = true ↔
      ∃ value, number.Denotes value ∧ least ≤ value ∧ value ≤ greatest := by
  obtain ⟨highFinite, highExact⟩ := highDenotes
  refine whole_iff lowDenotes (fun above below => ?_) fun value exact => ?_
  · rw [atMost, Bool.and_eq_true, decide_eq_true_iff] at below
    exact isFinite_of_rank lowDenotes.1 highFinite above below.2
  · rw [atMost_iff exact.1 highFinite, highExact, exact.2, Int.cast_le]

/-- The bound may also be left out. -/
theorem isWholeBelow_iff (highDenotes : high.Denotes (greatest + 1)) (number : Double) :
    number.isWholeBelow low high = true ↔
      ∃ value, number.Denotes value ∧ least ≤ value ∧ value ≤ greatest := by
  obtain ⟨highFinite, highExact⟩ := highDenotes
  refine whole_iff lowDenotes (fun above below => ?_) fun value exact => ?_
  · rw [less, Bool.and_eq_true, decide_eq_true_iff] at below
    exact isFinite_of_rank lowDenotes.1 highFinite above below.2.le
  · rw [less_iff exact.1 highFinite, highExact, exact.2, Int.cast_lt, Int.lt_add_one_iff]

end

end Double

/-! ### Predicates -/

theorem Number.isIntegerIn_iff {number : Number} {low high : Int} :
    number.isIntegerIn low high = true ↔
      ∃ value : Int, number.Is value ∧ low ≤ value ∧ value ≤ high := by
  simp only [isIntegerIn, is_intCast_iff]
  cases number.integer? with
  | none => simp
  | some known => simp

namespace IntegerType

variable {type : IntegerType} {number : Number} {value : Int}

/-- An integer of a type. -/
def Holds (type : IntegerType) (value : Int) : Prop := type.least ≤ value ∧ value ≤ type.greatest

theorem admits_iff : type.admits number = true ↔
    ∃ value : Int, number.Is value ∧ type.Holds value := by
  cases type
  all_goals exact Number.isIntegerIn_iff

theorem fits_int_iff (word : Int64) : type.fits (.int word) = true ↔ type.Holds word.toInt := by
  have low := word.le_toInt
  have high := word.toInt_lt
  cases type with
  | int32 | uint32 => exact decide_eq_true_iff
  | int64 => exact iff_of_true rfl ⟨low, by rw [greatest]; omega⟩
  | uint64 =>
    refine decide_eq_true_iff.trans ⟨fun positive => ⟨positive, ?_⟩, And.left⟩
    rw [greatest]
    omega

theorem fits_uint_iff (word : UInt64) : type.fits (.uint word) = true ↔ type.Holds word.toNat := by
  have high := word.toNat_lt
  have below {bound : Nat} {least : Int} (low : least ≤ 0) :
      decide (word.toNat ≤ bound) = true ↔ least ≤ word.toNat ∧ (word.toNat : Int) ≤ bound := by
    rw [decide_eq_true_iff]
    omega
  cases type with
  | int32 => exact below (by decide)
  | uint32 => exact below (by decide)
  | int64 => exact below (by decide)
  | uint64 => exact iff_of_true rfl ⟨Int.natCast_nonneg _, by rw [greatest]; omega⟩

/-- The doubles that a double is compared with stand for the ends of the type, or for the integer
above the greatest. -/
theorem fits_double_iff (double : Double) : type.fits (.double double) = true ↔
    ∃ value, double.Denotes value ∧ type.Holds value := by
  cases type with
  | int32 =>
    have low : Double.leastInt32.Denotes int32.least :=
      Double.denotes_of_integer? (by decide +kernel)
    have high : Double.greatestInt32.Denotes int32.greatest :=
      Double.denotes_of_integer? (by decide +kernel)
    have found := Double.isWholeUpTo_iff low high double
    exact found
  | uint32 =>
    have low : Double.zero.Denotes uint32.least :=
      Double.denotes_of_integer? (by decide +kernel)
    have high : Double.greatestUInt32.Denotes uint32.greatest :=
      Double.denotes_of_integer? (by decide +kernel)
    have found := Double.isWholeUpTo_iff low high double
    exact found
  | int64 =>
    have low : Double.aboveInt64.neg.Denotes int64.least :=
      Double.denotes_of_integer? (by decide +kernel)
    have above : Double.aboveInt64.Denotes (int64.greatest + 1) :=
      Double.denotes_of_integer? (by decide +kernel)
    have found := Double.isWholeBelow_iff low above double
    exact found
  | uint64 =>
    have low : Double.zero.Denotes uint64.least :=
      Double.denotes_of_integer? (by decide +kernel)
    have above : Double.aboveUInt64.Denotes (uint64.greatest + 1) :=
      Double.denotes_of_integer? (by decide +kernel)
    have found := Double.isWholeBelow_iff low above double
    exact found

/-- A number is found to be an integer of a type if its exact value is one. -/
theorem fits_iff : type.fits number = true ↔ ∃ value : Int, number.Is value ∧ type.Holds value := by
  cases number with
  | int word =>
    rw [fits_int_iff]
    constructor
    · exact fun holds => ⟨_, .int word, holds⟩
    · rintro ⟨value, exact, holds⟩
      rwa [Int.cast_inj.mp (exact.unique (.int word))] at holds
  | uint word =>
    rw [fits_uint_iff]
    have known : (Number.uint word).Is ((word.toNat : Int) : ℚ) := by
      rw [Int.cast_natCast]
      exact .uint word
    constructor
    · exact fun holds => ⟨_, known, holds⟩
    · rintro ⟨value, exact, holds⟩
      rwa [Int.cast_inj.mp (exact.unique known)] at holds
  | double double =>
    simp only [fits_double_iff, Number.is_double_iff, Double.Denotes]

theorem fits_eq_admits (type : IntegerType) (number : Number) :
    type.fits number = type.admits number :=
  Bool.eq_iff_iff.mpr (fits_iff.trans admits_iff.symm)

/-! ### Getters -/

/-- An integer of a type with the low bits of an integer. -/
def Wraps (type : IntegerType) (value word : Int) : Prop :=
  type.Holds word ∧ word % 2 ^ type.bits = value % 2 ^ type.bits

/-- An integer of the type is the only one with its low bits. -/
theorem Wraps.eq_of_holds {word : Int} (wraps : type.Wraps value word) (holds : type.Holds value) :
    word = value := by
  obtain ⟨⟨low, high⟩, same⟩ := wraps
  obtain ⟨least, greatest⟩ := holds
  cases type
  all_goals
    simp only [IntegerType.least, IntegerType.greatest, bits] at low high least greatest same
    omega

theorem wraps_int32 (value : Int) : int32.Wraps value (Int32.ofInt value).toInt := by
  have high := (Int32.ofInt value).toInt_lt
  refine ⟨⟨Int32.le_toInt _, by rw [greatest]; omega⟩, ?_⟩
  rw [Int32.toInt_ofInt]
  exact Int.bmod_emod

theorem wraps_int64 (value : Int) : int64.Wraps value (Int64.ofInt value).toInt := by
  have high := (Int64.ofInt value).toInt_lt
  refine ⟨⟨Int64.le_toInt _, by rw [greatest]; omega⟩, ?_⟩
  rw [Int64.toInt_ofInt]
  exact Int.bmod_emod

theorem wraps_uint32 (value : Int) : uint32.Wraps value (UInt32.ofInt value).toNat := by
  have word : ((UInt32.ofInt value).toNat : Int) = value % 2 ^ 32 := by
    rw [UInt32.ofInt, UInt32.toNat_ofNat_of_lt' (show _ < 2 ^ 32 by omega)]
    omega
  rw [Wraps, Holds, word, least, greatest, bits]
  omega

theorem wraps_uint64 (value : Int) : uint64.Wraps value (UInt64.ofInt value).toNat := by
  have word : ((UInt64.ofInt value).toNat : Int) = value % 2 ^ 64 := by
    rw [UInt64.ofInt, UInt64.toNat_ofNat_of_lt' (show _ < 2 ^ 64 by omega)]
    omega
  rw [Wraps, Holds, word, least, greatest, bits]
  omega

theorem wraps_get_int (type : IntegerType) (word : Int64) :
    type.Wraps word.toInt (type.get (.int word)) := by
  cases type with
  | int32 => exact wraps_int32 _
  | uint32 => exact wraps_uint32 _
  | int64 =>
    have holds : int64.Holds word.toInt := (fits_int_iff word).mp rfl
    exact ⟨holds, rfl⟩
  | uint64 => exact wraps_uint64 _

theorem wraps_get_uint (type : IntegerType) (word : UInt64) :
    type.Wraps word.toNat (type.get (.uint word)) := by
  cases type with
  | int32 => exact wraps_int32 _
  | uint32 => exact wraps_uint32 _
  | int64 => exact wraps_int64 _
  | uint64 =>
    have holds : uint64.Holds word.toNat := (fits_uint_iff word).mp rfl
    exact ⟨holds, rfl⟩

/-- A double held at the ends of a type is an integer of the type. -/
theorem holds_clamp (type : IntegerType) (double : Double) :
    type.Holds (double.clamp type.least type.greatest) := by
  have around : type.least ≤ 0 ∧ 0 ≤ type.greatest := by
    cases type
    all_goals exact ⟨by decide, by decide⟩
  rw [Double.clamp, Holds]
  split
  · exact around
  · split
    · split <;> omega
    · omega

theorem get_double (type : IntegerType) (double : Double) :
    type.get (.double double) = double.clamp type.least type.greatest := by
  have holds := type.holds_clamp double
  cases type with
  | int32 => exact (wraps_int32 _).eq_of_holds holds
  | uint32 => exact (wraps_uint32 _).eq_of_holds holds
  | int64 => exact (wraps_int64 _).eq_of_holds holds
  | uint64 => exact (wraps_uint64 _).eq_of_holds holds

theorem clamp_of_isFinite {double : Double} (finite : double.isFinite = true) (low high : Int) :
    double.clamp low high = max low (min high (towardZero double.toRat)) := by
  have bounded : double.isInfinite = false :=
    decide_eq_false (show double.magnitude < _ from of_decide_eq_true finite).ne
  rw [Double.clamp, Double.isNaN_eq_false finite, bounded, if_neg Bool.false_ne_true,
    if_neg Bool.false_ne_true, Double.truncate_eq_towardZero]

/-- What is got from a number whose exact value is an integer of the type is that value. -/
theorem get_eq_of_is (exact : number.Is value) (holds : type.Holds value) :
    type.get number = value := by
  cases number with
  | int word =>
    obtain rfl := Int.cast_inj.mp (exact.unique (.int word))
    exact (type.wraps_get_int word).eq_of_holds holds
  | uint word =>
    have known : (value : ℚ) = (word.toNat : Int) := (exact.unique (.uint word)).trans
      (Int.cast_natCast _).symm
    obtain rfl := Int.cast_inj.mp known
    exact (type.wraps_get_uint word).eq_of_holds holds
  | double double =>
    obtain ⟨finite, same⟩ := Number.is_double_iff.mp exact
    rw [get_double, clamp_of_isFinite finite, same, towardZero_intCast]
    obtain ⟨low, high⟩ := holds
    omega

/-- What is made of the integer that is got stands for that integer. -/
theorem is_remade (type : IntegerType) (number : Number) :
    (type.remade number).Is (type.get number) := by
  cases type with
  | int32 =>
    have same : number.toInt32.toInt = number.toInt32.toInt64.toInt :=
      (Int32.toInt_toInt64 _).symm
    rw [get, same]
    exact .int _
  | uint32 =>
    have same : number.toUInt32.toNat = number.toUInt32.toUInt64.toNat :=
      (UInt32.toNat_toUInt64 _).symm
    rw [get, same, Int.cast_natCast]
    exact .uint _
  | int64 => exact .int _
  | uint64 =>
    rw [get, Int.cast_natCast]
    exact .uint _

end IntegerType

namespace Number

/-- A number is found to be an integer of a type if and only if its exact value is one, also where
it is compared step by step. Then that value is got from it, and what is made of the value equals
the number. Whatever the value, the integer of the type with the low bits of a word is got from the
word, and from a double its exact value without the fraction, held at the ends of the type: from
an infinity the end on its side, and from what is not a number zero. -/
theorem integers_exact (type : IntegerType) (number : Number) :
    (type.fits number = true ↔
      ∃ value : Int, number.Is value ∧ type.least ≤ value ∧ value ≤ type.greatest) ∧
    type.admits number = type.fits number ∧
    (type.fits number = true → number.Is (type.get number) ∧
      (type.remade number).Is (type.get number) ∧
      (type.remade number).equal number = true ∧ number.equal (type.remade number) = true) ∧
    (type.least ≤ type.get number ∧ type.get number ≤ type.greatest) ∧
    (∀ word, number = int word → type.get number % 2 ^ type.bits = word.toInt % 2 ^ type.bits) ∧
    (∀ word, number = uint word → type.get number % 2 ^ type.bits = word.toNat % 2 ^ type.bits) ∧
    ∀ value, number = double value →
      value.toRat = (if value.negative then -1 else 1) *
        ((value.magnitude % 2 ^ 52 + if value.magnitude / 2 ^ 52 = 0 then 0 else 2 ^ 52 : Nat) : ℚ) *
        (2 : ℚ) ^ ((value.magnitude / 2 ^ 52 - 1 : Nat) - 1074 : Int) ∧
      (value.isFinite = true → type.get number =
        max type.least (min type.greatest (towardZero value.toRat))) ∧
      (value.isFinite = false → type.fits number = false) ∧
      (value.isInfinite = true →
        type.get number = if value.negative then type.least else type.greatest) ∧
      (value.isNaN = true → type.get number = 0) := by
  refine ⟨IntegerType.fits_iff, (type.fits_eq_admits number).symm, fun fits => ?_, ?_, ?_, ?_, ?_⟩
  · obtain ⟨value, exact, holds⟩ := IntegerType.fits_iff.mp fits
    have got := IntegerType.get_eq_of_is exact holds
    have made := type.is_remade number
    rw [got] at made ⊢
    exact ⟨exact, made, equal_iff_same.mpr (.inl ⟨value, made, exact⟩),
      equal_iff_same.mpr (.inl ⟨value, exact, made⟩)⟩
  · cases number with
    | int word => exact (type.wraps_get_int word).1
    | uint word => exact (type.wraps_get_uint word).1
    | double value => exact type.get_double value ▸ type.holds_clamp value
  · rintro word rfl
    exact (type.wraps_get_int word).2
  · rintro word rfl
    exact (type.wraps_get_uint word).2
  · rintro value rfl
    rw [type.get_double]
    refine ⟨value.toRat_eq_fields, fun finite => IntegerType.clamp_of_isFinite finite _ _,
      fun unbounded => ?_, fun infinite => ?_, fun unknown => ?_⟩
    · refine Bool.eq_false_iff.mpr fun fits => ?_
      obtain ⟨integer, exact, -⟩ := IntegerType.fits_iff.mp fits
      rw [(is_double_iff.mp exact).1] at unbounded
      cases unbounded
    · have size : value.magnitude = BinaryFormat.wide.infinity := of_decide_eq_true infinite
      have known : value.isNaN = false := decide_eq_false size.not_gt
      rw [Double.clamp, known, infinite, if_neg Bool.false_ne_true, if_pos rfl]
    · rw [Double.clamp, unknown, if_pos rfl]

/-- Of the doubles next to two to the 31, 32, 63 and 64, those below are integers of the type and
the power itself is not where it is one more than the greatest. The greatest word of 64 bits is no
integer of 32 bits, and its low bits are got. -/
theorem integers_exact_boundaries :
    (IntegerType.int32.fits (.double ⟨0x41dfffffffc00000⟩) = true ∧
      IntegerType.int32.fits (.double ⟨0x41e0000000000000⟩) = false ∧
      IntegerType.int32.fits (.double ⟨0xc1e0000000000000⟩) = true) ∧
    (IntegerType.uint32.fits (.double ⟨0x41efffffffe00000⟩) = true ∧
      IntegerType.uint32.fits (.double ⟨0x41f0000000000000⟩) = false ∧
      IntegerType.uint32.fits (.double ⟨0x8000000000000000⟩) = true) ∧
    ((Number.double ⟨0x43dfffffffffffff⟩).Is
        (IntegerType.int64.get (.double ⟨0x43dfffffffffffff⟩)) ∧
      IntegerType.int64.fits (.double ⟨0x43e0000000000000⟩) = false ∧
      IntegerType.int64.fits (.double ⟨0xc3e0000000000000⟩) = true) ∧
    ((IntegerType.uint64.remade (.double ⟨0x43efffffffffffff⟩)).equal
        (.double ⟨0x43efffffffffffff⟩) = true ∧
      IntegerType.uint64.fits (.double ⟨0x43f0000000000000⟩) = false ∧
      IntegerType.uint64.fits (.double ⟨0x7ff0000000000000⟩) = false ∧
      IntegerType.uint64.get (.double ⟨0x7ff0000000000000⟩) = IntegerType.uint64.greatest) ∧
    IntegerType.int32.get (.uint 18446744073709551615) % 2 ^ 32 = 2 ^ 32 - 1 ∧
    IntegerType.int64.get (.double ⟨0x7ff8000000000000⟩) = 0 := by
  have below := (integers_exact .int64 (.double ⟨0x43dfffffffffffff⟩)).2.2.1 (by decide +kernel)
  have belowUnsigned :=
    (integers_exact .uint64 (.double ⟨0x43efffffffffffff⟩)).2.2.1 (by decide +kernel)
  have infinite := (integers_exact .uint64 (.double ⟨0x7ff0000000000000⟩)).2.2.2.2.2.2 _ rfl
  have word := (integers_exact .int32 (.uint 18446744073709551615)).2.2.2.2.2.1 _ rfl
  have unknown := (integers_exact .int64 (.double ⟨0x7ff8000000000000⟩)).2.2.2.2.2.2 _ rfl
  refine ⟨⟨by decide +kernel, by decide +kernel, by decide +kernel⟩,
    ⟨by decide +kernel, by decide +kernel, by decide +kernel⟩,
    ⟨below.1, by decide +kernel, by decide +kernel⟩,
    ⟨belowUnsigned.2.2.1, by decide +kernel, infinite.2.2.1 rfl, infinite.2.2.2.1 rfl⟩,
    word.trans (by decide), unknown.2.2.2.2 rfl⟩

end Number

end JsonOverlay
