/-
This file shows that numbers are equal exactly if their exact values are, whatever their
representations, and that comparing them step by step comes to the same. Cutting off the fraction
of a double leaves its integer part, so a double that equals what is left is an integer, and one
in the range of integers is converted without loss.
-/

import JsonOverlay.Proofs.Double
import JsonOverlay.Proofs.Tree.Canonical
import JsonOverlay.Proofs.Tree.Fold

namespace JsonOverlay

/-! ### Cutting off fractions -/

namespace BinaryFormat

variable (format : BinaryFormat)

/-- Clearing low bits of the fraction field leaves the exponent field as it is. -/
theorem clear_fields {places : Nat} (inside : places ≤ format.fractionBits)
    (field fraction : Nat) :
    (field * 2 ^ format.fractionBits + fraction) / 2 ^ places * 2 ^ places =
      field * 2 ^ format.fractionBits + fraction / 2 ^ places * 2 ^ places := by
  obtain ⟨others, same⟩ := Nat.exists_eq_add_of_le inside
  have split : field * 2 ^ format.fractionBits = 2 ^ places * (field * 2 ^ others) := by
    rw [same, Nat.pow_add, Nat.mul_left_comm]
  rw [split, Nat.mul_add_div (Nat.two_pow_pos _), Nat.add_mul, Nat.mul_comm (field * 2 ^ others)]

/-- Clearing low bits of the fraction field clears them in the significand. -/
theorem significand_clear {places field fraction : Nat} (inside : places ≤ format.fractionBits)
    (normal : field ≠ 0) (bound : fraction < 2 ^ format.fractionBits) :
    format.significand (field * 2 ^ format.fractionBits + fraction / 2 ^ places * 2 ^ places) =
      format.significand (field * 2 ^ format.fractionBits + fraction) / 2 ^ places * 2 ^ places := by
  have smaller := (Nat.div_mul_le_self fraction (2 ^ places)).trans_lt bound
  have clear := clear_fields format inside 1 fraction
  rw [Nat.one_mul, Nat.add_comm, Nat.add_comm (2 ^ format.fractionBits)] at clear
  rw [significand_fields format field bound, significand_fields format field smaller,
    if_neg normal, clear]

end BinaryFormat

namespace Double

open BinaryFormat

variable {number left right : Double} {value : Int}

/-- The integer part has the sign of the number. -/
theorem truncate_eq (number : Double) : number.truncate =
    (if number.negative then -1 else 1) *
      ((if number.exponent < 0 then wide.significand number.magnitude / 2 ^ (-number.exponent).toNat
      else wide.significand number.magnitude * 2 ^ number.exponent.toNat : Nat) : Int) := by
  rw [truncate, significand]
  by_cases small : number.exponent < 0
  · rw [if_pos small, if_pos small]
    split
    · rw [Int.neg_tdiv, neg_one_mul]
      rfl
    · rw [one_mul]
      rfl
  · rw [if_neg small, if_neg small]
    split
    · push_cast
      ring
    · push_cast
      ring

/-- The exact value has the sign of the number. -/
theorem toRat_eq_magnitude (number : Double) : number.toRat =
    (if number.negative then -1 else 1) * ((wide.significand number.magnitude : ℚ) *
      (2 : ℚ) ^ wide.exponent number.magnitude) := by
  rw [toRat_eq, significand, exponent]
  split
  · push_cast
    ring
  · push_cast
    ring

theorem toRat_ofMagnitude (sign : Bool) {size : Nat} (bound : size < 2 ^ 63) :
    (ofMagnitude sign size).toRat = (if sign then -1 else 1) *
      ((wide.significand size : ℚ) * (2 : ℚ) ^ wide.exponent size) := by
  rw [toRat_eq_magnitude, negative_ofMagnitude sign bound, magnitude_ofMagnitude sign bound]

theorem isFinite_ofMagnitude (sign : Bool) {size : Nat} (bound : size < wide.infinity) :
    (ofMagnitude sign size).isFinite = true := by
  have room : size < 2 ^ 63 := bound.trans (by decide)
  rw [isFinite, magnitude_ofMagnitude sign room]
  exact decide_eq_true bound

/-- A number below one in size has no integer part. -/
theorem truncate_of_lt_oneField (below : number.magnitude / 2 ^ wide.fractionBits < oneField) :
    number.truncate = 0 := by
  have size : wide.significand number.magnitude < 2 ^ 53 := by
    have fraction := Nat.mod_lt number.magnitude (Nat.two_pow_pos wide.fractionBits)
    have bits : wide.fractionBits = 52 := rfl
    rw [significand_eq]
    rw [bits] at fraction ⊢
    split <;> omega
  rw [oneField] at below
  have small : number.exponent < 0 := by
    rw [exponent_eq]
    omega
  have places : 2 ^ 53 ≤ 2 ^ (-number.exponent).toNat := by
    refine Nat.pow_le_pow_right (by decide) ?_
    rw [exponent_eq]
    omega
  rw [truncate_eq, if_pos small, Nat.div_eq_of_lt (size.trans_le places), Nat.cast_zero, mul_zero]

/-- Clearing the bits that stand for the fraction keeps the exponent and leaves a multiple of one. -/
theorem toRat_cleared {places : Nat} (finite : number.isFinite = true)
    (inside : places ≤ wide.fractionBits)
    (normal : number.magnitude / 2 ^ wide.fractionBits ≠ 0)
    (power : number.exponent = -(places : Int)) :
    (ofMagnitude number.negative (number.magnitude / 2 ^ places * 2 ^ places)).toRat =
      (if number.negative then -1 else 1) *
        ((wide.significand number.magnitude / 2 ^ places : Nat) : ℚ) := by
  have small : number.magnitude < wide.infinity := of_decide_eq_true finite
  have less := Nat.div_mul_le_self number.magnitude (2 ^ places)
  have room : wide.infinity < 2 ^ 63 := by decide
  obtain ⟨field, fraction, bound, same⟩ := wide.exists_fields number.magnitude
  rw [same, div_fields wide field bound] at normal
  have sameExponent : wide.exponent (number.magnitude / 2 ^ places * 2 ^ places) =
      number.exponent := by
    have smaller := (Nat.div_mul_le_self fraction (2 ^ places)).trans_lt bound
    rw [exponent, BinaryFormat.exponent, BinaryFormat.exponent, same, clear_fields wide inside,
      doublings_fields wide field smaller, doublings_fields wide field bound]
  have sameSignificand : wide.significand (number.magnitude / 2 ^ places * 2 ^ places) =
      wide.significand number.magnitude / 2 ^ places * 2 ^ places := by
    rw [same, clear_fields wide inside, significand_clear wide inside normal bound]
  have scale : ((2 : ℚ) ^ places) ≠ 0 := by positivity
  rw [toRat_ofMagnitude _ (less.trans_lt (small.trans room)), sameExponent, sameSignificand, power,
    zpow_neg, zpow_natCast, Nat.cast_mul, Nat.cast_pow, Nat.cast_ofNat,
    mul_inv_cancel_right₀ scale]

/-- What is left of a finite number when its fraction is cut off is its integer part. -/
theorem toRat_truncated (finite : number.isFinite = true) :
    number.truncated.isFinite = true ∧ number.truncated.toRat = number.truncate := by
  have small : number.magnitude < wide.infinity := of_decide_eq_true finite
  have bits : wide.fractionBits = 52 := rfl
  rw [truncated]
  dsimp only
  split
  · -- All of the number is fraction.
    rename_i below
    have nothing : wide.significand 0 = 0 := rfl
    refine ⟨isFinite_ofMagnitude _ (by decide), ?_⟩
    rw [truncate_of_lt_oneField below, toRat_ofMagnitude _ (by decide), nothing]
    simp
  · split
    · -- The exponent field tells how many bits of the fraction field are fraction.
      rename_i above below
      obtain ⟨places, cut⟩ : ∃ places, places =
          wholeField - number.magnitude / 2 ^ wide.fractionBits := ⟨_, rfl⟩
      rw [← cut]
      rw [wholeField, oneField, bits] at below cut
      rw [oneField, bits] at above
      have power : number.exponent = -(places : Int) := by
        rw [exponent_eq, bits]
        omega
      have negative : -(places : Int) < 0 := by omega
      have less := Nat.div_mul_le_self number.magnitude (2 ^ places)
      refine ⟨isFinite_ofMagnitude _ (less.trans_lt small), ?_⟩
      rw [toRat_cleared finite (by rw [bits]; omega) (by rw [bits]; omega) power, truncate_eq,
        power, if_pos negative, neg_neg, Int.toNat_natCast]
      push_cast
      rfl
    · -- None of it is.
      rename_i above
      have whole : ¬ number.exponent < 0 := by
        rw [wholeField, oneField] at above
        rw [exponent_eq]
        omega
      refine ⟨finite, ?_⟩
      rw [toRat_of_exponent whole, truncate, if_neg whole]

/-! ### Doubles that are integers -/

theorem less_iff (finite : left.isFinite = true) (otherFinite : right.isFinite = true) :
    left.less right = true ↔ left.toRat < right.toRat := by
  rw [less, isNaN_eq_false finite, isNaN_eq_false otherFinite, toRat_lt_iff_rank]
  exact decide_eq_true_iff

theorem atMost_iff (finite : left.isFinite = true) (otherFinite : right.isFinite = true) :
    left.atMost right = true ↔ left.toRat ≤ right.toRat := by
  rw [atMost, isNaN_eq_false finite, isNaN_eq_false otherFinite, toRat_le_iff_rank]
  exact decide_eq_true_iff

theorem toRat_leastInt64 : leastInt64.toRat = -2 ^ 63 := by
  have exponent : leastInt64.exponent = 11 := by decide
  have significand : leastInt64.significand = -2 ^ 52 := by decide
  rw [toRat_eq, exponent, significand]
  norm_num

theorem toRat_aboveUInt64 : aboveUInt64.toRat = 2 ^ 64 := by
  have exponent : aboveUInt64.exponent = 12 := by decide
  have significand : aboveUInt64.significand = 2 ^ 52 := by decide
  rw [toRat_eq, exponent, significand]
  norm_num

theorem toInt128_eq (finite : number.isFinite = true) (low : -2 ^ 127 ≤ number.truncate)
    (high : number.truncate ≤ 2 ^ 127 - 1) : number.toInt128 = number.truncate := by
  have bound : number.magnitude < wide.infinity := of_decide_eq_true finite
  have bounded : number.isInfinite = false := decide_eq_false bound.ne
  rw [toInt128, clamp, isNaN_eq_false finite, bounded, if_neg Bool.false_ne_true,
    if_neg Bool.false_ne_true, min_eq_right high, max_eq_right low]

/-- A double is found to be an integer of 64 bits exactly if that is its exact value. -/
theorem equalsInteger_iff (low : -2 ^ 63 ≤ value) (high : value < 2 ^ 64) :
    number.equalsInteger value = true ↔ number.isFinite = true ∧ number.toRat = value := by
  simp only [equalsInteger, Bool.and_eq_true, beq_iff_eq, and_assoc]
  refine and_congr_right fun finite => ?_
  obtain ⟨cutFinite, cut⟩ := toRat_truncated finite
  rw [equal_iff_toRat cutFinite finite, cut, atMost_iff (by decide) finite, less_iff finite (by decide),
    toRat_leastInt64, toRat_aboveUInt64]
  constructor
  · rintro ⟨whole, above, below, converted⟩
    rw [← whole] at above below ⊢
    norm_cast at above below ⊢
    rw [← converted, toInt128_eq finite (by omega) (by omega)]
  · intro exact
    have whole := truncate_of_toRat_eq exact
    rw [toInt128_eq finite (by omega) (by omega), whole, exact]
    refine ⟨rfl, ?_, ?_, rfl⟩
    · exact_mod_cast low
    · exact_mod_cast high

end Double

/-! ### Exact values -/

namespace Number

variable {left right number : Number} {value : Int}

/-- The exact value of a number that has one. -/
inductive Is : Number → ℚ → Prop where
  | int (value : Int64) : Is (int value) value.toInt
  | uint (value : UInt64) : Is (uint value) value.toNat
  | double {value : Double} (finite : value.isFinite = true) : Is (double value) value.toRat

/-- An infinity with its sign. -/
inductive IsInfinity : Number → Bool → Prop where
  | double {value : Double} (infinite : value.isInfinite = true) :
      IsInfinity (double value) value.negative

/-- Two numbers are the same if they have one exact value or are one infinity. -/
def Same (left right : Number) : Prop :=
  (∃ value, left.Is value ∧ right.Is value) ∨
    ∃ negative, left.IsInfinity negative ∧ right.IsInfinity negative

theorem Same.symm (same : left.Same right) : right.Same left := by
  obtain ⟨value, has, others⟩ | ⟨negative, has, others⟩ := same
  · exact .inl ⟨value, others, has⟩
  · exact .inr ⟨negative, others, has⟩

theorem Is.unique {first second : ℚ} (exact : number.Is first) (other : number.Is second) :
    first = second := by
  cases exact <;> cases other <;> rfl

theorem IsInfinity.unique {first second : Bool} (infinite : number.IsInfinity first)
    (other : number.IsInfinity second) : first = second := by
  cases infinite
  cases other
  rfl

/-- No infinity has an exact value. -/
theorem Is.not_isInfinity {value : ℚ} {negative : Bool} (exact : number.Is value) :
    ¬ number.IsInfinity negative := by
  rintro ⟨infinite⟩
  rename_i double
  cases exact
  rename_i finite
  have small : double.magnitude < BinaryFormat.wide.infinity := of_decide_eq_true finite
  exact small.ne (of_decide_eq_true infinite)

theorem Same.trans {third : Number} (first : left.Same right) (second : right.Same third) :
    left.Same third := by
  obtain ⟨value, has, others⟩ | ⟨negative, has, others⟩ := first
  · obtain ⟨other, same, last⟩ | ⟨sign, infinite, last⟩ := second
    · obtain rfl := others.unique same
      exact .inl ⟨value, has, last⟩
    · exact absurd infinite others.not_isInfinity
  · obtain ⟨value, exact, last⟩ | ⟨other, same, last⟩ := second
    · exact absurd others exact.not_isInfinity
    · obtain rfl := others.unique same
      exact .inr ⟨negative, has, last⟩

/-- A number is the same as itself unless it is a double that is not a number. -/
theorem Same.refl (number : Number) (known : ∀ value, number = double value → value.isNaN = false) :
    number.Same number := by
  cases number with
  | int value => exact .inl ⟨_, .int value, .int value⟩
  | uint value => exact .inl ⟨_, .uint value, .uint value⟩
  | double value =>
    have size : ¬ BinaryFormat.wide.infinity < value.magnitude :=
      of_decide_eq_false (known value rfl)
    rcases (not_lt.mp size).lt_or_eq with small | infinite
    · have finite : value.isFinite = true := decide_eq_true small
      exact .inl ⟨_, .double finite, .double finite⟩
    · have infinite : value.isInfinite = true := decide_eq_true infinite
      exact .inr ⟨_, .double infinite, .double infinite⟩

theorem is_double_iff {double : Double} {value : ℚ} :
    (Number.double double).Is value ↔ double.isFinite = true ∧ double.toRat = value := by
  constructor
  · rintro ⟨⟩
    rename_i finite
    exact ⟨finite, rfl⟩
  · rintro ⟨finite, rfl⟩
    exact .double finite

theorem isInfinity_double_iff {double : Double} {negative : Bool} :
    (Number.double double).IsInfinity negative ↔
      double.isInfinite = true ∧ double.negative = negative := by
  constructor
  · rintro ⟨⟩
    rename_i infinite
    exact ⟨infinite, rfl⟩
  · rintro ⟨infinite, rfl⟩
    exact .double infinite

/-- A number that is no double has an integer for its one exact value. -/
theorem exists_integer (whole : number.isDouble = false) : ∃ value, number.integer? = some value ∧
    (∀ other, number.Is other ↔ other = (value : ℚ)) ∧ ∀ negative, ¬ number.IsInfinity negative := by
  cases number with
  | int value =>
    refine ⟨_, rfl, fun other => ⟨?_, ?_⟩, nofun⟩
    · rintro ⟨⟩
      rfl
    · rintro rfl
      exact .int value
  | uint value =>
    refine ⟨_, rfl, fun other => ⟨?_, ?_⟩, nofun⟩
    · rintro ⟨⟩
      exact (Int.cast_natCast _).symm
    · rintro rfl
      rw [Int.cast_natCast]
      exact .uint value
  | double => cases whole

theorem is_intCast_iff : number.Is value ↔ number.integer? = some value := by
  cases whole : number.isDouble with
  | false =>
    obtain ⟨exact, known, has, -⟩ := exists_integer whole
    rw [has, known, Option.some.injEq, Int.cast_inj, eq_comm]
  | true =>
    cases number with
    | double double => exact is_double_iff.trans Double.integer?_eq_some_iff.symm
    | _ => cases whole

theorem equal_of_whole (whole : right.isDouble = false) :
    left.equal right = (left.integer? == right.integer?) := by
  cases right with
  | double => cases whole
  | int | uint =>
    cases left with
    | double => exact Bool.beq_comm
    | int | uint => rfl

/-- A number equals an integer if that is its exact value. -/
theorem equal_iff_same_of_whole (whole : right.isDouble = false) :
    left.equal right = true ↔ left.Same right := by
  obtain ⟨value, known, has, finite⟩ := exists_integer whole
  rw [equal_of_whole whole, known, beq_iff_eq, ← is_intCast_iff]
  constructor
  · exact fun exact => .inl ⟨value, exact, (has _).mpr rfl⟩
  · rintro (⟨other, exact, same⟩ | ⟨negative, -, infinite⟩)
    · rwa [(has _).mp same] at exact
    · exact absurd infinite (finite negative)

/-- Two doubles are equal if they have one exact value or are one infinity. -/
theorem double_equal_iff_same {left right : Double} :
    left.equal right = true ↔ (double left).Same (double right) := by
  rw [Double.equal_iff]
  constructor
  · rintro ⟨known, otherKnown, same⟩
    have size := Double.magnitude_eq_of_rank_eq same
    by_cases finite : left.isFinite = true
    · have otherFinite : right.isFinite = true := by rwa [Double.isFinite, ← size]
      refine .inl ⟨left.toRat, .double finite, ?_⟩
      rw [Double.toRat_eq_iff_rank.mpr same]
      exact .double otherFinite
    · have infinite := Double.isInfinite_of_not_isFinite known finite
      refine .inr ⟨left.negative, .double infinite, ?_⟩
      have equal : left = right := by
        refine (Double.rank_eq_rank_iff.mp same).resolve_right fun zero => finite ?_
        rw [Double.isFinite, zero.1]
        rfl
      rw [← equal]
      exact .double infinite
  · rintro (⟨value, has, others⟩ | ⟨negative, has, others⟩)
    · obtain ⟨finite, exact⟩ := is_double_iff.mp has
      obtain ⟨otherFinite, otherExact⟩ := is_double_iff.mp others
      exact ⟨Double.isNaN_eq_false finite, Double.isNaN_eq_false otherFinite,
        Double.toRat_eq_iff_rank.mp (exact.trans otherExact.symm)⟩
    · obtain ⟨infinite, sign⟩ := isInfinity_double_iff.mp has
      obtain ⟨otherInfinite, otherSign⟩ := isInfinity_double_iff.mp others
      have size : left.magnitude = BinaryFormat.wide.infinity := of_decide_eq_true infinite
      have otherSize : right.magnitude = BinaryFormat.wide.infinity :=
        of_decide_eq_true otherInfinite
      refine ⟨decide_eq_false size.not_gt, decide_eq_false otherSize.not_gt, ?_⟩
      rw [Double.rank, Double.rank, sign, otherSign, size, otherSize]

/-- Numbers are equal if they have one exact value or are one infinity. -/
theorem equal_iff_same : left.equal right = true ↔ left.Same right := by
  cases whole : right.isDouble with
  | false => exact equal_iff_same_of_whole whole
  | true =>
    cases otherWhole : left.isDouble with
    | false =>
      rw [equal_comm, equal_iff_same_of_whole otherWhole]
      exact ⟨Same.symm, Same.symm⟩
    | true =>
      cases left with
      | double left =>
        cases right with
        | double right => exact double_equal_iff_same
        | _ => cases whole
      | _ => cases otherWhole

/-! ### Step by step -/

theorem compare_comm (left right : Number) : left.compare right = right.compare left := by
  rcases left with left | left | left <;> rcases right with right | right | right
  case int.int => exact Bool.beq_comm
  case uint.uint => exact Bool.beq_comm
  case double.double => exact left.equal_comm right
  all_goals rfl

/-- Comparing a double with an integer step by step comes to comparing exact values. -/
theorem equalsInteger_eq (double : Double) (low : -2 ^ 63 ≤ value) (high : value < 2 ^ 64) :
    double.equalsInteger value = (some value == double.integer?) := by
  rw [Bool.eq_iff_iff, Double.equalsInteger_iff low high, beq_iff_eq, eq_comm (a := some value),
    Double.integer?_eq_some_iff]

theorem compare_int_uint (left : Int64) (right : UInt64) :
    (int left).compare (uint right) = (int left).equal (uint right) := by
  show (decide (0 ≤ left.toInt) && UInt64.ofInt left.toInt == right) =
    (some left.toInt == some (right.toNat : Int))
  rw [Bool.eq_iff_iff, Bool.and_eq_true, decide_eq_true_iff, beq_iff_eq, beq_iff_eq,
    Option.some.injEq]
  constructor
  · rintro ⟨positive, rfl⟩
    exact (toNat_ofInt_toInt (Int.not_lt.mpr positive)).symm
  · intro same
    have positive : ¬ left.toInt < 0 := by omega
    refine ⟨Int.not_lt.mp positive, UInt64.toNat_inj.mp (Int.ofNat_inj.mp ?_)⟩
    exact (toNat_ofInt_toInt positive).trans same

/-- Comparing step by step comes to comparing exact values. -/
theorem compare_eq_equal (left right : Number) : left.compare right = left.equal right := by
  rcases left with left | left | left <;> rcases right with right | right | right
  case int.int =>
    show (left == right) = (some left.toInt == some right.toInt)
    rw [Bool.eq_iff_iff, beq_iff_eq, beq_iff_eq, Option.some.injEq, Int64.toInt_inj]
  case uint.uint =>
    show (left == right) = (some (left.toNat : Int) == some (right.toNat : Int))
    rw [Bool.eq_iff_iff, beq_iff_eq, beq_iff_eq, Option.some.injEq, Int.ofNat_inj, UInt64.toNat_inj]
  case int.uint => exact compare_int_uint left right
  case uint.int => rw [compare_comm, compare_int_uint, equal_comm]
  case double.double => rfl
  case double.int =>
    exact equalsInteger_eq left right.le_toInt (by have bound := right.toInt_lt; omega)
  case int.double =>
    rw [compare_comm, equal_comm]
    exact equalsInteger_eq right left.le_toInt (by have bound := left.toInt_lt; omega)
  case double.uint =>
    exact equalsInteger_eq left (by omega) (by have bound := right.toNat_lt; omega)
  case uint.double =>
    rw [compare_comm, equal_comm]
    exact equalsInteger_eq right (by omega) (by have bound := left.toNat_lt; omega)

/-! ### Equality -/

theorem equal_double_iff (exact : number.Is value) (whole : number.isDouble = false)
    (double : Double) :
    number.equal (.double double) = true ↔ double.isFinite = true ∧ double.toRat = value := by
  rw [equal_comm, equal_of_whole whole, is_intCast_iff.mp exact, beq_iff_eq]
  exact Double.integer?_eq_some_iff

theorem not_same_of_isNaN {double : Double} (known : double.isNaN = true) :
    ¬ (Number.double double).Same right := by
  have large : BinaryFormat.wide.infinity < double.magnitude := of_decide_eq_true known
  rintro (⟨value, has, -⟩ | ⟨negative, has, -⟩)
  · have small : double.magnitude < BinaryFormat.wide.infinity :=
      of_decide_eq_true (is_double_iff.mp has).1
    omega
  · have same : double.magnitude = BinaryFormat.wide.infinity :=
      of_decide_eq_true (isInfinity_double_iff.mp has).1
    omega

/-- A zero of either sign is zero. -/
theorem toRat_of_magnitude_eq_zero {double : Double} (zero : double.magnitude = 0) :
    double.isFinite = true ∧ double.toRat = 0 := by
  have same : double.rank = Double.zero.rank :=
    Double.rank_eq_rank_iff.mpr (.inr ⟨zero, by decide⟩)
  refine ⟨by rw [Double.isFinite, zero]; rfl, ?_⟩
  rw [Double.toRat_eq_iff_rank.mpr same, Double.toRat_eq_units]
  exact zero_mul _

/-- Two numbers are equal if and only if they have one exact value or are one infinity, and
comparing them step by step comes to the same. The exact value of a double is what its fields
denote, and no integer is rounded before it is compared with one: it has to be that value. So what
is not a number equals nothing, a zero of either sign is zero, and an integer with a sign equals no
unsigned one if it is negative. Numbers compare in either order, and numbers that equal one number
equal each other. -/
theorem equal_exact :
    (∀ left right : Number, (left.equal right = true ↔ left.Same right) ∧
      left.compare right = left.equal right ∧ right.equal left = left.equal right) ∧
    (∀ left right third : Number, left.equal right = true → right.equal third = true →
      left.equal third = true) ∧
    (∀ double : Double, double.toRat = (if double.negative then -1 else 1) *
      ((double.magnitude % 2 ^ 52 + if double.magnitude / 2 ^ 52 = 0 then 0 else 2 ^ 52 : Nat) : ℚ) *
      (2 : ℚ) ^ ((double.magnitude / 2 ^ 52 - 1 : Nat) - 1074 : Int)) ∧
    (∀ (value : Int64) (double : Double), (int value).equal (.double double) = true ↔
      double.isFinite = true ∧ double.toRat = value.toInt) ∧
    (∀ (value : UInt64) (double : Double), (uint value).equal (.double double) = true ↔
      double.isFinite = true ∧ double.toRat = value.toNat) ∧
    (∀ (double : Double) (number : Number), double.isNaN = true →
      (Number.double double).equal number = false) ∧
    (∀ double : Double, double.magnitude = 0 →
      (Number.double double).equal (int 0) = true ∧ (Number.double double).equal (uint 0) = true) ∧
    ∀ (value : Int64) (unsigned : UInt64), value.toInt < 0 →
      (int value).equal (uint unsigned) = false := by
  refine ⟨fun left right => ⟨equal_iff_same, compare_eq_equal left right, equal_comm right left⟩,
    fun left right third first second => ?_, Double.toRat_eq_fields, fun value double => ?_,
    fun value double => ?_, fun double number known => ?_, fun double zero => ?_,
    fun value unsigned negative => ?_⟩
  · exact equal_iff_same.mpr ((equal_iff_same.mp first).trans (equal_iff_same.mp second))
  · exact equal_double_iff (.int value) rfl double
  · exact equal_double_iff (.uint value) rfl double
  · exact Bool.eq_false_iff.mpr fun same => not_same_of_isNaN known (equal_iff_same.mp same)
  · obtain ⟨finite, exact⟩ := toRat_of_magnitude_eq_zero zero
    rw [equal_comm, equal_comm (.double double)]
    exact ⟨(equal_double_iff (.int 0) rfl double).mpr ⟨finite, exact⟩,
      (equal_double_iff (.uint 0) rfl double).mpr ⟨finite, exact⟩⟩
  · refine Bool.eq_false_iff.mpr fun same => ?_
    have equal : value.toInt = unsigned.toNat := Option.some.inj (beq_iff_eq.mp same)
    omega

/-- The two integers next to two to the 53 round to one double, which equals only the even one. The
greatest integers of 64 bits round up to doubles that they do not equal. -/
theorem equal_exact_boundaries :
    (uint 9007199254740992).equal (.double ⟨0x4340000000000000⟩) = true ∧
      (uint 9007199254740993).equal (.double ⟨0x4340000000000000⟩) = false ∧
      (int 9223372036854775807).equal (.double ⟨0x43e0000000000000⟩) = false ∧
      (uint 18446744073709551615).equal (.double ⟨0x43f0000000000000⟩) = false ∧
      (int 9007199254740992).equal (uint 9007199254740992) = true ∧
      (Number.double ⟨0x8000000000000000⟩).equal (int 0) = true ∧
      (Number.double ⟨0x7ff8000000000000⟩).equal (uint 0) = false ∧
      (int (-1)).equal (uint 18446744073709551615) = false := by
  obtain ⟨-, transitive, -, -, -, nothing, zeros, signs⟩ := equal_exact
  refine ⟨rfl, rfl, rfl, rfl, ?_, (zeros _ (by decide)).1, nothing _ _ (by decide),
    signs _ _ (by decide)⟩
  exact transitive _ (.double ⟨0x4340000000000000⟩) _ rfl rfl

end Number

end JsonOverlay
