/-
This file says how exact the arithmetic of cursors is. Adding an offset stops at the position nearest
to the exact one, and so does taking one away, except that the least offset takes one place less. The
difference of two cursors is exact wherever it is an offset, but as a difference of signed words it
is none if the two lie on different sides of the middle of the range.
-/

import JsonOverlay.Proofs.Value.Moves
import JsonOverlay.Value.Offsets

namespace JsonOverlay.ArrayCursor

variable {ρ : Type}

/-! ### Moving by an offset -/

/-- The position that is nearest to a place, which may lie outside of the range. -/
def nearest (place : Int) : Int := max 0 (min greatestPosition place)

/-- The bits of a position, read as an offset. -/
theorem toInt_toInt64 (position : UInt64) :
    position.toInt64.toInt =
      if position.toNat < 2 ^ 63 then (position.toNat : Int) else position.toNat - 2 ^ 64 := by
  have read : position.toInt64.toInt = position.toBitVec.toInt := rfl
  have word : position.toBitVec.toNat = position.toNat := rfl
  rw [read, BitVec.toInt_eq_toNat_cond, word]
  split <;> split <;> omega

theorem toInt_moved (position : UInt64) (offset : Int) :
    ((moved position offset).toNat : Int) = nearest (position.toNat + offset) := by
  have greatest : greatestPosition = 2 ^ 64 - 1 := rfl
  rw [moved, nearest, greatest, UInt64.ofInt, UInt64.toNat_ofNat_of_lt' (show _ < 2 ^ 64 by omega)]
  omega

/-- What comes of adding the bits of an offset is the position nearest to the exact one. -/
theorem shifted_eq_moved (position : UInt64) (offset : Int64) :
    shifted position offset = moved position offset.toInt := by
  have bits : offset.toInt = _ := toInt_toInt64 offset.toUInt64
  have sum := UInt64.toNat_add position offset.toUInt64
  have bound := position.toNat_lt
  have width := offset.toUInt64.toNat_lt
  have negative : offset < 0 ↔ offset.toInt < 0 := Int64.lt_iff_toInt_lt
  have greatest : greatestPosition = 2 ^ 64 - 1 := rfl
  have last : (-1 : UInt64).toNat = 2 ^ 64 - 1 := rfl
  refine UInt64.toNat_inj.mp (Int.ofNat_inj.mp ?_)
  rw [toInt_moved, nearest, greatest, shifted, carried]
  simp only [decide_eq_decide, decide_eq_true_eq, negative]
  -- The bits stand for the offset itself or, below zero, for one turn around the range more.
  split at bits <;> split
  · rw [sum]
    omega
  · rw [if_pos (by omega), last]
    omega
  · rw [sum]
    omega
  · rw [if_neg (by omega), UInt64.toNat_zero]
    omega

theorem toInt_opposite (offset : Int64) :
    (opposite offset).toInt = -offset.toInt - if offset = Int64.minValue then 1 else 0 := by
  rw [opposite]
  split
  · rename_i least
    rw [least]
    rfl
  · rename_i other
    have least : offset.toInt ≠ -2 ^ 63 := fun same =>
      other (Int64.toInt_inj.mp (same.trans Int64.toInt_minValue.symm))
    have above := offset.le_toInt
    have below := offset.toInt_lt
    rw [Int64.toInt_neg, Int.bmod_eq_of_le (by omega) (by omega), Int.sub_zero]

/-- Going back comes as near to the exact place as the opposite of the offset does. -/
theorem toInt_index_retreat (cursor : ArrayCursor ρ) (offset : Int64) :
    ((cursor.retreat offset).index.toNat : Int) =
      nearest (cursor.index.toNat - offset.toInt - if offset = Int64.minValue then 1 else 0) := by
  show ((moved cursor.index (opposite offset).toInt).toNat : Int) = _
  rw [toInt_moved, toInt_opposite]
  congr 1
  omega

/-- One place is lost with the least offset, unless the range has ended anyway. -/
theorem toInt_index_retreat_eq_iff (cursor : ArrayCursor ρ) (offset : Int64) :
    ((cursor.retreat offset).index.toNat : Int) = nearest (cursor.index.toNat - offset.toInt) ↔
      offset ≠ Int64.minValue ∨ 2 ^ 63 ≤ cursor.index.toNat := by
  have greatest : greatestPosition = 2 ^ 64 - 1 := rfl
  rw [toInt_index_retreat, nearest, nearest, greatest]
  by_cases least : offset = Int64.minValue
  · have value : offset.toInt = -2 ^ 63 := by rw [least, Int64.toInt_minValue]
    rw [if_pos least, value]
    simp only [least, ne_eq, not_true_eq_false, false_or]
    omega
  · rw [if_neg least, Int.sub_zero]
    exact iff_of_true rfl (.inl least)

/-- Every position is come to by going forward one place after the other. -/
theorem toNat_index_foldl_advance (array : ρ) (size : Nat) {count : Nat} (small : count < 2 ^ 64) :
    ((List.replicate count (1 : Int64)).foldl advance (start array size)).index.toNat = count := by
  induction count with
  | zero => rfl
  | succ count inductionHypothesis =>
    have greatest : greatestPosition = 2 ^ 64 - 1 := rfl
    have one : (1 : Int64).toInt = 1 := rfl
    have before := inductionHypothesis (Nat.lt_of_succ_lt small)
    have step := toInt_moved
      ((List.replicate count (1 : Int64)).foldl advance (start array size)).index (1 : Int64).toInt
    rw [before, one, nearest, greatest] at step
    rw [List.replicate_succ', List.foldl_append, List.foldl_cons, List.foldl_nil]
    refine Int.ofNat_inj.mp (step.trans ?_)
    omega

/-! ### The difference of two cursors -/

/-- How many places one cursor is ahead of another. -/
def lead (left right : ArrayCursor ρ) : Int := left.index.toNat - right.index.toNat

/-- A number of places that an offset can have. -/
def IsOffset (places : Int) : Prop :=
  Int64.minValue.toInt ≤ places ∧ places ≤ Int64.maxValue.toInt

instance (places : Int) : Decidable (IsOffset places) := inferInstanceAs (Decidable (_ ∧ _))

theorem isOffset_iff (places : Int) : IsOffset places ↔ -2 ^ 63 ≤ places ∧ places < 2 ^ 63 := by
  rw [IsOffset, Int64.toInt_minValue, Int64.toInt_maxValue]
  omega

/-- The difference is the exact one, less or more a turn around the range if that is no offset. -/
theorem toInt_distance (left right : ArrayCursor ρ) :
    (left.distance right).toInt =
      if IsOffset (left.lead right) then left.lead right
      else if 0 ≤ left.lead right then left.lead right - 2 ^ 64 else left.lead right + 2 ^ 64 := by
  have above := left.index.toNat_lt
  have below := right.index.toNat_lt
  have word := UInt64.toNat_sub left.index right.index
  rw [distance, toInt_toInt64, word]
  by_cases small : IsOffset (left.lead right)
  · rw [if_pos small]
    rw [isOffset_iff, lead] at small
    rw [lead]
    split <;> omega
  · rw [if_neg small]
    rw [isOffset_iff, lead] at small
    rw [lead]
    split <;> split <;> omega

theorem toInt_distance_eq_iff (left right : ArrayCursor ρ) :
    (left.distance right).toInt = left.lead right ↔ IsOffset (left.lead right) := by
  rw [toInt_distance]
  split
  · rename_i small
    exact iff_of_true rfl small
  · rename_i large
    refine iff_of_false ?_ large
    split <;> omega

/-- The difference is taken between signed words. -/
theorem difference?_eq (left right : ArrayCursor ρ) :
    left.difference? right =
      if IsOffset (left.lead right) ∧ ¬ (left.index.toNat < 2 ^ 63 ↔ right.index.toNat < 2 ^ 63) then
        none
      else some (left.distance right) := by
  have above := left.index.toNat_lt
  have below := right.index.toNat_lt
  have split : (Int64.minValue.toInt ≤ left.index.toInt64.toInt - right.index.toInt64.toInt ∧
        left.index.toInt64.toInt - right.index.toInt64.toInt ≤ Int64.maxValue.toInt) ↔
      ¬ (IsOffset (left.lead right) ∧
        ¬ (left.index.toNat < 2 ^ 63 ↔ right.index.toNat < 2 ^ 63)) := by
    rw [toInt_toInt64, toInt_toInt64, Int64.toInt_minValue, Int64.toInt_maxValue, isOffset_iff, lead]
    split <;> split <;> omega
  rw [difference?]
  by_cases turned : IsOffset (left.lead right) ∧
      ¬ (left.index.toNat < 2 ^ 63 ↔ right.index.toNat < 2 ^ 63)
  · rw [if_pos turned, if_neg fun inside => split.mp inside turned]
  · rw [if_neg turned, if_pos (split.mpr turned), distance, UInt64.toInt64_sub]

/-- Going forward by the difference leads from one cursor to the other iff the difference is an
offset. -/
theorem advance_distance_eq_iff (left right : ArrayCursor ρ) :
    (right.advance (left.distance right)).index = left.index ↔ IsOffset (left.lead right) := by
  have above := left.index.toNat_lt
  have below := right.index.toNat_lt
  have greatest : greatestPosition = 2 ^ 64 - 1 := rfl
  have gone : ((right.advance (left.distance right)).index.toNat : Int) = _ :=
    toInt_moved right.index (left.distance right).toInt
  rw [← UInt64.toNat_inj, ← Int.ofNat_inj, gone, nearest, greatest]
  by_cases small : IsOffset (left.lead right)
  · rw [(toInt_distance_eq_iff left right).mpr small, lead]
    exact iff_of_true (by omega) small
  · refine iff_of_false ?_ small
    rw [toInt_distance, if_neg small]
    rw [isOffset_iff, lead] at small
    rw [lead]
    split <;> omega

/-! ### The order of two cursors -/

theorem order?_eq [DecidableEq ρ] (left right : ArrayCursor ρ) :
    left.order? right =
      if left.array = right.array then some (compare (left.lead right) 0) else none := by
  have words : compare left.index right.index = compareOfLessAndEq left.index right.index := rfl
  have places : compare (left.lead right) 0 = compareOfLessAndEq (left.lead right) 0 := rfl
  have before : left.index < right.index ↔ left.lead right < 0 := by
    rw [UInt64.lt_iff_toNat_lt, lead]
    omega
  have same : left.index = right.index ↔ left.lead right = 0 := by
    rw [← UInt64.toNat_inj, lead]
    omega
  rw [order?, words, places, compareOfLessAndEq, compareOfLessAndEq]
  simp only [before, same]

theorem equal_iff [DecidableEq ρ] (left right : ArrayCursor ρ) :
    left.equal right = true ↔ left.array = right.array ∧ left.lead right = 0 := by
  rw [equal, Bool.and_eq_true, decide_eq_true_eq, beq_iff_eq, ← UInt64.toNat_inj, lead, Int.sub_eq_zero,
    Int.ofNat_inj]

/-! ### All of it -/

/-- Cursors at any positions, all of which are come to. By words and by exact places their arithmetic
is the same, and leaves everything but the position. An offset that is added leads to the position
nearest to the exact place. One that is taken away does so too, unless it is the least one: then the
cursor stops one place short, which shows wherever the range has not ended. The difference is exact
iff it is an offset, and iff it is going forward by it leads from one cursor to the other; but between
signed words there is none where the two lie on different sides of the middle of the range. Cursors
over one array are in the order of their exact difference. -/
theorem arithmetic_exact_iff [DecidableEq ρ] (left right : ArrayCursor ρ) (offset : Int64) :
    (∀ (array : ρ) (size : Nat), ∃ offsets : List Int64,
      (offsets.foldl advance (start array size)).index = left.index) ∧
    left.add offset = left.advance offset ∧ left.sub offset = left.retreat offset ∧
    (∃ index : UInt64, left.advance offset = { left with index } ∧
      (index.toNat : Int) = nearest (left.index.toNat + offset.toInt)) ∧
    (∃ index : UInt64, left.retreat offset = { left with index } ∧
      (index.toNat : Int) =
        nearest (left.index.toNat - offset.toInt - if offset = Int64.minValue then 1 else 0) ∧
      ((index.toNat : Int) = nearest (left.index.toNat - offset.toInt) ↔
        offset ≠ Int64.minValue ∨ 2 ^ 63 ≤ left.index.toNat)) ∧
    ((left.distance right).toInt = left.lead right ↔ IsOffset (left.lead right)) ∧
    ((right.advance (left.distance right)).equal left = true ↔
      left.array = right.array ∧ IsOffset (left.lead right)) ∧
    left.difference? right =
      (if IsOffset (left.lead right) ∧ ¬ (left.index.toNat < 2 ^ 63 ↔ right.index.toNat < 2 ^ 63) then
        none
      else some (left.distance right)) ∧
    left.order? right =
      (if left.array = right.array then some (compare (left.lead right) 0) else none) ∧
    (left.equal right = true ↔ left.array = right.array ∧ left.lead right = 0) := by
  refine ⟨fun array size => ⟨_, UInt64.toNat_inj.mp
      (toNat_index_foldl_advance array size left.index.toNat_lt)⟩, ?_, ?_,
    ⟨_, rfl, toInt_moved left.index offset.toInt⟩,
    ⟨_, rfl, toInt_index_retreat left offset, toInt_index_retreat_eq_iff left offset⟩,
    toInt_distance_eq_iff left right, ?_, difference?_eq left right, order?_eq left right,
    equal_iff left right⟩
  · rw [add, advance, shifted_eq_moved]
  · rw [sub, retreat, advance, shifted_eq_moved]
  · rw [equal, Bool.and_eq_true, decide_eq_true_eq, beq_iff_eq, advance_distance_eq_iff]
    exact and_congr_left' eq_comm

/-- From the first element the least offset taken away leads to the position before the middle of
the range, not to the middle. The middle is one place ahead of it, but not between signed words. -/
theorem arithmetic_exact_iff_middle :
    let before := (start () 0).retreat Int64.minValue
    let middle := (start () 1).advance Int64.maxValue |>.advance 1
    before.index = 9223372036854775807 ∧ middle.index = 9223372036854775808 ∧
      (before.index.toNat : Int) ≠
        nearest ((start () 0).index.toNat - Int64.minValue.toInt) ∧
      (middle.distance before).toInt = 1 ∧ middle.difference? before = none := by
  intro before middle
  obtain ⟨-, -, -, -, ⟨index, stops, -, exact⟩, -⟩ :=
    arithmetic_exact_iff (start () 0) (start () 0) Int64.minValue
  obtain ⟨-, -, -, -, -, distance, -, difference, -⟩ := arithmetic_exact_iff middle before 1
  have position : before.index = index := congrArg ArrayCursor.index stops
  refine ⟨by decide, by decide, ?_, ?_, ?_⟩
  · rw [position]
    exact fun same => absurd (exact.mp same) (by decide)
  · exact (distance.mpr (by decide)).trans (by decide)
  · exact difference.trans (by decide)

end JsonOverlay.ArrayCursor
