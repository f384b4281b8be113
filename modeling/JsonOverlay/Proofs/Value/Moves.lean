/-
This file shows that a cursor over an array is a queue of its elements with two ends. What a cursor
has left is a range of indices, and each move does to it what it does to a queue. No position
leaves its range, and what was looked up on the way is found again.
-/

import JsonOverlay.Proofs.Value.Agreement
import JsonOverlay.Proofs.Value.Cached
import JsonOverlay.Value.Moves

namespace JsonOverlay

/-! ### Queues -/

namespace ArrayAnswer

variable {α β γ : Type}

theorem map_map (change : α → β) (further : β → γ) (answer : ArrayAnswer α) :
    (answer.map change).map further = answer.map (further ∘ change) := by
  cases answer with
  | item found => exact congrArg item (Option.map_map further change found)
  | length | bounds => rfl

theorem items_map (change : α → β) (answers : List (ArrayAnswer α)) :
    items (answers.map (map change)) = (items answers).map change := by
  rw [items, items, List.filterMap_map, List.map_filterMap]
  refine List.filterMap_congr fun answer _ => ?_
  cases answer <;> rfl

end ArrayAnswer

namespace ArrayMove

variable {α : Type} {queue : List α} {move : ArrayMove} {moves : List ArrayMove}

/-- A move takes an item out of the queue or drops items, and that is all. -/
theorem subperm_answer (queue : List α) (move : ArrayMove) :
    ((move.answer queue).1.item?.toList ++ (move.answer queue).2).Subperm queue := by
  have front (queue : List α) : (queue.head?.toList ++ queue.tail).Subperm queue := by
    cases queue with
    | nil => exact List.Subperm.refl _
    | cons => exact List.Subperm.refl _
  have back (queue : List α) : (queue.getLast?.toList ++ queue.dropLast).Subperm queue := by
    rcases List.eq_nil_or_concat' queue with rfl | ⟨items, last, rfl⟩
    · exact List.Subperm.refl _
    · rw [List.getLast?_concat, List.dropLast_concat]
      exact List.perm_append_comm.subperm
  cases move with
  | next => exact front queue
  | nextBack => exact back queue
  | nth count => exact (front _).trans (List.drop_sublist _ _).subperm
  | nthBack count => exact (back _).trans (List.take_sublist _ _).subperm
  | length | bounds => exact List.Subperm.refl _

/-- Every item comes out at most once. -/
theorem subperm_answers (queue : List α) (moves : List ArrayMove) :
    (ArrayAnswer.items (answers queue moves).1 ++ (answers queue moves).2).Subperm queue := by
  induction moves generalizing queue with
  | nil => exact List.Subperm.refl _
  | cons move rest inductionHypothesis =>
    have step := subperm_answer queue move
    have later := inductionHypothesis (move.answer queue).2
    have split : ArrayAnswer.items (answers queue (move :: rest)).1 =
        (move.answer queue).1.item?.toList ++
          ArrayAnswer.items (answers (move.answer queue).2 rest).1 := by
      rw [answers, ArrayAnswer.items, List.filterMap_cons]
      cases (move.answer queue).1.item? <;> rfl
    rw [split, List.append_assoc]
    exact ((List.subperm_append_left _).mpr later).trans step

/-- Where no item comes out, none is left. -/
theorem eq_nil_of_answer (nothing : (move.answer queue).1 = .item none) :
    (move.answer queue).2 = [] := by
  have front (queue : List α) (nothing : queue.head? = none) : queue.tail = [] := by
    rw [List.head?_eq_none_iff.mp nothing]
    rfl
  have back (queue : List α) (nothing : queue.getLast? = none) : queue.dropLast = [] := by
    rw [List.getLast?_eq_none_iff.mp nothing]
    rfl
  cases move with
  | next => exact front _ (ArrayAnswer.item.inj nothing)
  | nextBack => exact back _ (ArrayAnswer.item.inj nothing)
  | nth count => exact front _ (ArrayAnswer.item.inj nothing)
  | nthBack count => exact back _ (ArrayAnswer.item.inj nothing)
  | length | bounds => cases nothing

/-- Nothing comes out of an empty queue at either end. -/
theorem items_answers_nil (moves : List ArrayMove) :
    ArrayAnswer.items (answers ([] : List α) moves).1 = [] := by
  have none := subperm_answers ([] : List α) moves
  exact (List.append_eq_nil_iff.mp (List.subperm_nil.mp none)).1

/-- Once no item has come out, none does any more. -/
theorem items_eq_nil_of_none {early late : List (ArrayAnswer α)}
    (same : (answers queue moves).1 = early ++ .item none :: late) :
    ArrayAnswer.items late = [] := by
  induction moves generalizing queue early with
  | nil => cases (List.append_eq_nil_iff.mp same.symm).2
  | cons move rest inductionHypothesis =>
    rw [answers] at same
    rcases early with _ | ⟨first, early⟩
    · obtain ⟨nothing, rfl⟩ := List.cons.inj same
      rw [eq_nil_of_answer nothing]
      exact items_answers_nil rest
    · exact inductionHypothesis (List.cons.inj same).2

end ArrayMove

/-! ### Positions -/

namespace ArrayCursor

variable {ρ : Type} {cursor : ArrayCursor ρ}

/-- The indices of the elements that a cursor has left. -/
def left (cursor : ArrayCursor ρ) : List Nat := List.range' cursor.index.toNat cursor.length

theorem length_left (cursor : ArrayCursor ρ) : cursor.left.length = cursor.length :=
  List.length_range'

theorem left_of_le (none : cursor.finish.toNat ≤ cursor.index.toNat) : cursor.left = [] := by
  rw [left, length, Nat.sub_eq_zero_of_le none]
  rfl

theorem left_start (array : ρ) {size : Nat} (small : size < 2 ^ 64) :
    (start array size).left = List.range size := by
  rw [left, length, start, UInt64.toNat_ofNat_of_lt' small, List.range_eq_range']
  rfl

theorem next_left (cursor : ArrayCursor ρ) :
    cursor.next.1.map UInt64.toNat = cursor.left.head? ∧ cursor.next.2.left = cursor.left.tail := by
  rcases Nat.lt_or_ge cursor.index.toNat cursor.finish.toNat with some | none
  · obtain ⟨next, index⟩ := next_of_lt some
    have split : cursor.left = cursor.index.toNat ::
        ({ cursor with index := cursor.index + 1 } : ArrayCursor ρ).left := by
      simp only [left, length, index]
      rw [← List.range'_succ]
      congr 1
      omega
    rw [next, split]
    exact ⟨rfl, rfl⟩
  · rw [next_of_le none, left_of_le none]
    exact ⟨rfl, rfl⟩

theorem nextBack_of_lt (some : cursor.index.toNat < cursor.finish.toNat) :
    cursor.nextBack =
        (.some (cursor.finish - 1), { cursor with finish := cursor.finish - 1 }) ∧
      (cursor.finish - 1).toNat + 1 = cursor.finish.toNat := by
  refine ⟨if_pos (UInt64.lt_iff_toNat_lt.mpr some), ?_⟩
  have bound := cursor.finish.toNat_lt
  have smaller : (1 : UInt64) ≤ cursor.finish := by
    rw [UInt64.le_iff_toNat_le, UInt64.toNat_one]
    omega
  rw [UInt64.toNat_sub_of_le _ _ smaller, UInt64.toNat_one]
  omega

theorem nextBack_of_le (none : cursor.finish.toNat ≤ cursor.index.toNat) :
    cursor.nextBack = (.none, cursor) :=
  if_neg fun before => absurd (UInt64.lt_iff_toNat_lt.mp before) (Nat.not_lt.mpr none)

theorem nextBack_left (cursor : ArrayCursor ρ) :
    cursor.nextBack.1.map UInt64.toNat = cursor.left.getLast? ∧
      cursor.nextBack.2.left = cursor.left.dropLast := by
  rcases Nat.lt_or_ge cursor.index.toNat cursor.finish.toNat with some | none
  · obtain ⟨next, finish⟩ := nextBack_of_lt some
    have split : cursor.left =
        ({ cursor with finish := cursor.finish - 1 } : ArrayCursor ρ).left ++
          [(cursor.finish - 1).toNat] := by
      have shorter : cursor.finish.toNat - cursor.index.toNat =
          (cursor.finish - 1).toNat - cursor.index.toNat + 1 := by omega
      simp only [left, length, shorter, List.range'_concat, Nat.one_mul]
      congr 2
      omega
    rw [next, split, List.getLast?_concat, List.dropLast_concat]
    exact ⟨rfl, rfl⟩
  · rw [nextBack_of_le none, left_of_le none]
    exact ⟨rfl, rfl⟩

theorem toNat_moved (index : UInt64) (count : Nat) :
    (moved index count).toNat = min (2 ^ 64 - 1) (index.toNat + count) := by
  have greatest : greatestPosition = ((2 ^ 64 - 1 : Nat) : Int) := rfl
  rw [moved, greatest, UInt64.ofInt, UInt64.toNat_ofNat_of_lt' (show _ < 2 ^ 64 by omega)]
  omega

/-- A position that is moved on is held at the end of its range, and no element lies behind. -/
theorem left_moved (cursor : ArrayCursor ρ) (count : Nat) :
    ({ cursor with index := moved cursor.index count } : ArrayCursor ρ).left =
      cursor.left.drop count := by
  have bound := cursor.finish.toNat_lt
  simp only [left, length, toNat_moved, List.drop_range', Nat.mul_one]
  rcases Nat.lt_or_ge (cursor.index.toNat + count) (2 ^ 64) with inside | outside
  · rw [Nat.min_eq_right (by omega), Nat.sub_sub]
  · have nothing : cursor.finish.toNat - (2 ^ 64 - 1) = 0 := by omega
    have dropped : cursor.finish.toNat - cursor.index.toNat - count = 0 := by omega
    rw [Nat.min_eq_left (by omega), nothing, dropped]
    rfl

theorem nth_left (cursor : ArrayCursor ρ) (count : Nat) :
    (cursor.nth count).1.map UInt64.toNat = (cursor.left.drop count).head? ∧
      (cursor.nth count).2.left = (cursor.left.drop count).tail := by
  rw [← left_moved]
  exact next_left _

/-- Steps from the back drop indices there. -/
theorem left_visitedBack (count : Nat) (cursor : ArrayCursor ρ) :
    (cursor.visitedBack count).2.left = cursor.left.take (cursor.length - count) := by
  induction count generalizing cursor with
  | zero => exact (List.take_of_length_le (Nat.le_of_eq cursor.length_left)).symm
  | succ count inductionHypothesis =>
    have step := (nextBack_left cursor).2
    rcases Nat.lt_or_ge cursor.index.toNat cursor.finish.toNat with some | none
    · have shorter : cursor.nextBack.2.length = cursor.length - 1 := by
        rw [← length_left, step, List.length_dropLast, length_left]
      rw [(nextBack_of_lt some).1] at step shorter
      rw [visitedBack, (nextBack_of_lt some).1]
      refine (inductionHypothesis _).trans ?_
      rw [step, shorter, List.dropLast_eq_take, List.take_take, length_left, Nat.sub_sub,
        Nat.min_eq_left (by omega), Nat.add_comm 1]
    · rw [visitedBack, nextBack_of_le none, left_of_le none, List.take_nil]

theorem nthBack_left (cursor : ArrayCursor ρ) (count : Nat) :
    (cursor.nthBack count).2.1.map UInt64.toNat =
        (cursor.left.take (cursor.left.length - count)).getLast? ∧
      (cursor.nthBack count).2.2.left =
        (cursor.left.take (cursor.left.length - count)).dropLast := by
  have passed : (cursor.visitedBack (min count cursor.length)).2.left =
      cursor.left.take (cursor.left.length - count) := by
    have same : cursor.length - min count cursor.length = cursor.length - count := by omega
    rw [left_visitedBack, length_left, same]
  rw [← passed]
  exact nextBack_left _

/-- A move does to what a cursor has left what it does to a queue. -/
theorem move_left (cursor : ArrayCursor ρ) (move : ArrayMove) :
    ((cursor.move move).answer.map UInt64.toNat, (cursor.move move).cursor.left) =
      move.answer cursor.left := by
  have item {found : Option UInt64} {rest : ArrayCursor ρ} {first : Option Nat} {queue : List Nat}
      (known : found.map UInt64.toNat = first ∧ rest.left = queue) :
      ((ArrayAnswer.item found).map UInt64.toNat, rest.left) = (.item first, queue) := by
    rw [ArrayAnswer.map, known.1, known.2]
  cases move with
  | next => exact item (next_left cursor)
  | nextBack => exact item (nextBack_left cursor)
  | nth count => exact item (nth_left cursor count.toNat)
  | nthBack count => exact item (nthBack_left cursor count.toNat)
  | length => rw [ArrayMove.answer, length_left]; rfl
  | bounds => rw [ArrayMove.answer, length_left]; rfl

/-- A cursor answers like a queue of the indices that it has left. -/
theorem moves_left (cursor : ArrayCursor ρ) (moves : List ArrayMove) :
    ((cursor.moves moves).2.1.map (ArrayAnswer.map UInt64.toNat), (cursor.moves moves).2.2.left) =
      ArrayMove.answers cursor.left moves := by
  induction moves generalizing cursor with
  | nil => rfl
  | cons move rest inductionHypothesis =>
    have step := move_left cursor move
    have later := inductionHypothesis (cursor.move move).cursor
    rw [ArrayMove.answers, ← step]
    dsimp only
    rw [← later]
    rfl

end ArrayCursor

/-! ### Step by step -/

namespace ArrayWalk

variable {ρ : Type} {heap : Heap} {walk : ArrayWalk ρ}

/-- A walk after indices were looked up: the element at the last of them comes with the child. -/
def arrive (heap : Heap) (walk : ArrayWalk ρ) (looked : List UInt64) (found : Option UInt64)
    (cursor : ArrayCursor ρ) : Option ElementVisit × ArrayWalk ρ :=
  let value := (ArrayCursor.lookAll heap walk.value looked).2
  (found.map (.found value), ⟨cursor, value⟩)

theorem behind?_eq {position finish : UInt64} (before : position.toNat < finish.toNat) :
    behind? position = some (position + 1) := by
  have bound := finish.toNat_lt
  exact if_pos (by omega)

theorem before?_eq {position start : UInt64} (behind : start.toNat < position.toNat) :
    before? position = some (position - 1) :=
  if_pos (Nat.zero_lt_of_lt behind)

theorem next?_eq (heap : Heap) (walk : ArrayWalk ρ) :
    walk.next? heap =
      some (walk.arrive heap walk.cursor.next.1.toList walk.cursor.next.1 walk.cursor.next.2) := by
  obtain ⟨cursor, value⟩ := walk
  rcases Nat.lt_or_ge cursor.index.toNat cursor.finish.toNat with inside | ended
  · rw [next?, if_neg (by rw [UInt64.le_iff_toNat_le]; exact Nat.not_le.mpr inside),
      (ArrayCursor.next_of_lt inside).1, behind?_eq inside]
    rfl
  · rw [next?, if_pos (UInt64.le_iff_toNat_le.mpr ended), ArrayCursor.next_of_le ended]
    rfl

theorem nextBack?_eq (heap : Heap) (walk : ArrayWalk ρ) :
    walk.nextBack? heap =
      some (walk.arrive heap walk.cursor.nextBack.1.toList walk.cursor.nextBack.1
        walk.cursor.nextBack.2) := by
  obtain ⟨cursor, value⟩ := walk
  rcases Nat.lt_or_ge cursor.index.toNat cursor.finish.toNat with inside | ended
  · rw [nextBack?, if_neg (by rw [UInt64.le_iff_toNat_le]; exact Nat.not_le.mpr inside),
      (ArrayCursor.nextBack_of_lt inside).1, before?_eq inside]
    rfl
  · rw [nextBack?, if_pos (UInt64.le_iff_toNat_le.mpr ended), ArrayCursor.nextBack_of_le ended]
    rfl

theorem furtherOn_eq (position count : UInt64) :
    furtherOn position count = ArrayCursor.moved position count.toNat := by
  refine UInt64.toNat_inj.mp ?_
  rw [ArrayCursor.toNat_moved, furtherOn]
  split
  · rw [UInt64.toNat_add]
    omega
  · show 2 ^ 64 - 1 = _
    omega

theorem nth?_eq (heap : Heap) (walk : ArrayWalk ρ) (count : UInt64) :
    walk.nth? heap count =
      some (walk.arrive heap (walk.cursor.nth count.toNat).1.toList (walk.cursor.nth count.toNat).1
        (walk.cursor.nth count.toNat).2) := by
  rw [nth?, furtherOn_eq]
  exact next?_eq heap _

theorem lookAll_append (value : Value) (early late : List UInt64) :
    (ArrayCursor.lookAll heap value (early ++ late)).2 =
      (ArrayCursor.lookAll heap (ArrayCursor.lookAll heap value early).2 late).2 := by
  induction early generalizing value with
  | nil => rfl
  | cons index early inductionHypothesis => exact inductionHypothesis _

/-- Steps from the back pass the elements that they visit, if there are enough. -/
theorem passBack?_eq (count : Nat) (walk : ArrayWalk ρ) :
    walk.passBack? heap count =
      some (decide (count ≤ walk.cursor.length), ⟨(walk.cursor.visitedBack count).2,
        (ArrayCursor.lookAll heap walk.value (walk.cursor.visitedBack count).1).2⟩) := by
  induction count generalizing walk with
  | zero => rw [decide_eq_true (Nat.zero_le _)]; rfl
  | succ count inductionHypothesis =>
    rw [passBack?, nextBack?_eq]
    rcases Nat.lt_or_ge walk.cursor.index.toNat walk.cursor.finish.toNat with inside | ended
    · obtain ⟨next, finish⟩ := ArrayCursor.nextBack_of_lt inside
      have enough : count ≤ ({ walk.cursor with finish := walk.cursor.finish - 1 } :
          ArrayCursor ρ).length ↔ count + 1 ≤ walk.cursor.length := by
        simp only [ArrayCursor.length]
        omega
      rw [ArrayCursor.visitedBack, next]
      refine (inductionHypothesis _).trans ?_
      rw [decide_eq_decide.mpr enough]
      rfl
    · have few : ¬ count + 1 ≤ walk.cursor.length := by
        rw [ArrayCursor.length]
        omega
      rw [ArrayCursor.visitedBack, ArrayCursor.nextBack_of_le ended, decide_eq_false few]
      rfl

/-- Steps end with the last element. -/
theorem visitedBack_of_le {count : Nat} {cursor : ArrayCursor ρ} (many : cursor.length ≤ count) :
    cursor.visitedBack count = cursor.visitedBack cursor.length := by
  induction count generalizing cursor with
  | zero => rw [Nat.eq_zero_of_le_zero many]
  | succ count inductionHypothesis =>
    rcases Nat.lt_or_ge cursor.index.toNat cursor.finish.toNat with inside | ended
    · obtain ⟨next, finish⟩ := ArrayCursor.nextBack_of_lt inside
      have longer : cursor.length =
          ({ cursor with finish := cursor.finish - 1 } : ArrayCursor ρ).length + 1 := by
        simp only [ArrayCursor.length]
        omega
      rw [longer, ArrayCursor.visitedBack, ArrayCursor.visitedBack, next]
      dsimp only
      rw [inductionHypothesis (by omega)]
    · have nothing : cursor.length = 0 := Nat.sub_eq_zero_of_le ended
      rw [nothing, ArrayCursor.visitedBack, ArrayCursor.visitedBack,
        ArrayCursor.nextBack_of_le ended]

theorem nthBack?_eq (heap : Heap) (walk : ArrayWalk ρ) (count : UInt64) :
    walk.nthBack? heap count =
      some (walk.arrive heap
        ((walk.cursor.nthBack count.toNat).1 ++ (walk.cursor.nthBack count.toNat).2.1.toList)
        (walk.cursor.nthBack count.toNat).2.1 (walk.cursor.nthBack count.toNat).2.2) := by
  rw [nthBack?, passBack?_eq]
  dsimp only [Option.bind_some]
  by_cases enough : count.toNat ≤ walk.cursor.length
  · rw [decide_eq_true enough, if_pos rfl, nextBack?_eq, ArrayCursor.nthBack,
      Nat.min_eq_left enough]
    dsimp only [arrive]
    rw [lookAll_append]
  · have ended : (walk.cursor.visitedBack walk.cursor.length).2.nextBack =
        (none, (walk.cursor.visitedBack walk.cursor.length).2) := by
      refine ArrayCursor.nextBack_of_le ?_
      have nothing := congrArg List.length
        (ArrayCursor.left_visitedBack walk.cursor.length walk.cursor)
      rw [ArrayCursor.length_left, Nat.sub_self, List.take_zero] at nothing
      exact Nat.sub_eq_zero_iff_le.mp nothing
    rw [decide_eq_false enough, if_neg Bool.false_ne_true, ArrayCursor.nthBack,
      Nat.min_eq_right (Nat.le_of_not_le enough), visitedBack_of_le (Nat.le_of_not_le enough)]
    dsimp only [arrive]
    rw [ended, Option.toList_none, List.append_nil]
    rfl

/-- No position leaves its range, and each move comes to what the cursor finds by positions. -/
theorem move?_eq (heap : Heap) (walk : ArrayWalk ρ) (move : ArrayMove) :
    walk.move? heap move =
      some ((walk.cursor.move move).answer.map
          (.found (ArrayCursor.lookAll heap walk.value (walk.cursor.move move).looked).2),
        ⟨(walk.cursor.move move).cursor,
          (ArrayCursor.lookAll heap walk.value (walk.cursor.move move).looked).2⟩) := by
  cases move with
  | next => rw [move?, next?_eq]; rfl
  | nextBack => rw [move?, nextBack?_eq]; rfl
  | nth count => rw [move?, nth?_eq]; rfl
  | nthBack count => rw [move?, nthBack?_eq]; rfl
  | length =>
    rw [move?, length?, bounds]
    dsimp only
    rw [if_pos rfl]
    rfl
  | bounds => rfl

/-! ### What was looked up -/

variable {value : Value} {key : ChildKey}

theorem cached_lookAll (cached : value.Cached heap key) (indices : List UInt64) :
    (ArrayCursor.lookAll heap value indices).2.Cached heap key ∧
      (ArrayCursor.lookAll heap value indices).2.child key = value.child key := by
  induction indices generalizing value with
  | nil => exact ⟨cached, rfl⟩
  | cons index rest inductionHypothesis =>
    obtain ⟨later, same⟩ := inductionHypothesis (cached.look (.element index.toNat))
    refine ⟨later, same.trans ?_⟩
    rw [Value.child, Value.child, cached.get?_look]

theorem cached_of_mem_lookAll {indices : List UInt64} {index : UInt64} (member : index ∈ indices) :
    (ArrayCursor.lookAll heap value indices).2.Cached heap (.element index.toNat) := by
  induction indices generalizing value with
  | nil => cases member
  | cons first rest inductionHypothesis =>
    rcases List.mem_cons.mp member with rfl | later
    · exact (cached_lookAll (Value.LooksUp.cached .look) rest).1
    · exact inductionHypothesis later

/-- The element that a move answers is the last one that it looks up. -/
theorem mem_looked {cursor : ArrayCursor ρ} {move : ArrayMove} {index : UInt64}
    (answered : index ∈ (cursor.move move).answer.item?) : index ∈ (cursor.move move).looked := by
  cases move with
  | next | nextBack | nth => exact Option.mem_toList.mpr answered
  | nthBack => exact List.mem_append_right _ (Option.mem_toList.mpr answered)
  | length | bounds => cases answered

/-- One move after the other comes to what the cursor finds by positions. What was found on the way
is still there at the end. -/
theorem moves?_eq (heap : Heap) (walk : ArrayWalk ρ) (moves : List ArrayMove) :
    ∃ answers last, walk.moves? heap moves = some (answers, last) ∧
      (walk.cursor.moves moves).2 =
        (answers.map (ArrayAnswer.map ElementVisit.index), last.cursor) ∧
      last.value = (ArrayCursor.lookAll heap walk.value (walk.cursor.moves moves).1).2 ∧
      ∀ visit ∈ ArrayAnswer.items answers,
        last.value.Cached heap (.element visit.index.toNat) ∧
          last.value.child (.element visit.index.toNat) = visit.child := by
  induction moves generalizing walk with
  | nil => exact ⟨[], walk, rfl, rfl, rfl, nofun⟩
  | cons move rest inductionHypothesis =>
    have step := move?_eq heap walk move
    generalize reached : (ArrayCursor.lookAll heap walk.value (walk.cursor.move move).looked).2 =
      value at step
    obtain ⟨answers, last, later, positions, looked, found⟩ :=
      inductionHypothesis ⟨(walk.cursor.move move).cursor, value⟩
    refine ⟨(walk.cursor.move move).answer.map (.found value) :: answers, last, ?_, ?_, ?_, ?_⟩
    · rw [moves?, step, Option.bind_some]
      dsimp only
      rw [later]
      rfl
    · have same : ((walk.cursor.move move).answer.map (.found value)).map ElementVisit.index =
          (walk.cursor.move move).answer := by
        cases (walk.cursor.move move).answer with
        | item found => cases found <;> rfl
        | length | bounds => rfl
      have given := congrArg Prod.fst positions
      have left := congrArg Prod.snd positions
      dsimp only at given left
      rw [List.map_cons, same, ArrayCursor.moves]
      dsimp only
      rw [given, left]
    · rw [looked, ArrayCursor.moves, lookAll_append, reached]
    · intro visit member
      obtain ⟨answer, among, answered⟩ := List.mem_filterMap.mp member
      rcases List.mem_cons.mp among with rfl | among
      · obtain ⟨index, asked, rfl⟩ : ∃ index ∈ (walk.cursor.move move).answer.item?,
            ElementVisit.found value index = visit := by
          cases given : (walk.cursor.move move).answer with
          | item first =>
            rw [given] at answered
            exact Option.map_eq_some_iff.mp answered
          | length | bounds =>
            rw [given] at answered
            cases answered
        rw [looked]
        refine cached_lookAll ?_ _
        rw [← reached]
        exact cached_of_mem_lookAll (mem_looked asked)
      · exact found visit (List.mem_filterMap.mpr ⟨answer, among, answered⟩)

/-- A cursor over an array, from its first element to its last, is a queue of its elements with two
ends; over anything else it is an empty queue. Whatever it is asked for, no position leaves its
range, and it answers what the positions say and the queue does. So no element comes twice, and
after the answer that there is none there is never one. Each element comes with the child that
looking it up comes to, then and later. -/
theorem moves_form_queue (array : ρ) (value : Value) (heap : Heap)
    (small : value.size heap < 2 ^ 64) (moves : List ArrayMove) :
    (value.kind heap ≠ .array → value.size heap = 0) ∧
    ∃ answers last, (start array value heap).moves? heap moves = some (answers, last) ∧
      ((start array value heap).cursor.moves moves).2 =
        (answers.map (ArrayAnswer.map ElementVisit.index), last.cursor) ∧
      last.value =
        (ArrayCursor.lookAll heap value ((start array value heap).cursor.moves moves).1).2 ∧
      ArrayMove.answers (List.range (value.size heap)) moves =
        (answers.map (ArrayAnswer.map fun visit => visit.index.toNat), last.cursor.left) ∧
      (((ArrayAnswer.items answers).map fun visit => visit.index.toNat) ++
        last.cursor.left).Nodup ∧
      (∀ early late, answers = early ++ .item none :: late → ArrayAnswer.items late = []) ∧
      ∀ visit ∈ ArrayAnswer.items answers, visit.index.toNat < value.size heap ∧
        last.value.look heap (.element visit.index.toNat) = last.value ∧
          last.value.child (.element visit.index.toNat) = visit.child := by
  obtain ⟨answers, last, moved, positions, looked, found⟩ :=
    moves?_eq heap (start array value heap) moves
  have queue : ArrayMove.answers (List.range (value.size heap)) moves =
      (answers.map (ArrayAnswer.map fun visit => visit.index.toNat), last.cursor.left) := by
    have known := ArrayCursor.moves_left (start array value heap).cursor moves
    have whole : (start array value heap).cursor.left = List.range (value.size heap) :=
      ArrayCursor.left_start array small
    rw [positions, whole, List.map_map] at known
    rw [← known]
    refine congrArg (·, _) (List.map_congr_left fun answer _ => ?_)
    exact answer.map_map ElementVisit.index UInt64.toNat
  have once := ArrayMove.subperm_answers (List.range (value.size heap)) moves
  rw [queue, ArrayAnswer.items_map] at once
  refine ⟨?_, answers, last, moved, positions, looked, queue, ?_, fun early late same => ?_, ?_⟩
  · intro other
    rw [Value.size]
    cases content : value.backing heap with
    | array items => exact absurd (congrArg Content.kind content) other
    | _ => rfl
  · obtain ⟨items, perm, sublist⟩ := once
    exact perm.nodup_iff.mp (sublist.nodup List.nodup_range)
  · rw [same, List.map_append, List.map_cons] at queue
    have none := ArrayMove.items_eq_nil_of_none (congrArg Prod.fst queue)
    rw [ArrayAnswer.items_map] at none
    exact List.map_eq_nil_iff.mp none
  · intro visit member
    obtain ⟨cached, same⟩ := found visit member
    refine ⟨?_, cached.look_eq, same⟩
    exact List.mem_range.mp (once.subset (List.mem_append_left _ (List.mem_map_of_mem member)))

/-- Of five elements the back gives up two at once, and then there are not as many left as the
front is asked to leave out. -/
theorem moves_form_queue_five :
    ∃ answers last,
      (start () (.ofTree (.array (List.replicate 5 .null))) {}).moves? {}
          [.length, .nthBack 1, .nth 18446744073709551615, .nextBack, .bounds] =
        some (answers, last) ∧
      answers.map (ArrayAnswer.map fun visit => visit.index.toNat) =
        [.length 5, .item (some 3), .item none, .item none, .bounds 0 (some 0)] := by
  obtain ⟨-, answers, last, moved, -, -, queue, -⟩ :=
    moves_form_queue () (.ofTree (.array (List.replicate 5 .null))) {} (by decide)
      [.length, .nthBack 1, .nth 18446744073709551615, .nextBack, .bounds]
  exact ⟨answers, last, moved, (congrArg Prod.fst queue).symm.trans (by rfl)⟩

end ArrayWalk

end JsonOverlay
