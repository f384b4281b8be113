/-
This file shows that twins look the same to a program that takes a glance at them, walks
over their members or elements, or follows a pointer, and that they stay twins, even when
that is done with one of them alone.
-/

import JsonOverlay.Proofs.Reads.Paths

namespace JsonOverlay

variable {heap : Heap} {place : ArenaId} {ground : Ground} {left right : Value} {key : ChildKey}

/-! ### Walks -/

theorem Level.look (level : Level left right) (twins : Twins place ground left right)
    (held : ground.Held heap place) (key : ChildKey) :
    Level (left.look heap key) (right.look heap key) := by
  obtain ⟨own, tableLeft⟩ := left
  obtain ⟨other, tableRight⟩ := right
  obtain rfl : own = ground.storage place := twins.storage_left
  obtain rfl : other = ground.storage place := twins.storage_right
  exact level.of_find? rfl (held.looked_look twins.distinct_left key).find?_eq
    (held.looked_look twins.distinct_right key).find?_eq

namespace Twins

theorem backing_eq (twins : Twins place ground left right) (held : ground.Held heap place) :
    right.backing heap = left.backing heap ∧ left.backing heap = ground.backing place := by
  obtain ⟨own, tableLeft⟩ := left
  obtain ⟨other, tableRight⟩ := right
  obtain rfl : own = ground.storage place := twins.storage_left
  obtain rfl : other = ground.storage place := twins.storage_right
  rw [held.backing_eq, held.backing_eq]
  exact ⟨rfl, rfl⟩

theorem walk (count : Nat) {pending : List (String × ChildKey)}
    (twins : Twins place ground left right) (held : ground.Held heap place)
    (genuine : ∀ member ∈ pending, ground.Genuine place member.2) :
    ((MemberCursor.walk heap count ⟨pending⟩ left).1.map fun visit =>
        (visit.remaining, visit.name, visit.value.glimpse heap)) =
      ((MemberCursor.walk heap count ⟨pending⟩ right).1.map fun visit =>
        (visit.remaining, visit.name, visit.value.glimpse heap)) ∧
      Twins place ground (MemberCursor.walk heap count ⟨pending⟩ left).2.2
        (MemberCursor.walk heap count ⟨pending⟩ right).2.2 ∧
      (Level left right → Level (MemberCursor.walk heap count ⟨pending⟩ left).2.2
        (MemberCursor.walk heap count ⟨pending⟩ right).2.2) := by
  induction count generalizing left right pending with
  | zero => exact ⟨rfl, twins, id⟩
  | succ count inductionHypothesis =>
    cases pending with
    | nil => exact ⟨rfl, twins, id⟩
    | cons first rest =>
      obtain ⟨name, key⟩ := first
      have genuineHere := genuine _ List.mem_cons_self
      obtain ⟨source, here⟩ := twins.meets genuineHere
      obtain ⟨serialLeft, childLeft, -⟩ := held.step twins.storage_left twins.distinct_left key
      obtain ⟨serialRight, childRight, -⟩ := held.step twins.storage_right twins.distinct_right key
      obtain ⟨visits, after, level⟩ := inductionHypothesis
        ((twins.look_left held genuineHere).look_right held genuineHere)
        fun member inside => genuine member (List.mem_cons_of_mem _ inside)
      simp only [MemberCursor.walk, MemberCursor.next?, List.map_cons, visits, childLeft, childRight,
        here.twins.glimpse_eq (held.of_pairs here.toPairs)]
      exact ⟨trivial, after, fun before => level (before.look twins held key)⟩

theorem walk_right (count : Nat) {pending : List (String × ChildKey)}
    (twins : Twins place ground left right) (held : ground.Held heap place)
    (genuine : ∀ member ∈ pending, ground.Genuine place member.2) :
    Twins place ground left (MemberCursor.walk heap count ⟨pending⟩ right).2.2 := by
  induction count generalizing right pending with
  | zero => exact twins
  | succ count inductionHypothesis =>
    cases pending with
    | nil => exact twins
    | cons first rest =>
      exact inductionHypothesis (twins.look_right held (genuine _ List.mem_cons_self))
        fun member inside => genuine member (List.mem_cons_of_mem _ inside)

theorem lookAll (indices : List UInt64) (twins : Twins place ground left right)
    (held : ground.Held heap place) :
    ((ArrayCursor.lookAll heap left indices).1.map fun value => value.glimpse heap) =
      ((ArrayCursor.lookAll heap right indices).1.map fun value => value.glimpse heap) ∧
      Twins place ground (ArrayCursor.lookAll heap left indices).2
        (ArrayCursor.lookAll heap right indices).2 ∧
      (Level left right → Level (ArrayCursor.lookAll heap left indices).2
        (ArrayCursor.lookAll heap right indices).2) := by
  induction indices generalizing left right with
  | nil => exact ⟨rfl, twins, id⟩
  | cons index rest inductionHypothesis =>
    have genuine : ground.Genuine place (.element index.toNat) := nofun
    obtain ⟨source, here⟩ := twins.meets genuine
    obtain ⟨serialLeft, childLeft, -⟩ :=
      held.step twins.storage_left twins.distinct_left (.element index.toNat)
    obtain ⟨serialRight, childRight, -⟩ :=
      held.step twins.storage_right twins.distinct_right (.element index.toNat)
    obtain ⟨others, after, level⟩ := inductionHypothesis
      ((twins.look_left held genuine).look_right held genuine)
    simp only [ArrayCursor.lookAll, List.map_cons, others, childLeft, childRight,
      here.twins.glimpse_eq (held.of_pairs here.toPairs)]
    exact ⟨trivial, after, fun before => level (before.look twins held _)⟩

theorem lookAll_right (indices : List UInt64) (twins : Twins place ground left right)
    (held : ground.Held heap place) :
    Twins place ground left (ArrayCursor.lookAll heap right indices).2 := by
  induction indices generalizing right with
  | nil => exact twins
  | cons index rest inductionHypothesis => exact inductionHypothesis (twins.look_right held nofun)

end Twins

/-! ### Pointers -/

theorem genuine_of_key? {α : Type} {content : Content α} {token : String}
    (found : Pointer.key? content token = some key) : ground.Genuine place key := by
  rintro position rfl
  cases content with
  | array items =>
    obtain ⟨index, -, absurd⟩ := Option.map_eq_some_iff.mp found
    cases absurd
  | object members =>
    rw [Pointer.key?] at found
    split at found <;> cases found
  | _ => cases found

/-- No child is looked up through null. -/
theorem Pointer.read_null (heap : Heap) (tokens : List String) {value : Value}
    (null : value.storage = .detached .null) : (Pointer.read heap value tokens).1 = value := by
  obtain ⟨own, children⟩ := value
  obtain rfl : own = .detached .null := null
  cases tokens <;> rfl

namespace Twins

theorem pointer (tokens : List String) (twins : Twins place ground left right)
    (held : ground.Held heap place) :
    ((Pointer.read heap left tokens).2.bind (Pointer.read heap left tokens).1.at?).map
        (fun value => value.glimpse heap) =
      ((Pointer.read heap right tokens).2.bind (Pointer.read heap right tokens).1.at?).map
        (fun value => value.glimpse heap) ∧
      Twins place ground (Pointer.read heap left tokens).1 (Pointer.read heap right tokens).1 ∧
      (Level left right →
        Level (Pointer.read heap left tokens).1 (Pointer.read heap right tokens).1) := by
  induction tokens generalizing ground left right with
  | nil => exact ⟨congrArg some (twins.glimpse_eq held), twins, id⟩
  | cons token rest inductionHypothesis =>
    rw [Pointer.read, Pointer.read, (twins.backing_eq held).1]
    cases leads : Pointer.key? (left.backing heap) token with
    | none => exact ⟨rfl, twins, id⟩
    | some key =>
      have genuine : ground.Genuine place key := genuine_of_key? leads
      obtain ⟨source, here⟩ := twins.meets genuine
      obtain ⟨serialLeft, childLeft, stepLeft⟩ :=
        held.step twins.storage_left twins.distinct_left key
      obtain ⟨serialRight, childRight, stepRight⟩ :=
        held.step twins.storage_right twins.distinct_right key
      obtain ⟨same, after, level⟩ := inductionHypothesis here.twins (held.of_pairs here.toPairs)
      simp only [childLeft, childRight]
      obtain ⟨tableLeft, equalLeft, distinctLeft, findLeft⟩ :=
        held.written twins.storage_left twins.distinct_left key
          (Pointer.read heap (ground.meets place left.children key).1 rest).1
      obtain ⟨tableRight, equalRight, distinctRight, findRight⟩ :=
        held.written twins.storage_right twins.distinct_right key
          (Pointer.read heap (ground.meets place right.children key).1 rest).1
      refine ⟨?_, ?_, fun before => ?_⟩
      · rw [Option.bind_map, Option.bind_map]
        refine Eq.trans (congrArg _ (Option.bind_congr fun below _ =>
          (stepLeft _ id below).1)) (same.trans ?_)
        exact (congrArg _ (Option.bind_congr fun below _ => (stepRight _ id below).1)).symm
      · rw [equalLeft, equalRight]
        rw [← here.flag] at findRight
        exact twins.replace (.refl _ ground) twins.sound genuine distinctLeft distinctRight
          findLeft findRight after here.derived
          fun placeholder admits => level (here.level placeholder admits)
      · rw [equalLeft, equalRight]
        exact before.of_find? twins.storage_left findLeft findRight

theorem pointer_right (tokens : List String) (twins : Twins place ground left right)
    (held : ground.Held heap place) :
    Twins place ground left (Pointer.read heap right tokens).1 := by
  induction tokens generalizing ground left right with
  | nil => exact twins
  | cons token rest inductionHypothesis =>
    rw [Pointer.read]
    cases leads : Pointer.key? (right.backing heap) token with
    | none => exact twins
    | some key =>
      have genuine : ground.Genuine place key := genuine_of_key? leads
      obtain ⟨source, here⟩ := twins.meets genuine
      obtain ⟨serial, child, -⟩ := held.step twins.storage_right twins.distinct_right key
      have after := inductionHypothesis here.twins (held.of_pairs here.toPairs)
      simp only [child]
      obtain ⟨table, equal, distinct, find⟩ :=
        held.written twins.storage_right twins.distinct_right key
          (Pointer.read heap (ground.meets place right.children key).1 rest).1
      have level : (ground.meets place left.children key).2 = true →
          (ground.backing place).admits key → Level (ground.meets place left.children key).1
            (Pointer.read heap (ground.meets place right.children key).1 rest).1 := by
        intro placeholder admits null
        rw [Pointer.read_null heap rest (here.twins.storage_right.trans
          (here.twins.storage_left.symm.trans null))]
        exact here.level placeholder admits null
      obtain ⟨own, children⟩ := left
      obtain rfl : own = ground.storage place := twins.storage_left
      have looked := held.looked_look twins.distinct_left key
      rw [equal]
      refine Twins.of_looked_left ?_ looked twins.distinct_left
      rw [← here.flag] at find
      exact twins.replace (.refl _ ground) twins.sound genuine looked.distinct distinct
        looked.find?_eq find after here.derived level

end Twins

/-! ### Sights -/

/-- The keys that a walk over members uses are known by a name or are there. -/
theorem genuine_of_mem_start {value : Value} (backing : value.backing heap = ground.backing place)
    {member : String × ChildKey} (inside : member ∈ (MemberCursor.start value heap).pending) :
    ground.Genuine place member.2 := by
  intro position repeated
  have inKeys := (List.of_mem_zip inside).2
  rw [backing] at inKeys
  cases level : ground.backing place with
  | object members =>
    rw [level] at inKeys
    exact inKeys
  | _ =>
    rw [level] at inKeys
    cases inKeys

theorem Sight.use_null (sight : Sight) (heap : Heap) {value : Value}
    (null : value.storage = .detached .null) : (sight.use heap value).1 = value := by
  cases sight with
  | glance => rfl
  | members count =>
    obtain ⟨own, children⟩ := value
    obtain rfl : own = .detached .null := null
    cases count <;> rfl
  | elements indices =>
    have nothing : indices.filter (fun index => index.toNat < value.size heap) = [] := by
      obtain ⟨own, children⟩ := value
      obtain rfl : own = .detached .null := null
      exact List.filter_eq_nil_iff.mpr fun index _ => by simp [Value.size, Value.backing, Content.size]
    simp only [Sight.use, nothing]
    rfl
  | pointer target => exact Pointer.read_null heap target.tokens null

namespace Twins

/-- Twins look the same, and stay twins when both are looked at. -/
theorem use_sight (sight : Sight) (twins : Twins place ground left right)
    (held : ground.Held heap place) :
    (sight.use heap left).2 = (sight.use heap right).2 ∧
      Twins place ground (sight.use heap left).1 (sight.use heap right).1 ∧
      (Level left right → Level (sight.use heap left).1 (sight.use heap right).1) := by
  obtain ⟨same, behind⟩ := twins.backing_eq held
  cases sight with
  | glance => exact ⟨congrArg Report.glance (twins.glimpse_eq held), twins, id⟩
  | members count =>
    have starts : MemberCursor.start right heap = MemberCursor.start left heap := by
      rw [MemberCursor.start, same]
      rfl
    obtain ⟨visits, after, level⟩ := twins.walk count held fun member inside =>
      genuine_of_mem_start behind inside
    simp only [Sight.use, starts]
    exact ⟨congrArg Report.members visits, after, level⟩
  | elements indices =>
    have sizes : right.size heap = left.size heap := by rw [Value.size, Value.size, same]
    simp only [Sight.use, sizes]
    obtain ⟨found, after, level⟩ :=
      twins.lookAll (indices.filter fun index => index.toNat < left.size heap) held
    exact ⟨congrArg Report.elements found, after, level⟩
  | pointer target =>
    obtain ⟨found, after, level⟩ := twins.pointer target.tokens held
    exact ⟨congrArg Report.pointer found, after, level⟩

/-- They also stay twins when only one of them is looked at. -/
theorem use_sight_right (sight : Sight) (twins : Twins place ground left right)
    (held : ground.Held heap place) : Twins place ground left (sight.use heap right).1 := by
  obtain ⟨same, behind⟩ := twins.backing_eq held
  cases sight with
  | glance => exact twins
  | members count => exact twins.walk_right count held fun member inside =>
      genuine_of_mem_start (same.trans behind) inside
  | elements indices => exact twins.lookAll_right _ held
  | pointer target => exact twins.pointer_right target.tokens held

end Twins

end JsonOverlay
