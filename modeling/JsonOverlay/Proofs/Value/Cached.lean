/-
This file says when a lookup leaves the child that is in the table, and that lookups see to it: a
child that was looked up is found again, the same version of it, until the documents change.
-/

import JsonOverlay.Proofs.Value.Lookups

namespace JsonOverlay.Value

variable {heap : Heap} {value after : Value} {key other : ChildKey} {entry : Entry Value}

/-- The child in the table at a key is what a lookup comes to: it is shown, or there is none behind
the value. -/
def Cached (value : Value) (heap : Heap) (key : ChildKey) : Prop :=
  ∃ entry, value.children.get? key = some entry ∧
    (isShown key entry.current.value entry.placeholder = true ∨
      (value.backing heap).child? key = none)

theorem Cached.plan_eq (cached : value.Cached heap key) : value.plan heap key = .keep := by
  obtain ⟨entry, found, known⟩ := cached
  unfold plan
  rw [Children.find?, found]
  dsimp only [Option.map_some]
  rcases known with shown | missing
  · rw [shown]
  · rw [missing]
    cases isShown key entry.current.value entry.placeholder <;> rfl

/-- What is in the table is found again. -/
theorem Cached.look_eq (cached : value.Cached heap key) : value.look heap key = value := by
  obtain ⟨entry, found, -⟩ := id cached
  rw [Value.look, cached.plan_eq, Children.resolve_keep found]
  cases value
  rfl

/-- What a lookup comes to is what another one would come to. -/
theorem LooksUp.cached (looks : LooksUp heap key value after) : after.Cached heap key := by
  obtain ⟨entry, found, current, placeholder⟩ :=
    exists_get?_of_find? ((looks.find?_eq key).trans (if_pos rfl))
  have backing : after.backing heap = value.backing heap := by
    rw [Value.backing, Value.backing, looks.storage_eq]
  refine ⟨entry, found, ?_⟩
  rw [current, placeholder, backing]
  cases behind : (value.backing heap).child? key with
  | none => exact .inr rfl
  | some fresh => exact .inl (met_of_child? behind).1

/-- A lookup leaves the entries of other keys alone. -/
theorem LooksUp.get?_of_ne (looks : LooksUp heap key value after) (different : other ≠ key) :
    after.children.get? other = value.children.get? other := by
  cases looks with
  | look => exact Children.get?_resolve_of_ne different _
  | reach => exact Children.get?_resolveForWriting_of_ne different _

/-- Reading leaves a child that would be found again. -/
theorem Cached.get?_look (cached : value.Cached heap key) (other : ChildKey) :
    (value.look heap other).children.get? key = value.children.get? key := by
  by_cases same : key = other
  · rw [← same, cached.look_eq]
  · exact LooksUp.get?_of_ne .look same

theorem Cached.look (cached : value.Cached heap key) (other : ChildKey) :
    (value.look heap other).Cached heap key := by
  obtain ⟨entry, found, known⟩ := id cached
  exact ⟨entry, (cached.get?_look other).trans found, known⟩

end JsonOverlay.Value
