/-
This file says what becomes of a value through all that is done along paths: lookups in it and
below it, in the present version of a child or in an older one, and changes at the ends. What
each single one of these keeps is kept by every path, pointer and walk.
-/

import JsonOverlay.Pointer
import JsonOverlay.Value.Lookup

namespace JsonOverlay.Value

/-- A value and what some lookups and changes, at any depth, make of it. -/
inductive Evolves (heap : Heap) (change : Value → Value → Prop) : Value → Value → Prop where
  | refl {value : Value} : Evolves heap change value value
  | trans {value between after : Value} (first : Evolves heap change value between)
      (rest : Evolves heap change between after) : Evolves heap change value after
  | look {value : Value} (key : ChildKey) : Evolves heap change value (value.look heap key)
  | reach {value : Value} (key : ChildKey) : Evolves heap change value (value.reach heap key)
  | child {value written : Value} {key : ChildKey}
      (below : Evolves heap change (value.child key).value written) :
      Evolves heap change value (value.writeChild key written)
  | version {value child written : Value} {key : ChildKey} {serial : Nat}
      (found : value.children.version? key serial = some child)
      (below : Evolves heap change child written) :
      Evolves heap change value
        { value with children := value.children.writeVersion key serial written }
  | change {value after : Value} (changes : change value after) : Evolves heap change value after

variable {heap : Heap} {change : Value → Value → Prop} {value after : Value} {β : Type}

theorem Evolves.storage_eq (keeps : ∀ value after, change value after → after.storage = value.storage)
    (evolves : value.Evolves heap change after) : after.storage = value.storage := by
  induction evolves with
  | trans _ _ firstHypothesis restHypothesis => exact restHypothesis.trans firstHypothesis
  | change changes => exact keeps _ _ changes
  | _ => rfl

/-! ### Paths for reading -/

theorem evolves_foldl_look (value : Value) (keys : List ChildKey) :
    value.Evolves heap change (keys.foldl (fun value key => value.look heap key) value) := by
  induction keys generalizing value with
  | nil => exact .refl
  | cons key rest inductionHypothesis => exact (Evolves.look key).trans (inductionHypothesis _)

theorem evolves_read (value : Value) (path : List Step) :
    value.Evolves heap change (value.read heap path).1 := by
  induction path generalizing value with
  | nil => exact .refl
  | cons step rest inductionHypothesis =>
    rw [read]
    split
    · exact .refl
    · exact (evolves_foldl_look value _).trans (.child (inductionHypothesis _))

/-- A change of the value that a reference means. -/
theorem evolves_writeAt {write : Value → Value} {reference : Reference}
    (changes : ∀ found, value.at? reference = some found → found.Evolves heap change (write found)) :
    value.Evolves heap change (value.writeAt write reference) := by
  induction reference generalizing value with
  | nil => exact changes value rfl
  | cons first rest inductionHypothesis =>
    obtain ⟨key, serial⟩ := first
    rw [writeAt]
    split
    · rename_i child version
      refine .version version (inductionHypothesis fun found means => changes found ?_)
      rw [at?, version]
      exact means
    · exact .refl

/-! ### Paths for writing -/

/-- The value at the end of a path that is followed for writing. -/
def endpoint (value : Value) (heap : Heap) (keys : List ChildKey) : Value :=
  (value.edit heap (fun heap value => ⟨heap, value, value⟩) keys).result

/-- An edit does to the heap what is done at the end of its path. -/
theorem heap_edit (value : Value) (heap : Heap) (edit : Heap → Value → Edited β)
    (keys : List ChildKey) :
    (value.edit heap edit keys).heap = (edit heap (value.endpoint heap keys)).heap := by
  induction keys generalizing value with
  | nil => rfl
  | cons key rest inductionHypothesis => exact inductionHypothesis _

/-- An edit answers what is answered at the end of its path. -/
theorem result_edit (value : Value) (heap : Heap) (edit : Heap → Value → Edited β)
    (keys : List ChildKey) :
    (value.edit heap edit keys).result = (edit heap (value.endpoint heap keys)).result := by
  induction keys generalizing value with
  | nil => rfl
  | cons key rest inductionHypothesis => exact inductionHypothesis _

theorem evolves_edit {edit : Heap → Value → Edited β} {keys : List ChildKey}
    (changes : (value.endpoint heap keys).Evolves heap change
      (edit heap (value.endpoint heap keys)).value) :
    value.Evolves heap change (value.edit heap edit keys).value := by
  induction keys generalizing value with
  | nil => exact changes
  | cons key rest inductionHypothesis =>
    exact (Evolves.reach key).trans (.child (inductionHypothesis changes))

/-! ### Pointers -/

theorem evolves_pointer_read (value : Value) (tokens : List String) :
    value.Evolves heap change (Pointer.read heap value tokens).1 := by
  induction tokens generalizing value with
  | nil => exact .refl
  | cons token rest inductionHypothesis =>
    rw [Pointer.read]
    split
    · exact .refl
    · exact (Evolves.look _).trans (.child (inductionHypothesis _))

/-- Following a pointer for writing leaves the heap as it is if what is done at its end does. -/
theorem heap_pointer_edit {edit : Heap → Value → Edited β}
    (same : ∀ value, (edit heap value).heap = heap) (value : Value) (tokens : List String) :
    (Pointer.edit heap value edit tokens).heap = heap := by
  induction tokens generalizing value with
  | nil => exact same value
  | cons token rest inductionHypothesis =>
    unfold Pointer.edit
    split
    · rfl
    · exact inductionHypothesis _

theorem evolves_pointer_edit {edit : Heap → Value → Edited β}
    (changes : ∀ value, Evolves heap change value (edit heap value).value) (value : Value)
    (tokens : List String) : value.Evolves heap change (Pointer.edit heap value edit tokens).value := by
  induction tokens generalizing value with
  | nil => exact changes value
  | cons token rest inductionHypothesis =>
    rw [Pointer.edit]
    split
    · exact .refl
    · exact (Evolves.reach _).trans (.child (inductionHypothesis _))

end JsonOverlay.Value
