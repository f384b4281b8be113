/-
This file says what each operation on the table of looked-up children does to the entry of
every key. Operations at one key leave the entries of all others alone, and the keys in a
table stay distinct.
-/

import JsonOverlay.Proofs.Content
import Mathlib.Data.List.Nodup

namespace JsonOverlay

/-- What a plan comes to if the table has a child, or none. -/
def Plan.outcome {α : Type} [Inhabited α] (known : Option (α × Bool)) : Plan α → α × Bool
  | .keep => known.getD (default, true)
  | .insert value placeholder => (value, placeholder)

namespace Children

variable {α : Type} {children : Children α} {key other : ChildKey} {entry : Entry α}

/-! ### Entries by key -/

theorem entries_adjust (children : Children α) (key : ChildKey) (change : Entry α → Entry α) :
    (children.adjust key change).entries = children.entries.map fun (other, entry) =>
      (other, if other = key then change entry else entry) := by
  refine List.map_congr_left fun member _ => ?_
  by_cases same : member.1 = key
  · simp only [if_pos same]
  · simp only [if_neg same]

theorem get?_adjust (children : Children α) (key : ChildKey) (change : Entry α → Entry α)
    (other : ChildKey) :
    (children.adjust key change).get? other =
      if other = key then (children.get? other).map change else children.get? other := by
  rw [get?, entries_adjust, lookup_map_snd fun other entry => if other = key then change entry else entry]
  by_cases same : other = key
  · simp only [if_pos same]
    rfl
  · simp only [if_neg same]
    exact Option.map_id'

theorem get?_latest (children : Children α) (key : ChildKey) :
    children.latest.get? key = (children.get? key).map fun entry => { entry with older := [] } :=
  lookup_map_snd (fun _ (entry : Entry α) => Entry.mk entry.placeholder entry.current [])
    children.entries key

theorem get?_filterKeys (children : Children α) (keep : ChildKey → Bool) (key : ChildKey) :
    (children.filterKeys keep).get? key = if keep key then children.get? key else none :=
  lookup_filter_fst keep children.entries key

/-- What is left when a name is forgotten: members with other names, and elements. -/
theorem get?_forgetMember (children : Children α) (name : String) (key : ChildKey) :
    (children.forgetMember name).get? key =
      match key with
      | .member other => if other = name then none else children.get? (.member other)
      | .repeated _ => none
      | .element index => children.get? (.element index) := by
  rw [forgetMember, get?_filterKeys]
  cases key with
  | member other =>
    by_cases same : other = name
    · simp [same]
    · simp [same]
  | repeated position => rfl
  | element index => rfl

theorem get?_append (children : Children α) (key : ChildKey) (value : α) (placeholder : Bool)
    (other : ChildKey) :
    (children.append key value placeholder).get? other =
      (children.get? other).or
        (if other = key then
          some { placeholder, current := ⟨children.nextSerial, value⟩ } else none) := by
  show (children.entries ++ _).lookup other = _
  rw [List.lookup_append]
  refine congrArg (Option.or _) ?_
  by_cases same : other = key
  · simp [same]
  · simp [same]

theorem entries_adjust_of_none (absent : children.get? key = none) (change : Entry α → Entry α) :
    (children.adjust key change).entries = children.entries := by
  rw [get?, lookup_eq_none_iff_notMem] at absent
  rw [entries_adjust]
  refine (List.map_congr_left fun member inside => ?_).trans (List.map_id _)
  have different : member.1 ≠ key := fun same => absent (same ▸ List.mem_map_of_mem inside)
  exact congrArg (Prod.mk member.1) (if_neg different)

theorem entries_adjust_adjust (children : Children α) (key : ChildKey)
    (first second : Entry α → Entry α) :
    ((children.adjust key first).adjust key second).entries =
      (children.adjust key fun entry => second (first entry)).entries := by
  rw [entries_adjust, entries_adjust, entries_adjust, List.map_map]
  refine List.map_congr_left fun member _ => ?_
  by_cases same : member.1 = key
  · simp only [Function.comp_apply, if_pos same]
  · simp only [Function.comp_apply, if_neg same]

/-- An entry that was added last has no older versions to drop. -/
theorem adjust_append (absent : children.get? key = none) (value : α) (placeholder : Bool) :
    (children.append key value placeholder).adjust key (fun entry => { entry with older := [] }) =
      children.append key value placeholder := by
  have earlier := entries_adjust_of_none absent fun entry => { entry with older := [] }
  have entries := (children.append key value placeholder).entries_adjust key
    fun entry => { entry with older := [] }
  rw [entries_adjust] at earlier
  rw [append, List.map_append, earlier, List.map_singleton] at entries
  simp only [if_pos] at entries
  exact congrArg (Children.mk · (children.nextSerial + 1)) entries

/-- Access for writing is a lookup after which the older versions are dropped. -/
theorem resolveForWriting_eq [Inhabited α] (children : Children α) (key : ChildKey)
    (plan : Plan α) :
    children.resolveForWriting key plan =
      (children.resolve key plan).adjust key fun entry => { entry with older := [] } := by
  cases found : children.get? key with
  | none =>
    cases plan <;> simp only [resolveForWriting, resolve, found] <;>
      exact (adjust_append found _ _).symm
  | some entry =>
    cases plan with
    | keep => simp only [resolveForWriting, resolve, found]
    | insert value placeholder =>
      simp only [resolveForWriting, resolve, found]
      have twice := children.entries_adjust_adjust key
        (fun entry => ⟨placeholder, ⟨children.nextSerial, value⟩, entry.current :: entry.older⟩)
        fun entry => { entry with older := [] }
      exact congrArg (Children.mk · (children.nextSerial + 1)) twice.symm

theorem mem_keys_iff : key ∈ children.keys ↔ ∃ entry, children.get? key = some entry := by
  rw [keys, get?]
  induction children.entries with
  | nil => simp
  | cons first rest inductionHypothesis =>
    obtain ⟨other, entry⟩ := first
    rw [List.map_cons, List.mem_cons, List.lookup_cons]
    by_cases same : key = other
    · subst same
      simp
    · rw [beq_false_of_ne same, ← inductionHypothesis]
      simp [same]

/-- The entries do not depend on the serial number that is given next. -/
theorem get?_mk (children : Children α) (serial : Nat) (key : ChildKey) :
    (Children.mk children.entries serial).get? key = children.get? key := rfl

theorem keys_mk (children : Children α) (serial : Nat) :
    (Children.mk children.entries serial).keys = children.keys := rfl

/-! ### Distinct keys -/

theorem keys_adjust (children : Children α) (key : ChildKey) (change : Entry α → Entry α) :
    (children.adjust key change).keys = children.keys := by
  simp only [keys, adjust, List.map_map]
  refine List.map_congr_left fun member _ => ?_
  simp only [Function.comp_apply]
  split <;> rfl

theorem keys_append (children : Children α) (key : ChildKey) (value : α) (placeholder : Bool) :
    (children.append key value placeholder).keys = children.keys ++ [key] := by
  simp [keys, append]

theorem keys_filterKeys (children : Children α) (keep : ChildKey → Bool) :
    (children.filterKeys keep).keys = children.keys.filter keep := by
  simp only [keys, filterKeys, List.filter_map]
  rfl

@[simp]
theorem keys_latest (children : Children α) : children.latest.keys = children.keys := by
  simp [keys, latest, Function.comp_def]

theorem nodup_append (distinct : children.keys.Nodup) (absent : children.get? key = none)
    (value : α) (placeholder : Bool) : (children.append key value placeholder).keys.Nodup := by
  rw [keys_append, List.nodup_append']
  refine ⟨distinct, List.nodup_singleton key, fun other member last => ?_⟩
  obtain ⟨entry, found⟩ := mem_keys_iff.mp member
  rw [List.mem_singleton.mp last, absent] at found
  cases found

theorem nodup_filterKeys (distinct : children.keys.Nodup) (keep : ChildKey → Bool) :
    (children.filterKeys keep).keys.Nodup := by
  rw [keys_filterKeys]
  exact distinct.filter _

theorem nodup_resolve [Inhabited α] (distinct : children.keys.Nodup) (key : ChildKey)
    (plan : Plan α) : (children.resolve key plan).keys.Nodup := by
  unfold resolve
  split
  · exact distinct
  · rw [keys_mk, keys_adjust]
    exact distinct
  · exact nodup_append distinct (by assumption) _ _
  · exact nodup_append distinct (by assumption) _ _

theorem nodup_resolveForWriting [Inhabited α] (distinct : children.keys.Nodup) (key : ChildKey)
    (plan : Plan α) : (children.resolveForWriting key plan).keys.Nodup := by
  rw [resolveForWriting_eq, keys_adjust]
  exact nodup_resolve distinct key plan

theorem nodup_write (distinct : children.keys.Nodup) (key : ChildKey) (value : α) :
    (children.write key value).keys.Nodup := by
  rw [write, keys_adjust]
  exact distinct

/-! ### Lookups -/

theorem get?_write (children : Children α) (key : ChildKey) (value : α) (other : ChildKey) :
    (children.write key value).get? other =
      if other = key then
        (children.get? other).map fun entry => { entry with current := { entry.current with value } }
      else children.get? other :=
  get?_adjust children key _ other

section Plans

variable [Inhabited α] {value : α} {placeholder : Bool}

/-- A lookup at one key leaves the others alone. -/
theorem get?_resolve_of_ne (different : other ≠ key) (plan : Plan α) :
    (children.resolve key plan).get? other = children.get? other := by
  unfold resolve
  split
  · rfl
  · rw [get?_mk, get?_adjust, if_neg different]
  · rw [get?_append, if_neg different, Option.or_none]
  · rw [get?_append, if_neg different, Option.or_none]

theorem get?_resolveForWriting_of_ne (different : other ≠ key) (plan : Plan α) :
    (children.resolveForWriting key plan).get? other = children.get? other := by
  rw [resolveForWriting_eq, get?_adjust, if_neg different, get?_resolve_of_ne different]

theorem resolve_keep (found : children.get? key = some entry) :
    children.resolve key .keep = children := by
  unfold resolve
  simp only [found]

/-- A lookup that inserts a child shows that child under a new serial number. -/
theorem get?_resolve_insert (children : Children α) (key : ChildKey) (value : α)
    (placeholder : Bool) :
    ∃ older, (children.resolve key (.insert value placeholder)).get? key =
      some ⟨placeholder, ⟨children.nextSerial, value⟩, older⟩ := by
  unfold resolve
  cases found : children.get? key with
  | none => exact ⟨[], by rw [get?_append, found, if_pos rfl, Option.none_or]⟩
  | some entry =>
    refine ⟨entry.current :: entry.older, ?_⟩
    simp only
    rw [get?_mk, get?_adjust, if_pos rfl, found]
    rfl

theorem get?_resolveForWriting_keep (found : children.get? key = some entry) :
    (children.resolveForWriting key .keep).get? key = some { entry with older := [] } := by
  rw [resolveForWriting_eq, get?_adjust, if_pos rfl, resolve_keep found, found, Option.map_some]

theorem get?_resolveForWriting_insert (children : Children α) (key : ChildKey) (value : α)
    (placeholder : Bool) :
    (children.resolveForWriting key (.insert value placeholder)).get? key =
      some ⟨placeholder, ⟨children.nextSerial, value⟩, []⟩ := by
  obtain ⟨older, new⟩ := children.get?_resolve_insert key value placeholder
  rw [resolveForWriting_eq, get?_adjust, if_pos rfl, new, Option.map_some]

end Plans

/-! ### Versions -/

/-- The current version is found by its serial number. -/
theorem version?_current (found : children.get? key = some entry) :
    children.version? key entry.current.serial = some entry.current.value := by
  have first : (entry.current :: entry.older).find?
      (fun version => version.serial == entry.current.serial) = some entry.current :=
    List.find?_cons_of_pos (beq_self_eq_true entry.current.serial)
  rw [version?, found, Option.bind_some, first]
  rfl

theorem get?_writeVersion_of_ne (different : other ≠ key) (children : Children α) (serial : Nat)
    (value : α) : (children.writeVersion key serial value).get? other = children.get? other := by
  rw [writeVersion, get?_adjust, if_neg different]

/-- Writing to the current version by its serial number. -/
theorem get?_writeVersion_current (found : children.get? key = some entry) (value : α) :
    ∃ older, (children.writeVersion key entry.current.serial value).get? key =
      some ⟨entry.placeholder, ⟨entry.current.serial, value⟩, older⟩ := by
  rw [writeVersion, get?_adjust, if_pos rfl, found, Option.map_some]
  simp only [if_pos]
  exact ⟨_, rfl⟩

theorem nodup_writeVersion (distinct : children.keys.Nodup) (key : ChildKey) (serial : Nat)
    (value : α) : (children.writeVersion key serial value).keys.Nodup := by
  rw [writeVersion, keys_adjust]
  exact distinct

/-! ### Values by key -/

theorem mem_keys_iff_find? : key ∈ children.keys ↔ ∃ found, children.find? key = some found := by
  rw [mem_keys_iff, find?]
  constructor
  · rintro ⟨entry, found⟩
    exact ⟨_, congrArg _ found⟩
  · rintro ⟨found, present⟩
    obtain ⟨entry, there, -⟩ := Option.map_eq_some_iff.mp present
    exact ⟨entry, there⟩

theorem notMem_keys_iff_find? : key ∉ children.keys ↔ children.find? key = none := by
  rw [mem_keys_iff_find?, Option.eq_none_iff_forall_ne_some, not_exists]

theorem isEmpty_iff : children.isEmpty = true ↔ ∀ key, children.find? key = none := by
  have nothing : children.isEmpty = true ↔ children.keys = [] := by simp [isEmpty, keys]
  rw [nothing, List.eq_nil_iff_forall_not_mem]
  exact forall_congr' fun key => notMem_keys_iff_find?

@[simp]
theorem find?_latest (children : Children α) (key : ChildKey) :
    children.latest.find? key = children.find? key := by
  rw [find?, get?_latest, Option.map_map]
  rfl

theorem find?_resolve [Inhabited α] (children : Children α) (key other : ChildKey) (plan : Plan α) :
    (children.resolve key plan).find? other =
      if other = key then some (plan.outcome (children.find? key)) else children.find? other := by
  by_cases same : other = key
  · subst same
    rw [if_pos rfl]
    cases plan with
    | insert value placeholder =>
      obtain ⟨older, found⟩ := children.get?_resolve_insert other value placeholder
      rw [find?, found]
      rfl
    | keep =>
      cases found : children.get? other with
      | some entry =>
        rw [resolve_keep found, find?, found]
        rfl
      | none =>
        simp only [resolve, found, find?, get?_append, if_pos, Option.none_or]
        rfl
  · rw [if_neg same, find?, get?_resolve_of_ne same, find?]

/-- Older versions are not what is found. -/
theorem find?_adjust_older (children : Children α) (key other : ChildKey)
    (older : List (Version α)) :
    (children.adjust key fun entry => { entry with older }).find? other = children.find? other := by
  rw [find?, get?_adjust]
  split
  · rw [Option.map_map, find?]
    rfl
  · rw [find?]

theorem find?_resolveForWriting [Inhabited α] (children : Children α) (key other : ChildKey)
    (plan : Plan α) :
    (children.resolveForWriting key plan).find? other =
      if other = key then some (plan.outcome (children.find? key)) else children.find? other := by
  rw [resolveForWriting_eq, find?_adjust_older, find?_resolve]

/-- Writing to the child at a key that is in the table. -/
theorem find?_write {child : α} {placeholder : Bool}
    (found : children.find? key = some (child, placeholder)) (value : α) (other : ChildKey) :
    (children.write key value).find? other =
      if other = key then some (value, placeholder) else children.find? other := by
  rw [find?, get?_write]
  by_cases same : other = key
  · subst same
    obtain ⟨entry, there, equal⟩ := Option.map_eq_some_iff.mp found
    rw [if_pos rfl, if_pos rfl, there, ← (Prod.mk.inj equal).2]
    rfl
  · rw [if_neg same, if_neg same, find?]

theorem find?_writeVersion (found : children.get? key = some entry) (value : α) (other : ChildKey) :
    (children.writeVersion key entry.current.serial value).find? other =
      if other = key then some (value, entry.placeholder) else children.find? other := by
  by_cases same : other = key
  · subst same
    obtain ⟨older, written⟩ := get?_writeVersion_current found value
    rw [if_pos rfl, find?, written]
    rfl
  · rw [if_neg same, find?, get?_writeVersion_of_ne same, find?]

theorem find?_filterKeys (children : Children α) (keep : ChildKey → Bool) (key : ChildKey) :
    (children.filterKeys keep).find? key = if keep key then children.find? key else none := by
  rw [find?, get?_filterKeys]
  by_cases kept : keep key = true
  · rw [if_pos kept, if_pos kept, find?]
  · rw [if_neg kept, if_neg kept]
    rfl

/-- Forgetting a placeholder drops its key if nothing was done to it. -/
theorem find?_forgetPlaceholder (children : Children α) (key : ChildKey) (isBlank : α → Bool)
    (other : ChildKey) :
    (children.forgetPlaceholder key isBlank).find? other =
      if other = key then
        (children.find? key).filter fun (child, placeholder) => !(placeholder && isBlank child)
      else children.find? other := by
  unfold forgetPlaceholder
  by_cases same : other = key
  · subst same
    rw [if_pos rfl]
    split
    · rename_i child found
      by_cases blank : isBlank child = true
      · rw [if_pos blank, forget, find?_filterKeys]
        simp [found, Option.filter_some, blank]
      · rw [if_neg blank]
        simp [found, Option.filter_some, blank]
    · rename_i kept
      cases found : children.find? other with
      | none => rfl
      | some known =>
        obtain ⟨child, placeholder⟩ := known
        cases placeholder with
        | true => exact absurd found (kept child)
        | false => rfl
  · rw [if_neg same]
    split
    · split
      · rw [forget, find?_filterKeys]
        simp [same]
      · rfl
    · rfl

theorem nodup_forgetPlaceholder (distinct : children.keys.Nodup) (key : ChildKey)
    (isBlank : α → Bool) : (children.forgetPlaceholder key isBlank).keys.Nodup := by
  unfold forgetPlaceholder
  split
  · split
    · exact nodup_filterKeys distinct _
    · exact distinct
  · exact distinct

end Children

end JsonOverlay
