/-
This file says what is known of the keys in three tables with stacks, and what each operation makes of
it. An operation on a table sets what is known of one key or drops keys. The list of keys keeps step
with the map of entries: it has the keys of the map, each once.
-/

import JsonOverlay.Children.Program
import JsonOverlay.Proofs.Children

namespace JsonOverlay

/-! ### What is known of a key -/

namespace Known

variable {α : Type}

/-- The versions of a key's child in the order in which they were found. -/
def versions (known : Known α) : List α := known.earlier ++ [known.latest]

/-- A copy of what is known, without the versions before the latest. -/
def copied (copy : α → α) (known : Known α) : Known α :=
  ⟨[], copy known.latest, known.placeholder⟩

end Known

/-! ### Stacks -/

namespace VersionStack

open GrowingList LawfulGrowingList

variable {ν : Type → Type} [GrowingList ν] [LawfulGrowingList ν] {α : Type}
  {stack : VersionStack ν α}

/-- The versions in a stack from the bottom up. -/
def versions (stack : VersionStack ν α) : List α := stack.base :: toList stack.newer

/-- What a stack makes known: the version on top, and those below it. -/
def known (stack : VersionStack ν α) : Known α :=
  ⟨stack.versions.dropLast, stack.current, stack.placeholder⟩

theorem current_eq (stack : VersionStack ν α) :
    stack.current = (toList stack.newer).getLast?.getD stack.base := by
  rw [current, length_eq]
  rcases List.eq_nil_or_concat' (toList stack.newer) with none | ⟨lower, last, some⟩
  · rw [none]
    rfl
  · rw [some, List.length_append, List.length_singleton]
    dsimp only
    rw [get?_eq, some, List.getElem?_concat_length, List.getLast?_concat]

theorem versions_eq (stack : VersionStack ν α) :
    stack.versions = stack.versions.dropLast ++ [stack.current] := by
  rw [current_eq, versions]
  rcases List.eq_nil_or_concat' (toList stack.newer) with none | ⟨lower, last, some⟩
  · rw [none]
    rfl
  · rw [some, List.getLast?_concat, ← List.cons_append, List.dropLast_concat]
    rfl

theorem version?_eq (stack : VersionStack ν α) (height : Nat) :
    stack.version? height = stack.known.versions[height]? := by
  show _ = (stack.versions.dropLast ++ [stack.current])[height]?
  rw [← versions_eq]
  cases height with
  | zero => rfl
  | succ height => exact get?_eq stack.newer height

theorem length_newer_eq (stack : VersionStack ν α) :
    length stack.newer = stack.known.earlier.length := by
  show _ = stack.versions.dropLast.length
  rw [List.length_dropLast, versions, length_eq]
  rfl

theorem known_new (value : α) (placeholder : Bool) :
    (new value placeholder : VersionStack ν α).known = ⟨[], value, placeholder⟩ := by
  rw [known, current_eq, versions, new, toList_empty]
  rfl

theorem known_refresh (stack : VersionStack ν α) (value : α) (placeholder : Bool) :
    (stack.refresh value placeholder).known =
      ⟨stack.known.earlier ++ [stack.known.latest], value, placeholder⟩ := by
  have above : (stack.refresh value placeholder).versions = stack.versions ++ [value] :=
    congrArg (stack.base :: ·) (toList_push stack.newer value)
  have top : (stack.refresh value placeholder).current = value := by
    rw [current_eq, refresh, toList_push, List.getLast?_concat]
    rfl
  rw [known, above, top, List.dropLast_concat, versions_eq]
  rfl

theorem known_replace (stack : VersionStack ν α) (value : α) (placeholder : Bool) :
    (stack.replace value placeholder).known = ⟨[], value, placeholder⟩ := by
  rw [known, current_eq, versions, replace, toList_clear]
  rfl

/-- The version on top comes to the bottom, and is what is written to. -/
theorem collapse_eq (stack : VersionStack ν α) :
    stack.collapse.base = stack.current ∧ toList stack.collapse.newer = [] ∧
      stack.collapse.placeholder = stack.placeholder := by
  have popped := fst_pop stack.newer
  have top := current_eq stack
  rw [collapse]
  rcases taken : pop stack.newer with ⟨latest, rest⟩
  rw [taken] at popped
  cases latest with
  | none =>
    rw [← popped] at top
    exact ⟨top.symm, List.getLast?_eq_none_iff.mp popped.symm, rfl⟩
  | some latest =>
    rw [← popped] at top
    exact ⟨top.symm, toList_clear rest, rfl⟩

theorem known_write_collapse (stack : VersionStack ν α) (change : α → α) :
    (stack.collapse.write change).known = ⟨[], change stack.known.latest, stack.known.placeholder⟩ := by
  obtain ⟨base, newer, placeholder⟩ := stack.collapse_eq
  rw [known, current_eq, versions, write]
  dsimp only
  rw [newer, base, placeholder]
  rfl

end VersionStack

/-! ### One table -/

namespace ChildTable

open EntryMap LawfulEntryMap

variable {μ : Type → Type → Type} {ν : Type → Type} {κ α : Type} [EntryMap μ] [GrowingList ν]
  [DecidableEq κ] {table after : ChildTable μ ν κ α} {key : κ} {known : Known α} {kept : κ → Bool}

/-- What is known of a key in a table. -/
def known? (table : ChildTable μ ν κ α) (key : κ) : Option (Known α) :=
  (get? table.entries key).map VersionStack.known

/-- The list has the keys of the entries, each once. -/
structure InStep (table : ChildTable μ ν κ α) : Prop where
  nodup : table.keys.Nodup
  mem_keys_iff : ∀ key, key ∈ table.keys ↔ table.known? key ≠ none

/-- What is known of one key is said anew. If it was not there, it comes last. -/
structure Sets (table : ChildTable μ ν κ α) (key : κ) (known : Known α) (after : ChildTable μ ν κ α) :
    Prop where
  known?_eq : ∀ other, after.known? other = if other = key then some known else table.known? other
  keys_eq : after.keys = if (table.known? key).isNone then table.keys ++ [key] else table.keys

/-- Only some keys are left, in their order. -/
structure Restricts (table : ChildTable μ ν κ α) (kept : κ → Bool) (after : ChildTable μ ν κ α) :
    Prop where
  known?_eq : ∀ key, after.known? key = if kept key then table.known? key else none
  keys_eq : after.keys = table.keys.filter kept

theorem InStep.sets (inStep : table.InStep) (sets : table.Sets key known after) : after.InStep where
  nodup := by
    rw [sets.keys_eq]
    split
    · rename_i absent
      refine List.nodup_append'.mpr ⟨inStep.nodup, List.nodup_singleton key, ?_⟩
      rw [List.disjoint_singleton, inStep.mem_keys_iff, not_not]
      exact Option.isNone_iff_eq_none.mp absent
    · exact inStep.nodup
  mem_keys_iff other := by
    have before := inStep.mem_keys_iff other
    rw [sets.known?_eq, sets.keys_eq]
    by_cases same : other = key
    · subst same
      rw [if_pos rfl]
      refine iff_of_true ?_ (Option.some_ne_none known)
      split
      · exact List.mem_concat_self
      · rename_i present
        exact before.mpr fun absent => present (Option.isNone_iff_eq_none.mpr absent)
    · rw [if_neg same, ← before]
      split
      · rw [List.mem_append, List.mem_singleton, or_iff_left same]
      · exact Iff.rfl

theorem InStep.restricts (inStep : table.InStep) (restricts : table.Restricts kept after) :
    after.InStep where
  nodup := by
    rw [restricts.keys_eq]
    exact inStep.nodup.filter _
  mem_keys_iff key := by
    rw [restricts.known?_eq, restricts.keys_eq, List.mem_filter, inStep.mem_keys_iff]
    split
    · rename_i here
      exact and_iff_left here
    · rename_i gone
      exact iff_of_false (fun both => gone both.2) fun some => some rfl

theorem restricts_self (all : ∀ key, kept key = true) : table.Restricts kept table where
  known?_eq key := (if_pos (all key)).symm
  keys_eq := (List.filter_eq_self.mpr fun key _ => all key).symm

theorem Sets.map_keys (sets : table.Sets key known after) (embed : κ → ChildKey) :
    after.keys.map embed = if (table.known? key).isNone then table.keys.map embed ++ [embed key]
      else table.keys.map embed := by
  rw [sets.keys_eq, apply_ite (List.map embed), List.map_append]
  rfl

theorem Restricts.map_keys {embed : κ → ChildKey} {wide : ChildKey → Bool}
    (restricts : table.Restricts (wide ∘ embed) after) :
    after.keys.map embed = (table.keys.map embed).filter wide := by
  rw [restricts.keys_eq, List.filter_map]

theorem lookup_eq (table : ChildTable μ ν κ α) (key : κ) :
    table.lookup key =
      (table.known? key).map fun known => (known.latest, known.placeholder) := by
  rw [known?, Option.map_map]
  rfl

theorem sets_self (present : table.known? key = some known) : table.Sets key known table where
  known?_eq other := by
    split
    · rename_i same
      rw [same, present]
    · rfl
  keys_eq := by
    rw [present]
    rfl

section Entries

variable [LawfulEntryMap μ]

theorem known?_new (key : κ) : (new : ChildTable μ ν κ α).known? key = none :=
  congrArg (Option.map VersionStack.known) (get?_empty key)

theorem inStep_new : (new : ChildTable μ ν κ α).InStep where
  nodup := List.nodup_nil
  mem_keys_iff key := by
    rw [known?_new]
    exact iff_of_false List.not_mem_nil fun some => some rfl

/-- An entry that is there changes where it is. -/
theorem sets_modify {entry : VersionStack ν α} (present : get? table.entries key = some entry)
    (change : VersionStack ν α → VersionStack ν α) :
    table.Sets key (change entry).known { table with entries := modify table.entries key change } where
  known?_eq other := by
    rw [known?, get?_modify]
    split
    · rw [present]
      rfl
    · rfl
  keys_eq := by
    rw [known?, present]
    rfl

theorem fst_forget (table : ChildTable μ ν κ α) (key : κ) :
    (table.forget key).1 = (table.known? key).isSome := by
  have taken := fst_erase table.entries key
  rw [forget, known?, ← taken, Option.isSome_map]
  rcases erase table.entries key with ⟨_ | entry, entries⟩ <;> rfl

theorem InStep.restricts_forget (inStep : table.InStep) (key : κ) :
    table.Restricts (fun other => other ≠ key) (table.forget key).2 := by
  have taken := fst_erase table.entries key
  have left := get?_erase table.entries key
  have member := inStep.mem_keys_iff key
  rw [known?] at member
  rw [forget]
  rcases erased : erase table.entries key with ⟨found, entries⟩
  rw [erased] at taken left
  have known (other : κ) : (get? entries other).map VersionStack.known =
      if decide (other ≠ key) = true then table.known? other else none := by
    rw [left]
    by_cases same : other = key
    · rw [if_pos same, decide_eq_false (not_not.mpr same)]
      rfl
    · rw [if_neg same, decide_eq_true same]
      rfl
  cases found with
  | some entry => exact ⟨known, rfl⟩
  | none =>
    refine ⟨known, (List.filter_eq_self.mpr fun other listed => ?_).symm⟩
    rw [decide_eq_true_eq]
    rintro rfl
    rw [← taken] at member
    exact member.mp listed rfl

theorem restricts_clear (table : ChildTable μ ν κ α) :
    table.Restricts (fun _ => false) table.clear where
  known?_eq key := congrArg _ (get?_clear table.entries key)
  keys_eq := (List.filter_false _).symm

end Entries

variable [LawfulGrowingList ν]

theorem version?_eq (table : ChildTable μ ν κ α) (key : κ) (height : Nat) :
    table.version? key height = (table.known? key).bind fun known => known.versions[height]? := by
  rw [version?, known?]
  cases get? table.entries key with
  | none => rfl
  | some entry => exact entry.version?_eq height

/-! ### Reading -/

theorem fst_resolve [Inhabited α] (table : ChildTable μ ν κ α) (key : κ) (plan : Plan α) :
    (table.resolve key plan).1 =
      ((plan.read (table.known? key)).earlier.length, (plan.read (table.known? key)).latest) := by
  have top (entry : VersionStack ν α) :
      entry.top = (entry.known.earlier.length, entry.known.latest) :=
    congrArg (·, entry.current) entry.length_newer_eq
  unfold resolve
  rw [known?]
  cases get? table.entries key with
  | none => cases plan <;> rfl
  | some entry =>
    cases plan with
    | keep => exact top entry
    | insert value placeholder =>
      refine (top _).trans ?_
      rw [VersionStack.known_refresh]
      rfl

variable [LawfulEntryMap μ]

theorem sets_insert (absent : get? table.entries key = none) (value : α) (placeholder : Bool) :
    table.Sets key ⟨[], value, placeholder⟩ (table.insert key value placeholder) where
  known?_eq other := by
    rw [known?, insert, get?_insert _ _ _ _ absent]
    split
    · exact congrArg some (VersionStack.known_new value placeholder)
    · rfl
  keys_eq := by
    rw [known?, absent]
    rfl

section Plans

variable [Inhabited α]

theorem sets_resolve (table : ChildTable μ ν κ α) (key : κ) (plan : Plan α) :
    table.Sets key (plan.read (table.known? key)) (table.resolve key plan).2 := by
  unfold resolve
  rw [known?]
  cases present : get? table.entries key with
  | none =>
    cases plan with
    | keep => exact sets_insert present default true
    | insert value placeholder => exact sets_insert present value placeholder
  | some entry =>
    cases plan with
    | keep => exact sets_self (congrArg _ present)
    | insert value placeholder =>
      have sets := sets_modify present fun entry => entry.refresh value placeholder
      rw [VersionStack.known_refresh] at sets
      exact sets

/-! ### Writing -/

/-- The entry that is written to has been entered, with the version on top that the plan says. -/
theorem sets_enter (table : ChildTable μ ν κ α) (key : κ) (plan : Plan α) :
    get? (table.enter key plan).2.entries key = some (table.enter key plan).1 ∧
      table.Sets key (table.enter key plan).1.known (table.enter key plan).2 ∧
      Known.mk [] (table.enter key plan).1.known.latest (table.enter key plan).1.known.placeholder =
        plan.write (table.known? key) := by
  have added (absent : get? table.entries key = none) (value : α) (placeholder : Bool) :
      get? (table.insert key value placeholder).entries key =
          some (.new value placeholder : VersionStack ν α) ∧
        table.Sets key (.new value placeholder : VersionStack ν α).known
          (table.insert key value placeholder) ∧
        Known.mk [] (.new value placeholder : VersionStack ν α).known.latest
          (.new value placeholder : VersionStack ν α).known.placeholder =
            ⟨[], value, placeholder⟩ := by
    rw [VersionStack.known_new]
    exact ⟨(get?_insert _ _ _ _ absent).trans (if_pos rfl), sets_insert absent value placeholder, rfl⟩
  unfold enter
  rw [known?]
  cases present : get? table.entries key with
  | none =>
    cases plan with
    | keep => exact added present default true
    | insert value placeholder => exact added present value placeholder
  | some entry =>
    cases plan with
    | keep => exact ⟨present, sets_self (congrArg _ present), rfl⟩
    | insert value placeholder =>
      refine ⟨?_, sets_modify present fun entry => entry.replace value placeholder, ?_⟩
      · dsimp only
        rw [get?_modify, if_pos rfl, present]
        rfl
      · rw [VersionStack.known_replace]
        rfl

theorem sets_reach (table : ChildTable μ ν κ α) (key : κ) (plan : Plan α) (change : α → α) :
    table.Sets key
      { plan.write (table.known? key) with latest := change (plan.write (table.known? key)).latest }
      (table.reach key plan change).2 := by
  obtain ⟨present, entered, written⟩ := table.sets_enter key plan
  have changed := sets_modify present fun entry => entry.collapse.write change
  rw [VersionStack.known_write_collapse] at changed
  rw [← written]
  refine ⟨fun other => (changed.known?_eq other).trans ?_, ?_⟩
  · split
    · rfl
    · rename_i different
      exact (entered.known?_eq other).trans (if_neg different)
  · exact entered.keys_eq

theorem fst_reach (table : ChildTable μ ν κ α) (key : κ) (plan : Plan α) (change : α → α) :
    (table.reach key plan change).1 = (plan.write (table.known? key)).latest := by
  rw [← (table.sets_enter key plan).2.2]
  exact (table.enter key plan).1.collapse_eq.1

end Plans

/-! ### Copying -/

/-- Copies come key after key. -/
theorem duplicate_foldl (copy : α → α) (table : ChildTable μ ν κ α) {keys : List κ}
    {copies : ChildTable μ ν κ α} (distinct : keys.Nodup)
    (there : ∀ key ∈ keys, table.known? key ≠ none) (fresh : ∀ key ∈ keys, copies.known? key = none) :
    (keys.foldl (table.copyOf copy) copies).keys = copies.keys ++ keys ∧
      ∀ key, (keys.foldl (table.copyOf copy) copies).known? key =
        if key ∈ keys then (table.known? key).map (Known.copied copy) else copies.known? key := by
  -- Keys are distinct, so what is new among the copies stays new while those before it are added.
  induction keys generalizing copies with
  | nil => exact ⟨(List.append_nil _).symm, fun _ => (if_neg List.not_mem_nil).symm⟩
  | cons key rest inductionHypothesis =>
    obtain ⟨new, distinct⟩ := List.nodup_cons.mp distinct
    obtain ⟨here, there⟩ := List.forall_mem_cons.mp there
    obtain ⟨absent, fresh⟩ := List.forall_mem_cons.mp fresh
    obtain ⟨entry, found⟩ : ∃ entry, get? table.entries key = some entry :=
      Option.ne_none_iff_exists'.mp fun none => here (congrArg _ none)
    have sets : copies.Sets key (entry.known.copied copy) (table.copyOf copy copies key) := by
      rw [copyOf, found]
      exact sets_insert (Option.map_eq_none_iff.mp absent) _ _
    obtain ⟨keys, known⟩ := inductionHypothesis distinct there fun other member => by
      have different : other ≠ key := ne_of_mem_of_not_mem member new
      rw [sets.known?_eq, if_neg different]
      exact fresh other member
    rw [List.foldl_cons]
    refine ⟨?_, fun other => (known other).trans ?_⟩
    · rw [keys, sets.keys_eq, absent, Option.isNone_none, if_pos rfl, List.append_assoc]
      rfl
    · rw [sets.known?_eq]
      by_cases same : other = key
      · rw [same, if_neg new, if_pos rfl, if_pos List.mem_cons_self, known?, found]
        rfl
      · rw [if_neg same]
        simp only [List.mem_cons, same, false_or]

theorem InStep.duplicate (inStep : table.InStep) (copy : α → α) :
    (table.duplicate copy).keys = table.keys ∧
      ∀ key, (table.duplicate copy).known? key = (table.known? key).map (Known.copied copy) := by
  obtain ⟨keys, known⟩ := duplicate_foldl copy table inStep.nodup
    (fun key => (inStep.mem_keys_iff key).mp) fun key _ => known?_new key
  refine ⟨keys, fun key => (known key).trans ?_⟩
  split
  · rfl
  · rename_i absent
    rw [inStep.mem_keys_iff, not_not] at absent
    rw [absent]
    exact known?_new key

theorem InStep.inStep_duplicate (inStep : table.InStep) (copy : α → α) :
    (table.duplicate copy).InStep where
  nodup := by
    rw [(inStep.duplicate copy).1]
    exact inStep.nodup
  mem_keys_iff key := by
    rw [(inStep.duplicate copy).1, (inStep.duplicate copy).2, inStep.mem_keys_iff, ne_eq, ne_eq,
      Option.map_eq_none_iff]

end ChildTable

/-! ### Three tables -/

theorem isSome_of_isUntouched {α : Type} {isBlank : α → Bool} {found : Option (α × Bool)}
    (untouched : isUntouched isBlank found = true) : found.isSome = true := by
  cases found with
  | none => exact absurd untouched Bool.false_ne_true
  | some child => rfl

namespace ChildTables

variable {μ : Type → Type → Type} {ν : Type → Type} {α β : Type} [EntryMap μ] [GrowingList ν]
  {tables : ChildTables μ ν α}

/-- The map that three tables stand for. -/
def toMap (tables : ChildTables μ ν α) : VersionMap α :=
  ⟨tables.ask fun table key => table.known? key, tables.keys⟩

/-- In each table the list of keys keeps step with the entries. -/
structure InStep (tables : ChildTables μ ν α) : Prop where
  members : tables.members.InStep
  repeats : tables.repeats.InStep
  elements : tables.elements.InStep

theorem find?_eq (tables : ChildTables μ ν α) (key : ChildKey) :
    tables.find? key = tables.toMap.find? key := by
  cases key with
  | member name => exact tables.members.lookup_eq name
  | repeated position => exact tables.repeats.lookup_eq position
  | element index => exact tables.elements.lookup_eq index

theorem size_eq (tables : ChildTables μ ν α) : tables.size = tables.toMap.size := by
  rw [size, VersionMap.size, toMap]
  simp only [keys, List.length_map]

/-- What the table of a key says of the key, the map says. -/
theorem ask_eq (question : {κ : Type} → [DecidableEq κ] → ChildTable μ ν κ α → κ → β)
    (reading : Option (Known α) → β)
    (same : ∀ {κ : Type} [DecidableEq κ] (table : ChildTable μ ν κ α) (key : κ),
      question table key = reading (table.known? key))
    (tables : ChildTables μ ν α) (key : ChildKey) :
    tables.ask question key = reading (tables.toMap.known? key) := by
  cases key with
  | member name => exact same tables.members name
  | repeated position => exact same tables.repeats position
  | element index => exact same tables.elements index

/-- What is answered from the table of a key is answered from the map. -/
theorem fst_use
    (action : {κ : Type} → [DecidableEq κ] → ChildTable μ ν κ α → κ → β × ChildTable μ ν κ α)
    (reading : Option (Known α) → β)
    (same : ∀ {κ : Type} [DecidableEq κ] (table : ChildTable μ ν κ α) (key : κ),
      (action table key).1 = reading (table.known? key))
    (tables : ChildTables μ ν α) (key : ChildKey) :
    (tables.use action key).1 = reading (tables.toMap.known? key) := by
  cases key with
  | member name => exact same tables.members name
  | repeated position => exact same tables.repeats position
  | element index => exact same tables.elements index

/-- Where what is known of a key is said anew in its table, it is in the map; the other tables stay
as they are. -/
theorem toMap_use
    (action : {κ : Type} → [DecidableEq κ] → ChildTable μ ν κ α → κ → β × ChildTable μ ν κ α)
    (change : Option (Known α) → Known α)
    (sets : ∀ {κ : Type} [DecidableEq κ] (table : ChildTable μ ν κ α) (key : κ),
      table.Sets key (change (table.known? key)) (action table key).2)
    (tables : ChildTables μ ν α) (key : ChildKey) :
    (tables.use action key).2.toMap = tables.toMap.set key (change (tables.toMap.known? key)) := by
  have own {κ : Type} [DecidableEq κ] (table : ChildTable μ ν κ α) {embed : κ → ChildKey}
      (injective : Function.Injective embed) (raw other : κ) :
      (action table raw).2.known? other =
        if embed other = embed raw then some (change (table.known? raw)) else table.known? other := by
    simp only [injective.eq_iff]
    exact (sets table raw).known?_eq other
  have listed {κ : Type} [DecidableEq κ] (table : ChildTable μ ν κ α) (embed : κ → ChildKey)
      (raw : κ) (kind : ChildKind) :
      (action table raw).2.keys.map embed =
        if kind = kind ∧ (table.known? raw).isNone then table.keys.map embed ++ [embed raw]
        else table.keys.map embed := by
    simp only [true_and]
    exact (sets table raw).map_keys embed
  -- A key is never equal to one of another kind, so the other tables have nothing to change.
  refine congrArg₂ VersionMap.mk (funext fun other => ?_) (funext fun kind => ?_)
  · cases key with
    | member name =>
      cases other with
      | member other => exact own tables.members (fun _ _ => ChildKey.member.inj) name other
      | repeated | element => exact (if_neg (by simp)).symm
    | repeated position =>
      cases other with
      | repeated other => exact own tables.repeats (fun _ _ => ChildKey.repeated.inj) position other
      | member | element => exact (if_neg (by simp)).symm
    | element index =>
      cases other with
      | element other => exact own tables.elements (fun _ _ => ChildKey.element.inj) index other
      | member | repeated => exact (if_neg (by simp)).symm
  · cases key with
    | member name =>
      cases kind with
      | member => exact listed tables.members .member name .member
      | repeated | element => exact (if_neg (by simp [ChildKey.kind])).symm
    | repeated position =>
      cases kind with
      | repeated => exact listed tables.repeats .repeated position .repeated
      | member | element => exact (if_neg (by simp [ChildKey.kind])).symm
    | element index =>
      cases kind with
      | element => exact listed tables.elements .element index .element
      | member | repeated => exact (if_neg (by simp [ChildKey.kind])).symm

theorem InStep.use
    {action : {κ : Type} → [DecidableEq κ] → ChildTable μ ν κ α → κ → β × ChildTable μ ν κ α}
    (steps : ∀ {κ : Type} [DecidableEq κ] {table : ChildTable μ ν κ α} (key : κ),
      table.InStep → (action table key).2.InStep)
    (inStep : tables.InStep) (key : ChildKey) : (tables.use action key).2.InStep := by
  obtain ⟨members, repeats, elements⟩ := inStep
  cases key with
  | member name => exact ⟨steps name members, repeats, elements⟩
  | repeated position => exact ⟨members, steps position repeats, elements⟩
  | element index => exact ⟨members, repeats, steps index elements⟩

/-- Each table keeps the keys that the map keeps. -/
structure Restricts (tables : ChildTables μ ν α) (kept : ChildKey → Bool)
    (after : ChildTables μ ν α) : Prop where
  members : tables.members.Restricts (kept ∘ .member) after.members
  repeats : tables.repeats.Restricts (kept ∘ .repeated) after.repeats
  elements : tables.elements.Restricts (kept ∘ .element) after.elements

/-- Tables keep what all keys keep. -/
theorem restricts_self {kept : ChildKey → Bool} (all : ∀ key, kept key = true) :
    tables.Restricts kept tables :=
  ⟨ChildTable.restricts_self fun name => all (.member name),
    ChildTable.restricts_self fun position => all (.repeated position),
    ChildTable.restricts_self fun index => all (.element index)⟩

theorem Restricts.toMap_eq {kept : ChildKey → Bool} {after : ChildTables μ ν α}
    (restricts : tables.Restricts kept after) : after.toMap = tables.toMap.restrict kept := by
  refine congrArg₂ VersionMap.mk (funext fun key => ?_) (funext fun kind => ?_)
  · cases key with
    | member name => exact restricts.members.known?_eq name
    | repeated position => exact restricts.repeats.known?_eq position
    | element index => exact restricts.elements.known?_eq index
  · cases kind with
    | member => exact restricts.members.map_keys
    | repeated => exact restricts.repeats.map_keys
    | element => exact restricts.elements.map_keys

theorem InStep.restricts {kept : ChildKey → Bool} {after : ChildTables μ ν α}
    (inStep : tables.InStep) (restricts : tables.Restricts kept after) : after.InStep :=
  ⟨inStep.members.restricts restricts.members, inStep.repeats.restricts restricts.repeats,
    inStep.elements.restricts restricts.elements⟩

section Forgetting

variable [LawfulEntryMap μ]

theorem inStep_new : (new : ChildTables μ ν α).InStep :=
  ⟨ChildTable.inStep_new, ChildTable.inStep_new, ChildTable.inStep_new⟩

theorem toMap_new : (new : ChildTables μ ν α).toMap = .empty := by
  refine congrArg₂ VersionMap.mk (funext fun key => ?_) (funext fun kind => ?_)
  · cases key with
    | member name => exact ChildTable.known?_new name
    | repeated place | element place => exact ChildTable.known?_new place
  · cases kind <;> rfl

theorem InStep.restricts_forgetMember (inStep : tables.InStep) (name : String) :
    tables.Restricts (VersionMap.outlives name) (tables.forgetMember name).2 where
  members := inStep.members.restricts_forget name
  repeats := tables.repeats.restricts_clear
  elements := ChildTable.restricts_self fun _ => rfl

/-- To drop a key from its table leaves the other tables as they are. -/
theorem InStep.restricts_forget (inStep : tables.InStep) (key : ChildKey) :
    tables.Restricts (fun other => other ≠ key)
      (tables.use (fun table key => table.forget key) key).2 := by
  have others {κ : Type} {table : ChildTable μ ν κ α} [DecidableEq κ] {embed : κ → ChildKey}
      (different : ∀ other, embed other ≠ key) :
      table.Restricts ((fun other => decide (other ≠ key)) ∘ embed) table :=
    ChildTable.restricts_self fun other => decide_eq_true (different other)
  have own {κ : Type} {table after : ChildTable μ ν κ α} [DecidableEq κ] {embed : κ → ChildKey}
      {raw : κ} (injective : Function.Injective embed) (whole : embed raw = key)
      (restricts : table.Restricts (fun other => other ≠ raw) after) :
      table.Restricts ((fun other => decide (other ≠ key)) ∘ embed) after := by
    have same : (fun other => decide (other ≠ key)) ∘ embed = fun other => decide (other ≠ raw) := by
      rw [← whole]
      exact funext fun other => decide_eq_decide.mpr (not_congr injective.eq_iff)
    rw [same]
    exact restricts
  cases key with
  | member name =>
    exact ⟨own (fun _ _ => ChildKey.member.inj) rfl (inStep.members.restricts_forget name),
      others (by simp), others (by simp)⟩
  | repeated position =>
    exact ⟨others (by simp),
      own (fun _ _ => ChildKey.repeated.inj) rfl (inStep.repeats.restricts_forget position),
      others (by simp)⟩
  | element index =>
    exact ⟨others (by simp), others (by simp),
      own (fun _ _ => ChildKey.element.inj) rfl (inStep.elements.restricts_forget index)⟩

theorem fst_forgetMember (tables : ChildTables μ ν α) (name : String) :
    (tables.forgetMember name).1 = (tables.toMap.find? (.member name)).isSome := by
  rw [VersionMap.find?, Option.isSome_map]
  exact tables.members.fst_forget name

/-- A key is told to be dropped exactly if its child was an untouched placeholder. -/
theorem InStep.forgetPlaceholder_eq (inStep : tables.InStep) (isBlank : α → Bool)
    (key : ChildKey) :
    (tables.forgetPlaceholder isBlank key).1 = isUntouched isBlank (tables.toMap.find? key) ∧
      (tables.forgetPlaceholder isBlank key).2.toMap =
        if isUntouched isBlank (tables.toMap.find? key) then
          tables.toMap.restrict fun other => other ≠ key
        else tables.toMap := by
  rw [forgetPlaceholder, find?_eq]
  split
  · rename_i untouched
    have present := isSome_of_isUntouched untouched
    rw [VersionMap.find?, Option.isSome_map] at present
    refine ⟨?_, (inStep.restricts_forget key).toMap_eq⟩
    rw [untouched]
    exact (fst_use (fun table key => table.forget key) Option.isSome
      (fun table key => table.fst_forget key) tables key).trans present
  · rename_i touched
    exact ⟨(Bool.eq_false_iff.mpr touched).symm, rfl⟩

theorem InStep.inStep_forgetPlaceholder (inStep : tables.InStep) (isBlank : α → Bool)
    (key : ChildKey) : (tables.forgetPlaceholder isBlank key).2.InStep := by
  rw [forgetPlaceholder]
  split
  · exact inStep.restricts (inStep.restricts_forget key)
  · exact inStep

end Forgetting

theorem InStep.toMap_duplicate [LawfulEntryMap μ] [LawfulGrowingList ν] (inStep : tables.InStep)
    (copy : α → α) : (tables.duplicate copy).toMap = tables.toMap.duplicate copy := by
  have members := inStep.members.duplicate copy
  have repeats := inStep.repeats.duplicate copy
  have elements := inStep.elements.duplicate copy
  refine congrArg₂ VersionMap.mk (funext fun key => ?_) (funext fun kind => ?_)
  · cases key with
    | member name => exact members.2 name
    | repeated position => exact repeats.2 position
    | element index => exact elements.2 index
  · cases kind with
    | member => exact congrArg (List.map ChildKey.member) members.1
    | repeated => exact congrArg (List.map ChildKey.repeated) repeats.1
    | element => exact congrArg (List.map ChildKey.element) elements.1

theorem InStep.inStep_duplicate [LawfulEntryMap μ] [LawfulGrowingList ν] (inStep : tables.InStep)
    (copy : α → α) : (tables.duplicate copy).InStep :=
  ⟨inStep.members.inStep_duplicate copy, inStep.repeats.inStep_duplicate copy,
    inStep.elements.inStep_duplicate copy⟩

end ChildTables

end JsonOverlay
