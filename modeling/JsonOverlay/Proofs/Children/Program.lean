/-
This file shows that caches of looked-up children are maps with versions. Three tables with stacks and
the table that values carry both do, use after use, what the map does that they stand for; so in every
program they answer alike.
-/

import JsonOverlay.Proofs.Children.Tables

namespace JsonOverlay

/-! ### Doing the same -/

namespace CacheModel

variable {σ τ α : Type} {left : CacheModel σ α} {right : CacheModel τ α} {view : σ → τ}
  {Sound : σ → Prop}

/-- Whatever is done with a sound cache is done with what it stands for, with the same answer. -/
structure Refines (left : CacheModel σ α) (right : CacheModel τ α) (view : σ → τ)
    (Sound : σ → Prop) : Prop where
  use_eq : ∀ {cache} use, Sound cache →
    ((left.use cache use).1, view (left.use cache use).2) = right.use (view cache) use
  duplicate_eq : ∀ {cache}, Sound cache → view (left.duplicate cache) = right.duplicate (view cache)
  sound_use : ∀ {cache} use, Sound cache → Sound (left.use cache use).2
  sound_duplicate : ∀ {cache}, Sound cache → Sound (left.duplicate cache)

theorem Refines.step_eq (refines : left.Refines right view Sound) {caches : List σ}
    (sound : ∀ cache ∈ caches, Sound cache) (step : CacheStep α) :
    ((left.step caches step).1, (left.step caches step).2.map view) =
      right.step (caches.map view) step := by
  cases step with
  | use index use =>
    rw [CacheModel.step, CacheModel.step, List.getElem?_map]
    cases found : caches[index]? with
    | none => rfl
    | some cache =>
      have same := refines.use_eq use (sound cache (List.mem_of_getElem? found))
      show (some (left.use cache use).1, (caches.set index (left.use cache use).2).map view) =
        (some (right.use (view cache) use).1,
          (caches.map view).set index (right.use (view cache) use).2)
      rw [← same, List.map_set]
  | duplicate index =>
    rw [CacheModel.step, CacheModel.step, List.getElem?_map]
    cases found : caches[index]? with
    | none => rfl
    | some cache =>
      have same := refines.duplicate_eq (sound cache (List.mem_of_getElem? found))
      show (none, (caches ++ [left.duplicate cache]).map view) =
        (none, caches.map view ++ [right.duplicate (view cache)])
      rw [← same, List.map_append]
      rfl

theorem Refines.sound_step (refines : left.Refines right view Sound) {caches : List σ}
    (sound : ∀ cache ∈ caches, Sound cache) (step : CacheStep α) :
    ∀ cache ∈ (left.step caches step).2, Sound cache := by
  cases step with
  | use index use =>
    rw [CacheModel.step]
    cases found : caches[index]? with
    | none => exact sound
    | some cache =>
      intro after member
      rcases List.mem_or_eq_of_mem_set member with before | rfl
      · exact sound after before
      · exact refines.sound_use use (sound cache (List.mem_of_getElem? found))
  | duplicate index =>
    rw [CacheModel.step]
    cases found : caches[index]? with
    | none => exact sound
    | some cache =>
      intro after member
      rcases List.mem_append.mp member with before | last
      · exact sound after before
      · rw [List.mem_singleton.mp last]
        exact refines.sound_duplicate (sound cache (List.mem_of_getElem? found))

/-- What holds of one step holds of a program. -/
theorem Refines.run_eq (refines : left.Refines right view Sound) {caches : List σ}
    (sound : ∀ cache ∈ caches, Sound cache) (steps : List (CacheStep α)) :
    ((left.run caches steps).1, (left.run caches steps).2.map view) =
        right.run (caches.map view) steps ∧
      ∀ cache ∈ (left.run caches steps).2, Sound cache := by
  induction steps generalizing caches with
  | nil => exact ⟨rfl, sound⟩
  | cons step rest inductionHypothesis =>
    obtain ⟨later, still⟩ := inductionHypothesis (refines.sound_step sound step)
    have same := refines.step_eq sound step
    refine ⟨?_, still⟩
    rw [CacheModel.run, CacheModel.run, ← same]
    dsimp only
    rw [← later]

/-- What starts empty in the same way goes on in the same way. -/
theorem Refines.fromEmpty_eq (refines : left.Refines right view Sound)
    (same : view left.empty = right.empty) (sound : Sound left.empty) (steps : List (CacheStep α)) :
    ((left.fromEmpty steps).1, (left.fromEmpty steps).2.map view) = right.fromEmpty steps ∧
      ∀ cache ∈ (left.fromEmpty steps).2, Sound cache := by
  have run := refines.run_eq (List.forall_mem_singleton.mpr sound) steps
  rw [List.map_singleton, same] at run
  exact run

/-- What every use of one cache that a program makes keeps, the program keeps. Other steps leave the
cache alone. -/
theorem exists_getElem?_run (model : CacheModel σ α) {allowed : CacheUse α → Prop}
    {Kept : σ → σ → Prop} (refl : ∀ cache, Kept cache cache)
    (trans : ∀ {first second third}, Kept first second → Kept second third → Kept first third)
    (kept : ∀ cache use, allowed use → Kept cache (model.use cache use).2) {caches : List σ}
    {index : Nat} {cache : σ} (found : caches[index]? = some cache) {steps : List (CacheStep α)}
    (all : ∀ use, .use index use ∈ steps → allowed use) :
    ∃ after, (model.run caches steps).2[index]? = some after ∧ Kept cache after := by
  induction steps generalizing caches cache with
  | nil => exact ⟨cache, found, refl cache⟩
  | cons step rest inductionHypothesis =>
    have inside := (List.getElem?_eq_some_iff.mp found).1
    -- Only a use of this cache changes it: other uses and copies leave its place alone.
    have here : ∃ between, (model.step caches step).2[index]? = some between ∧
        Kept cache between := by
      cases step with
      | use other use =>
        rw [CacheModel.step]
        by_cases same : other = index
        · subst same
          rw [found]
          exact ⟨_, List.getElem?_set_self inside, kept cache use (all use List.mem_cons_self)⟩
        · cases caches[other]? with
          | none => exact ⟨cache, found, refl cache⟩
          | some state => exact ⟨cache, (List.getElem?_set_ne same).trans found, refl cache⟩
      | duplicate other =>
        rw [CacheModel.step]
        cases caches[other]? with
        | none => exact ⟨cache, found, refl cache⟩
        | some state => exact ⟨cache, (List.getElem?_append_left inside).trans found, refl cache⟩
    obtain ⟨between, present, first⟩ := here
    obtain ⟨after, last, second⟩ := inductionHypothesis present fun use member =>
      all use (List.mem_cons_of_mem step member)
    exact ⟨after, last, trans first second⟩

theorem snd_run_duplicate (model : CacheModel σ α) {caches : List σ} {index : Nat} {cache : σ}
    (found : caches[index]? = some cache) :
    (model.run caches [.duplicate index]).2 = caches ++ [model.duplicate cache] := by
  rw [run, step, found]
  rfl

/-- A longer program goes on with the caches that the shorter one leaves. -/
theorem run_append (model : CacheModel σ α) (caches : List σ) (steps later : List (CacheStep α)) :
    (model.run caches (steps ++ later)).2 = (model.run (model.run caches steps).2 later).2 := by
  induction steps generalizing caches with
  | nil => rfl
  | cons step rest inductionHypothesis => exact inductionHypothesis (model.step caches step).2

theorem fromEmpty_append (model : CacheModel σ α) (steps later : List (CacheStep α)) :
    (model.fromEmpty (steps ++ later)).2 = (model.run (model.fromEmpty steps).2 later).2 :=
  model.run_append [model.empty] steps later

end CacheModel

/-! ### Three tables with stacks -/

namespace ChildTables

open CacheModel

variable {μ : Type → Type → Type} {ν : Type → Type} {α : Type} [EntryMap μ] [GrowingList ν]
  [LawfulGrowingList ν] [Inhabited α] {tables : ChildTables μ ν α}

/-- The latest of what the plan makes of a key is handed out. -/
theorem fst_resolve (tables : ChildTables μ ν α) (key : ChildKey) (plan : Plan α) :
    (tables.resolve key plan).1 = ((plan.read (tables.toMap.known? key)).earlier.length,
      (plan.read (tables.toMap.known? key)).latest) :=
  fst_use (fun table key => table.resolve key plan)
    (fun known => ((plan.read known).earlier.length, (plan.read known).latest))
    (fun table key => table.fst_resolve key plan) tables key

variable [LawfulEntryMap μ]

theorem toMap_resolve (tables : ChildTables μ ν α) (key : ChildKey) (plan : Plan α) :
    (tables.resolve key plan).2.toMap =
      tables.toMap.set key (plan.read (tables.toMap.known? key)) :=
  toMap_use (fun table key => table.resolve key plan) (fun known => plan.read known)
    (fun table key => table.sets_resolve key plan) tables key

theorem fst_reach (tables : ChildTables μ ν α) (key : ChildKey) (plan : Plan α) (change : α → α) :
    (tables.reach key plan change).1 = (plan.write (tables.toMap.known? key)).latest :=
  fst_use (fun table key => table.reach key plan change) (fun known => (plan.write known).latest)
    (fun table key => table.fst_reach key plan change) tables key

/-- The one version that the plan leaves of a key is changed. -/
theorem toMap_reach (tables : ChildTables μ ν α) (key : ChildKey) (plan : Plan α)
    (change : α → α) :
    (tables.reach key plan change).2.toMap = tables.toMap.set key
      { plan.write (tables.toMap.known? key) with
        latest := change (plan.write (tables.toMap.known? key)).latest } :=
  toMap_use (fun table key => table.reach key plan change)
    (fun known => { plan.write known with latest := change (plan.write known).latest })
    (fun table key => table.sets_reach key plan change) tables key

theorem InStep.inStep_apply (inStep : tables.InStep) (isBlank : α → Bool) (use : CacheUse α) :
    (tables.apply isBlank use).2.InStep := by
  cases use with
  | find | size | isEmpty => exact inStep
  | resolve key plan =>
    exact inStep.use (fun key inStep => inStep.sets (ChildTable.sets_resolve _ key plan)) key
  | reach key plan change =>
    exact inStep.use (fun key inStep => inStep.sets (ChildTable.sets_reach _ key plan change)) key
  | forgetMember name => exact inStep.restricts (inStep.restricts_forgetMember name)
  | forgetPlaceholder key => exact inStep.inStep_forgetPlaceholder isBlank key

/-- Three tables do what the map does that they stand for. -/
theorem refines (copy : α → α) (isBlank : α → Bool) :
    (model copy isBlank : CacheModel (ChildTables μ ν α) α).Refines
      (VersionMap.model copy isBlank) toMap InStep where
  use_eq := by
    intro tables use inStep
    cases use with
    | find key => exact congrArg (CacheAnswer.found ·, tables.toMap) (tables.find?_eq key)
    | resolve key plan =>
      have handed := tables.fst_resolve key plan
      refine Prod.ext ?_ (tables.toMap_resolve key plan)
      exact congrArg (fun pair : Nat × α => CacheAnswer.handed pair.1 pair.2) handed
    | reach key plan change =>
      exact Prod.ext (congrArg (CacheAnswer.handed 0) (tables.fst_reach key plan change))
        (tables.toMap_reach key plan change)
    | forgetMember name =>
      exact Prod.ext (congrArg CacheAnswer.told (tables.fst_forgetMember name))
        (inStep.restricts_forgetMember name).toMap_eq
    | forgetPlaceholder key =>
      obtain ⟨told, left⟩ := inStep.forgetPlaceholder_eq isBlank key
      exact Prod.ext (congrArg CacheAnswer.told told) left
    | size => exact congrArg (CacheAnswer.counted ·, tables.toMap) tables.size_eq
    | isEmpty =>
      exact congrArg (fun number : Nat => (CacheAnswer.told (number == 0), tables.toMap)) tables.size_eq
  duplicate_eq := fun inStep => inStep.toMap_duplicate copy
  sound_use := fun use inStep => inStep.inStep_apply isBlank use
  sound_duplicate := fun inStep => inStep.inStep_duplicate copy

end ChildTables

/-! ### The table that values carry -/

theorem bne_eq_decide_ne {κ : Type} [DecidableEq κ] (key other : κ) :
    (key != other) = decide (key ≠ other) := by
  rw [bne, beq_eq_decide, decide_not]

/-- What an entry makes known. The versions before the current one are in it from the newest on. -/
def Entry.known {α : Type} (entry : Entry α) : Known α :=
  ⟨(entry.older.map Version.value).reverse, entry.current.value, entry.placeholder⟩

/-- A plan for writing knows what one for reading does, but for the earlier versions. -/
theorem Plan.write_eq {α : Type} [Inhabited α] (known : Option (Known α)) (plan : Plan α) :
    plan.write known = { plan.read known with earlier := [] } := by
  cases known <;> cases plan <;> rfl

namespace VersionMap

variable {α : Type} {map : VersionMap α} {key : ChildKey} {known : Known α}

/-- What is said of a key once it is known leaves the keys as they are. -/
theorem keys_set_of_some (present : map.known? key = some known) (anew : Known α) :
    (map.set key anew).keys = map.keys := by
  refine funext fun kind => if_neg ?_
  rw [present]
  exact fun absent => Bool.false_ne_true absent.2

theorem set_self (present : map.known? key = some known) : map.set key known = map := by
  refine congrArg₂ VersionMap.mk (funext fun other => ?_) (keys_set_of_some present known)
  split
  · rename_i same
    rw [same, present]
  · rfl

theorem known?_set_self (map : VersionMap α) (key : ChildKey) (known : Known α) :
    (map.set key known).known? key = some known :=
  if_pos rfl

theorem set_set (map : VersionMap α) (key : ChildKey) (first second : Known α) :
    (map.set key first).set key second = map.set key second := by
  refine congrArg₂ VersionMap.mk (funext fun other => ?_)
    (keys_set_of_some (map.known?_set_self key first) second)
  split
  · rfl
  · rename_i different
    exact if_neg different

end VersionMap

namespace Children

open CacheModel

variable {α : Type} {children : Children α} {key : ChildKey} {entry : Entry α} {known : Known α}

/-- The map that a table stands for. -/
def toMap (children : Children α) : VersionMap α :=
  ⟨fun key => (children.get? key).map Entry.known, fun kind =>
    children.keys.filter fun key => key.kind = kind⟩

theorem find?_eq (children : Children α) (key : ChildKey) :
    children.find? key = children.toMap.find? key := by
  rw [find?, VersionMap.find?, toMap, Option.map_map]
  rfl

/-- An entry that is there changes where it is. -/
theorem toMap_adjust (present : children.get? key = some entry) (change : Entry α → Entry α) :
    (children.adjust key change).toMap = children.toMap.set key (change entry).known := by
  have there : children.toMap.known? key = some entry.known := congrArg (Option.map _) present
  have keys := VersionMap.keys_set_of_some there (change entry).known
  refine congrArg₂ VersionMap.mk (funext fun other => ?_) (funext fun kind => ?_)
  · rw [get?_adjust]
    by_cases same : other = key
    · rw [if_pos same, if_pos same, same, present]
      rfl
    · rw [if_neg same, if_neg same]
      rfl
  · rw [keys_adjust]
    exact congrFun keys.symm kind

/-- A new key comes last among those of its kind. -/
theorem toMap_append (absent : children.get? key = none) (value : α) (placeholder : Bool) :
    (children.append key value placeholder).toMap =
      children.toMap.set key ⟨[], value, placeholder⟩ := by
  have nothing : children.toMap.known? key = none := congrArg (Option.map _) absent
  refine congrArg₂ VersionMap.mk (funext fun other => ?_) (funext fun kind => ?_)
  · rw [get?_append]
    by_cases same : other = key
    · rw [if_pos same, if_pos same, same, absent]
      rfl
    · rw [if_neg same, if_neg same, Option.or_none]
      rfl
  · rw [keys_append, List.filter_append, nothing]
    by_cases same : kind = key.kind
    · have last : [key].filter (fun key => key.kind = kind) = [key] :=
        List.filter_cons_of_pos (decide_eq_true same.symm)
      rw [if_pos ⟨same, rfl⟩, last]
      rfl
    · have last : [key].filter (fun key => key.kind = kind) = [] :=
        List.filter_cons_of_neg (by simpa using Ne.symm same)
      rw [if_neg fun both => same both.1, last]
      exact List.append_nil _

theorem toMap_filterKeys (children : Children α) (kept : ChildKey → Bool) :
    (children.filterKeys kept).toMap = children.toMap.restrict kept := by
  refine congrArg₂ VersionMap.mk (funext fun key => ?_) (funext fun kind => ?_)
  · rw [get?_filterKeys]
    by_cases here : kept key = true
    · rw [if_pos here, if_pos here]
      rfl
    · rw [if_neg here, if_neg here]
      rfl
  · rw [keys_filterKeys, List.filter_comm]
    rfl

theorem toMap_copied (copy : α → α) (children : Children α) :
    (children.copied copy).toMap = children.toMap.duplicate copy := by
  refine congrArg₂ VersionMap.mk (funext fun key => ?_) (funext fun kind => ?_)
  · have found : (children.copied copy).get? key = (children.latest.get? key).map fun entry =>
        { entry with current := { entry.current with value := copy entry.current.value } } :=
      lookup_map_snd (fun _ (entry : Entry α) => Entry.mk entry.placeholder
        ⟨entry.current.serial, copy entry.current.value⟩ entry.older) children.latest.entries key
    rw [found, get?_latest, Option.map_map, Option.map_map]
    show _ = ((children.get? key).map Entry.known).map _
    rw [Option.map_map]
    rfl
  · have same : (children.copied copy).keys = children.latest.keys := by
      rw [keys, keys, copied, List.map_map]
      rfl
    rw [same, keys_latest]
    rfl

/-- The keys of the three kinds are all keys. -/
theorem size_eq (children : Children α) : children.size = children.toMap.size := by
  have kinds (keys : List ChildKey) : keys.length =
      (keys.filter fun key => key.kind = .member).length +
        (keys.filter fun key => key.kind = .repeated).length +
        (keys.filter fun key => key.kind = .element).length := by
    induction keys with
    | nil => rfl
    | cons key rest inductionHypothesis =>
      cases key with
      | member | repeated | element =>
        simp [ChildKey.kind, inductionHypothesis]
        omega
  rw [size, ← List.length_map Prod.fst]
  exact kinds children.keys

/-- The version on top is the latest that is known. -/
theorem top_eq [Inhabited α] (present : children.toMap.known? key = some known) :
    children.top key = (known.earlier.length, known.latest) := by
  obtain ⟨entry, found, rfl⟩ := Option.map_eq_some_iff.mp present
  rw [top, found, Entry.known, List.length_reverse, List.length_map]
  rfl

theorem toMap_write (present : children.toMap.known? key = some known) (value : α) :
    (children.write key value).toMap = children.toMap.set key { known with latest := value } := by
  obtain ⟨entry, found, rfl⟩ := Option.map_eq_some_iff.mp present
  exact toMap_adjust found fun entry => { entry with current := { entry.current with value } }

theorem toMap_resolve [Inhabited α] (children : Children α) (key : ChildKey) (plan : Plan α) :
    (children.resolve key plan).toMap =
      children.toMap.set key (plan.read (children.toMap.known? key)) := by
  have known : children.toMap.known? key = (children.get? key).map Entry.known := rfl
  unfold resolve
  cases found : children.get? key with
  | none =>
    rw [found] at known
    rw [known]
    cases plan with
    | keep => exact toMap_append found default true
    | insert value placeholder => exact toMap_append found value placeholder
  | some entry =>
    rw [found] at known
    cases plan with
    | keep =>
      rw [known]
      exact (VersionMap.set_self known).symm
    | insert value placeholder =>
      refine (toMap_adjust found fun entry =>
        ⟨placeholder, ⟨children.nextSerial, value⟩, entry.current :: entry.older⟩).trans ?_
      rw [known, Entry.known, List.map_cons, List.reverse_cons]
      rfl

theorem toMap_resolveForWriting [Inhabited α] (children : Children α) (key : ChildKey)
    (plan : Plan α) :
    (children.resolveForWriting key plan).toMap =
      children.toMap.set key (plan.write (children.toMap.known? key)) := by
  have read := children.toMap_resolve key plan
  have known : (children.resolve key plan).toMap.known? key =
      some (plan.read (children.toMap.known? key)) := by
    rw [read]
    exact VersionMap.known?_set_self _ _ _
  obtain ⟨entry, found, same⟩ := Option.map_eq_some_iff.mp known
  rw [resolveForWriting_eq, toMap_adjust found, read, VersionMap.set_set, Plan.write_eq, ← same]
  rfl

theorem toMap_forgetMember (children : Children α) (name : String) :
    (children.forgetMember name).toMap = children.toMap.restrict (VersionMap.outlives name) := by
  refine Eq.trans ?_ (children.toMap_filterKeys (VersionMap.outlives name))
  refine congrArg (fun kept => (children.filterKeys kept).toMap) (funext fun key => ?_)
  cases key with
  | member other => exact bne_eq_decide_ne other name
  | repeated | element => rfl

theorem toMap_forgetPlaceholder (children : Children α) (isBlank : α → Bool) (key : ChildKey) :
    (children.forgetPlaceholder key isBlank).toMap =
      if isUntouched isBlank (children.find? key) then
        children.toMap.restrict fun other => other ≠ key
      else children.toMap := by
  have forgotten : (children.forget key).toMap =
      children.toMap.restrict fun other => other ≠ key := by
    refine Eq.trans ?_ (children.toMap_filterKeys fun other => other ≠ key)
    exact congrArg (fun kept => (children.filterKeys kept).toMap)
      (funext fun other => bne_eq_decide_ne other key)
  unfold forgetPlaceholder
  cases children.find? key with
  | none => rfl
  | some found =>
    obtain ⟨child, placeholder⟩ := found
    cases placeholder with
    | false => rfl
    | true =>
      rw [← forgotten]
      exact apply_ite toMap (isBlank child = true) (children.forget key) children

/-- The table that values carry does what the map does that it stands for. -/
theorem refines [Inhabited α] (copy : α → α) (isBlank : α → Bool) :
    (model copy isBlank : CacheModel (Children α) α).Refines (VersionMap.model copy isBlank) toMap
      fun _ => True where
  use_eq := by
    rintro children use -
    cases use with
    | find key => exact congrArg (CacheAnswer.found ·, children.toMap) (children.find?_eq key)
    | resolve key plan =>
      have after := children.toMap_resolve key plan
      have top := top_eq ((congrFun (congrArg VersionMap.known? after) key).trans
        (VersionMap.known?_set_self _ key _))
      exact Prod.ext (congrArg (fun pair : Nat × α => CacheAnswer.handed pair.1 pair.2) top) after
    | reach key plan change =>
      have entered := children.toMap_resolveForWriting key plan
      have known := (congrFun (congrArg VersionMap.known? entered) key).trans
        (VersionMap.known?_set_self _ key _)
      have top := top_eq known
      refine Prod.ext (congrArg (fun pair : Nat × α => CacheAnswer.handed 0 pair.2) top) ?_
      -- The child is written to where it was just put, so the key is set once.
      refine (toMap_write known (change ((children.resolveForWriting key plan).top key).2)).trans ?_
      rw [entered, VersionMap.set_set, top]
      rfl
    | forgetMember name =>
      exact Prod.ext (congrArg (fun found => CacheAnswer.told (Option.isSome found))
        (children.find?_eq (.member name))) (children.toMap_forgetMember name)
    | forgetPlaceholder key =>
      have left := children.toMap_forgetPlaceholder isBlank key
      rw [find?_eq] at left
      exact Prod.ext (congrArg (fun found => CacheAnswer.told (isUntouched isBlank found))
        (children.find?_eq key)) left
    | size => exact congrArg (CacheAnswer.counted ·, children.toMap) children.size_eq
    | isEmpty =>
      have empty : children.isEmpty = (children.toMap.size == 0) := by
        rw [← size_eq, isEmpty, size]
        cases children.entries <;> rfl
      exact congrArg (CacheAnswer.told ·, children.toMap) empty
  duplicate_eq := fun _ => toMap_copied copy _
  sound_use := fun _ _ => trivial
  sound_duplicate := fun _ => trivial

end Children

end JsonOverlay
