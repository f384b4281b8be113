/-
This file shows that caches of looked-up children are finite maps with versions. At every state that a
program leads to, each operation sets what is found at one key or drops keys; the lists have the keys
that are there, each once, in the order in which they came; to read leaves every version that was
handed out, to write leaves one; and a copy finds the same, whatever is done to others.
-/

import JsonOverlay.Proofs.Children.Program
import JsonOverlay.Proofs.Value.Copied
import Mathlib.Data.Finset.Card
import Mathlib.Data.List.AList

namespace JsonOverlay

/-! ### Plans -/

namespace Plan

variable {α : Type} [Inhabited α]

/-- To read and to write leave at a key what the plan comes to. -/
theorem outcome_read (known : Option (Known α)) (plan : Plan α) :
    ((plan.read known).latest, (plan.read known).placeholder) =
      plan.outcome (known.map fun known => (known.latest, known.placeholder)) := by
  cases plan <;> cases known <;> rfl

theorem outcome_write (known : Option (Known α)) (plan : Plan α) :
    ((plan.write known).latest, (plan.write known).placeholder) =
      plan.outcome (known.map fun known => (known.latest, known.placeholder)) := by
  cases plan <;> cases known <;> rfl

/-- To read leaves the versions that are known, and perhaps adds one. -/
theorem versions_prefix_read (known : Known α) (plan : Plan α) :
    known.versions <+: (plan.read (some known)).versions := by
  cases plan with
  | keep => exact List.prefix_rfl
  | insert value placeholder => exact List.prefix_append _ _

theorem earlier_write (known : Option (Known α)) (plan : Plan α) :
    (plan.write known).earlier = [] := by
  cases plan <;> cases known <;> rfl

end Plan

/-! ### Collections that will do -/

instance : GrowingList Array where
  empty := #[]
  toList := Array.toList
  length := Array.size
  get? items index := items[index]?
  push := Array.push
  pop items := (items.back?, items.pop)
  clear _ := #[]

instance : LawfulGrowingList Array where
  toList_empty := rfl
  length_eq _ := Array.length_toList.symm
  get?_eq _ _ := Array.getElem?_toList.symm
  toList_push _ _ := Array.toList_push
  fst_pop items := (Array.getLast?_toList items).symm
  toList_clear _ := rfl

/-- Entries one after the other under different keys. -/
def ListedEntries (κ ε : Type) : Type := AList fun _ : κ => ε

instance : EntryMap ListedEntries where
  empty {κ ε} := (∅ : AList fun _ : κ => ε)
  get? entries key := AList.lookup key entries
  insert entries key entry := AList.insert key entry entries
  modify entries key change :=
    ((AList.lookup key entries).map fun entry => AList.insert key (change entry) entries).getD entries
  erase entries key := (AList.lookup key entries, AList.erase key entries)
  clear {κ ε} _ := (∅ : AList fun _ : κ => ε)

instance : LawfulEntryMap ListedEntries where
  get?_empty key := AList.lookup_empty key
  get?_insert entries key other entry _ := by
    split
    · rename_i same
      rw [same]
      exact AList.lookup_insert entries
    · rename_i different
      exact AList.lookup_insert_ne different
  get?_modify := by
    intro κ ε _ entries key other change
    show AList.lookup other (((AList.lookup key entries).map fun entry =>
      AList.insert key (change entry) entries).getD entries) =
        if other = key then (AList.lookup key entries).map change else AList.lookup other entries
    cases found : AList.lookup key entries with
    | none =>
      split
      · rename_i same
        rw [same]
        exact found
      · rfl
    | some entry =>
      split
      · rename_i same
        rw [same]
        exact AList.lookup_insert entries
      · rename_i different
        exact AList.lookup_insert_ne different
  fst_erase _ _ := rfl
  get?_erase entries key other := by
    split
    · rename_i same
      rw [same]
      exact AList.lookup_erase key entries
    · rename_i different
      exact AList.lookup_erase_ne different
  get?_clear _ key := AList.lookup_empty key

namespace ChildTables

variable {μ : Type → Type → Type} {ν : Type → Type} {α : Type} [EntryMap μ] [GrowingList ν]
  {tables after : ChildTables μ ν α} {key : ChildKey} {known : Known α} {kept : ChildKey → Bool}

/-! ### Keys -/

theorem known?_ne_none_iff : tables.toMap.known? key ≠ none ↔ tables.find? key ≠ none := by
  rw [find?_eq, VersionMap.find?, ne_eq, ne_eq, Option.map_eq_none_iff]

/-- The keys of a kind that are listed are those at which something is found. -/
theorem InStep.mem_keys_iff (inStep : tables.InStep) (kind : ChildKind) (key : ChildKey) :
    key ∈ tables.keys kind ↔ key.kind = kind ∧ tables.find? key ≠ none := by
  rw [← known?_ne_none_iff]
  have own {κ : Type} [DecidableEq κ] {table : ChildTable μ ν κ α} (inStep : table.InStep)
      {embed : κ → ChildKey} (injective : Function.Injective embed) (raw : κ) :
      embed raw ∈ table.keys.map embed ↔ table.known? raw ≠ none :=
    (List.mem_map_of_injective injective).trans (inStep.mem_keys_iff raw)
  cases kind with
  | member =>
    cases key with
    | member name =>
      exact (own inStep.members (fun _ _ => ChildKey.member.inj) name).trans (and_iff_right rfl).symm
    | repeated | element => simp [keys, ChildKey.kind]
  | repeated =>
    cases key with
    | repeated position =>
      exact (own inStep.repeats (fun _ _ => ChildKey.repeated.inj) position).trans
        (and_iff_right rfl).symm
    | member | element => simp [keys, ChildKey.kind]
  | element =>
    cases key with
    | element index =>
      exact (own inStep.elements (fun _ _ => ChildKey.element.inj) index).trans
        (and_iff_right rfl).symm
    | member | repeated => simp [keys, ChildKey.kind]

theorem InStep.nodup_keys (inStep : tables.InStep) (kind : ChildKind) : (tables.keys kind).Nodup := by
  cases kind with
  | member => exact inStep.members.nodup.map fun _ _ => ChildKey.member.inj
  | repeated => exact inStep.repeats.nodup.map fun _ _ => ChildKey.repeated.inj
  | element => exact inStep.elements.nodup.map fun _ _ => ChildKey.element.inj

/-- The size counts the keys at which something is found. -/
theorem InStep.exists_card_eq_size (inStep : tables.InStep) :
    ∃ present : Finset ChildKey,
      (∀ key, key ∈ present ↔ tables.find? key ≠ none) ∧ present.card = tables.size := by
  have apart {first second : ChildKind} (different : first ≠ second) :
      (tables.keys first).Disjoint (tables.keys second) := fun key here there =>
    different (((inStep.mem_keys_iff first key).mp here).1.symm.trans
      ((inStep.mem_keys_iff second key).mp there).1)
  have distinct : (tables.keys .member ++ tables.keys .repeated ++ tables.keys .element).Nodup :=
    ((inStep.nodup_keys .member).append (inStep.nodup_keys .repeated) (apart (by decide))).append
      (inStep.nodup_keys .element)
      (List.disjoint_append_left.mpr ⟨apart (by decide), apart (by decide)⟩)
  refine ⟨List.toFinset _, fun key => ?_, (List.toFinset_card_of_nodup distinct).trans ?_⟩
  · rw [List.mem_toFinset, List.mem_append, List.mem_append, inStep.mem_keys_iff,
      inStep.mem_keys_iff, inStep.mem_keys_iff]
    cases key <;> simp [ChildKey.kind]
  · rw [List.length_append, List.length_append, size_eq]
    rfl

/-! ### What an operation leaves -/

/-- Something else is found at one key. If nothing was found there, the key comes last among those of
its kind. -/
structure Puts (tables : ChildTables μ ν α) (key : ChildKey) (child : α × Bool)
    (after : ChildTables μ ν α) : Prop where
  find?_eq : ∀ other, after.find? other = if other = key then some child else tables.find? other
  keys_eq : ∀ kind, after.keys kind =
    if kind = key.kind ∧ (tables.find? key).isNone then tables.keys kind ++ [key]
    else tables.keys kind

/-- Nothing is found any more at some keys. The others are listed in their order. -/
structure Retains (tables : ChildTables μ ν α) (kept : ChildKey → Bool)
    (after : ChildTables μ ν α) : Prop where
  find?_eq : ∀ key, after.find? key = if kept key then tables.find? key else none
  version?_eq : ∀ key height,
    after.version? key height = if kept key then tables.version? key height else none
  keys_eq : ∀ kind, after.keys kind = (tables.keys kind).filter kept

theorem puts_of_toMap_eq (same : after.toMap = tables.toMap.set key known) :
    tables.Puts key (known.latest, known.placeholder) after where
  find?_eq other := by
    rw [find?_eq, find?_eq, same]
    show (if other = key then some known else tables.toMap.known? other).map _ = _
    split <;> rfl
  keys_eq kind := by
    rw [find?_eq, VersionMap.find?, Option.isNone_map]
    exact congrFun (congrArg VersionMap.keys same) kind

section Versions

variable [LawfulGrowingList ν]

theorem version?_eq (tables : ChildTables μ ν α) (key : ChildKey) (height : Nat) :
    tables.version? key height =
      (tables.toMap.known? key).bind fun known => known.versions[height]? :=
  ask_eq (fun table key => table.version? key height)
    (fun known => known.bind fun known => known.versions[height]?)
    (fun table key => table.version?_eq key height) tables key

theorem version?_of_toMap_eq (same : after.toMap = tables.toMap.set key known) (other : ChildKey)
    (height : Nat) :
    after.version? other height =
      if other = key then known.versions[height]? else tables.version? other height := by
  rw [version?_eq, version?_eq, same]
  show (if other = key then some known else tables.toMap.known? other).bind _ = _
  split <;> rfl

/-- To read a key leaves every version. -/
theorem version?_resolve [LawfulEntryMap μ] [Inhabited α] (tables : ChildTables μ ν α)
    (key : ChildKey) (plan : Plan α) {other : ChildKey} {height : Nat} {version : α}
    (found : tables.version? other height = some version) :
    (tables.resolve key plan).2.version? other height = some version := by
  rw [version?_of_toMap_eq (tables.toMap_resolve key plan)]
  by_cases same : other = key
  · rw [if_pos same]
    rw [same, version?_eq] at found
    obtain ⟨known, present, there⟩ := Option.bind_eq_some_iff.mp found
    rw [present]
    obtain ⟨newer, more⟩ := plan.versions_prefix_read known
    rw [← more, List.getElem?_append_left (List.getElem?_eq_some_iff.mp there).1]
    exact there
  · rw [if_neg same]
    exact found

theorem Restricts.retains (restricts : tables.Restricts kept after) :
    tables.Retains kept after where
  find?_eq key := by
    rw [find?_eq, find?_eq, restricts.toMap_eq]
    show (if kept key then tables.toMap.known? key else none).map _ = _
    split <;> rfl
  version?_eq key height := by
    rw [version?_eq, version?_eq, restricts.toMap_eq]
    show (if kept key then tables.toMap.known? key else none).bind _ = _
    split <;> rfl
  keys_eq kind := congrFun (congrArg VersionMap.keys restricts.toMap_eq) kind

end Versions

/-! ### Finite maps with versions -/

/-- What makes tables a finite map from keys to children and flags, with the versions of children. -/
structure Exact [Inhabited α] (copy : α → α) (isBlank : α → Bool) (tables : ChildTables μ ν α) :
    Prop where
  nodup_keys : ∀ kind, (tables.keys kind).Nodup
  mem_keys_iff : ∀ kind key, key ∈ tables.keys kind ↔ key.kind = kind ∧ tables.find? key ≠ none
  size_eq : ∃ present : Finset ChildKey,
    (∀ key, key ∈ present ↔ tables.find? key ≠ none) ∧ present.card = tables.size
  isEmpty_iff : tables.isEmpty = true ↔ ∀ key, tables.find? key = none
  /-- To read puts what the plan comes to, and hands it out as a version. -/
  resolve : ∀ key plan,
    tables.Puts key (plan.outcome (tables.find? key)) (tables.resolve key plan).2 ∧
      (tables.resolve key plan).1.2 = (plan.outcome (tables.find? key)).1 ∧
      (tables.resolve key plan).2.version? key (tables.resolve key plan).1.1 =
        some (tables.resolve key plan).1.2
  /-- No version changes when a key is read. -/
  version?_resolve : ∀ key plan other height version,
    tables.version? other height = some version →
      (tables.resolve key plan).2.version? other height = some version
  /-- To write hands out what the plan comes to, and changes the child but not the flag. -/
  reach : ∀ key plan change,
    (tables.reach key plan change).1 = (plan.outcome (tables.find? key)).1 ∧
      tables.Puts key
        (change (plan.outcome (tables.find? key)).1, (plan.outcome (tables.find? key)).2)
        (tables.reach key plan change).2
  /-- Of a key that was written to one version is left. -/
  version?_reach : ∀ key plan change other height,
    (tables.reach key plan change).2.version? other height =
      if other = key then [change (plan.outcome (tables.find? key)).1][height]?
      else tables.version? other height
  forgetMember : ∀ name,
    (tables.forgetMember name).1 = (tables.find? (.member name)).isSome ∧
      tables.Retains (VersionMap.outlives name) (tables.forgetMember name).2
  forgetPlaceholder : ∀ key,
    (tables.forgetPlaceholder isBlank key).1 = isUntouched isBlank (tables.find? key) ∧
      tables.Retains (fun other => other ≠ key ∨ isUntouched isBlank (tables.find? key) = false)
        (tables.forgetPlaceholder isBlank key).2
  /-- A copy finds copies of what is found, under the same keys. -/
  duplicate : ∀ key,
    (tables.duplicate copy).find? key =
        (tables.find? key).map (fun found => (copy found.1, found.2)) ∧
      ∀ kind, (tables.duplicate copy).keys kind = tables.keys kind

theorem InStep.isEmpty_iff (inStep : tables.InStep) :
    tables.isEmpty = true ↔ ∀ key, tables.find? key = none := by
  obtain ⟨present, member, card⟩ := inStep.exists_card_eq_size
  rw [isEmpty, beq_iff_eq, ← card, Finset.card_eq_zero, Finset.eq_empty_iff_forall_notMem]
  exact forall_congr' fun key => (not_congr (member key)).trans not_not

theorem InStep.exact [LawfulEntryMap μ] [LawfulGrowingList ν] [Inhabited α] (inStep : tables.InStep)
    (copy : α → α) (isBlank : α → Bool) : tables.Exact copy isBlank where
  nodup_keys := inStep.nodup_keys
  mem_keys_iff := inStep.mem_keys_iff
  size_eq := inStep.exists_card_eq_size
  isEmpty_iff := inStep.isEmpty_iff
  resolve key plan := by
    have after := tables.toMap_resolve key plan
    have comes := plan.outcome_read (tables.toMap.known? key)
    have puts := puts_of_toMap_eq after
    rw [comes] at puts
    rw [find?_eq]
    refine ⟨puts, ?_, ?_⟩
    · rw [fst_resolve]
      exact congrArg Prod.fst comes
    · rw [version?_of_toMap_eq after, if_pos rfl, fst_resolve]
      exact List.getElem?_concat_length
  version?_resolve key plan _ _ _ := tables.version?_resolve key plan
  reach key plan change := by
    have comes := plan.outcome_write (tables.toMap.known? key)
    have puts := puts_of_toMap_eq (tables.toMap_reach key plan change)
    rw [find?_eq]
    refine ⟨(tables.fst_reach key plan change).trans (congrArg Prod.fst comes), ?_⟩
    rw [VersionMap.find?, ← comes]
    exact puts
  version?_reach key plan change other height := by
    have comes := plan.outcome_write (tables.toMap.known? key)
    rw [version?_of_toMap_eq (tables.toMap_reach key plan change), find?_eq, VersionMap.find?,
      ← comes, Known.versions, Plan.earlier_write]
    rfl
  forgetMember name := by
    rw [find?_eq]
    exact ⟨tables.fst_forgetMember name, (inStep.restricts_forgetMember name).retains⟩
  forgetPlaceholder key := by
    have told := (inStep.forgetPlaceholder_eq isBlank key).1
    rw [← find?_eq] at told
    refine ⟨told, Restricts.retains ?_⟩
    rw [forgetPlaceholder]
    split
    · rename_i untouched
      have kept (other : ChildKey) :
          decide (other ≠ key ∨ isUntouched isBlank (tables.find? key) = false) =
            decide (other ≠ key) := by
        rw [untouched]
        exact decide_eq_decide.mpr (or_iff_left Bool.false_ne_true.symm)
      rw [funext kept]
      exact inStep.restricts_forget key
    · rename_i touched
      exact restricts_self fun other => decide_eq_true (.inr (Bool.eq_false_iff.mpr touched))
  duplicate key := by
    have copies := inStep.toMap_duplicate copy
    refine ⟨?_, fun kind => congrFun (congrArg VersionMap.keys copies) kind⟩
    rw [find?_eq, find?_eq, copies, VersionMap.find?, VersionMap.find?, Option.map_map]
    exact Option.map_map _ _ _

/-- What a child that was found shows, whether nothing was done to it, and whether it is a placeholder. -/
def sight (heap : Heap) (found : Value × Bool) : Tree × Bool × Bool :=
  (found.1.visible heap, found.1.isBlank, found.2)

/-- A copy finds what the original finds, as far as it can be seen, whatever the heap is by then. -/
theorem Exact.sight_duplicate {cache : ChildTables μ ν Value}
    (exact : cache.Exact Value.copied Value.isBlank) (heap : Heap) (key : ChildKey) :
    ((cache.duplicate Value.copied).find? key).map (sight heap) =
      (cache.find? key).map (sight heap) := by
  rw [(exact.duplicate key).1, Option.map_map]
  refine congrArg (Option.map · (cache.find? key)) (funext fun found => ?_)
  show (found.1.copied.visible heap, found.1.copied.isBlank, found.2) = sight heap found
  rw [Value.visible_copied, Value.isBlank_copied, sight]

/-- Every version that there was is there. -/
def Extends (tables after : ChildTables μ ν α) : Prop :=
  ∀ key height version, tables.version? key height = some version →
    after.version? key height = some version

theorem extends_apply [LawfulEntryMap μ] [LawfulGrowingList ν] [Inhabited α]
    (tables : ChildTables μ ν α) (isBlank : α → Bool) {use : CacheUse α}
    (reading : use.isReading = true) : tables.Extends (tables.apply isBlank use).2 := by
  cases use with
  | find | size | isEmpty => exact fun _ _ _ found => found
  | resolve key plan =>
    exact fun other height version => tables.version?_resolve key plan
  | reach | forgetMember | forgetPlaceholder => exact absurd reading Bool.false_ne_true

/-- A program that starts with one empty cache is answered by tables with stacks as the map answers it,
and by the table that values carry too, however children are copied; the caches at its end stand for
the maps. Each of the tables is then exact. A copy comes beside the others and shows the same under
each key, whatever is in the heap. A program that does not use a cache leaves it as it is, and one that
only reads leaves every version. -/
theorem form_finite_map [LawfulEntryMap μ] [LawfulGrowingList ν] (steps : List (CacheStep Value)) :
    let tables : CacheModel (ChildTables μ ν Value) Value := model Value.copied Value.isBlank
    let carried (copy : Value → Value) : CacheModel (Children Value) Value :=
      Children.model copy Value.isBlank
    let map (copy : Value → Value) : CacheModel (VersionMap Value) Value :=
      VersionMap.model copy Value.isBlank
    ((tables.fromEmpty steps).1, (tables.fromEmpty steps).2.map toMap) =
        (map Value.copied).fromEmpty steps ∧
      (∀ copy, (((carried copy).fromEmpty steps).1,
          ((carried copy).fromEmpty steps).2.map Children.toMap) = (map copy).fromEmpty steps) ∧
      ∀ index cache, (tables.fromEmpty steps).2[index]? = some cache →
        cache.Exact Value.copied Value.isBlank ∧
        (tables.fromEmpty (steps ++ [.duplicate index])).2 =
          (tables.fromEmpty steps).2 ++ [cache.duplicate Value.copied] ∧
        (∀ heap key, ((cache.duplicate Value.copied).find? key).map (sight heap) =
          (cache.find? key).map (sight heap)) ∧
        (∀ later, (∀ use, .use index use ∉ later) →
          (tables.fromEmpty (steps ++ later)).2[index]? = some cache) ∧
        ∀ later, (∀ use, .use index use ∈ later → use.isReading = true) →
          ∃ after, (tables.fromEmpty (steps ++ later)).2[index]? = some after ∧
            cache.Extends after := by
  intro tables carried map
  have refined := (refines Value.copied Value.isBlank : tables.Refines _ toMap InStep).fromEmpty_eq
    toMap_new inStep_new steps
  refine ⟨refined.1, fun copy =>
    ((Children.refines copy Value.isBlank).fromEmpty_eq rfl trivial steps).1,
    fun index cache found => ?_⟩
  have exact := (refined.2 cache (List.mem_of_getElem? found)).exact Value.copied Value.isBlank
  refine ⟨exact, ?_, exact.sight_duplicate, fun later spared => ?_, fun later reading => ?_⟩
  · rw [CacheModel.fromEmpty_append]
    exact tables.snd_run_duplicate found
  · rw [CacheModel.fromEmpty_append]
    obtain ⟨after, last, same⟩ := tables.exists_getElem?_run (fun _ => rfl) Eq.trans
      (fun _ use absurd => (spared use absurd).elim) found fun _ member => member
    rw [last, same]
  · rw [CacheModel.fromEmpty_append]
    exact tables.exists_getElem?_run (fun _ _ _ _ held => held)
      (fun first second key height version held => second key height version
        (first key height version held))
      (fun cache use allowed => cache.extends_apply Value.isBlank allowed) found reading

/-- A child is found anew, the cache is copied, and the original is written to. -/
def refreshing : List (CacheStep Value) :=
  [.use 0 (.resolve (.member "k") (.insert .null true)),
    .use 0 (.resolve (.member "k") (.insert (.detached (.string "now")) false)),
    .use 0 (.resolve (.element 2) .keep), .use 0 .size, .duplicate 0,
    .use 0 (.reach (.member "k") .keep fun _ => .detached (.bool true)),
    .use 0 (.find (.member "k")), .use 1 (.find (.member "k")),
    .use 1 (.forgetPlaceholder (.element 2)), .use 1 .size,
    .use 0 (.forgetMember "k"), .use 0 .isEmpty]

theorem form_finite_map_refreshing :
    ((model Value.copied Value.isBlank :
        CacheModel (ChildTables ListedEntries Array Value) Value).fromEmpty refreshing).1 =
      [some (.handed 0 .null), some (.handed 1 (.detached (.string "now"))),
        some (.handed 0 .null), some (.counted 2), none,
        some (.handed 0 (.detached (.string "now"))),
        some (.found (some (.detached (.bool true), false))),
        some (.found (some (.detached (.string "now"), false))),
        some (.told true), some (.counted 1), some (.told true), some (.told false)] :=
  congrArg Prod.fst (form_finite_map (μ := ListedEntries) (ν := Array) refreshing).1

end ChildTables

end JsonOverlay
