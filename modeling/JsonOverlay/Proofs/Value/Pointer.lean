/-
This file says what pointers find in any value. Tokens select children one after the other in
the tree that the value shows, and a pointer finds exactly what they lead to there, for reading
and for writing. On the way only children are looked up that are there, so a walk changes nothing
of the tree and puts in no placeholder, wherever it ends.
-/

import JsonOverlay.Proofs.Pointer
import JsonOverlay.Proofs.Value.Agreement

namespace JsonOverlay

/-! ### What tokens select -/

/-- A token selects the element whose index it is the numeral of, or the first member of its
name. -/
inductive Content.Selects {α : Type} : Content α → String → α → Prop where
  | element {items : List α} {index : Nat} {child : α} (found : items[index]? = some child) :
      Selects (.array items) (Nat.repr index) child
  | member {before after : List (String × α)} {name : String} {child : α}
      (first : ∀ member ∈ before, member.1 ≠ name) :
      Selects (.object (before ++ (name, child) :: after)) name child

/-- Tokens that lead from a tree to one inside it. -/
inductive Tree.Resolves : Tree → List String → Tree → Prop where
  | here {tree : Tree} : Resolves tree [] tree
  | step {tree child found : Tree} {token : String} {rest : List String}
      (selects : tree.content.Selects token child) (deeper : Resolves child rest found) :
      Resolves tree (token :: rest) found

/-- A token selects the child at the key that it names. -/
theorem Content.selects_iff {α : Type} {content : Content α} {token : String} {child : α} :
    content.Selects token child ↔
      ∃ key, content.keyOf? token = some key ∧ content.child? key = some child := by
  constructor
  · rintro (⟨found⟩ | ⟨first⟩)
    · rename_i items index
      refine ⟨.element index, keyOf?_eq_some_iff.mpr ⟨element_mem_elementKeys.mpr ?_, rfl⟩, found⟩
      exact (List.getElem?_eq_some_iff.mp found).choose
    · rename_i before after
      have found : (before ++ (token, child) :: after).lookup token = some child :=
        List.lookup_eq_some_iff.mpr ⟨before, after, rfl, fun member inside =>
          bne_iff_ne.mpr (first member inside).symm⟩
      exact ⟨.member token, keyOf?_eq_some_iff.mpr ⟨mem_keys_of_member? found, rfl⟩, found⟩
  · rintro ⟨key, named, found⟩
    obtain ⟨-, same⟩ := keyOf?_eq_some_iff.mp named
    cases key with
    | repeated position => cases same
    | element index =>
      cases same
      cases content with
      | array items => exact .element found
      | _ => cases found
    | member name =>
      cases same
      cases content with
      | object members =>
        obtain ⟨before, after, rfl, first⟩ := List.lookup_eq_some_iff.mp found
        exact .member fun member inside => (bne_iff_ne.mp (first member inside)).symm
      | _ => cases found

namespace Value

variable {heap : Heap} {value between after child fresh target : Value} {key other : ChildKey}
  {path : List ChildKey} {token : String} {tokens rest : List String} {found tree : Tree} {β : Type}

/-! ### Placeholders -/

/-- What lookups come to along a path. -/
def descend (heap : Heap) (value : Value) : List ChildKey → Value
  | [] => value
  | key :: rest => (value.met heap key).1.descend heap rest

/-- At the end of a path there is a placeholder in the table. -/
def HasPlaceholder (value : Value) (heap : Heap) (path : List ChildKey) (key : ChildKey) : Prop :=
  ∃ child, (value.descend heap path).children.find? key = some (child, true)

/-- Where a child is behind a value, a lookup puts in no placeholder. -/
theorem placeholder_of_met (behind : (value.backing heap).child? key = some fresh)
    (met : (value.met heap key).2 = true) : value.HasPlaceholder heap [] key := by
  unfold Value.met plan at met
  rw [behind] at met
  show ∃ child, value.children.find? key = some (child, true)
  cases known : value.children.find? key with
  | none =>
    rw [known] at met
    cases met
  | some entry =>
    obtain ⟨child, placeholder⟩ := entry
    rw [known] at met
    dsimp only at met
    cases shown : isShown key child placeholder with
    | false =>
      rw [shown] at met
      cases met
    | true =>
      rw [shown] at met
      exact ⟨child, congrArg (fun mark => some (child, mark)) met⟩

/-- What a lookup comes to depends on what is behind a value and in its table. -/
theorem met_congr (storage : after.storage = value.storage)
    (same : after.children.find? key = value.children.find? key) :
    after.met heap key = value.met heap key := by
  have backing : after.backing heap = value.backing heap := by
    rw [Value.backing, Value.backing, storage]
  rw [met, met, plan, plan, backing, same]

/-! ### Walks past what is there -/

/-- A value after a walk that looked up only children that were there. -/
structure Visits (heap : Heap) (value after : Value) : Prop extends Keeps heap value after where
  bare : ∀ path key, after.HasPlaceholder heap path key → value.HasPlaceholder heap path key

theorem Visits.refl (heap : Heap) (keyed : value.Keyed) : Visits heap value value :=
  ⟨Keeps.refl heap keyed, fun _ _ marked => marked⟩

/-- One step of a walk, and the rest of the walk in the child that it led to. -/
theorem LooksUp.visits (looks : LooksUp heap key value between) (levelled : heap.Levelled)
    (keyed : value.Keyed) (behind : (value.backing heap).child? key = some fresh)
    (inside : Visits heap (value.met heap key).1 child) :
    Visits heap value (between.writeChild key child) := by
  have keeps : Keeps heap (between.child key).value child := looks.child_eq ▸ inside.toKeeps
  refine ⟨looks.keeps_writeChild levelled keyed keeps, fun path other => ?_⟩
  have table := looks.find?_writeChild child
  cases path with
  | nil =>
    rintro ⟨held, marked⟩
    rw [descend, table] at marked
    by_cases same : other = key
    · subst same
      rw [if_pos rfl, Option.some.injEq] at marked
      exact placeholder_of_met behind (congrArg Prod.snd marked)
    · rw [if_neg same] at marked
      exact ⟨held, marked⟩
  | cons first rest =>
    rintro ⟨held, marked⟩
    rw [descend] at marked
    by_cases same : first = key
    · subst same
      have shown := isShown_of_blank (met_of_child? behind).1 inside.blank
      rw [met_of_isShown ((table first).trans (if_pos rfl)) shown] at marked
      exact inside.bare rest other ⟨held, marked⟩
    · have storage : (between.writeChild key child).storage = value.storage := looks.storage_eq
      rw [met_congr storage ((table first).trans (if_neg same))] at marked
      exact ⟨held, marked⟩

/-! ### Tokens in values -/

/-- A token leads nowhere and selects nothing in the tree that a value shows, or it leads to a
key with a child behind it, and what a lookup comes to there shows what the token selects. -/
theorem token_cases (levelled : heap.Levelled) (keyed : value.Keyed) (token : String) :
    (Pointer.key? (value.backing heap) token = none ∧
      ∀ child, ¬(value.visible heap).content.Selects token child) ∨
    ∃ key fresh, Pointer.key? (value.backing heap) token = some key ∧
      (value.backing heap).child? key = some fresh ∧
      ∀ child, (value.visible heap).content.Selects token child ↔
        child = (value.met heap key).1.visible heap := by
  have names : Pointer.key? (value.backing heap) token =
      (value.visible heap).content.keyOf? token :=
    (Pointer.key?_eq _ token).trans
      (Content.keyOf?_congr (outline_content_visible levelled keyed).symm token)
  cases named : Pointer.key? (value.backing heap) token with
  | none =>
    rw [names] at named
    refine .inl ⟨rfl, fun child selects => ?_⟩
    obtain ⟨key, again, -⟩ := Content.selects_iff.mp selects
    rw [named] at again
    cases again
  | some key =>
    rw [Pointer.key?_eq] at named
    have member := (Content.keyOf?_eq_some_iff.mp named).1
    obtain ⟨fresh, -, behind⟩ := Content.exists_child_of_mem_keys member
    refine .inr ⟨key, fresh, rfl, behind, fun child => ?_⟩
    have shown : (value.visible heap).content.child? key =
        some ((value.met heap key).1.visible heap) := by
      rw [child?_content_visible levelled keyed member, behind, Option.map_some,
        (met_of_child? behind).2]
    rw [Content.selects_iff, ← names, Pointer.key?_eq, named]
    simp only [Option.some.injEq, exists_eq_left', shown]
    exact eq_comm

theorem not_resolves_cons (nothing : ∀ child, ¬tree.content.Selects token child) :
    ¬tree.Resolves (token :: rest) found := by
  rintro (_ | ⟨selects, -⟩)
  exact nothing _ selects

theorem resolves_cons_iff {below : Tree}
    (selects : ∀ child, tree.content.Selects token child ↔ child = below) :
    tree.Resolves (token :: rest) found ↔ below.Resolves rest found := by
  constructor
  · rintro (_ | ⟨first, deeper⟩)
    rwa [(selects _).mp first] at deeper
  · exact .step ((selects below).mpr rfl)

/-! ### Pointers for reading -/

/-- What following tokens for reading comes to. -/
structure Reads (heap : Heap) (value : Value) (tokens : List String) : Prop where
  visits : Visits heap value (Pointer.read heap value tokens).1
  finds : ∀ found, (value.visible heap).Resolves tokens found → ∃ reference target,
    (Pointer.read heap value tokens).2 = some reference ∧
      (Pointer.read heap value tokens).1.at? reference = some target ∧ target.visible heap = found
  misses : (¬∃ found, (value.visible heap).Resolves tokens found) →
    (Pointer.read heap value tokens).2 = none

theorem reads_pointer (levelled : heap.Levelled) (keyed : value.Keyed) (tokens : List String) :
    Reads heap value tokens := by
  induction tokens generalizing value with
  | nil =>
    refine ⟨Visits.refl heap keyed, fun found resolves => ?_, fun absurd => (absurd ⟨_, .here⟩).elim⟩
    cases resolves
    exact ⟨[], value, rfl, rfl, rfl⟩
  | cons token rest inductionHypothesis =>
    rcases token_cases levelled keyed token with ⟨none, nothing⟩ | ⟨key, fresh, some, behind, selects⟩
    · constructor <;> simp only [Pointer.read, none]
      · exact Visits.refl heap keyed
      · exact fun found resolves => (not_resolves_cons nothing resolves).elim
      · exact fun _ => trivial
    · have looks : LooksUp heap key value (value.look heap key) := .look
      have keyedChild : (value.met heap key).1.Keyed :=
        looks.child_eq ▸ closed_keyed.child (looks.keyed keyed) key
      obtain ⟨visits, finds, misses⟩ := inductionHypothesis keyedChild
      constructor <;>
        simp only [Pointer.read, some, looks.child_eq, resolves_cons_iff selects,
          Option.map_eq_none_iff, Option.map_eq_some_iff]
      · exact looks.visits levelled keyed behind visits
      · intro found resolves
        obtain ⟨reference, target, answer, means, shows⟩ := finds found resolves
        obtain ⟨entry, present, -, -⟩ :=
          exists_get?_of_find? ((looks.find?_eq key).trans (if_pos rfl))
        refine ⟨_, target, ⟨reference, answer, rfl⟩, ?_, shows⟩
        rw [child_eq present, at?_writeChild present, means]
      · exact misses

/-! ### Pointers for writing -/

/-- What following tokens for writing comes to. -/
structure Reaches (heap : Heap) (value : Value) (tokens : List String) : Prop where
  finds : ∀ found, (value.visible heap).Resolves tokens found → ∃ target,
    target.visible heap = found ∧ ∀ {β : Type} (change : Heap → Value → Edited β),
      (Pointer.edit heap value change tokens).heap = (change heap target).heap ∧
      (Pointer.edit heap value change tokens).result = some (change heap target).result ∧
      ((change heap target).value = target →
        Visits heap value (Pointer.edit heap value change tokens).value)
  misses : (¬∃ found, (value.visible heap).Resolves tokens found) →
    ∀ {β : Type} (change : Heap → Value → Edited β),
      (Pointer.edit heap value change tokens).heap = heap ∧
      (Pointer.edit heap value change tokens).result = none ∧
      Visits heap value (Pointer.edit heap value change tokens).value

theorem reaches_pointer (levelled : heap.Levelled) (keyed : value.Keyed) (tokens : List String) :
    Reaches heap value tokens := by
  induction tokens generalizing value with
  | nil =>
    refine ⟨fun found resolves => ?_, fun absurd => (absurd ⟨_, .here⟩).elim⟩
    cases resolves
    refine ⟨value, rfl, fun change => ⟨rfl, rfl, fun same => ?_⟩⟩
    rw [Pointer.edit, same]
    exact Visits.refl heap keyed
  | cons token rest inductionHypothesis =>
    rcases token_cases levelled keyed token with ⟨none, nothing⟩ | ⟨key, fresh, some, behind, selects⟩
    · constructor <;> simp only [Pointer.edit, none]
      · exact fun found resolves => (not_resolves_cons nothing resolves).elim
      · exact fun _ _ _ => ⟨trivial, trivial, Visits.refl heap keyed⟩
    · have looks : LooksUp heap key value (value.reach heap key) := .reach
      have keyedChild : (value.met heap key).1.Keyed :=
        looks.child_eq ▸ closed_keyed.child (looks.keyed keyed) key
      obtain ⟨finds, misses⟩ := inductionHypothesis keyedChild
      constructor <;> simp only [Pointer.edit, some, looks.child_eq, resolves_cons_iff selects]
      · intro found resolves
        obtain ⟨target, shows, edits⟩ := finds found resolves
        refine ⟨target, shows, fun change => ?_⟩
        obtain ⟨same, result, kept⟩ := edits change
        exact ⟨same, result, fun untouched => looks.visits levelled keyed behind (kept untouched)⟩
      · intro missing β change
        obtain ⟨same, result, kept⟩ := misses missing change
        exact ⟨same, result, looks.visits levelled keyed behind kept⟩

end Value

end JsonOverlay
