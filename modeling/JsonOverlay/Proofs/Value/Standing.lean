/-
This file follows a child that is shown at the end of a path, by what stands in the tables on the
path. Reading leaves it there and shows the same; so does writing, along a path that parts from
this one or ends above the child with something that spares the next key.
-/

import JsonOverlay.Proofs.Value.Agreement
import JsonOverlay.Proofs.Value.Write

namespace JsonOverlay

namespace Value

variable {heap now : Heap} {value between after child written : Value} {key other : ChildKey}
  {path : List ChildKey} {tree : Tree}

/-! ### What stands at the end of a path -/

theorem shownChild?_eq_some_iff : value.shownChild? key = some child ↔
    ∃ placeholder, value.children.find? key = some (child, placeholder) ∧
      isShown key child placeholder = true := by
  rw [shownChild?]
  cases value.children.find? key with
  | none => simp
  | some known =>
    obtain ⟨other, placeholder⟩ := known
    dsimp only
    constructor
    · intro found
      split at found
      · cases found
        exact ⟨placeholder, rfl, by assumption⟩
      · cases found
    · rintro ⟨_, same, shown⟩
      cases same
      exact if_pos shown

/-- The child in the table at the end of a path on which every child is shown. -/
def standing? (value : Value) : List ChildKey → Option Value
  | [] => some value
  | key :: path => (value.shownChild? key).bind fun child => child.standing? path

/-- A tree is shown at the end of a path by the tables on it. -/
def Bears (heap : Heap) (tree : Tree) : List ChildKey → Value → Prop
  | [], value => value.visible heap = tree
  | key :: path, value => ∃ child placeholder,
      value.children.find? key = some (child, placeholder) ∧
        isShown key child placeholder = true ∧ Bears heap tree path child

theorem bears_iff : value.Bears heap tree path ↔
    ∃ child, value.standing? path = some child ∧ child.visible heap = tree := by
  induction path generalizing value with
  | nil =>
    constructor
    · exact fun shows => ⟨value, rfl, shows⟩
    · rintro ⟨_, same, shows⟩
      cases same
      exact shows
  | cons key path inductionHypothesis =>
    constructor
    · rintro ⟨child, placeholder, found, shown, below⟩
      obtain ⟨last, stands, shows⟩ := inductionHypothesis.mp below
      refine ⟨last, ?_, shows⟩
      rw [standing?, shownChild?, found]
      dsimp only
      rw [if_pos shown]
      exact stands
    · rintro ⟨last, stands, shows⟩
      obtain ⟨child, shown, below⟩ := Option.bind_eq_some_iff.mp stands
      obtain ⟨placeholder, found, visible⟩ := shownChild?_eq_some_iff.mp shown
      exact ⟨child, placeholder, found, visible, inductionHypothesis.mpr ⟨last, below, shows⟩⟩

/-- A table that bears something is not empty. -/
theorem Bears.isBlank_eq_false (bears : value.Bears heap tree (key :: path)) :
    value.isBlank = false := by
  obtain ⟨child, placeholder, found, -⟩ := bears
  exact Value.isBlank_eq_false found

/-- A value after it was read: it shows what it showed, and so do all tables on paths. -/
structure Retains (heap : Heap) (value after : Value) : Prop extends Keeps heap value after where
  bears : ∀ path tree, value.Bears heap tree path → after.Bears heap tree path

theorem Retains.refl (heap : Heap) (keyed : value.Keyed) : Retains heap value value :=
  ⟨.refl heap keyed, fun _ _ => id⟩

theorem Retains.trans (first : Retains heap value between) (second : Retains heap between after) :
    Retains heap value after :=
  ⟨first.toKeeps.trans second.toKeeps, fun path tree bears =>
    second.bears path tree (first.bears path tree bears)⟩

/-- Reading a child further that was just looked up, and whatever becomes of its older versions. -/
theorem LooksUp.retains_below (looks : LooksUp heap key value between) (levelled : heap.Levelled)
    (keyed : value.Keyed) (keyedAfter : after.Keyed) (storage : after.storage = value.storage)
    (find? : ∀ other, after.children.find? other =
      if other = key then some (child, (value.met heap key).2) else value.children.find? other)
    (inside : Retains heap (between.child key).value child) : Retains heap value after := by
  rw [looks.child_eq] at inside
  have keeps : Keeps heap value after := by
    refine keeps_of_find? levelled keyed keyedAfter storage find? fun behind found => ?_
    obtain ⟨shown, equal⟩ := met_of_child? found
    exact ⟨isShown_of_blank shown inside.blank, inside.visible_eq.trans equal⟩
  refine ⟨keeps, fun path tree bears => ?_⟩
  cases path with
  | nil => exact keeps.visible_eq.trans bears
  | cons first path =>
    obtain ⟨known, placeholder, found, shown, below⟩ := bears
    by_cases same : first = key
    · subst same
      rw [met_of_isShown found shown] at inside find?
      exact ⟨child, placeholder, (find? first).trans (if_pos rfl),
        isShown_of_blank shown inside.blank, inside.bears path tree below⟩
    · exact ⟨known, placeholder,
        ((find? first).trans (if_neg same)).trans found, shown, below⟩

theorem LooksUp.retains (looks : LooksUp heap key value after) (levelled : heap.Levelled)
    (keyed : value.Keyed) : Retains heap value after := by
  have inside := Retains.refl heap (closed_keyed.child (looks.keyed keyed) key)
  refine looks.retains_below levelled keyed (looks.keyed keyed) looks.storage_eq (fun other => ?_)
    inside
  rw [looks.find?_eq, looks.child_eq]

theorem Lookups.retains (lookups : Lookups heap value after) (levelled : heap.Levelled)
    (keyed : value.Keyed) : Retains heap value after := by
  induction lookups with
  | nothing => exact .refl heap keyed
  | here looks _ inductionHypothesis =>
    have step := looks.retains levelled keyed
    exact step.trans (inductionHypothesis step.keyed)
  | @deeper value between child after key looks _ _ insideHypothesis restHypothesis =>
    have inside := insideHypothesis (closed_keyed.child (looks.keyed keyed) key)
    have step := looks.retains_below levelled keyed
      (closed_keyed.writeChild (looks.keyed keyed) key inside.keyed) looks.storage_eq
      (looks.find?_writeChild child) inside
    exact step.trans (restHypothesis step.keyed)

/-! ### References -/

theorem find?_writeVersion (value : Value) (key : ChildKey) (serial : Nat) (child : Value)
    (other : ChildKey) :
    (value.children.writeVersion key serial child).find? other =
      if other = key then
        (value.children.get? key).map fun entry =>
          (if entry.current.serial = serial then child else entry.current.value,
            entry.placeholder)
      else value.children.find? other := by
  rw [Children.find?, Children.writeVersion, Children.get?_adjust]
  by_cases same : other = key
  · rw [if_pos same, if_pos same, same, Option.map_map]
    refine congrArg (Option.map · _) (funext fun entry => ?_)
    dsimp only [Function.comp_apply]
    split <;> rfl
  · rw [if_neg same, if_neg same, Children.find?]

/-- What is read through a reference is no blank placeholder if it was none. -/
theorem isBlank_writeAt {reads : Value → Value}
    (retains : ∀ value : Value, value.Keyed → Retains heap value (reads value))
    {reference : Reference} (keyed : value.Keyed)
    (blank : (value.writeAt reads reference).isBlank = true) : value.isBlank = true := by
  cases reference with
  | nil => exact (retains value keyed).blank blank
  | cons first rest =>
    rw [writeAt] at blank
    split at blank
    · rw [isBlank, Children.isEmpty, Children.writeVersion, Children.adjust, List.isEmpty_map] at blank
      exact blank
    · exact blank

/-- What is read at a place and then read further from there. -/
theorem retains_writeAt_read (levelled : heap.Levelled) (keyed : value.Keyed) {path : List Step}
    {reference : Reference} {target changed : Value}
    (answer : (value.read heap path).2 = some reference)
    (means : (value.read heap path).1.at? reference = some target)
    (inside : Retains heap target changed) :
    Retains heap value ((value.read heap path).1.writeAt (fun _ => changed) reference) := by
  induction path generalizing value reference with
  | nil =>
    cases answer
    cases means
    exact inside
  | cons step rest inductionHypothesis =>
    cases planned : step.keys? (value.backing heap) with
    | none =>
      rw [read, planned] at answer
      cases answer
    | some found =>
      obtain ⟨passed, key⟩ := found
      rw [read, planned] at answer means ⊢
      simp only [List.foldl_append, List.foldl_cons, List.foldl_nil] at answer means ⊢
      obtain ⟨reference, answerBelow, rfl⟩ := Option.map_eq_some_iff.mp answer
      have early : Retains heap value
          (passed.foldl (fun value key => value.look heap key) value) :=
        Lookups.retains (lookups_foldl .nothing) levelled keyed
      revert early answerBelow means
      generalize passed.foldl (fun value key => value.look heap key) value = start
      intro answerBelow means early
      have looks : LooksUp heap key start (start.look heap key) := .look
      have met := (looks.find?_eq key).trans (if_pos rfl)
      obtain ⟨entry, present, placeholder⟩ : ∃ entry,
          (start.look heap key).children.get? key = some entry ∧
            entry.placeholder = (start.met heap key).2 := by
        obtain ⟨entry, present, -, placeholder⟩ := exists_get?_of_find? met
        exact ⟨entry, present, placeholder⟩
      have current := child_eq present
      have childKeyed := closed_keyed.child (looks.keyed early.keyed) key
      rw [current] at answerBelow means childKeyed ⊢
      rw [at?_writeChild present] at means
      have below := inductionHypothesis childKeyed answerBelow means
      have written := Children.get?_write (start.look heap key).children key
        (entry.current.value.read heap rest).1 key
      rw [if_pos rfl, present, Option.map_some] at written
      rw [writeAt, writeChild, Children.version?_current written]
      refine early.trans (looks.retains_below levelled early.keyed ?_ looks.storage_eq
        (fun other => ?_) (current ▸ below))
      · exact closed_keyed.writeVersion (closed_keyed.writeChild (looks.keyed early.keyed) key
          (closed_keyed.looked (evolves_read _ rest) childKeyed)) key _ below.keyed
      · have known := looks.find?_writeChild (entry.current.value.read heap rest).1 other
        rw [find?_writeVersion, written, Option.map_some, if_pos rfl, placeholder]
        by_cases same : other = key
        · rw [if_pos same, if_pos same, current]
        · rw [if_neg same] at known ⊢
          rw [if_neg same]
          exact known

/-- Reading goes on from a version of a child at each key of a reference. What is borne at the end
of a path stays as it is, unless the reference leads beyond. -/
theorem Bears.writeAt {reads : Value → Value} (keyed : value.Keyed)
    (retains : ∀ value : Value, value.Keyed → Retains heap value (reads value))
    {reference : Reference}
    (outside : ∀ key rest, reference.map Prod.fst ≠ path ++ key :: rest)
    (bears : value.Bears heap tree path) : (value.writeAt reads reference).Bears heap tree path := by
  induction reference generalizing value path with
  | nil => exact (retains value keyed).bears path tree bears
  | cons first rest inductionHypothesis =>
    obtain ⟨other, serial⟩ := first
    cases path with
    | nil => exact absurd rfl (outside other (rest.map Prod.fst))
    | cons key path =>
      rw [Value.writeAt]
      split
      · rename_i version found
        obtain ⟨child, placeholder, present, shown, below⟩ := bears
        have written := find?_writeVersion value other serial (version.writeAt reads rest) key
        by_cases same : key = other
        · subst same
          obtain ⟨entry, there, current, flag⟩ := exists_get?_of_find? present
          rw [if_pos rfl, there, Option.map_some, flag] at written
          by_cases again : entry.current.serial = serial
          · subst again
            have child : version = child := by
              rw [Children.version?_current there, current] at found
              exact (Option.some.inj found).symm
            subst child
            rw [if_pos rfl] at written
            have keyedChild := closed_keyed.versions keyed |>.version? found
            exact ⟨_, placeholder, written, isShown_of_blank shown (isBlank_writeAt retains keyedChild),
              inductionHypothesis keyedChild (fun key rest same => outside key rest (congrArg _ same))
                below⟩
          · rw [if_neg again, current] at written
            exact ⟨child, placeholder, written, shown, below⟩
        · rw [if_neg same] at written
          exact ⟨child, placeholder, written.trans present, shown, below⟩
      · exact bears

/-! ### Paths for writing -/

/-- A path for writing leaves alone what is at the end of another path: they part, or the first
ends above, and what is left of the other from there meets a condition. -/
def Parts (ends : List ChildKey → Prop) : List ChildKey → List ChildKey → Prop
  | [], path => ends path
  | other :: keys, key :: path => other = key → Parts ends keys path
  | _ :: _, [] => False

theorem Parts.ne_nil {ends : List ChildKey → Prop} {keys : List ChildKey} (above : ¬ ends [])
    (parts : Parts ends keys path) : path ≠ [] := by
  rintro rfl
  cases keys with
  | nil => exact above parts
  | cons => exact parts

/-- Something is written to a child that was reached, and leaves alone what is borne below it. -/
theorem Bears.writeChild (bears : value.Bears heap tree (key :: path))
    (below : other = key → path ≠ [] ∧
      (((value.reach now other).child other).value.Bears heap tree path →
        written.Bears heap tree path)) :
    ((value.reach now other).writeChild other written).Bears heap tree (key :: path) := by
  obtain ⟨child, placeholder, present, shown, inside⟩ := bears
  have looks : LooksUp now other value (value.reach now other) := .reach
  have find? := looks.find?_writeChild written key
  by_cases same : key = other
  · subst same
    obtain ⟨more, keeps⟩ := below rfl
    have met : value.met now key = (child, placeholder) := met_of_isShown present shown
    rw [looks.child_eq, met] at keeps
    rw [if_pos rfl, met] at find?
    have after := keeps inside
    refine ⟨written, placeholder, find?, isShown_of_blank shown fun blank => ?_, after⟩
    obtain ⟨first, rest, rfl⟩ := List.exists_cons_of_ne_nil more
    rw [after.isBlank_eq_false] at blank
    cases blank
  · rw [if_neg same] at find?
    exact ⟨child, placeholder, find?.trans present, shown, inside⟩

theorem Bears.edit {β : Type} {change : Heap → Value → Edited β} {ends : List ChildKey → Prop}
    {keys : List ChildKey} (above : ¬ ends []) (parts : Parts ends keys path)
    (leaves : ∀ value path, ends path → Bears heap tree path value →
      (change now value).value.Bears heap tree path)
    (bears : value.Bears heap tree path) :
    (value.edit now change keys).value.Bears heap tree path := by
  induction keys generalizing value path with
  | nil => exact leaves value path parts bears
  | cons other keys inductionHypothesis =>
    cases path with
    | nil => exact parts.elim
    | cons key path =>
      exact bears.writeChild fun same =>
        ⟨(parts same).ne_nil above, inductionHypothesis (parts same)⟩

/-- A path for writing leads to what is shown on it. -/
theorem Bears.endpoint {keys : List ChildKey} (bears : value.Bears heap tree (keys ++ path)) :
    (value.endpoint now keys).Bears heap tree path := by
  induction keys generalizing value with
  | nil => exact bears
  | cons key keys inductionHypothesis =>
    obtain ⟨child, placeholder, present, shown, inside⟩ := bears
    have looks : LooksUp now key value (value.reach now key) := .reach
    have reached : ((value.reach now key).child key).value = child := by
      rw [looks.child_eq, met_of_isShown present shown]
    exact inductionHypothesis (reached ▸ inside)

theorem isShown_of_isBlank_eq_false (solid : child.isBlank = false) (key : ChildKey)
    (placeholder : Bool) : isShown key child placeholder = true := by
  cases key with
  | repeated position => rfl
  | _ => simp [isShown, solid]

section

variable {β : Type} {change : Heap → Value → Edited β}

theorem edit_append (value : Value) (heap : Heap) (change : Heap → Value → Edited β)
    (keys rest : List ChildKey) :
    value.edit heap change (keys ++ rest) =
      value.edit heap (fun heap value => value.edit heap change rest) keys := by
  induction keys generalizing value with
  | nil => rfl
  | cons key keys inductionHypothesis => rw [List.cons_append, edit, edit, inductionHypothesis]

theorem isBlank_edit (keys : List ChildKey)
    (solid : (change now (value.endpoint now keys)).value.isBlank = false) :
    (value.edit now change keys).value.isBlank = false := by
  cases keys with
  | nil => exact solid
  | cons key keys =>
    have looks : LooksUp now key value (value.reach now key) := .reach
    exact Value.isBlank_eq_false ((looks.find?_writeChild _ key).trans (if_pos rfl))

/-- A path for writing leads back to what was changed at its end. -/
theorem endpoint_edit (keys : List ChildKey)
    (solid : (change now (value.endpoint now keys)).value.isBlank = false) :
    (value.edit now change keys).value.endpoint heap keys =
      (change now (value.endpoint now keys)).value := by
  induction keys generalizing value with
  | nil => rfl
  | cons key keys inductionHypothesis =>
    have looks : LooksUp now key value (value.reach now key) := .reach
    have solidBelow :
        (change now (((value.reach now key).child key).value.endpoint now keys)).value.isBlank =
          false := solid
    have written := (looks.find?_writeChild
      (((value.reach now key).child key).value.edit now change keys).value key).trans (if_pos rfl)
    have again : LooksUp heap key _ ((value.edit now change (key :: keys)).value.reach heap key) :=
      .reach
    have reached : (((value.edit now change (key :: keys)).value.reach heap key).child key).value =
        (((value.reach now key).child key).value.edit now change keys).value := by
      rw [again.child_eq]
      exact congrArg Prod.fst
        (met_of_isShown written (isShown_of_isBlank_eq_false (isBlank_edit keys solidBelow) key _))
    calc (value.edit now change (key :: keys)).value.endpoint heap (key :: keys)
        = (((value.edit now change (key :: keys)).value.reach heap key).child key).value.endpoint
            heap keys := rfl
      _ = (change now (value.endpoint now (key :: keys))).value := by
        rw [reached]
        exact inductionHypothesis solidBelow

/-- What is borne at the end of a path for writing is so from its start. -/
theorem bears_edit {keys : List ChildKey}
    (bears : (change now (value.endpoint now keys)).value.Bears heap tree (key :: path)) :
    (value.edit now change keys).value.Bears heap tree (keys ++ key :: path) := by
  induction keys generalizing value with
  | nil => exact bears
  | cons other keys inductionHypothesis =>
    have looks : LooksUp now other value (value.reach now other) := .reach
    exact ⟨_, _, (looks.find?_writeChild _ other).trans (if_pos rfl),
      isShown_of_isBlank_eq_false (isBlank_edit keys bears.isBlank_eq_false) other _,
      inductionHypothesis bears⟩

end

/-- The keys that a token may stand for. -/
def Names (token : String) (key : ChildKey) : Prop :=
  ∃ content : Content Value, Pointer.key? content token = some key

theorem names_member (token : String) : Names token (.member token) :=
  ⟨.object [(token, null)], by simp [Pointer.key?, Content.hasMember, Content.member?]⟩

theorem forall₂_names (tokens : List String) :
    List.Forall₂ Names tokens (tokens.map ChildKey.member) := by
  induction tokens with
  | nil => exact .nil
  | cons token rest inductionHypothesis => exact .cons (names_member token) inductionHypothesis

/-- Whatever a pointer may lead to, it leads away from what is at the end of a path. -/
def Misses (tokens : List String) (path : List ChildKey) : Prop :=
  ∀ keys, List.Forall₂ Names tokens keys → Parts (fun _ => False) keys path

theorem Misses.ne_nil {tokens : List String} (misses : Misses tokens path) : path ≠ [] :=
  (misses _ (forall₂_names tokens)).ne_nil id

theorem Bears.pointer_edit {β : Type} {change : Heap → Value → Edited β} {tokens : List String}
    (misses : Misses tokens path) (bears : value.Bears heap tree path) :
    (Pointer.edit now value change tokens).value.Bears heap tree path := by
  induction tokens generalizing value path with
  | nil => exact (misses [] .nil).elim
  | cons token rest inductionHypothesis =>
    unfold Pointer.edit
    split
    · exact bears
    · rename_i other found
      have named : Names token other := ⟨_, found⟩
      cases path with
      | nil => exact absurd rfl misses.ne_nil
      | cons key path =>
        have later (same : other = key) : Misses rest path := fun keys spelled =>
          misses (other :: keys) (.cons named spelled) same
        exact bears.writeChild fun same => ⟨(later same).ne_nil, inductionHypothesis (later same)⟩

end Value

namespace Operation

variable {operation : Operation} {heap after : Heap} {value changed child : Value}
  {key : ChildKey}

/-- Whether an operation on a value leaves alone the child that its table shows at a key. -/
def Spares : Operation → ChildKey → Prop
  | addMember _ _ _, _ | pushBack _ _, _ => True
  | removeMember name, key => key ≠ .member name ∧ ∀ position, key ≠ .repeated position
  | assign _, _ | set _, _ => False

theorem Effect.shownChild?_eq (effect : operation.Effect heap value after changed)
    (spares : operation.Spares key) (shown : value.shownChild? key = some child) :
    changed.shownChild? key = some child := by
  obtain ⟨placeholder, found, visible⟩ := Value.shownChild?_eq_some_iff.mp shown
  have kept {later : Value} {other : ChildKey} (same : later.children = value.children)
      (direct : ∀ position, other ≠ .repeated position) :
      (later.forgetPlaceholder other).shownChild? key = some child := by
    refine Value.shownChild?_eq_some_iff.mpr ⟨placeholder, ?_, visible⟩
    rw [Value.forgetPlaceholder, Children.find?_forgetPlaceholder, same]
    split
    · rename_i equal
      subst equal
      rw [found]
      refine Option.filter_some_pos ?_
      cases key with
      | repeated position => exact absurd rfl (direct position)
      | _ => exact visible
    · exact found
  have unforgotten {name : String} (spared : (removeMember name).Spares key) {storage : Storage Value} :
      (⟨storage, value.children.forgetMember name⟩ : Value).shownChild? key = some child := by
    refine Value.shownChild?_eq_some_iff.mpr ⟨placeholder, ?_, visible⟩
    rw [Children.forgetMember, Children.find?_filterKeys, found]
    refine if_pos ?_
    cases key with
    | member other => exact bne_iff_ne.mpr fun same => spared.1 (congrArg _ same)
    | repeated position => exact absurd rfl (spared.2 position)
    | element index => rfl
  cases effect with
  | refused => exact shown
  | assigned | setDetached | setDropped | setAttached => exact spares.elim
  | memberDetached | memberAttached => exact kept rfl fun _ absurd => by cases absurd
  | elementDetached | elementAttached => exact kept rfl fun _ absurd => by cases absurd
  | removedDetached | removedNothing | removedAttached => exact unforgotten spares

end Operation

/-- An operation leaves alone what is borne below a key that it spares. -/
theorem Value.Bears.spared {heap now after : Heap} {value changed : Value} {operation : Operation}
    {key : ChildKey} {path : List ChildKey} {tree : Tree}
    (bears : value.Bears heap tree (key :: path))
    (effect : operation.Effect now value after changed) (spares : operation.Spares key) :
    changed.Bears heap tree (key :: path) := by
  obtain ⟨child, placeholder, found, shown, below⟩ := bears
  have still := effect.shownChild?_eq spares (shownChild?_eq_some_iff.mpr ⟨_, found, shown⟩)
  obtain ⟨placeholder, found, shown⟩ := shownChild?_eq_some_iff.mp still
  exact ⟨child, placeholder, found, shown, below⟩

end JsonOverlay
