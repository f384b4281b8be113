/-
This file shows what is left of a list of members when each name is kept once. The names stand
where they stood first, and what is found under a name is the first of the members that had it, or
the last. Lists with the same distinct names are the same if the same is found under each.
-/

import JsonOverlay.Proofs.Content
import JsonOverlay.Tree.Export
import Mathlib.Data.List.Induction
import Mathlib.Data.List.Nodup

namespace JsonOverlay

variable {α : Type} {members first second : List (String × α)} {name : String}

/-! ### Names, and what is found under them -/

theorem eraseDups_concat (names : List String) (name : String) :
    (names ++ [name]).eraseDups =
      if name ∈ names then names.eraseDups else names.eraseDups ++ [name] := by
  rw [List.eraseDups_append, List.removeAll, List.filter_singleton]
  by_cases known : name ∈ names
  · simp [known]
  · simp [known, List.eraseDups_cons]

theorem nodup_eraseDups (names : List String) : names.eraseDups.Nodup := by
  induction names using List.reverseRecOn with
  | nil => exact List.nodup_nil
  | append_singleton names name inductionHypothesis =>
    rw [eraseDups_concat]
    split
    · exact inductionHypothesis
    · rename_i new
      rw [← List.concat_eq_append]
      exact List.Nodup.concat (by rwa [List.mem_eraseDups]) inductionHypothesis

theorem eraseDups_of_nodup {names : List String} (distinct : names.Nodup) :
    names.eraseDups = names := by
  induction names using List.reverseRecOn with
  | nil => rfl
  | append_singleton names name inductionHypothesis =>
    rw [← List.concat_eq_append, List.nodup_concat] at distinct
    obtain ⟨new, before⟩ := distinct
    rw [eraseDups_concat, if_neg new, inductionHypothesis before]

theorem lookup_cons_eq (other : String) (child : α) (members : List (String × α)) (name : String) :
    ((other, child) :: members).lookup name =
      if name = other then some child else members.lookup name := by
  split
  · rename_i same
    rw [same, List.lookup_cons_self]
  · rename_i different
    rw [List.lookup_cons, beq_false_of_ne different]

/-- Lists with the same distinct names are the same if the same is found under each name. -/
theorem eq_of_lookup_eq (names : first.map Prod.fst = second.map Prod.fst)
    (distinct : (first.map Prod.fst).Nodup)
    (same : ∀ name, first.lookup name = second.lookup name) : first = second := by
  induction first generalizing second with
  | nil => exact (List.map_eq_nil_iff.mp names.symm).symm
  | cons member rest inductionHypothesis =>
    obtain ⟨name, child⟩ := member
    obtain ⟨⟨other, twin⟩, others, rfl, head, tail⟩ := List.map_eq_cons_iff.mp names.symm
    obtain ⟨new, distinctRest⟩ := List.nodup_cons.mp distinct
    dsimp only at head
    subst head
    have child : child = twin := by
      have found := same other
      rw [List.lookup_cons_self, List.lookup_cons_self] at found
      exact Option.some.inj found
    rw [child, inductionHypothesis tail.symm distinctRest fun name => ?_]
    by_cases here : name = other
    · subst here
      rw [lookup_eq_none_iff_notMem.mpr new, lookup_eq_none_iff_notMem.mpr (tail ▸ new)]
    · have found := same name
      rwa [lookup_cons_eq, lookup_cons_eq, if_neg here, if_neg here] at found

namespace Tree

/-! ### One more member -/

theorem names_put (name : String) (child : α) (members : List (String × α)) :
    (put name child members).map Prod.fst =
      if name ∈ members.map Prod.fst then members.map Prod.fst
      else members.map Prod.fst ++ [name] := by
  induction members with
  | nil => rfl
  | cons member rest inductionHypothesis =>
    obtain ⟨other, old⟩ := member
    rw [put]
    by_cases same : other = name
    · simp [same]
    · have different : ¬ name = other := fun equal => same equal.symm
      rw [if_neg same, List.map_cons, inductionHypothesis]
      split <;> simp_all

theorem lookup_put (name other : String) (child : α) (members : List (String × α)) :
    (put name child members).lookup other =
      if other = name then some child else members.lookup other := by
  induction members with
  | nil => exact lookup_cons_eq name child [] other
  | cons member rest inductionHypothesis =>
    obtain ⟨next, old⟩ := member
    rw [put]
    by_cases here : next = name
    · subst here
      rw [if_pos rfl, lookup_cons_eq, lookup_cons_eq]
      split <;> rfl
    · rw [if_neg here, lookup_cons_eq, lookup_cons_eq, inductionHypothesis]
      by_cases same : other = next
      · rw [if_pos same, if_pos same, if_neg (same ▸ here)]
      · rw [if_neg same, if_neg same]

theorem put_of_notMem {child : α} (new : name ∉ members.map Prod.fst) :
    put name child members = members ++ [(name, child)] := by
  induction members with
  | nil => rfl
  | cons member rest inductionHypothesis =>
    obtain ⟨other, old⟩ := member
    rw [List.map_cons, List.mem_cons, not_or] at new
    rw [put, if_neg (Ne.symm new.1), inductionHypothesis new.2, List.cons_append]

/-! ### Keeping each name once -/

theorem keepLast_concat (members : List (String × α)) (name : String) (child : α) :
    keepLast (members ++ [(name, child)]) = put name child (keepLast members) :=
  List.foldl_append

/-- A name that is kept stands where it stood first. -/
theorem names_keepLast (members : List (String × α)) :
    (keepLast members).map Prod.fst = (members.map Prod.fst).eraseDups := by
  induction members using List.reverseRecOn with
  | nil => rfl
  | append_singleton members member inductionHypothesis =>
    rw [keepLast_concat, names_put, inductionHypothesis, List.map_append, List.map_singleton,
      eraseDups_concat]
    simp only [List.mem_eraseDups]

/-- The last member with a name is kept. -/
theorem lookup_keepLast (members : List (String × α)) (name : String) :
    (keepLast members).lookup name = members.reverse.lookup name := by
  induction members using List.reverseRecOn with
  | nil => rfl
  | append_singleton members member inductionHypothesis =>
    rw [keepLast_concat, lookup_put, inductionHypothesis, List.reverse_append,
      List.reverse_singleton, List.singleton_append, lookup_cons_eq]

theorem keepFirst_concat (members : List (String × α)) (member : String × α) :
    keepFirst (members ++ [member]) =
      if member.1 ∈ members.map Prod.fst then keepFirst members
      else keepFirst members ++ [member] := by
  induction members with
  | nil => rfl
  | cons first rest inductionHypothesis =>
    rw [List.cons_append, keepFirst, inductionHypothesis, List.map_cons, keepFirst]
    by_cases later : member.1 ∈ rest.map Prod.fst
    · rw [if_pos later, if_pos (List.mem_cons_of_mem _ later)]
    · rw [if_neg later, List.filter_append, List.filter_singleton]
      by_cases same : member.1 = first.1
      · simp [same]
      · simp [same, later, bne_iff_ne.mpr same]

/-- A name that is kept stands where it stood first. -/
theorem names_keepFirst (members : List (String × α)) :
    (keepFirst members).map Prod.fst = (members.map Prod.fst).eraseDups := by
  induction members using List.reverseRecOn with
  | nil => rfl
  | append_singleton members member inductionHypothesis =>
    rw [keepFirst_concat, List.map_append, List.map_singleton, eraseDups_concat,
      ← inductionHypothesis]
    split
    · rfl
    · exact List.map_append

/-- The first member with a name is kept. -/
theorem lookup_keepFirst (members : List (String × α)) (name : String) :
    (keepFirst members).lookup name = members.lookup name := by
  induction members with
  | nil => rfl
  | cons member rest inductionHypothesis =>
    rw [keepFirst, lookup_cons_eq, lookup_cons_eq]
    split
    · rfl
    · rename_i other
      have kept := lookup_filter_fst (fun name => name != member.1) (keepFirst rest) name
      rw [if_pos (bne_iff_ne.mpr other), inductionHypothesis] at kept
      exact kept

/-- Distinct names are all kept. -/
theorem keepFirst_of_nodup (distinct : (members.map Prod.fst).Nodup) :
    keepFirst members = members := by
  have names := (names_keepFirst members).trans (eraseDups_of_nodup distinct)
  exact eq_of_lookup_eq names (names ▸ distinct) (lookup_keepFirst members)

theorem keepLast_of_nodup (distinct : (members.map Prod.fst).Nodup) :
    keepLast members = members := by
  induction members using List.reverseRecOn with
  | nil => rfl
  | append_singleton members member inductionHypothesis =>
    rw [List.map_append, List.map_singleton, ← List.concat_eq_append, List.nodup_concat] at distinct
    obtain ⟨new, before⟩ := distinct
    rw [keepLast_concat, inductionHypothesis before, put_of_notMem new]

theorem keepFirst_subset (members : List (String × α)) : keepFirst members ⊆ members := by
  induction members with
  | nil => exact List.Subset.refl []
  | cons member rest inductionHypothesis =>
    exact List.cons_subset_cons _ fun _ kept => inductionHypothesis (List.mem_of_mem_filter kept)

/-! ### Changing what the names stand for -/

variable {β : Type} (change : α → β)

theorem names_map (members : List (String × α)) :
    (members.map fun (name, child) => (name, change child)).map Prod.fst =
      members.map Prod.fst := by
  rw [List.map_map]
  rfl

theorem map_eq_of_lookup_eq {others : List (String × β)}
    (names : members.map Prod.fst = others.map Prod.fst)
    (distinct : (members.map Prod.fst).Nodup)
    (same : ∀ name, (members.lookup name).map change = others.lookup name) :
    (members.map fun (name, child) => (name, change child)) = others := by
  refine eq_of_lookup_eq ((names_map change members).trans names) ?_ fun name => ?_
  · rwa [names_map]
  · rw [lookup_map_snd fun _ => change, same]

theorem map_keepFirst (members : List (String × α)) :
    (keepFirst members).map (fun (name, child) => (name, change child)) =
      keepFirst (members.map fun (name, child) => (name, change child)) := by
  refine map_eq_of_lookup_eq change ?_ ?_ fun name => ?_
  · rw [names_keepFirst, names_keepFirst, names_map]
  · exact names_keepFirst members ▸ nodup_eraseDups _
  · rw [lookup_keepFirst, lookup_keepFirst, lookup_map_snd fun _ => change]

theorem map_keepLast (members : List (String × α)) :
    (keepLast members).map (fun (name, child) => (name, change child)) =
      keepLast (members.map fun (name, child) => (name, change child)) := by
  refine map_eq_of_lookup_eq change ?_ ?_ fun name => ?_
  · rw [names_keepLast, names_keepLast, names_map]
  · exact names_keepLast members ▸ nodup_eraseDups _
  · rw [lookup_keepLast, lookup_keepLast, ← List.map_reverse, lookup_map_snd fun _ => change]

end Tree

end JsonOverlay
