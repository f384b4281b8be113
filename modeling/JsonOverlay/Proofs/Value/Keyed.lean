/-
This file shows that no key is ever twice in a table of looked-up children. That is so at every
depth: in each version of each child, and in the content behind detached values. Nothing that
is done to a value, however it is reached, makes it otherwise.
-/

import JsonOverlay.Proofs.Value.Closed

namespace JsonOverlay

namespace Value

/-- No key is twice in the table of a value or in any table below it. -/
inductive Keyed : Value → Prop where
  | level {storage : Storage Value} {children : Children Value} (distinct : children.keys.Nodup)
      (payload : ∀ content, storage = .detached content → ∀ child ∈ content.children, Keyed child)
      (versions : ∀ member ∈ children.entries, ∀ version ∈ member.2.current :: member.2.older,
        Keyed version.value) :
      Keyed ⟨storage, children⟩

variable {heap : Heap} {value : Value} {content : Content Value} {children : Children Value}

theorem Keyed.distinct (keyed : value.Keyed) : value.children.keys.Nodup := by
  cases keyed
  assumption

theorem Keyed.payload (keyed : value.Keyed) (detached : value.storage = .detached content) :
    ∀ child ∈ content.children, child.Keyed := by
  cases keyed with
  | level distinct payload versions => exact payload content detached

theorem Keyed.versions (keyed : value.Keyed) : value.children.All Keyed := by
  cases keyed
  assumption

/-- Another table. -/
theorem Keyed.withChildren (keyed : value.Keyed) (distinct : children.keys.Nodup)
    (versions : children.All Keyed) : Keyed { value with children } :=
  .level distinct (fun _ detached => keyed.payload detached) versions

/-- Other content, which a value then has behind itself. -/
theorem Keyed.withContent (keyed : value.Keyed) (payload : ∀ child ∈ content.children, child.Keyed) :
    Keyed { value with storage := .detached content } := by
  refine .level keyed.distinct (fun other same => ?_) keyed.versions
  cases same
  exact payload

theorem keyed_attached (node : NodeRef) : (attached node).Keyed :=
  .level List.nodup_nil nofun nofun

theorem Keyed.backing (keyed : value.Keyed) (heap : Heap) :
    ∀ child ∈ (value.backing heap).children, child.Keyed := by
  unfold Value.backing
  split
  · rename_i content detached
    exact keyed.payload detached
  · split
    · rw [Content.children_map]
      intro child member
      obtain ⟨id, -, rfl⟩ := List.mem_map.mp member
      exact keyed_attached _
    · nofun

theorem Keyed.duplicate (keyed : value.Keyed) : value.duplicate.Keyed := by
  refine keyed.withChildren ?_ keyed.versions.latest
  rw [Children.keys_latest]
  exact keyed.distinct

/-- Whatever is done to a value whose keys are distinct keeps them so. -/
theorem closed_keyed : Closed Keyed where
  detached payload := (keyed_attached default).withContent payload
  backing := Keyed.backing
  versions := Keyed.versions
  duplicate := Keyed.duplicate
  resolve keyed key planned :=
    keyed.withChildren (Children.nodup_resolve keyed.distinct key _)
      (keyed.versions.resolve key planned ((keyed_attached default).withContent nofun))
  resolveForWriting keyed key planned :=
    keyed.withChildren (Children.nodup_resolveForWriting keyed.distinct key _)
      (keyed.versions.resolveForWriting key planned ((keyed_attached default).withContent nofun))
  writeChild keyed key below :=
    keyed.withChildren (Children.nodup_write keyed.distinct key _) (keyed.versions.write key below)
  writeVersion keyed key serial below :=
    keyed.withChildren (Children.nodup_writeVersion keyed.distinct key serial _)
      (keyed.versions.writeVersion key serial below)
  filterKeys keyed keep :=
    keyed.withChildren (Children.nodup_filterKeys keyed.distinct keep)
      (keyed.versions.filterKeys keep)
  withContent := Keyed.withContent

end Value

end JsonOverlay
