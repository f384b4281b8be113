/-
This file says what becomes of the values that a program holds when it follows paths: each name
goes on holding what it held, and its root value has evolved by lookups and by what was done at
the ends of the paths.
-/

import JsonOverlay.Proofs.Workspace.Names

namespace JsonOverlay

/-- What a name holds and what became of it by work on its root value. -/
inductive Holding.Evolves (heap : Heap) (change : Value → Value → Prop) :
    Holding → Holding → Prop where
  | document {document : Document} {root : Value}
      (evolves : document.root.Evolves heap change root) :
      Evolves heap change (.document document) (.document { document with root })
  | value {value after : Value} (evolves : value.Evolves heap change after) :
      Evolves heap change (.value value) (.value after)
  | allocator {allocator : Allocator} : Evolves heap change (.allocator allocator) (.allocator allocator)

namespace Holding

variable {heap : Heap} {change : Value → Value → Prop}

theorem Evolves.refl (holding : Holding) : holding.Evolves heap change holding := by
  cases holding with
  | document held => exact .document .refl
  | value held => exact .value .refl
  | allocator held => exact .allocator

theorem Evolves.trans {holding between after : Holding}
    (first : holding.Evolves heap change between) (rest : between.Evolves heap change after) :
    holding.Evolves heap change after := by
  cases first with
  | document early =>
    cases rest with
    | document late => exact .document (early.trans late)
  | value early =>
    cases rest with
    | value late => exact .value (early.trans late)
  | allocator => exact rest

theorem evolves_withRoot {holding : Holding} {root : Value}
    (evolves : holding.root.Evolves heap change root) :
    holding.Evolves heap change (holding.withRoot root) := by
  cases holding with
  | document held => exact .document evolves
  | value held => exact .value evolves
  | allocator held => exact .allocator

end Holding

/-! ### Paths -/

namespace Workspace

/-- What a name holds has evolved. -/
def Evolves (heap : Heap) (change : Value → Value → Prop) (name : String)
    (workspace after : Workspace) : Prop :=
  Option.Rel (Holding.Evolves heap change) (workspace.holding? name) (after.holding? name)

variable {heap : Heap} {change : Value → Value → Prop} {workspace between after : Workspace}
  {name target : String} {β : Type}

theorem evolves_of_holding?_eq (same : after.holding? name = workspace.holding? name) :
    workspace.Evolves heap change name after := by
  rw [Evolves, same]
  cases workspace.holding? name with
  | none => exact .none
  | some holding => exact .some (.refl holding)

theorem Evolves.trans (first : workspace.Evolves heap change name between)
    (rest : between.Evolves heap change name after) : workspace.Evolves heap change name after := by
  unfold Evolves at first rest ⊢
  revert first rest
  generalize workspace.holding? name = before, between.holding? name = middle,
    after.holding? name = last
  intro first rest
  cases first with
  | none => exact rest
  | some early =>
    cases rest with
    | some late => exact .some (early.trans late)

theorem evolves_setRoot {root : Value}
    (evolves : name = target → (workspace.root target).Evolves heap change root) :
    workspace.Evolves heap change name (workspace.setRoot target root) := by
  by_cases same : name = target
  · subst same
    have evolved := evolves rfl
    unfold Evolves
    rw [holding?_setRoot]
    rw [Workspace.root] at evolved
    revert evolved
    generalize workspace.holding? name = held
    intro evolved
    cases held with
    | none => exact .none
    | some holding => exact .some (Holding.evolves_withRoot evolved)
  · exact evolves_of_holding?_eq (holding?_setRoot_of_ne same root)

theorem evolves_refer (workspace : Workspace) (place : Place) :
    workspace.Evolves workspace.heap change name (workspace.refer place).1 :=
  evolves_setRoot fun _ => Value.evolves_read _ place.path

theorem evolves_visit {use : Value → Value × β} (workspace : Workspace) (place : Place)
    (uses : ∀ value, Value.Evolves workspace.heap change value (use value).1) :
    workspace.Evolves workspace.heap change name (workspace.visit place use).1 := by
  have looked : workspace.Evolves workspace.heap change name (workspace.refer place).1 :=
    workspace.evolves_refer place
  unfold visit
  dsimp only
  split
  · exact looked
  · split
    · exact looked
    · rename_i value means
      refine looked.trans (evolves_setRoot fun _ => Value.evolves_writeAt fun found same => ?_)
      rw [means, Option.some.injEq] at same
      subst same
      exact uses value

theorem evolves_edit {edit : Heap → Value → Value.Edited β} {keys : List ChildKey}
    (changes : name = target →
      ((workspace.root target).endpoint workspace.heap keys).Evolves workspace.heap change
        (edit workspace.heap ((workspace.root target).endpoint workspace.heap keys)).value) :
    workspace.Evolves workspace.heap change name (workspace.edit target keys edit).1 := by
  have evolved : ({ workspace with
      heap := ((workspace.root target).edit workspace.heap edit keys).heap } : Workspace).Evolves
        workspace.heap change name (workspace.edit target keys edit).1 :=
    evolves_setRoot fun same => Value.evolves_edit (changes same)
  exact evolved

end Workspace

/-! ### Operands -/

namespace Operand

mutual

/-- Whether something is moved out of a place for an operand. -/
def moves : Operand → Bool
  | tree _ | duplicate _ | deepCopy _ => false
  | array items => movesItem items
  | object members => movesMember members
  | moveOut _ _ => true

def movesItem : List Operand → Bool
  | [] => false
  | item :: rest => moves item || movesItem rest

def movesMember : List (String × Operand) → Bool
  | [] => false
  | (_, child) :: rest => moves child || movesMember rest

end

/-- What is known if something is moved out for an operand is known if it is for one in it. -/
theorem inherited_moves (known : Prop) : Inherited (fun operand => operand.moves = true → known)
    (fun items => movesItem items = true → known)
    fun members => movesMember members = true → known :=
  have parts {first others : Bool} (given : (first || others) = true → known) :
      (first = true → known) ∧ (others = true → known) :=
    ⟨fun here => given (Bool.or_eq_true_iff.mpr (.inl here)),
      fun there => given (Bool.or_eq_true_iff.mpr (.inr there))⟩
  ⟨id, id, parts, parts⟩

/-- Coming by a value looks up values, and leaves null where something is moved out. -/
theorem evolves_evaluate {change : Value → Value → Prop} (workspace : Workspace)
    (operand : Operand) (moved : operand.moves = true → ∀ value, change value Value.null) :
    workspace.Evolves workspace.heap change name (operand.evaluate workspace).1 := by
  have keeps : Keeps (fun operand => operand.moves = true → ∀ value, change value Value.null)
      fun after => after.heap = workspace.heap ∧
        workspace.Evolves workspace.heap change name after := by
    constructor
    · rintro between place - ⟨same, evolved⟩
      exact ⟨same, evolved.trans (same ▸ between.evolves_refer place)⟩
    · rintro between target keys moved ⟨same, evolved⟩
      have left : between.Evolves between.heap change name (between.moveOut target keys).1 :=
        Workspace.evolves_edit fun _ => .change (moved rfl _)
      exact ⟨(Workspace.heap_edit _ _ _ _).trans same, evolved.trans (same ▸ left)⟩
  have start : workspace.Evolves workspace.heap change name workspace :=
    Workspace.evolves_of_holding?_eq rfl
  exact (keeps.evaluate (inherited_moves _) ⟨rfl, start⟩ operand moved).2

end Operand

end JsonOverlay
