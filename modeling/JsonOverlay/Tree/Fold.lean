/-
This file defines recursion over plain trees: what is done at one level, once the children are
done, is done at every level.
-/

import JsonOverlay.Tree

namespace JsonOverlay.Tree

variable {β : Type}

mutual

/-- Goes through a tree, given what is done at a level whose children are done. -/
def fold (level : Content β → β) : Tree → β
  | null => level .null
  | bool value => level (.bool value)
  | number value => level (.number value)
  | string value => level (.string value)
  | array items => level (.array (foldItems level items))
  | object members => level (.object (foldMembers level members))

/-- Goes through the elements of an array. -/
def foldItems (level : Content β → β) : List Tree → List β
  | [] => []
  | item :: rest => fold level item :: foldItems level rest

/-- Goes through the members of an object. -/
def foldMembers (level : Content β → β) : List (String × Tree) → List (String × β)
  | [] => []
  | (name, child) :: rest => (name, fold level child) :: foldMembers level rest

end

end JsonOverlay.Tree
