/-
This file says how a plain ordered tree is edited, without values, tables or arenas, and
what a program may ask of a document in the same terms. A path names a member, meaning the
first with its name, or an element at each step; a request whose path names something that
is not there has no answer. Each request is then given to a document in a workspace as
well, where it runs the operations of this library.
-/

import JsonOverlay.Workspace

namespace JsonOverlay

/-! ### Requests -/

/-- A change to a value. Its operand is a detached copy of a tree. -/
inductive Change where
  | assign (operand : Tree)
  | set (content : Content Empty)
  | addMember (name : String) (operand : Tree)
  | pushBack (operand : Tree)
  | removeMember (name : String)
deriving Repr

/-- What a program asks of a document: to read along a path, to reach a value for writing, to
walk over some members of an object or over elements of an array, or to change a value. -/
inductive Request where
  | read (path : List Step)
  | reach (path : List ChildKey)
  | members (path : List Step) (count : Nat)
  | elements (path : List Step) (indices : List UInt64)
  | change (path : List ChildKey) (change : Change)
deriving Repr

/-- The answer to a request: trees that were shown, or the outcome of a change. -/
inductive Answer where
  | shown (tree : Tree)
  | members (shown : List (String × Tree))
  | elements (shown : List Tree)
  | outcome (outcome : Outcome)
deriving Repr

/-! ### Plain trees -/

namespace Content

variable {α : Type}

/-- Gives the first member with a name another child. -/
def replaceFirst (name : String) (child : α) : List (String × α) → List (String × α)
  | [] => []
  | (other, old) :: rest =>
    if other = name then (name, child) :: rest else (other, old) :: replaceFirst name child rest

/-- The level with another child for the first member with a name, or at an index. -/
def withChild (key : ChildKey) (child : α) : Content α → Content α
  | array items =>
    match key with
    | .element index => array (items.set index child)
    | _ => array items
  | object members =>
    match key with
    | .member name => object (replaceFirst name child members)
    | _ => object members
  | content => content

/-- The child that a step of a path for writing names. -/
def named? (content : Content α) : ChildKey → Option α
  | .member name => content.member? name
  | .element index => content.element? index
  | .repeated _ => none

/-- The child that a step of a path for reading names. -/
def stepTo? (content : Content α) : Step → Option α
  | .member name => content.member? name
  | .element index => content.element? index
  | .nth position => content.memberAt? position

/-- The members of an object. -/
def members : Content α → List (String × α)
  | object members => members
  | _ => []

end Content

namespace Tree

/-- The tree at the end of a path for reading. -/
def follow? (tree : Tree) : List Step → Option Tree
  | [] => some tree
  | step :: rest => (tree.content.stepTo? step).bind fun child => child.follow? rest

/-- The tree at the end of a path for writing. -/
def at? (tree : Tree) : List ChildKey → Option Tree
  | [] => some tree
  | key :: rest => (tree.content.named? key).bind fun child => child.at? rest

/-- Changes the tree at the end of a path and leaves the rest as it is. -/
def editAt {β : Type} (change : Tree → Tree × β) (tree : Tree) : List ChildKey → Option (Tree × β)
  | [] => some (change tree)
  | key :: rest =>
    (tree.content.named? key).bind fun child =>
      (child.editAt change rest).map fun (changed, result) =>
        (ofContent (tree.content.withChild key changed), result)

end Tree

/-- What a change makes of a plain tree, and its outcome. -/
def Change.apply : Change → Tree → Tree × Outcome
  | assign operand, _ => (operand, .done)
  | set content, _ => (Tree.ofContent content.ofLeaf, .done)
  | addMember name operand, .object members => (.object (members ++ [(name, operand)]), .done)
  | addMember _ _, tree => (tree, .refused (.notAnObject tree.kind))
  | pushBack operand, .array items => (.array (items ++ [operand]), .done)
  | pushBack _, tree => (tree, .refused (.notAnArray tree.kind))
  | removeMember name, .object members =>
    (.object (members.filter fun (other, _) => other != name),
      .removed (members.countP fun (other, _) => other == name))
  | removeMember _, tree => (tree, .removed 0)

namespace Tree

/-- What a request makes of a plain tree, and the answer to it. -/
def respond (tree : Tree) : Request → Option (Tree × Answer)
  | .read path => (tree.follow? path).map fun found => (tree, .shown found)
  | .reach path => (tree.at? path).map fun found => (tree, .shown found)
  | .members path count =>
    (tree.follow? path).map fun found => (tree, .members (found.content.members.take count))
  | .elements path indices =>
    (tree.follow? path).bind fun found =>
      (indices.mapM fun index => found.content.element? index.toNat).map fun items =>
        (tree, .elements items)
  | .change path change =>
    (tree.editAt change.apply path).map fun (changed, outcome) => (changed, .outcome outcome)

/-- The answers to requests one after the other, each with the tree it leaves. -/
def history (tree : Tree) : List Request → Option (List (Answer × Tree))
  | [] => some []
  | request :: rest =>
    (tree.respond request).bind fun (changed, answer) =>
      (changed.history rest).map fun later => (answer, changed) :: later

end Tree

/-! ### Documents -/

/-- The operation of a change, with an allocator for what it adds. -/
def Change.operation (allocator : Allocator) : Change → Operation
  | assign operand => .assign (Value.ofTree operand)
  | set content => .set content
  | addMember name operand => .addMember name (Value.ofTree operand) allocator
  | pushBack operand => .pushBack (Value.ofTree operand) allocator
  | removeMember name => .removeMember name

namespace Workspace

/-- What a request to the document under a name makes of a workspace, and the answer. What
is added is added with the document's own allocator. -/
def respond (workspace : Workspace) (name : String) : Request → Workspace × Answer
  | .read path =>
    let (looked, value) := workspace.read ⟨name, path⟩
    (looked, .shown (value.visible looked.heap))
  | .reach path =>
    let (reached, tree) := workspace.edit name path fun heap value =>
      ⟨heap, value, value.visible heap⟩
    (reached, .shown tree)
  | .members path count =>
    let (looked, visits) := workspace.visit ⟨name, path⟩ fun value =>
      let (visits, _, final) :=
        MemberCursor.walk workspace.heap count (MemberCursor.start value workspace.heap) value
      (final, visits)
    (looked, .members ((visits.getD []).map fun visit =>
      (visit.name, visit.value.visible workspace.heap)))
  | .elements path indices =>
    let (looked, found) := workspace.visit ⟨name, path⟩ fun value =>
      let (values, final) := ArrayCursor.lookAll workspace.heap value indices
      (final, values)
    (looked, .elements ((found.getD []).map (Value.visible workspace.heap)))
  | .change path change =>
    let (changed, outcome) :=
      workspace.perform name path (change.operation (workspace.allocator name))
    (changed, .outcome outcome)

/-- The workspace after some requests. -/
def respondAll (workspace : Workspace) (name : String) (requests : List Request) : Workspace :=
  requests.foldl (fun workspace request => (workspace.respond name request).1) workspace

/-- The answers to requests one after the other, each with the tree that the document shows
then. -/
def history (workspace : Workspace) (name : String) : List Request → List (Answer × Tree)
  | [] => []
  | request :: rest =>
    let (changed, answer) := workspace.respond name request
    (answer, (changed.root name).visible changed.heap) :: changed.history name rest

end Workspace

end JsonOverlay
