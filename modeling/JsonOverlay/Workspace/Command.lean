/-
This file describes programs as lists of commands that work on a workspace. A program comes
by values, keeps them under names, follows paths for reading or writing, and acts on the
values at their ends. A handle that it kept stays in use whatever becomes of its document.
-/

import JsonOverlay.Pointer
import JsonOverlay.Workspace

namespace JsonOverlay

/-- What a program does at the end of a path that it follows for writing. It comes by the
operand before it follows the path. Allocators are those of a name. -/
inductive Action where
  | touch
  | assign (operand : Operand)
  | assignAt (pointer : Pointer) (operand : Operand)
  | set (content : Content Empty)
  | addMember (name : String) (operand : Operand) (allocator : String)
  | pushBack (operand : Operand) (allocator : String)
  | removeMember (name : String)
deriving Repr

/-- One step of a program. Walks over members and elements, cursors and held references look
up keys one after the other in the value that a reference means. -/
inductive Command where
  | newDocument (name : String)
  | parse (name : String) (options : ParseOptions) (text : String)
  | parseStream (name : String) (options : ParseOptions) (stream : Stream)
  | take (name target : String)
  | duplicate (name target : String)
  | drop (name : String)
  | keepAllocator (name target : String)
  | keep (name : String) (operand : Operand)
  | read (place : Place)
  | look (name : String) (reference : Reference) (keys : List ChildKey)
  | follow (place : Place) (pointer : Pointer)
  | write (name : String) (keys : List ChildKey) (action : Action)

namespace Action

/-- Carries out an action at the end of a path. -/
def run (workspace : Workspace) (name : String) (keys : List ChildKey) : Action → Workspace
  | touch => (workspace.edit name keys fun heap value => ⟨heap, value, ()⟩).1
  | assign operand =>
    let (ready, value) := operand.evaluate workspace
    (ready.perform name keys (.assign value)).1
  | assignAt pointer operand =>
    let (ready, value) := operand.evaluate workspace
    (ready.edit name keys fun heap target =>
      pointer.modify target heap fun heap _ => ⟨heap, value, ()⟩).1
  | set content => (workspace.perform name keys (.set content)).1
  | addMember member operand allocator =>
    let (ready, value) := operand.evaluate workspace
    (ready.perform name keys (.addMember member value (ready.allocator allocator))).1
  | pushBack operand allocator =>
    let (ready, value) := operand.evaluate workspace
    (ready.perform name keys (.pushBack value (ready.allocator allocator))).1
  | removeMember member => (workspace.perform name keys (.removeMember member)).1

end Action

namespace Workspace

/-- Carries out one command. -/
def step (workspace : Workspace) : Command → Workspace
  | .newDocument name => workspace.newDocument name
  | .parse name options text => workspace.install name (Tree.parse options text)
  | .parseStream name options stream => workspace.install name (Tree.parseStream options stream)
  | .take name target => workspace.take name target
  | .duplicate name target => workspace.duplicate name target
  | .drop name => workspace.drop name
  | .keepAllocator name target => workspace.hold target (.allocator (workspace.allocator name))
  | .keep name operand =>
    let (ready, value) := operand.evaluate workspace
    ready.hold name (.value value)
  | .read place => (workspace.refer place).1
  | .look name reference keys =>
    let lookAll (value : Value) : Value :=
      keys.foldl (fun value key => value.look workspace.heap key) value
    workspace.setRoot name ((workspace.root name).writeAt lookAll reference)
  | .follow place pointer =>
    (workspace.visit place fun value => pointer.get? value workspace.heap).1
  | .write name keys action => action.run workspace name keys

/-- Carries out a program. -/
def run (workspace : Workspace) (program : List Command) : Workspace := program.foldl step workspace

/-- A workspace that some program leads to. -/
def Reachable (workspace : Workspace) : Prop := ∃ program, workspace = empty.run program

end Workspace

end JsonOverlay
