/-
This file defines documents. A document owns one arena and a root value, at first
attached to the root of that arena. Parsing into a document gives it a new arena, and
whatever was attached to the old one reads null from then on.
-/

import JsonOverlay.Parse
import JsonOverlay.Value

namespace JsonOverlay

/-- An arena with a root value, and the error of the last parse if it failed. -/
structure Document where
  arena : ArenaId
  root : Value
  parseError : Option Error := none
deriving Repr

namespace Document

/-- A document in an arena of its own that holds a tree. -/
def ofTree (heap : Heap) (tree : Tree) : Heap × Document :=
  let (node, arena) := Arena.empty.store tree
  let (id, extended) := heap.add (arena.setRoot node)
  (extended, { arena := id, root := Value.attached ⟨id, node⟩ })

/-- A new document, which is null. -/
def new (heap : Heap) : Heap × Document := ofTree heap .null

/-- Puts the outcome of a parse into a document. If it failed, the document is null and
remembers the error. -/
def install (document : Document) (heap : Heap) (parsed : Except Error Tree) : Heap × Document :=
  let (extended, fresh) := match parsed with
    | .ok tree => ofTree heap tree
    | .error error =>
      let (extended, empty) := new heap
      (extended, { empty with parseError := some error })
  (extended.drop document.arena, fresh)

/-- Parses a text into a document. -/
def parse (document : Document) (heap : Heap) (options : ParseOptions) (text : String) :
    Heap × Document :=
  document.install heap (Tree.parse options text)

/-- Parses a stream into a document. -/
def parseStream (document : Document) (heap : Heap) (options : ParseOptions) (stream : Stream) :
    Heap × Document :=
  document.install heap (Tree.parseStream options stream)

/-- A document of a text, unless it cannot be parsed. -/
def ofText (heap : Heap) (options : ParseOptions) (text : String) :
    Except Error (Heap × Document) :=
  (Tree.parse options text).map (ofTree heap)

/-- Moves the content out. What stays behind is a new document. -/
def take (document : Document) (heap : Heap) : Heap × Document × Document :=
  let (extended, fresh) := new heap
  (extended, document, fresh)

/-- A document in an arena of its own that shows what this one shows. -/
def duplicate (document : Document) (heap : Heap) : Heap × Document :=
  let (extended, copy) := ofTree heap (document.root.visible heap)
  (extended, { copy with parseError := document.parseError })

/-- Releases the arena of a document. -/
def drop (document : Document) (heap : Heap) : Heap := heap.drop document.arena

/-- Permission to add nodes to the document. -/
def allocator (document : Document) : Allocator := ⟨some document.arena⟩

/-- The number of nodes in use. -/
def nodeCount (document : Document) (heap : Heap) : Nat := document.allocator.nodeCount heap

/-- The text of a document for a programmer. -/
def debug (document : Document) (heap : Heap) : String :=
  let parseError := match document.parseError with
    | some error => "Some(" ++ error.debug ++ ")"
    | none => "None"
  "Document \x7b root: " ++ document.root.debug heap ++ ", nodes: Some(" ++
    toString (document.nodeCount heap) ++ "), parse_error: " ++ parseError ++ " \x7d"

end Document

end JsonOverlay
