import JsonOverlay.Workspace
import JsonOverlay.CommandLine.FileSystem
import JsonOverlay.Main
import JsonOverlay.Sink
import JsonOverlay.Tree.Export
import JsonOverlay.Proofs.Arena.Layout
import JsonOverlay.Proofs.Arena.Growth
import JsonOverlay.Proofs.Arena.Reshape
import JsonOverlay.Proofs.Arena.OneTree
import JsonOverlay.Proofs.Heap
import JsonOverlay.Proofs.Value.Write
import JsonOverlay.Proofs.Workspace.OneTree
import JsonOverlay.Proofs.Children
import JsonOverlay.Proofs.Editing.Change
import JsonOverlay.Proofs.Editing.Program
import JsonOverlay.Proofs.Reads.Changing
import JsonOverlay.Proofs.Reads.Noticed
import JsonOverlay.Proofs.Document
import JsonOverlay.Proofs.Grammar
import JsonOverlay.Proofs.Grammar.Numeral
import JsonOverlay.Proofs.Grammar.Scalar
import JsonOverlay.Proofs.Grammar.Tokens
import JsonOverlay.Proofs.Grammar.Layout
import JsonOverlay.Proofs.Grammar.Strict
import JsonOverlay.Proofs.Grammar.Commas
import JsonOverlay.Proofs.Grammar.Comments
import JsonOverlay.Proofs.Grammar.Parse
import JsonOverlay.Proofs.Decimal
import JsonOverlay.Proofs.Grammar.Nesting
import JsonOverlay.Proofs.Value.Agreement
import JsonOverlay.Proofs.Workspace.Keyed
import JsonOverlay.Proofs.Writer.Refusals
import JsonOverlay.Proofs.Workspace.Lookups
import JsonOverlay.Proofs.Arena.Ledger
import JsonOverlay.Proofs.Arena.Release
import JsonOverlay.Proofs.Pointer
import JsonOverlay.Proofs.Editing.Pointer
import JsonOverlay.Proofs.CommandLine
import JsonOverlay.Proofs.Workspace.Copies
import JsonOverlay.Proofs.Workspace.Traced
import JsonOverlay.Proofs.Workspace.Overwrite
import JsonOverlay.Proofs.Workspace.Released
import JsonOverlay.Proofs.Workspace.Append
import JsonOverlay.Proofs.Tree.Fold
import JsonOverlay.Proofs.Value.Descent
import JsonOverlay.Proofs.Workspace.Descent
import JsonOverlay.Proofs.Value.Pointer
import JsonOverlay.Proofs.Workspace.Pointer
import JsonOverlay.Reader.InPlace
import JsonOverlay.Proofs.Lenient.Comments
import JsonOverlay.Proofs.Lenient.Commas
import JsonOverlay.Proofs.Lenient.Unchanged
import JsonOverlay.Proofs.Lenient.Bytes
import JsonOverlay.Proofs.Lenient.InPlace
import JsonOverlay.Proofs.Lenient.Relax
import JsonOverlay.Proofs.Pointer.Paths
import JsonOverlay.Portable
import JsonOverlay.Proofs.Portable.Levels
import JsonOverlay.Proofs.Portable.Exports
import JsonOverlay.Proofs.Portable.Alike
import JsonOverlay.Proofs.Workspace.Portable
import JsonOverlay.Number.Comparison
import JsonOverlay.Proofs.Double
import JsonOverlay.Proofs.Number.Equality
import JsonOverlay.Proofs.Tree.Equality
import JsonOverlay.Proofs.Workspace.Equality
import JsonOverlay.Proofs.Event.Delivery
import JsonOverlay.Proofs.Workspace.Walk
import JsonOverlay.Proofs.Writer.Lines
import JsonOverlay.Proofs.Writer.Caching
import JsonOverlay.Number.Ranges
import JsonOverlay.Proofs.Number.Ranges
import JsonOverlay.Proofs.Lenient.Location
import JsonOverlay.Proofs.Value.Anchors
import JsonOverlay.Proofs.Value.Moves
import JsonOverlay.Proofs.Workspace.Anchors
import JsonOverlay.Value.Offsets
import JsonOverlay.Proofs.Value.Offsets
import JsonOverlay.Children.Program
import JsonOverlay.Proofs.Children.Tables
import JsonOverlay.Proofs.Children.Program
import JsonOverlay.Proofs.Value.Copied
import JsonOverlay.Proofs.Children.Caches
