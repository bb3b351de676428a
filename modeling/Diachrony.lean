import Diachrony.Applier.Basic
import Diachrony.Config.Reading
import Diachrony.Inventory.Build
import Diachrony.Proofs.Pattern.Adequacy
import Diachrony.Proofs.Pattern.Bounds
import Diachrony.Proofs.Pattern.Search
import Diachrony.Proofs.Word.Reversal
import Diachrony.Proofs.Phrase.Reversal
import Diachrony.Proofs.Pattern.Lookbehind
import Diachrony.Proofs.Change.Tiling
import Diachrony.Proofs.Change.Edits
import Diachrony.Proofs.Change.Acceptance
import Diachrony.Proofs.Change.Selection
import Diachrony.Proofs.Change.Splice
import Diachrony.Proofs.Change.AtOnce
import Diachrony.Proofs.Phrase.Joining
import Diachrony.Proofs.Change.Products
import Diachrony.Proofs.Change.SpliceOne
import Diachrony.Proofs.Change.Directed
import Diachrony.Proofs.Change.Rules
import Diachrony.Proofs.Change.Pairing
import Diachrony.Proofs.Pipeline.Course
import Diachrony.Proofs.Applier.Crashes
import Diachrony.Proofs.Language.Limits
import Diachrony.Proofs.Change.Limits
import Diachrony.Proofs.Linking.Limits
import Diachrony.Proofs.Pipeline.Limits
import Diachrony.Proofs.Applier.Limits
import Diachrony.Proofs.Phrase.Segments
import Diachrony.Proofs.Change.Frame
import Diachrony.Proofs.Pattern.Reach
import Diachrony.Proofs.Change.Narrow
import Diachrony.Proofs.Change.Hidden
import Diachrony.Proofs.Change.Alike
import Diachrony.Proofs.Change.Branches
import Diachrony.Proofs.Pattern.Hints
import Diachrony.Proofs.Pattern.Nested
import Diachrony.Proofs.Change.PairedSearch
import Diachrony.Proofs.Change.Pieces
import Diachrony.Proofs.Agreement
import Diachrony.Proofs.Change.Firing
import Diachrony.Proofs.Linking.Scopes
import Diachrony.Proofs.Linking.Places
import Diachrony.Proofs.Linking.Inlining
import Diachrony.Proofs.Pipeline.Outcome
import Diachrony.Proofs.Pipeline.Stages
import Diachrony.Proofs.Linking.Course
import Diachrony.Proofs.Linking.Lockstep
import Diachrony.Proofs.Linking.Successive
import Diachrony.Proofs.Applier.Undivided
import Diachrony.Proofs.Pipeline.Resuming
import Diachrony.Proofs.Applier.Resuming
import Diachrony.Proofs.Applier.Cleanups
import Diachrony.Proofs.Applier.Blocks
import Diachrony.Proofs.Applier.References
import Diachrony.Proofs.Applier.Tracing
import Diachrony.Proofs.Linking.Entries
import Diachrony.Proofs.Linking.Statements
import Diachrony.Proofs.Linking.Needs
import Diachrony.Proofs.Linking.Resolution
import Diachrony.Proofs.Linking.Accepted
import Diachrony.Proofs.Linking.Names
import Diachrony.Proofs.Linking.Plain
import Diachrony.Proofs.Applier.Filters
import Diachrony.Proofs.Linking.Checking
import Diachrony.Proofs.Linking.Deferred
import Diachrony.Proofs.Pipeline.Idle
import Diachrony.Proofs.Pipeline.Likeness
import Diachrony.Proofs.Linking.Inert
import Diachrony.Proofs.Linking.Insertion
import Diachrony.Proofs.Applier.Compiling
import Diachrony.Proofs.Applier.Inert
import Diachrony.Proofs.Unicode.Stability
import Diachrony.Proofs.Inventory.Clusters
import Diachrony.Proofs.Inventory.Rounds
import Diachrony.Proofs.Inventory.Building
import Diachrony.Proofs.Inventory.Overlays
import Diachrony.Proofs.Inventory.Spelling
import Diachrony.Proofs.Word.Joining
import Diachrony.Proofs.Word.Likeness
import Diachrony.Proofs.Phrase.Retelling
import Diachrony.Proofs.Change.Found
import Diachrony.Proofs.Change.Echo
import Diachrony.Proofs.Word.Kept
import Diachrony.Proofs.Phrase.Kept
import Diachrony.Proofs.Change.Untouched
import Diachrony.Proofs.Phrase.Steps
import Diachrony.Proofs.Change.Matches
import Diachrony.Proofs.Change.Exhaustive
import Diachrony.Proofs.Change.Forwards
import Diachrony.Proofs.Change.Backwards
import Diachrony.Proofs.Change.ContextFree
import Diachrony.Proofs.Change.Vetoes
import Diachrony.Proofs.Pattern.Intersections
import Diachrony.Proofs.Language.Division
import Diachrony.Proofs.Language.Redivision
import Diachrony.Proofs.Inventory.Progress
import Diachrony.Proofs.Inventory.Ending
import Diachrony.Proofs.Inventory.Marks
import Diachrony.Proofs.Change.Propagation
import Diachrony.Proofs.Change.Reordering
import Diachrony.Proofs.Pattern.Captures
import Diachrony.Proofs.Change.StaysUndivided
import Diachrony.Proofs.Change.Unfiltered
import Diachrony.Proofs.Change.Settling
import Diachrony.Proofs.Inventory.Turns
import Diachrony.Proofs.Inventory.Combinations
import Diachrony.Proofs.Inventory.Updates
import Diachrony.Proofs.Inventory.Inheriting
import Diachrony.Proofs.Linking.Alike
import Diachrony.Proofs.Linking.Mending
import Diachrony.Proofs.Linking.Suggestions
import Diachrony.Proofs.Pattern.Edges
import Diachrony.Proofs.Change.Idle
import Diachrony.Proofs.Linking.Abreast
import Diachrony.Proofs.Linking.Appending
import Diachrony.Proofs.Applier.Changes
import Diachrony.Proofs.Applier.Appending
import Diachrony.Proofs.Trace.History
import Diachrony.Proofs.Trace.Grammar
import Diachrony.Proofs.Trace.Decoding
import Diachrony.Proofs.Pipeline.Snapshots
import Diachrony.Proofs.Applier.Columns
import Diachrony.Proofs.Linking.Chains
