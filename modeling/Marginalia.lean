import Marginalia.Annotation.Insertion
import Marginalia.Annotation.Production
import Marginalia.Annotation.Rewrite
import Marginalia.Annotation.Run
import Marginalia.Annotation.Target
import Marginalia.Block.Basic
import Marginalia.Block.Removal
import Marginalia.Block.Rewrite
import Marginalia.Block.Tag
import Marginalia.Command.Basic
import Marginalia.Command.Inspect
import Marginalia.Command.Report
import Marginalia.CommandLine.Arguments
import Marginalia.CommandLine.Run
import Marginalia.Comment.Mailers
import Marginalia.Comment.Routes
import Marginalia.Comment.Schema
import Marginalia.Data.Document
import Marginalia.Data.Json.Printer
import Marginalia.Data.Json.Reader
import Marginalia.Data.Shape
import Marginalia.Data.Value
import Marginalia.Data.Yaml.Printer
import Marginalia.Data.Yaml.Reader
import Marginalia.Data.Yaml.Scalar
import Marginalia.Declaration.Basic
import Marginalia.Declaration.Index
import Marginalia.Diff.Align
import Marginalia.Diff.Compact
import Marginalia.Diff.Script
import Marginalia.Diff.Unified
import Marginalia.Directive
import Marginalia.Fault
import Marginalia.FileTree.Basic
import Marginalia.FileTree.Path
import Marginalia.FileTree.Search
import Marginalia.Glob
import Marginalia.Main
import Marginalia.Pattern.Basic
import Marginalia.Pattern.CharSet
import Marginalia.Pattern.Reader
import Marginalia.Placement.Basic
import Marginalia.Placement.Batch
import Marginalia.Proofs.Annotation.Accounting
import Marginalia.Proofs.Annotation.Anchoring
import Marginalia.Proofs.Annotation.Exactness
import Marginalia.Proofs.Annotation.Exclusion
import Marginalia.Proofs.Annotation.Idempotence
import Marginalia.Proofs.Annotation.Overwriting
import Marginalia.Proofs.Annotation.Preservation
import Marginalia.Proofs.Annotation.Rehearsal
import Marginalia.Proofs.Annotation.Settling
import Marginalia.Proofs.Annotation.Skipping
import Marginalia.Proofs.Annotation.Straying
import Marginalia.Proofs.Command.Clearing
import Marginalia.Proofs.Placement.Withdrawing
import Marginalia.Proofs.Ruby.Nesting
import Marginalia.Proofs.Snapshot.Failing
import Marginalia.Ruby.Frame
import Marginalia.Ruby.Literal
import Marginalia.Ruby.Outline
import Marginalia.Ruby.Reader
import Marginalia.Ruby.Word
import Marginalia.Settings.Basic
import Marginalia.Settings.Store
import Marginalia.Snapshot.Fetched
import Marginalia.Snapshot.Mailers
import Marginalia.Snapshot.Routes
import Marginalia.Snapshot.Schema
import Marginalia.Source.Naming
import Marginalia.Source.Resolver
import Marginalia.Text.Basic
import Marginalia.Text.Blank
import Marginalia.Text.Padding
import Marginalia.Unicode.Category
import Marginalia.Unicode.LetterCase
import Marginalia.Unicode.Property
import Marginalia.Unicode.Script
import Marginalia.Unicode.Table
import Marginalia.Proofs.Annotation.Confining
import Marginalia.Proofs.Block.Exhausting
import Marginalia.Proofs.Block.Tracking
import Marginalia.Proofs.Placement.Declaring
import Marginalia.Proofs.Placement.Refitting
import Marginalia.Proofs.Placement.Returning
import Marginalia.Proofs.Block.Exchanging
import Marginalia.Proofs.Block.Recovering
import Marginalia.Proofs.Block.Commuting
import Marginalia.Proofs.Placement.Heading
import Marginalia.Proofs.Ruby.Qualifying
import Marginalia.Proofs.Source.Scanning
import Marginalia.Proofs.Snapshot.Isolating
import Marginalia.Proofs.FileTree.Ordering
import Marginalia.Proofs.FileTree.Walking
import Marginalia.Proofs.Source.Underscoring
import Marginalia.Proofs.Source.Ranking
import Marginalia.Proofs.Block.Converting
import Marginalia.Proofs.Block.Slicing
import Marginalia.Proofs.Comment.Aligning
import Marginalia.Proofs.Data.Shaping
import Marginalia.Proofs.Snapshot.Recording
import Marginalia.Proofs.Data.Numerals
import Marginalia.Proofs.Data.Rereading
import Marginalia.Proofs.Data.Quoting
import Marginalia.Proofs.Data.Chomping
import Marginalia.Proofs.Data.Listing
import Marginalia.Proofs.Settings.Saving
