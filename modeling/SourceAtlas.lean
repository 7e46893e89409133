import SourceAtlas.Analysis.Course
import SourceAtlas.Analysis.Extract
import SourceAtlas.Analysis.Resolve
import SourceAtlas.Analysis.Run
import SourceAtlas.Ascending
import SourceAtlas.CommandLine.Arguments
import SourceAtlas.CommandLine.Run
import SourceAtlas.Config
import SourceAtlas.Connection
import SourceAtlas.Connection.Move
import SourceAtlas.Connection.Stage
import SourceAtlas.Decimal.Binary64
import SourceAtlas.Decimal.Shortest
import SourceAtlas.Disk.Basic
import SourceAtlas.Disk.Error
import SourceAtlas.Disk.Walk
import SourceAtlas.Failure
import SourceAtlas.Folder
import SourceAtlas.Folder.Index
import SourceAtlas.Graph.Components
import SourceAtlas.Graph.Numbering
import SourceAtlas.Ignore
import SourceAtlas.Json.Basic
import SourceAtlas.Json.Draft
import SourceAtlas.Json.Writer
import SourceAtlas.Load
import SourceAtlas.Main
import SourceAtlas.Outline
import SourceAtlas.Path
import SourceAtlas.Pattern.Glob
import SourceAtlas.Pattern.Regex
import SourceAtlas.Project
import SourceAtlas.Proofs.Graph.Listing
import SourceAtlas.Proofs.Graph.SourceOrder
import SourceAtlas.Server.Basic
import SourceAtlas.Server.CallError
import SourceAtlas.Span
import SourceAtlas.SymbolKind
import SourceAtlas.Text.Blank
import SourceAtlas.Text.Invisible
import SourceAtlas.Text.Lines
import SourceAtlas.Text.Number
import SourceAtlas.Text.Quoted
import SourceAtlas.Text.Utf8
import SourceAtlas.Toml.Document
import SourceAtlas.Toml.Token
import SourceAtlas.Toml.Value
import SourceAtlas.Total
import SourceAtlas.Tree.Artifact
import SourceAtlas.Tree.Basic
import SourceAtlas.Tree.Dependencies
import SourceAtlas.Tree.Export
import SourceAtlas.Tree.Metrics
import SourceAtlas.Tree.Order
import SourceAtlas.Tree.Snapshot
import SourceAtlas.Tree.Walk
import SourceAtlas.Uri
import SourceAtlas.Wire.Frame
import SourceAtlas.Wire.Message
import SourceAtlas.Wire.Outline
import SourceAtlas.Wire.Request
import SourceAtlas.Wire.Span
import SourceAtlas.Proofs.Graph.Condensation
import SourceAtlas.Proofs.Graph.Numbering
import SourceAtlas.Proofs.Tree.WellFormed
import SourceAtlas.Proofs.Tree.History
import SourceAtlas.Proofs.Tree.Components
import SourceAtlas.Proofs.Tree.Dependencies
import SourceAtlas.Proofs.Tree.Order
import SourceAtlas.Proofs.Tree.Containment
import SourceAtlas.Proofs.Analysis.Arrivals
import SourceAtlas.Proofs.Tree.Cycles
import SourceAtlas.Proofs.Tree.Balance
import SourceAtlas.Proofs.Analysis.Recording
import SourceAtlas.Proofs.Analysis.References
import SourceAtlas.Proofs.Analysis.Entering
import SourceAtlas.Proofs.Analysis.Schedule
import SourceAtlas.Proofs.Analysis.Completion
import SourceAtlas.Proofs.Analysis.Sequential
import SourceAtlas.Proofs.Analysis.Halting
import SourceAtlas.Proofs.Analysis.Cancellation
import SourceAtlas.Proofs.Analysis.Following
import SourceAtlas.Proofs.Analysis.Sparing
import SourceAtlas.Proofs.Analysis.Abreast
import SourceAtlas.Proofs.Analysis.Isolation
import SourceAtlas.Proofs.Wire.Outline
import SourceAtlas.Proofs.Wire.Result
import SourceAtlas.Proofs.Connection.Trace
import SourceAtlas.Proofs.Connection.Actions
import SourceAtlas.Proofs.Connection.Invariant
import SourceAtlas.Proofs.Connection.Run
import SourceAtlas.Proofs.Connection.Closing
import SourceAtlas.Proofs.Connection.Interleaving
import SourceAtlas.Proofs.Connection.Events
import SourceAtlas.Proofs.Wire.Frame
import SourceAtlas.Proofs.Text.Utf8
import SourceAtlas.Proofs.Text.Lossy
import SourceAtlas.Proofs.Path
import SourceAtlas.Proofs.Uri
import SourceAtlas.Proofs.Ascending
import SourceAtlas.Proofs.Disk
import SourceAtlas.Proofs.Disk.Walk
import SourceAtlas.Proofs.Folder.Walk
import SourceAtlas.Proofs.Folder.Index
import SourceAtlas.Proofs.Folder.Entries
import SourceAtlas.Proofs.Load
import SourceAtlas.Proofs.Tree.Branch
import SourceAtlas.Proofs.Tree.Lines
import SourceAtlas.Proofs.Tree.FileTable
import SourceAtlas.Proofs.Tree.Readback
import SourceAtlas.Proofs.Analysis.Extracted
import SourceAtlas.Proofs.Analysis.Visiting
import SourceAtlas.Proofs.Analysis.Outlining
import SourceAtlas.Proofs.Project
import SourceAtlas.Proofs.Connection.Writing
import SourceAtlas.Proofs.Connection.Chatter
import SourceAtlas.Proofs.Connection.Shutdown
import SourceAtlas.Proofs.Analysis.Ending
import SourceAtlas.Proofs.Tree.Postorder
import SourceAtlas.Proofs.Analysis.Transcript
import SourceAtlas.Proofs.Tree.Criteria
import SourceAtlas.Proofs.Tree.Innermost
import SourceAtlas.Proofs.Tree.Sorted
import SourceAtlas.Proofs.Tree.Traversal
import SourceAtlas.Proofs.Tree.Measuring
import SourceAtlas.Proofs.Tree.Printed
import SourceAtlas.Proofs.Tree.Levels
import SourceAtlas.Proofs.Tree.Growth
import SourceAtlas.Proofs.Analysis.Joining
import SourceAtlas.Proofs.Wire.Header
import SourceAtlas.Proofs.Wire.Grammar
import SourceAtlas.Proofs.Uri.Spelling
import SourceAtlas.Proofs.Uri.RoundTrip
