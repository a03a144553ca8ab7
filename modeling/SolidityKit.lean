import SolidityKit.CommandLine.Arguments
import SolidityKit.CommandLine.BackfillTool
import SolidityKit.CommandLine.CoverageTool
import SolidityKit.CommandLine.FlattenTool
import SolidityKit.CommandLine.Help
import SolidityKit.CommandLine.Tool
import SolidityKit.CommandLine.TrimTool
import SolidityKit.Coverage.Summary
import SolidityKit.Coverage.SummaryFile
import SolidityKit.Coverage.Tracefile
import SolidityKit.Files.Changes
import SolidityKit.Files.Listing
import SolidityKit.Files.Path
import SolidityKit.Files.Tree
import SolidityKit.Flatten.Discovery
import SolidityKit.Flatten.Fault
import SolidityKit.Flatten.Jobs
import SolidityKit.Json.Printer
import SolidityKit.Json.Reader
import SolidityKit.Main
import SolidityKit.Metadata.Artifacts
import SolidityKit.Metadata.Trim
import SolidityKit.Number.Binary64
import SolidityKit.Number.Decimal
import SolidityKit.Number.FloatText
import SolidityKit.Number.Numeral
import SolidityKit.Pattern
import SolidityKit.Proofs.Pattern.Pieces
import SolidityKit.Proofs.Pattern.Spans
import SolidityKit.Proofs.Pattern.Ways
import SolidityKit.Proofs.Receipts.Round
import SolidityKit.Proofs.Receipts.Rounds
import SolidityKit.Proofs.Source.BlankRuns
import SolidityKit.Proofs.Source.BlockComments
import SolidityKit.Proofs.Source.Canonical
import SolidityKit.Proofs.Source.CanonicalImports
import SolidityKit.Proofs.Source.CodeLines
import SolidityKit.Proofs.Source.Directives
import SolidityKit.Proofs.Source.Imports
import SolidityKit.Proofs.Source.LineFilter
import SolidityKit.Proofs.Source.LineStages
import SolidityKit.Proofs.Source.OpenImports
import SolidityKit.Proofs.Source.Parts
import SolidityKit.Proofs.Source.RelativeImports
import SolidityKit.Proofs.Source.Shapes
import SolidityKit.Proofs.Source.SharedImports
import SolidityKit.Proofs.Source.SingleDirective
import SolidityKit.Proofs.Source.SparedLines
import SolidityKit.Proofs.Text.Lines
import SolidityKit.Proofs.Text.Trim
import SolidityKit.Proofs.Text.Words
import SolidityKit.Receipts.Backfill
import SolidityKit.Receipts.RecordFile
import SolidityKit.Rpc.Client
import SolidityKit.Rpc.HostAddress
import SolidityKit.Rpc.Url
import SolidityKit.Settings.Basic
import SolidityKit.Settings.File
import SolidityKit.Source.Merge
import SolidityKit.Source.Normalize
import SolidityKit.Source.Shapes
import SolidityKit.Text.Blank
import SolidityKit.Text.CodePoint
import SolidityKit.Text.DecimalDigit
import SolidityKit.Text.HexDigit
import SolidityKit.Text.Lines
import SolidityKit.Text.LowerCase
import SolidityKit.Text.Printable
import SolidityKit.Text.Quoted
import SolidityKit.Text.Utf8
import SolidityKit.Value.Basic
import SolidityKit.Value.Display
import SolidityKit.Value.Overlay
import SolidityKit.Workspace.Basic
import SolidityKit.Workspace.Failure
import SolidityKit.Workspace.FileAccess
import SolidityKit.Workspace.Project
import SolidityKit.Workspace.VariableFile
import SolidityKit.Yaml.Cursor
import SolidityKit.Yaml.Document
import SolidityKit.Yaml.Fault
import SolidityKit.Yaml.Node
import SolidityKit.Yaml.PlainKind
import SolidityKit.Yaml.ScalarText
import SolidityKit.Yaml.Timestamp
import SolidityKit.Yaml.Token
import SolidityKit.Proofs.Source.LiveImports
import SolidityKit.Proofs.Source.KeptImports
import SolidityKit.Proofs.Workspace.Actions
import SolidityKit.Proofs.Files.Walks
import SolidityKit.Proofs.Files.Places
import SolidityKit.Proofs.Files.Growth
import SolidityKit.Proofs.Workspace.Writing
import SolidityKit.Proofs.Files.Paths
import SolidityKit.Proofs.Workspace.Rewriting
import SolidityKit.Proofs.Workspace.Locations
import SolidityKit.Proofs.Flatten.Jobs
import SolidityKit.Proofs.Flatten.Outputs
import SolidityKit.Proofs.Files.Listing
import SolidityKit.Proofs.Flatten.Rerun
import SolidityKit.Proofs.Files.Plain
import SolidityKit.Proofs.Files.Frames
import SolidityKit.Proofs.Flatten.Outcomes
import SolidityKit.Proofs.Flatten.JobPaths
import SolidityKit.Proofs.Flatten.Runs
import SolidityKit.Proofs.Files.Selecting
import SolidityKit.Proofs.Receipts.Isolation
import SolidityKit.Proofs.Flatten.MockPartition
import SolidityKit.Proofs.Rpc.Replies
import SolidityKit.Proofs.Receipts.Answers
import SolidityKit.Proofs.Number.Numerals
import SolidityKit.Proofs.Coverage.EntryLines
import SolidityKit.Proofs.Coverage.Records
import SolidityKit.Proofs.Value.Entries
import SolidityKit.Proofs.Receipts.Asking
import SolidityKit.Proofs.Flatten.MergedOnce
import SolidityKit.Proofs.Settings.Fields
import SolidityKit.Proofs.Yaml.Keys
import SolidityKit.Proofs.Settings.Layers
import SolidityKit.Proofs.Json.Printing
import SolidityKit.Proofs.Workspace.Failures
import SolidityKit.Proofs.Workspace.Finding
import SolidityKit.Proofs.Settings.Loading
import SolidityKit.Proofs.CommandLine.Values
import SolidityKit.Proofs.CommandLine.Codes
import SolidityKit.Proofs.CommandLine.Endings
import SolidityKit.Proofs.Source.Batches
import SolidityKit.Proofs.Source.RepeatedImports
import SolidityKit.Proofs.Source.BlankLines
import SolidityKit.Proofs.Files.SortedListing
import SolidityKit.Proofs.Files.Relisting
import SolidityKit.Proofs.Flatten.SortedDiscovery
import SolidityKit.Proofs.Coverage.UnfinishedRecords
import SolidityKit.Proofs.Source.CommentScan
import SolidityKit.Proofs.Metadata.Trimmed
import SolidityKit.Proofs.Json.Shown
import SolidityKit.Proofs.Files.Overwriting
import SolidityKit.Proofs.Workspace.ArtifactPaths
import SolidityKit.Proofs.Metadata.Fates
import SolidityKit.Proofs.Metadata.TrimRuns
import SolidityKit.Proofs.Metadata.SecondRun
import SolidityKit.Proofs.Coverage.Percentages
import SolidityKit.Proofs.Coverage.Concatenation
import SolidityKit.Proofs.Coverage.SummaryFiles
import SolidityKit.Proofs.Settings.Acceptance
import SolidityKit.Proofs.Value.Overlays
import SolidityKit.Proofs.Rpc.UrlParts
import SolidityKit.Proofs.Rpc.NormalUrls
import SolidityKit.Proofs.Workspace.VariableFiles
import SolidityKit.Proofs.Workspace.RealPaths
import SolidityKit.Proofs.Workspace.PinnedRoot
import SolidityKit.Proofs.Text.LineEnds
import SolidityKit.Proofs.Source.WholeLines
import SolidityKit.Proofs.Source.NormalForm
