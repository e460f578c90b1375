import KeywordTree.Choice
import KeywordTree.Columns
import KeywordTree.Command
import KeywordTree.CommandLine.Arguments
import KeywordTree.CommandLine.Run
import KeywordTree.Config
import KeywordTree.Error
import KeywordTree.Event
import KeywordTree.Files.Directory
import KeywordTree.Files.Host
import KeywordTree.Generator
import KeywordTree.Grouping
import KeywordTree.Listing
import KeywordTree.Main
import KeywordTree.Report.Basic
import KeywordTree.Report.Number
import KeywordTree.Sink
import KeywordTree.Text.Blank
import KeywordTree.Text.Bytes
import KeywordTree.Text.Lines
import KeywordTree.Tree.Basic
import KeywordTree.Tree.Build
import KeywordTree.Tree.Census
import KeywordTree.Tree.Equality
import KeywordTree.Verification
import KeywordTree.Word
import KeywordTree.WordList.Basic
import KeywordTree.WordList.Load
import KeywordTree.WordList.Standard
import KeywordTree.Proofs.Measure
import KeywordTree.Proofs.Choice
import KeywordTree.Proofs.Encoding
import KeywordTree.Proofs.Growth
import KeywordTree.Proofs.BuildOutcome
import KeywordTree.Proofs.Routes
import KeywordTree.Proofs.Coverage
import KeywordTree.Proofs.Recognition
import KeywordTree.Proofs.Inspection
import KeywordTree.Proofs.Canonical
import KeywordTree.Proofs.Delivery
import KeywordTree.Proofs.Relabelling
import KeywordTree.Proofs.Thresholds
import KeywordTree.Proofs.Census
import KeywordTree.Proofs.Probes
import KeywordTree.Proofs.Verification
import KeywordTree.Proofs.Files
import KeywordTree.Proofs.Command
import KeywordTree.Proofs.Lines
import KeywordTree.Proofs.Conservation
import KeywordTree.Proofs.WordList.Entries
import KeywordTree.Proofs.WordList.Recognition
import KeywordTree.Proofs.WordList.Acceptance
import KeywordTree.Proofs.WordList.Faults
import KeywordTree.Proofs.WordList.Features
import KeywordTree.Proofs.WordList.Layout
import KeywordTree.Proofs.Code.Statement
import KeywordTree.Proofs.Code.Program
import KeywordTree.Proofs.Code.Listing
import KeywordTree.Proofs.Code.Execution
import KeywordTree.Proofs.Shape
import KeywordTree.Proofs.Independence
import KeywordTree.Proofs.Duplicates
import KeywordTree.Proofs.Failures
import KeywordTree.Proofs.Indentation
import KeywordTree.Proofs.Blocks
import KeywordTree.Proofs.Code.Decoding
import KeywordTree.Proofs.Consumption
import KeywordTree.Proofs.Partition
import KeywordTree.Proofs.Statistics
