import CommandLine.Console
import CommandLine.Declaration.Basic
import CommandLine.Definition.Brackets
import CommandLine.Definition.Mistake
import CommandLine.Definition.Segment
import CommandLine.Definition.Token
import CommandLine.Except
import CommandLine.Matching.Allocation
import CommandLine.Matching.Groups
import CommandLine.Matching.Match
import CommandLine.Matching.Misfit
import CommandLine.Matching.Occurrence
import CommandLine.Matching.Request
import CommandLine.Matching.Scan
import CommandLine.Program.Basic
import CommandLine.Program.Dispatch
import CommandLine.Program.Entry
import CommandLine.Program.Run
import CommandLine.Proofs.Definition.Segment
import CommandLine.Proofs.Definition.Token
import CommandLine.Proofs.Text.Words
import CommandLine.Registry.Basic
import CommandLine.Registry.Read
import CommandLine.Registry.Render
import CommandLine.Text.Basic
import CommandLine.Text.Blank
import CommandLine.Usage.Page
import CommandLine.Usage.Paragraph
import CommandLine.Proofs.Registry.WellFormed
import CommandLine.Proofs.Registry.Lookup
import CommandLine.Proofs.Registry.RoundTrip
import CommandLine.Proofs.Matching.Reading
import CommandLine.Proofs.Matching.Position
import CommandLine.Proofs.Matching.Allocation
import CommandLine.Proofs.Matching.Occurrence
import CommandLine.Proofs.Matching.Binding
import CommandLine.Proofs.Matching.Failure
import CommandLine.Proofs.Matching.Match
import CommandLine.Proofs.Program.Dispatch
import CommandLine.Proofs.Matching.Conservation
import CommandLine.Proofs.Matching.Priority
import CommandLine.Proofs.Registry.Letters
import CommandLine.Proofs.Registry.Consistent
import CommandLine.Proofs.Definition.Grammar
import CommandLine.Proofs.Registry.Grammar
import CommandLine.Proofs.Program.Spelling
import CommandLine.Proofs.Matching.Choice
import CommandLine.Proofs.Matching.History
import CommandLine.Proofs.Usage.Commands
import CommandLine.Proofs.Matching.Regrouping
import CommandLine.Proofs.Matching.Reordering
import CommandLine.Proofs.Registry.Insertion
import CommandLine.Proofs.Text.Insertion
import CommandLine.Proofs.Matching.Extension
import CommandLine.Proofs.Matching.Supply
import CommandLine.Proofs.Matching.Wording
import CommandLine.Proofs.Program.Order
import CommandLine.Proofs.Usage.Paragraph
import CommandLine.Proofs.Program.Preparation
import CommandLine.Proofs.Registry.Composition
import CommandLine.Proofs.Registry.Tracking
import CommandLine.Proofs.Registry.Balance
import CommandLine.Proofs.Usage.Positions
