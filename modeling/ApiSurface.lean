import ApiSurface.Artifact
import ApiSurface.Artifact.RecordCodec
import ApiSurface.Artifact.Store
import ApiSurface.Artifact.TypeCodec
import ApiSurface.Bracket
import ApiSurface.Bracket.TopLevel
import ApiSurface.CallGraph.Basic
import ApiSurface.CallGraph.Category
import ApiSurface.CallGraph.Dot
import ApiSurface.CallGraph.Listing
import ApiSurface.CallGraph.Reach
import ApiSurface.CommandLine.Options
import ApiSurface.CommandLine.OutputPath
import ApiSurface.CommandLine.Run
import ApiSurface.Config
import ApiSurface.Corpus
import ApiSurface.Decimal
import ApiSurface.Doc.Argument
import ApiSurface.Doc.Comment
import ApiSurface.Doc.Finding
import ApiSurface.Doc.Report
import ApiSurface.EventLog
import ApiSurface.Fault
import ApiSurface.FileTree.Basic
import ApiSurface.FileTree.Path
import ApiSurface.FileTree.Sources
import ApiSurface.FileTree.Write
import ApiSurface.Json.Decode
import ApiSurface.Json.Literal
import ApiSurface.Json.Number
import ApiSurface.Json.Reader
import ApiSurface.Json.Value
import ApiSurface.Main
import ApiSurface.Modifiers
import ApiSurface.NameMap
import ApiSurface.Parameter
import ApiSurface.Parameter.Reader
import ApiSurface.Proofs.Artifact.RecordCodec
import ApiSurface.Proofs.Artifact.Store
import ApiSurface.Proofs.Artifact.TypeCodec
import ApiSurface.Proofs.CallGraph.Dot
import ApiSurface.Proofs.CallGraph.DotReader
import ApiSurface.Proofs.CallGraph.Listing
import ApiSurface.Proofs.CallGraph.Merge
import ApiSurface.Proofs.CallGraph.Reach
import ApiSurface.Proofs.CommandLine.DocCheck
import ApiSurface.Proofs.CommandLine.OutputPath
import ApiSurface.Proofs.CommandLine.Run
import ApiSurface.Proofs.CommandLine.Writes
import ApiSurface.Proofs.Corpus
import ApiSurface.Proofs.Doc.Argument
import ApiSurface.Proofs.Doc.Comment
import ApiSurface.Proofs.Doc.Finding
import ApiSurface.Proofs.Doc.Report
import ApiSurface.Proofs.FileTree.Atomic
import ApiSurface.Proofs.FileTree.Folder
import ApiSurface.Proofs.FileTree.Frame
import ApiSurface.Proofs.FileTree.Path
import ApiSurface.Proofs.FileTree.Sources
import ApiSurface.Proofs.FileTree.Write
import ApiSurface.Proofs.Json.Decode
import ApiSurface.Proofs.Json.Literal
import ApiSurface.Proofs.Json.RoundTrip
import ApiSurface.Proofs.LineEndings.Function
import ApiSurface.Proofs.LineEndings.Parameter
import ApiSurface.Proofs.LineEndings.Reader
import ApiSurface.Proofs.LineEndings.Source
import ApiSurface.Proofs.LineEndings.Text
import ApiSurface.Proofs.LineEndings.TopLevel
import ApiSurface.Proofs.LineEndings.TypeExpr
import ApiSurface.Proofs.Local
import ApiSurface.Proofs.Modifiers
import ApiSurface.Proofs.NameMap
import ApiSurface.Proofs.Nesting
import ApiSurface.Proofs.Nesting.Balance
import ApiSurface.Proofs.Nesting.Group
import ApiSurface.Proofs.Nesting.Keyword
import ApiSurface.Proofs.Nesting.Pieces
import ApiSurface.Proofs.Nesting.Scanners
import ApiSurface.Proofs.Parameter
import ApiSurface.Proofs.Parameter.Spelling
import ApiSurface.Proofs.Shape.Function
import ApiSurface.Proofs.Shape.Source
import ApiSurface.Proofs.Shape.TypeExpr
import ApiSurface.Proofs.Source.Arguments
import ApiSurface.Proofs.Source.Block
import ApiSurface.Proofs.Source.BlockHead
import ApiSurface.Proofs.Source.Function
import ApiSurface.Proofs.Source.Header
import ApiSurface.Proofs.Source.Lead
import ApiSurface.Proofs.Source.Outcome
import ApiSurface.Proofs.Source.Owner
import ApiSurface.Proofs.Source.Piece
import ApiSurface.Proofs.Source.Progress
import ApiSurface.Proofs.Source.Recovery
import ApiSurface.Proofs.Source.Rejection
import ApiSurface.Proofs.Source.Remark
import ApiSurface.Proofs.Source.RoundTrip
import ApiSurface.Proofs.Source.Spans
import ApiSurface.Proofs.Text
import ApiSurface.Proofs.Text.Pattern
import ApiSurface.Proofs.Text.Trim
import ApiSurface.Proofs.Text.WordBreak
import ApiSurface.Proofs.TypeExpr.Edges
import ApiSurface.Proofs.TypeExpr.Layer
import ApiSurface.Proofs.TypeExpr.Level
import ApiSurface.Proofs.TypeExpr.Local
import ApiSurface.Proofs.TypeExpr.RoundTrip
import ApiSurface.Proofs.TypeExpr.WellFormed
import ApiSurface.Proofs.TypeExpr.Words
import ApiSurface.Reader
import ApiSurface.Record
import ApiSurface.Report
import ApiSurface.Sha256
import ApiSurface.Source.Function
import ApiSurface.Source.Lead
import ApiSurface.Source.Outcome
import ApiSurface.Source.Piece
import ApiSurface.Source.Target
import ApiSurface.Text.Blank
import ApiSurface.Text.Digit
import ApiSurface.Text.Lead
import ApiSurface.Text.Line
import ApiSurface.Text.Scan
import ApiSurface.Text.Word
import ApiSurface.Toml.Date
import ApiSurface.Toml.Number
import ApiSurface.Toml.Reader
import ApiSurface.Toml.Text
import ApiSurface.Toml.Value
import ApiSurface.TypeExpr
import ApiSurface.TypeExpr.Printer
import ApiSurface.TypeExpr.Progress
import ApiSurface.TypeExpr.Reader
