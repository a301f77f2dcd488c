import BitCalculus.Archive
import BitCalculus.Bits.Pack
import BitCalculus.Bits.Reader
import BitCalculus.Bits.Writer
import BitCalculus.CommandLine.Options
import BitCalculus.CommandLine.Run
import BitCalculus.CommandLine.Shell
import BitCalculus.Fault
import BitCalculus.Files
import BitCalculus.Graph.Arena
import BitCalculus.Graph.Expr
import BitCalculus.Graph.Key
import BitCalculus.Graph.Printer
import BitCalculus.Graph.Resolve
import BitCalculus.Log
import BitCalculus.Main
import BitCalculus.Number.Binary64
import BitCalculus.Number.Reading
import BitCalculus.Number.Size
import BitCalculus.Number.Word
import BitCalculus.Program
import BitCalculus.Prompt
import BitCalculus.Proofs.Graph.Alpha
import BitCalculus.Proofs.Graph.Key
import BitCalculus.Proofs.Graph.Nodes
import BitCalculus.Proofs.Graph.Resolve
import BitCalculus.Proofs.Graph.Sharing
import BitCalculus.Proofs.Run.Calls
import BitCalculus.Proofs.Run.Meaning
import BitCalculus.Proofs.Run.Memoization
import BitCalculus.Proofs.Run.Moments
import BitCalculus.Proofs.Run.Once
import BitCalculus.Proofs.Run.Plain
import BitCalculus.Proofs.Run.Programs
import BitCalculus.Proofs.Run.Purity
import BitCalculus.Proofs.Run.Registry
import BitCalculus.Proofs.Run.Safety
import BitCalculus.Proofs.Run.Schedules
import BitCalculus.Proofs.Run.Simulation
import BitCalculus.Proofs.Source.Grammar
import BitCalculus.Report.Stats
import BitCalculus.Report.Trace
import BitCalculus.Run.Builtin
import BitCalculus.Run.Cache
import BitCalculus.Run.Eval
import BitCalculus.Run.Session
import BitCalculus.Run.Strategy
import BitCalculus.Run.Value
import BitCalculus.Run.World
import BitCalculus.Settings.Basic
import BitCalculus.Settings.Document
import BitCalculus.Source.Parse
import BitCalculus.Source.Token
import BitCalculus.Source.Tokenize
import BitCalculus.Source.Tree
import BitCalculus.Sources
import BitCalculus.Text.Bytes
import BitCalculus.Text.Glyph
import BitCalculus.Text.JsonString
import BitCalculus.Text.LowerCase
import BitCalculus.Text.Printable
import BitCalculus.Text.Quoted
import BitCalculus.Text.Utf8
import BitCalculus.Yaml.Cursor
import BitCalculus.Yaml.Node
import BitCalculus.Yaml.Problem
import BitCalculus.Yaml.Scalar
import BitCalculus.Yaml.Timestamp
import BitCalculus.Yaml.Token
import BitCalculus.Yaml.Value
import BitCalculus.Yaml.Written
import BitCalculus.Proofs.Graph.Coherence
import BitCalculus.Proofs.Graph.FreeNames
import BitCalculus.Proofs.Run.Canonicity
import BitCalculus.Proofs.Graph.Recompilation
import BitCalculus.Proofs.Run.Isolation
import BitCalculus.Proofs.Bits.Packing
import BitCalculus.Proofs.Bits.Reading
import BitCalculus.Proofs.Text.Glyph
import BitCalculus.Proofs.Run.Flags
import BitCalculus.Proofs.Source.Pushdown
import BitCalculus.Proofs.Source.Viability
import BitCalculus.Proofs.Prompt
import BitCalculus.Proofs.Source.Lines
import BitCalculus.Proofs.Sources
import BitCalculus.Proofs.Source.Spans
import BitCalculus.Proofs.Source.Printing
import BitCalculus.Proofs.Archive
import BitCalculus.Proofs.Loading
import BitCalculus.Proofs.Run.StaticErrors
import BitCalculus.Proofs.Run.Courses
import BitCalculus.Proofs.Run.Probes
import BitCalculus.Proofs.Run.Accounting
import BitCalculus.Proofs.Graph.Printing
import BitCalculus.Proofs.Graph.Readback
import BitCalculus.Proofs.Graph.Dump
import BitCalculus.Proofs.Report.Bodies
import BitCalculus.Proofs.Report.Ranking
import BitCalculus.Proofs.Settings
import BitCalculus.Proofs.Graph.Measures
import BitCalculus.Proofs.Run.Coincidence
import BitCalculus.Proofs.Text.Json
import BitCalculus.Proofs.Report.TraceFiles
import BitCalculus.Proofs.Run.Reachability
import BitCalculus.Proofs.Source.Positions
