import WorkflowCompiler.ActionType
import WorkflowCompiler.CommandLine.Run
import WorkflowCompiler.Compiler
import WorkflowCompiler.Main
import WorkflowCompiler.Proofs.Structure
import WorkflowCompiler.Report.Terminal
import WorkflowCompiler.Proofs.ForkJoin.Walks
import WorkflowCompiler.Proofs.ForkJoin.Balance
import WorkflowCompiler.Proofs.ForkJoin.Pairing
import WorkflowCompiler.Proofs.ForkJoin.CleanVisits
import WorkflowCompiler.Proofs.ForkJoin.Revisit
import WorkflowCompiler.Proofs.Blocks
import WorkflowCompiler.Proofs.ForkJoin.Blocks
import WorkflowCompiler.Proofs.Dict
import WorkflowCompiler.Proofs.Fields
import WorkflowCompiler.Proofs.Markup.Text
import WorkflowCompiler.Proofs.Markup.Printing
import WorkflowCompiler.Proofs.Markup.Checking
import WorkflowCompiler.Proofs.Markup.Reading
import WorkflowCompiler.Proofs.Markup.RoundTrip
import WorkflowCompiler.Proofs.Markup.Trees
import WorkflowCompiler.Proofs.Codec.Base64
import WorkflowCompiler.Proofs.Codec.Utf8
import WorkflowCompiler.Proofs.Codec.Zlib
import WorkflowCompiler.Proofs.Json.RoundTrip
import WorkflowCompiler.Proofs.Globals.Blob
import WorkflowCompiler.Proofs.Definition.Schema
import WorkflowCompiler.Proofs.Definition.Agreement
import WorkflowCompiler.Proofs.Definition.Build
import WorkflowCompiler.Proofs.Definition.Inheritance
import WorkflowCompiler.Proofs.Definition.Configuration
import WorkflowCompiler.Proofs.Compile
import WorkflowCompiler.Proofs.ActionConf
import WorkflowCompiler.Proofs.Markup.Faithful
import WorkflowCompiler.Proofs.Definition.Supply
import WorkflowCompiler.Proofs.Definition.Handing
import WorkflowCompiler.Proofs.Definition.Omission
import WorkflowCompiler.Proofs.Definition.Isolation
import WorkflowCompiler.Proofs.Definition.Sections
import WorkflowCompiler.Proofs.Chain
import WorkflowCompiler.Proofs.Definition.Supported
import WorkflowCompiler.Proofs.Definition.Parameters
import WorkflowCompiler.Proofs.Frame
import WorkflowCompiler.Proofs.Definition.Refilling
import WorkflowCompiler.Proofs.Repetition
import WorkflowCompiler.Proofs.ForkJoin.WellForked
import WorkflowCompiler.Proofs.ForkJoin.Completeness
import WorkflowCompiler.Proofs.ForkJoin.Reordering
import WorkflowCompiler.Proofs.ForkJoin.Recursion
import WorkflowCompiler.Proofs.ForkJoin.Tracking
import WorkflowCompiler.Proofs.DepthFirst
import WorkflowCompiler.Proofs.ForkJoin.Exclusion
import WorkflowCompiler.Proofs.ForkJoin.Mismatch
import WorkflowCompiler.Proofs.Cycle
import WorkflowCompiler.Proofs.Marking
import WorkflowCompiler.Proofs.Definition.Additions
import WorkflowCompiler.Proofs.Definition.Idempotence
import WorkflowCompiler.Proofs.Locality
import WorkflowCompiler.Proofs.Definition.Expression
import WorkflowCompiler.Proofs.Definition.Missing
import WorkflowCompiler.Proofs.Definition.Language
import WorkflowCompiler.Proofs.Definition.Nodes
import WorkflowCompiler.Proofs.Site.Layers
import WorkflowCompiler.Proofs.Site.NormalForm
import WorkflowCompiler.Proofs.JobConf
import WorkflowCompiler.Proofs.Decimal.Rounding
import WorkflowCompiler.Proofs.Decimal.Shortest
import WorkflowCompiler.Proofs.Json.Numbers
import WorkflowCompiler.Proofs.Json.Indented
import WorkflowCompiler.Proofs.CommandLine
