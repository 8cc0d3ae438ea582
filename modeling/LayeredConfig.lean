import LayeredConfig.Document.Parser
import LayeredConfig.Value.Reading
import LayeredConfig.Token.Drain
import LayeredConfig.Source.Document
import LayeredConfig.Source.Environment
import LayeredConfig.Resolution.Node
import LayeredConfig.Resolution.Visit
import LayeredConfig.Resolution.Visit.Stream
import LayeredConfig.Json
import LayeredConfig.Yaml
import LayeredConfig.FilePath
import LayeredConfig.FileTree
import LayeredConfig.Glob.Expand
import LayeredConfig.Config
import LayeredConfig.Config.Builder
import LayeredConfig.CommandLine.Arguments
import LayeredConfig.CommandLine.Run
import LayeredConfig.CommandLine.Listing
import LayeredConfig.Main
import LayeredConfig.Token.Script
import LayeredConfig.Proofs.Stream.Run
import LayeredConfig.Proofs.Resolution.IndexOrder
import LayeredConfig.Proofs.Reading.Spelling
import LayeredConfig.Proofs.Reading.Soundness
import LayeredConfig.Proofs.Reading.Script
import LayeredConfig.Proofs.Resolution.Steps
import LayeredConfig.Proofs.Resolution.Expansion
import LayeredConfig.Proofs.Resolution.Walk
import LayeredConfig.Proofs.Path.Segments
import LayeredConfig.Proofs.OrderedMap
import LayeredConfig.Proofs.Source.Index
import LayeredConfig.Proofs.Source.Leaves
import LayeredConfig.Proofs.Document.Scan
import LayeredConfig.Proofs.Document.Steps
import LayeredConfig.Proofs.Document.Transition
import LayeredConfig.Proofs.Document.Nesting
import LayeredConfig.Proofs.Document.Names
import LayeredConfig.Proofs.Value.Events
import LayeredConfig.Proofs.Value.Unique
import LayeredConfig.Proofs.Json.Run
import LayeredConfig.Proofs.Json.ReadBack
import LayeredConfig.Proofs.Path.Index
import LayeredConfig.Proofs.Value.Scalars
import LayeredConfig.Proofs.Value.Tidy
import LayeredConfig.Proofs.Document.Parts
import LayeredConfig.Proofs.Source.Assign
import LayeredConfig.Proofs.Source.Agreement
import LayeredConfig.Proofs.Source.Tree
import LayeredConfig.Proofs.Source.Stack
import LayeredConfig.Proofs.Config.Reload
import LayeredConfig.Proofs.Resolution.Lookup
import LayeredConfig.Proofs.Config.Query
import LayeredConfig.Proofs.Stream.Calls
import LayeredConfig.Proofs.Stream.ReadOnce
import LayeredConfig.Proofs.Resolution.Calls
import LayeredConfig.Proofs.Resolution.Failure
import LayeredConfig.Proofs.Config.Load
import LayeredConfig.Proofs.Config.Precedence
import LayeredConfig.Proofs.Path.Lead
import LayeredConfig.Proofs.Source.Phantoms
import LayeredConfig.Proofs.Source.Environment
import LayeredConfig.Proofs.Source.Normalization
import LayeredConfig.Proofs.Document.Extent
import LayeredConfig.Proofs.Document.Separators
import LayeredConfig.Proofs.Document.Closers
import LayeredConfig.Proofs.Document.Unicode
import LayeredConfig.Proofs.Scalar.Literal
import LayeredConfig.Proofs.Source.LastWrite
import LayeredConfig.Proofs.Source.Listing
import LayeredConfig.Proofs.Document.Progress
import LayeredConfig.Proofs.Document.Lines
import LayeredConfig.Proofs.CommandLine.Assignments
import LayeredConfig.Proofs.Resolution.Depth
import LayeredConfig.Proofs.Config.Depth
import LayeredConfig.Proofs.Source.Nesting
import LayeredConfig.Proofs.Reading.Document
import LayeredConfig.Proofs.Number.Rounding
import LayeredConfig.Proofs.Number.Decimal
import LayeredConfig.Proofs.Number.Shortest
import LayeredConfig.Proofs.Scalar.FloatText
import LayeredConfig.Proofs.Scalar.Coercion
import LayeredConfig.Proofs.Config.Finding
import LayeredConfig.Proofs.Config.Scope
import LayeredConfig.Proofs.Document.Coordinates
import LayeredConfig.Proofs.Document.Failures
import LayeredConfig.Proofs.Scalar.Integral
import LayeredConfig.Proofs.Resolution.Visit
import LayeredConfig.Proofs.Resolution.Orderly
import LayeredConfig.Proofs.Resolution.Contract
import LayeredConfig.Proofs.Path.Tree
import LayeredConfig.Proofs.Document.Matching
import LayeredConfig.Proofs.CommandLine.Tokens
