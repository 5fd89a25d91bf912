import PlanGraph.Axes
import PlanGraph.Binary64.Basic
import PlanGraph.Binary64.Shortest
import PlanGraph.Bracket.Argument
import PlanGraph.Bracket.Basic
import PlanGraph.Bracket.Items
import PlanGraph.Classification
import PlanGraph.Cluster.Basic
import PlanGraph.Cluster.Json
import PlanGraph.Cluster.Tree
import PlanGraph.Command.Arguments
import PlanGraph.Command.Help
import PlanGraph.Command.Run
import PlanGraph.Compilation
import PlanGraph.Concept.Kind
import PlanGraph.Concept.Mention
import PlanGraph.Concept.Naming
import PlanGraph.Concept.Row
import PlanGraph.Concept.Table
import PlanGraph.Concept.Token
import PlanGraph.Event
import PlanGraph.File.System
import PlanGraph.File.Tree
import PlanGraph.File.Utf8
import PlanGraph.Inference.Row
import PlanGraph.Inference.Table
import PlanGraph.Interpretation.Assignment
import PlanGraph.Interpretation.Basic
import PlanGraph.Interpretation.Grouping
import PlanGraph.Interpretation.Loop
import PlanGraph.Interpretation.Operation
import PlanGraph.Interpretation.Timing
import PlanGraph.Json.Basic
import PlanGraph.Json.Printer
import PlanGraph.Json.Reader
import PlanGraph.Line.Basic
import PlanGraph.Line.Entry
import PlanGraph.Line.Physical
import PlanGraph.Literal
import PlanGraph.Main
import PlanGraph.Note
import PlanGraph.Numeral
import PlanGraph.Operator
import PlanGraph.Path
import PlanGraph.PlanFile
import PlanGraph.Position.Basic
import PlanGraph.Position.Counter
import PlanGraph.Proofs.Axes
import PlanGraph.Proofs.Axes.Spelling
import PlanGraph.Proofs.Bracket
import PlanGraph.Proofs.Bracket.Argument
import PlanGraph.Proofs.Bracket.Matching
import PlanGraph.Proofs.Classification
import PlanGraph.Proofs.Cluster.Dump
import PlanGraph.Proofs.Compilation.Blocks
import PlanGraph.Proofs.Compilation.Layout
import PlanGraph.Proofs.Concept.Identity
import PlanGraph.Proofs.Concept.Mentions
import PlanGraph.Proofs.Concept.Table
import PlanGraph.Proofs.Formatting
import PlanGraph.Proofs.Inference.Operations
import PlanGraph.Proofs.Inference.References
import PlanGraph.Proofs.Inference.Sharing
import PlanGraph.Proofs.Interpretation.BoundOrder
import PlanGraph.Proofs.Interpretation.Condition
import PlanGraph.Proofs.Interpretation.Grouping
import PlanGraph.Proofs.Interpretation.Marker
import PlanGraph.Proofs.Interpretation.Sources
import PlanGraph.Proofs.Interpretation.ValueOrder
import PlanGraph.Proofs.Items
import PlanGraph.Proofs.Items.Joining
import PlanGraph.Proofs.Items.Whole
import PlanGraph.Proofs.Json.Printing
import PlanGraph.Proofs.Line.Concept
import PlanGraph.Proofs.Line.Coverage
import PlanGraph.Proofs.Line.Freshness
import PlanGraph.Proofs.Line.Parse
import PlanGraph.Proofs.Line.Relocation
import PlanGraph.Proofs.Line.Writing
import PlanGraph.Proofs.Literal
import PlanGraph.Proofs.Nesting
import PlanGraph.Proofs.Note.Escaping
import PlanGraph.Proofs.Position.Set
import PlanGraph.Proofs.Position.Spelling
import PlanGraph.Proofs.Recommenting.Concept
import PlanGraph.Proofs.Reference
import PlanGraph.Proofs.Reindex.Frame
import PlanGraph.Proofs.Reindex.Graph
import PlanGraph.Proofs.Reindex.Idempotence
import PlanGraph.Proofs.Reindex.Lines
import PlanGraph.Proofs.Reindex.Positions
import PlanGraph.Proofs.Reindex.Reading
import PlanGraph.Proofs.Reindex.Tag
import PlanGraph.Proofs.Sequence
import PlanGraph.Proofs.Session
import PlanGraph.Proofs.StableSort
import PlanGraph.Proofs.TableOrder
import PlanGraph.Proofs.TextMap
import PlanGraph.Proofs.Tree.Clusters
import PlanGraph.Proofs.Tree.Families
import PlanGraph.Proofs.Tree.Numbering
import PlanGraph.Reference
import PlanGraph.Reindex
import PlanGraph.Role
import PlanGraph.Sample
import PlanGraph.Sequence
import PlanGraph.Session
import PlanGraph.Settings.Basic
import PlanGraph.Settings.Key
import PlanGraph.Settings.Layers
import PlanGraph.Settings.Value
import PlanGraph.StableSort
import PlanGraph.Text.Basic
import PlanGraph.Text.Blank
import PlanGraph.Text.Digit
import PlanGraph.Text.Map
import PlanGraph.Toml.Date
import PlanGraph.Toml.Document
import PlanGraph.Toml.Lexeme
import PlanGraph.Toml.Number
import PlanGraph.Toml.Table
