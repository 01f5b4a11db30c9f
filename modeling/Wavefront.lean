import Wavefront.Binary64.Basic
import Wavefront.Binary64.Shortest
import Wavefront.Binary64.Text
import Wavefront.Condition.Expr
import Wavefront.Condition.Parser
import Wavefront.Condition.Token
import Wavefront.Context
import Wavefront.Digraph.Cycles
import Wavefront.Digraph.Order
import Wavefront.Error
import Wavefront.Fanout
import Wavefront.Graph.Basic
import Wavefront.Graph.Schedule
import Wavefront.Json.Printer
import Wavefront.Json.Reader
import Wavefront.Json.Token
import Wavefront.Level
import Wavefront.Path
import Wavefront.Plan.Basic
import Wavefront.Plan.Check
import Wavefront.Plan.Document
import Wavefront.Plan.Expansion
import Wavefront.Plan.Reader
import Wavefront.Plan.Survey
import Wavefront.Proofs.Digraph.Search
import Wavefront.Proofs.Digraph.Traversal
import Wavefront.Proofs.Error
import Wavefront.Proofs.Digraph.Stack
import Wavefront.Proofs.Graph.Dependency
import Wavefront.Proofs.Plan.Acyclic
import Wavefront.Proofs.Plan.Alias
import Wavefront.Proofs.Plan.Collapse
import Wavefront.Proofs.Plan.Compiled
import Wavefront.Proofs.Plan.Expansion
import Wavefront.Proofs.Plan.Nodes
import Wavefront.Proofs.Plan.Order
import Wavefront.Proofs.Plan.Place
import Wavefront.Proofs.Plan.Sound
import Wavefront.Proofs.Plan.Station
import Wavefront.Proofs.Plan.Survey
import Wavefront.Proofs.Plan.Written
import Wavefront.Proofs.Run.Ending
import Wavefront.Proofs.Value.Fields
import Wavefront.Run.Basic
import Wavefront.Run.Course
import Wavefront.Run.Wave
import Wavefront.Run.World
import Wavefront.Schema.Basic
import Wavefront.Schema.Reader
import Wavefront.Schema.Validator
import Wavefront.Settings
import Wavefront.Settings.Reader
import Wavefront.Task
import Wavefront.Template
import Wavefront.Text.Blank
import Wavefront.Text.Letter
import Wavefront.Text.Numeral
import Wavefront.Text.Quoted
import Wavefront.Tool.Basic
import Wavefront.Tool.Registry
import Wavefront.Tool.Stock
import Wavefront.Trace.Basic
import Wavefront.Trace.Document
import Wavefront.Trace.Moment
import Wavefront.Value.Basic
import Wavefront.Value.Fields
import Wavefront.Value.Number
import Wavefront.Value.Order
import Wavefront.Work
import Wavefront.Yaml.Fold
import Wavefront.Yaml.Node
import Wavefront.Yaml.Scalar
import Wavefront.Yaml.Token
import Wavefront.Proofs.Run.Move
import Wavefront.Proofs.Run.Turn
import Wavefront.Proofs.Run.Timed
import Wavefront.Proofs.Run.Line
import Wavefront.Proofs.Graph.Runnable
import Wavefront.Proofs.Run.Log
import Wavefront.Proofs.Run.Executed
import Wavefront.Proofs.Value.Write
import Wavefront.Proofs.Run.Confluence
import Wavefront.Proofs.Value.Template
import Wavefront.Proofs.Run.Serial
import Wavefront.Proofs.Value.Key
import Wavefront.Proofs.Value.Lens
import Wavefront.Proofs.Run.Unrolled
import Wavefront.Proofs.Plan.Reading
import Wavefront.Proofs.Plan.RoundTrip
import Wavefront.Proofs.Plan.Flawless
import Wavefront.Proofs.Plan.Conversion
import Wavefront.Proofs.Plan.Reload
import Wavefront.Proofs.Run.Leads
import Wavefront.Proofs.Run.Seen
import Wavefront.Proofs.Graph.Order
import Wavefront.Proofs.Plan.Blocks
import Wavefront.Proofs.Run.Site
import Wavefront.Proofs.Run.Items
import Wavefront.Proofs.Result
import Wavefront.Proofs.Condition.Grammar
import Wavefront.Proofs.Run.Report
import Wavefront.Proofs.Run.Refusal
import Wavefront.Proofs.Run.Attempts
import Wavefront.Proofs.Run.Branches
import Wavefront.Proofs.Plan.Tools
import Wavefront.Proofs.Plan.Generated
import Wavefront.Proofs.Run.Causes
import Wavefront.Proofs.Plan.Documents
import Wavefront.Proofs.Plan.Permuted
import Wavefront.Proofs.Plan.Limits
import Wavefront.Proofs.Run.Deeds
import Wavefront.Proofs.Run.Permits
import Wavefront.Proofs.Run.Progress
import Wavefront.Proofs.Run.Orderly
import Wavefront.Proofs.Run.Told
import Wavefront.Proofs.Run.Cancellation
import Wavefront.Proofs.Value.Frame
import Wavefront.Proofs.Run.Leftover
import Wavefront.Proofs.Run.Mapping
import Wavefront.Proofs.Graph.Topological
import Wavefront.Proofs.Plan.Gathered
import Wavefront.Proofs.Run.Chronicle
import Wavefront.Proofs.Run.Retries
import Wavefront.Proofs.Run.Target
import Wavefront.Proofs.Text.Blank
import Wavefront.Proofs.Text.Numeral
import Wavefront.Proofs.Path.Text
import Wavefront.Proofs.Template.Marker
import Wavefront.Proofs.Condition.Scan
import Wavefront.Proofs.Condition.Truth
import Wavefront.Proofs.Condition.Spliced
import Wavefront.Proofs.Digraph.Circuit
import Wavefront.Proofs.Trace.Recording
import Wavefront.Proofs.Value.Length
import Wavefront.Proofs.Binary64.Nearest
import Wavefront.Proofs.Condition.Printed
import Wavefront.Proofs.Settings.Backoff
