import InlinePlan.Analysis.Arithmetic
import InlinePlan.Analysis.Fact
import InlinePlan.Analysis.Fault
import InlinePlan.Analysis.Frame
import InlinePlan.Analysis.Machine
import InlinePlan.Analysis.Run
import InlinePlan.Analysis.Summary
import InlinePlan.Analysis.Transfer
import InlinePlan.Analysis.Value
import InlinePlan.Bytecode.Assembly
import InlinePlan.Bytecode.Descriptor
import InlinePlan.Bytecode.FlowGraph
import InlinePlan.Bytecode.Instruction
import InlinePlan.Bytecode.Kind
import InlinePlan.Bytecode.Method
import InlinePlan.Bytecode.Opcode
import InlinePlan.Bytecode.SymbolRef
import InlinePlan.CallTree.Benefit
import InlinePlan.CallTree.Build
import InlinePlan.CallTree.Catalog
import InlinePlan.CallTree.Forest
import InlinePlan.CallTree.Journal
import InlinePlan.CallTree.Options
import InlinePlan.CallTree.Scale
import InlinePlan.CallTree.Tree
import InlinePlan.Command.Flag
import InlinePlan.Command.Path
import InlinePlan.Command.Run
import InlinePlan.Decimal.Fixed
import InlinePlan.Decimal.Integer
import InlinePlan.Decimal.Read
import InlinePlan.Decimal.Shortest
import InlinePlan.Log.Calendar
import InlinePlan.Log.Logger
import InlinePlan.Log.TimeLayout
import InlinePlan.Main
import InlinePlan.Plan.Proposal
import InlinePlan.Plan.Queue
import InlinePlan.Plan.Select
import InlinePlan.Program.Document
import InlinePlan.Program.Hierarchy
import InlinePlan.Proofs.Analysis.Effect
import InlinePlan.Proofs.Analysis.Faults
import InlinePlan.Proofs.Analysis.Folding
import InlinePlan.Proofs.Analysis.Gates
import InlinePlan.Proofs.Analysis.Keeps
import InlinePlan.Proofs.Analysis.Marks
import InlinePlan.Proofs.Analysis.Merge
import InlinePlan.Proofs.Analysis.Moves
import InlinePlan.Proofs.Analysis.Operands
import InlinePlan.Proofs.Analysis.Paired
import InlinePlan.Proofs.Analysis.Repeats
import InlinePlan.Proofs.Analysis.Results
import InlinePlan.Proofs.Analysis.Semilattice
import InlinePlan.Proofs.Analysis.Trace
import InlinePlan.Proofs.Analysis.Truthful
import InlinePlan.Proofs.Analysis.TypeTests
import InlinePlan.Proofs.Analysis.Typed
import InlinePlan.Proofs.Analysis.Unresolved
import InlinePlan.Proofs.Analysis.Visits
import InlinePlan.Proofs.Analysis.Widening
import InlinePlan.Proofs.Bytecode.Assembly
import InlinePlan.Proofs.Bytecode.DepthFirst
import InlinePlan.Proofs.Bytecode.Grammar
import InlinePlan.Proofs.Bytecode.Postorder
import InlinePlan.Proofs.Bytecode.Repeats
import InlinePlan.Proofs.Bytecode.RoundTrip
import InlinePlan.Proofs.CallTree.Additions
import InlinePlan.Proofs.CallTree.Admission
import InlinePlan.Proofs.CallTree.Arena
import InlinePlan.Proofs.CallTree.Arguments
import InlinePlan.Proofs.CallTree.Benefit
import InlinePlan.Proofs.CallTree.Bookkeeping
import InlinePlan.Proofs.CallTree.Clones
import InlinePlan.Proofs.CallTree.Course
import InlinePlan.Proofs.CallTree.Graft
import InlinePlan.Proofs.CallTree.InPlace
import InlinePlan.Proofs.CallTree.Links
import InlinePlan.Proofs.CallTree.Outcome
import InlinePlan.Proofs.CallTree.Planting
import InlinePlan.Proofs.CallTree.Preorder
import InlinePlan.Proofs.CallTree.Reach
import InlinePlan.Proofs.CallTree.Requests
import InlinePlan.Proofs.CallTree.Reuse
import InlinePlan.Proofs.CallTree.Sources
import InlinePlan.Proofs.CallTree.Steps
import InlinePlan.Proofs.CallTree.Termination
import InlinePlan.Proofs.CallTree.Unfolding
import InlinePlan.Proofs.Decimal.Integer
import InlinePlan.Proofs.Execution.Arithmetic
import InlinePlan.Proofs.Execution.Machine
import InlinePlan.Proofs.Execution.Meaning
import InlinePlan.Proofs.Execution.Sound
import InlinePlan.Proofs.Execution.Transfer
import InlinePlan.Proofs.Plan.Best
import InlinePlan.Proofs.Plan.Embedding
import InlinePlan.Proofs.Plan.Feasible
import InlinePlan.Proofs.Plan.Greedy
import InlinePlan.Proofs.Plan.Knapsack
import InlinePlan.Proofs.Plan.Optimal
import InlinePlan.Proofs.Plan.Order
import InlinePlan.Proofs.Plan.Priority
import InlinePlan.Proofs.Plan.Proposal
import InlinePlan.Proofs.Plan.Queue
import InlinePlan.Proofs.Plan.Shapes
import InlinePlan.Proofs.Plan.Simulation
import InlinePlan.Proofs.Plan.Table
import InlinePlan.Proofs.Plan.Totals
import InlinePlan.Proofs.Plan.Worth
import InlinePlan.Proofs.Program.Dispatch
import InlinePlan.Proofs.Program.Endless
import InlinePlan.Proofs.Program.Naming
import InlinePlan.Proofs.Program.Subtype
import InlinePlan.Proofs.Program.Targets
import InlinePlan.Proofs.Text.Cuts
import InlinePlan.Proofs.Text.Quotes
import InlinePlan.Proofs.Text.Utf8
import InlinePlan.Report.Content
import InlinePlan.Report.Document
import InlinePlan.Report.Table
import InlinePlan.Text.Base64
import InlinePlan.Text.Blank
import InlinePlan.Text.CaseFold
import InlinePlan.Text.Cluster
import InlinePlan.Text.Cluster.Table
import InlinePlan.Text.Printable
import InlinePlan.Text.Quoted
import InlinePlan.Text.Ranges
import InlinePlan.Text.Utf8
import InlinePlan.Text.Width
import InlinePlan.Yaml.Cursor
import InlinePlan.Yaml.Decoder
import InlinePlan.Yaml.Key
import InlinePlan.Yaml.Lexer
import InlinePlan.Yaml.Meaning
import InlinePlan.Yaml.Node
import InlinePlan.Yaml.Reader
import InlinePlan.Yaml.Record
import InlinePlan.Yaml.Scalar
import InlinePlan.Yaml.Timestamp
import InlinePlan.Yaml.Token
import InlinePlan.Yaml.Token.Block
import InlinePlan.Yaml.Token.Plain
import InlinePlan.Yaml.Token.Property
import InlinePlan.Yaml.Token.Quoted
