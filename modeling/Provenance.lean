import Provenance.Budget
import Provenance.Circuit.Basic
import Provenance.Circuit.Categorical
import Provenance.Circuit.Evaluate
import Provenance.Circuit.ReadOnce
import Provenance.Circuit.Render
import Provenance.Circuit.Sampling
import Provenance.Circuit.Text
import Provenance.Circuit.Worlds
import Provenance.CircuitFile
import Provenance.Cnf.Basic
import Provenance.Cnf.Tseytin
import Provenance.CommandLine.Arguments
import Provenance.CommandLine.Help
import Provenance.CommandLine.Host
import Provenance.CommandLine.Programs
import Provenance.DDnnf.Basic
import Provenance.DDnnf.Compiled
import Provenance.DDnnf.Probability
import Provenance.DDnnf.Score
import Provenance.DDnnf.Simplify
import Provenance.DDnnf.Smooth
import Provenance.DDnnf.Table
import Provenance.Decimal
import Provenance.Decomposition.Basic
import Provenance.Decomposition.Compile
import Provenance.Decomposition.Elimination
import Provenance.Decomposition.Friendly
import Provenance.Decomposition.Queue
import Provenance.Decomposition.Text
import Provenance.Dot
import Provenance.Engine
import Provenance.Evaluator
import Provenance.Failure
import Provenance.GateSet
import Provenance.Json.Basic
import Provenance.Json.Printer
import Provenance.Json.Reader
import Provenance.Kind
import Provenance.Main
import Provenance.Method
import Provenance.Naming
import Provenance.Network
import Provenance.Network.Cycle
import Provenance.Nnf.Basic
import Provenance.Nnf.Decision
import Provenance.Nnf.DecisionText
import Provenance.Nnf.Text
import Provenance.Numeral
import Provenance.Order
import Provenance.PrimalGraph
import Provenance.Proofs.Circuit.Categorical
import Provenance.Proofs.Circuit.Chance
import Provenance.Proofs.Circuit.Choice
import Provenance.Proofs.Circuit.Classes
import Provenance.Proofs.Circuit.Constants
import Provenance.Proofs.Circuit.Define
import Provenance.Proofs.Circuit.Descent
import Provenance.Proofs.Circuit.Evaluation
import Provenance.Proofs.Circuit.Expansion
import Provenance.Proofs.Circuit.Faithful
import Provenance.Proofs.Circuit.FreshInputs
import Provenance.Proofs.Circuit.InStep
import Provenance.Proofs.Circuit.Likelihood
import Provenance.Proofs.Circuit.Plain
import Provenance.Proofs.Circuit.ReadOnce
import Provenance.Proofs.Circuit.ReadOnceFrames
import Provenance.Proofs.Circuit.ReadOncePaths
import Provenance.Proofs.Circuit.Regroup
import Provenance.Proofs.Circuit.Renumbering
import Provenance.Proofs.Circuit.Rewire
import Provenance.Proofs.Circuit.Selection
import Provenance.Proofs.Circuit.Truth
import Provenance.Proofs.Circuit.Unread
import Provenance.Proofs.Circuit.Upkeep
import Provenance.Proofs.Circuit.Value
import Provenance.Proofs.Circuit.Variable
import Provenance.Proofs.Circuit.Worlds
import Provenance.Proofs.Cnf.Tseytin
import Provenance.Proofs.DDnnf.Acyclic
import Provenance.Proofs.DDnnf.Arity
import Provenance.Proofs.DDnnf.Binary
import Provenance.Proofs.DDnnf.Bounds
import Provenance.Proofs.DDnnf.Coalitions
import Provenance.Proofs.DDnnf.Compiled
import Provenance.Proofs.DDnnf.Condition
import Provenance.Proofs.DDnnf.Counts
import Provenance.Proofs.DDnnf.Dialect
import Provenance.Proofs.DDnnf.Efficiency
import Provenance.Proofs.DDnnf.Extract
import Provenance.Proofs.DDnnf.Folding
import Provenance.Proofs.DDnnf.Frames
import Provenance.Proofs.DDnnf.Game
import Provenance.Proofs.DDnnf.InPlace
import Provenance.Proofs.DDnnf.Memo
import Provenance.Proofs.DDnnf.Padding
import Provenance.Proofs.DDnnf.Probability
import Provenance.Proofs.DDnnf.Projection
import Provenance.Proofs.DDnnf.Score
import Provenance.Proofs.DDnnf.Session
import Provenance.Proofs.DDnnf.Shannon
import Provenance.Proofs.DDnnf.Simplify
import Provenance.Proofs.DDnnf.Smooth
import Provenance.Proofs.DDnnf.Smoothness
import Provenance.Proofs.DDnnf.Table
import Provenance.Proofs.DDnnf.Upkeep
import Provenance.Proofs.Decomposition.Changes
import Provenance.Proofs.Decomposition.Check
import Provenance.Proofs.Decomposition.Collect
import Provenance.Proofs.Decomposition.Combine
import Provenance.Proofs.Decomposition.Compile
import Provenance.Proofs.Decomposition.Decompose
import Provenance.Proofs.Decomposition.EachBag
import Provenance.Proofs.Decomposition.Elimination
import Provenance.Proofs.Decomposition.EmptyBags
import Provenance.Proofs.Decomposition.Entries
import Provenance.Proofs.Decomposition.Forest
import Provenance.Proofs.Decomposition.Friendly
import Provenance.Proofs.Decomposition.Leaves
import Provenance.Proofs.Decomposition.Literals
import Provenance.Proofs.Decomposition.Meaning
import Provenance.Proofs.Decomposition.Merge
import Provenance.Proofs.Decomposition.MinimumDegree
import Provenance.Proofs.Decomposition.OfTree
import Provenance.Proofs.Decomposition.Parents
import Provenance.Proofs.Decomposition.Queue
import Provenance.Proofs.Decomposition.Refusal
import Provenance.Proofs.Decomposition.Reroot
import Provenance.Proofs.Decomposition.RoundTrip
import Provenance.Proofs.Decomposition.Serialized
import Provenance.Proofs.Decomposition.Spread
import Provenance.Proofs.Decomposition.Target
import Provenance.Proofs.Decomposition.Text
import Provenance.Proofs.Decomposition.Threshold
import Provenance.Proofs.Decomposition.Tree
import Provenance.Proofs.Evaluator
import Provenance.Proofs.Evaluator.Scores
import Provenance.Proofs.GateSet
import Provenance.Proofs.Naming
import Provenance.Proofs.Network.Checks
import Provenance.Proofs.Network.Cycle
import Provenance.Proofs.Network.Names
import Provenance.Proofs.Network.Paths
import Provenance.Proofs.Network.PostOrder
import Provenance.Proofs.Network.Relabel
import Provenance.Proofs.Network.TopologicalOrder
import Provenance.Proofs.Nnf.Decision
import Provenance.Proofs.Nnf.DecisionText
import Provenance.Proofs.Nnf.Forget
import Provenance.Proofs.Nnf.Layout
import Provenance.Proofs.Nnf.Terms
import Provenance.Proofs.Nnf.Text
import Provenance.Proofs.Outcome
import Provenance.Proofs.Permitted
import Provenance.Proofs.PrimalGraph
import Provenance.Proofs.Readers
import Provenance.Proofs.Record.Basic
import Provenance.Proofs.Record.Lines
import Provenance.Proofs.Record.Refusal
import Provenance.Proofs.Scalar
import Provenance.Proofs.Text.Integers
import Provenance.Proofs.Text.Line
import Provenance.Proofs.Text.Numbers
import Provenance.Record.Basic
import Provenance.Record.Json
import Provenance.Record.Lines
import Provenance.Scalar
import Provenance.Table
import Provenance.Text.Blank
import Provenance.Text.Hidden
import Provenance.Text.Line
import Provenance.Text.Quoted
import Provenance.Text.Scan
import Provenance.Text.Utf8
