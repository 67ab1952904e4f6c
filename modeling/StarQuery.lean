import StarQuery.Compile
import StarQuery.Diagnostic.Report
import StarQuery.Query.Json
import StarQuery.Proofs.Node.Parts
import StarQuery.Proofs.Scope.Measured
import StarQuery.Proofs.Scope.Budget
import StarQuery.Proofs.Scope.Disjoint
import StarQuery.Proofs.Number.Decimal
import StarQuery.Proofs.Number.Interval
import StarQuery.Proofs.Number.Text
import StarQuery.Proofs.Json.Text
import StarQuery.Proofs.Fingerprint
import StarQuery.Proofs.Naming.Fresh
import StarQuery.Proofs.Scope.Invariants
import StarQuery.Proofs.Scope.Agreement
import StarQuery.Proofs.Program.History
import StarQuery.Proofs.Catalogue
import StarQuery.Proofs.Program.Statements
import StarQuery.Proofs.Program.Warnings
import StarQuery.Proofs.Direct.Value
import StarQuery.Proofs.Json.Place
import StarQuery.Proofs.Json.Rows
import StarQuery.Proofs.Machine.Loops
import StarQuery.Proofs.Machine.Values
import StarQuery.Proofs.Machine.Blocks
import StarQuery.Proofs.Naming.Range
import StarQuery.Proofs.Direct.Refinement
import StarQuery.Proofs.Plan.Saturated
import StarQuery.Proofs.Plan.Order
import StarQuery.Proofs.Scope.Supplied
import StarQuery.Proofs.Naming.Drawn
import StarQuery.Proofs.Plan.Schedule
import StarQuery.Proofs.Program.Silent
import StarQuery.Proofs.Program.Standing
import StarQuery.Proofs.Program.Bound
import StarQuery.Proofs.Machine.Reaches
import StarQuery.Proofs.Program.Scoped
import StarQuery.Proofs.Program.Needs
import StarQuery.Proofs.Program.Numbering
import StarQuery.Proofs.Program.Slots
import StarQuery.Proofs.Term.Rename
import StarQuery.Proofs.Naming.Rename
import StarQuery.Proofs.Program.View
import StarQuery.Proofs.Machine.View
import StarQuery.Proofs.Program.Renaming
import StarQuery.Proofs.Program.Options
import StarQuery.Proofs.Program.Markers
import StarQuery.Proofs.Term.Acceptance
import StarQuery.Proofs.Naming.Sequence
import StarQuery.Proofs.Naming.Canonical
import StarQuery.Proofs.Query.Storage
import StarQuery.Proofs.Program.Ends
import StarQuery.Proofs.Program.Nests
import StarQuery.Proofs.Program.Greedy
import StarQuery.Proofs.Machine.Reading
import StarQuery.Proofs.Machine.Tuples
import StarQuery.Proofs.Machine.Enumeration
import StarQuery.Proofs.Machine.Proper
import StarQuery.Proofs.Machine.Nests
import StarQuery.Proofs.Plan.Chain
import StarQuery.Proofs.Program.Depth
import StarQuery.Proofs.Program.Acyclic
import StarQuery.Proofs.Path.Basic
import StarQuery.Proofs.Direct.Draws
import StarQuery.Proofs.Path.Draws
import StarQuery.Proofs.Path.Reduction
import StarQuery.Proofs.Path.Array
import StarQuery.Proofs.Direct.Keys
import StarQuery.Proofs.Path.Grouping
import StarQuery.Proofs.Path.Decorrelated
import StarQuery.Proofs.Path.Correlated
import StarQuery.Proofs.Json.Paths
import StarQuery.Proofs.Direct.Root
import StarQuery.Proofs.Path.Variable
import StarQuery.Proofs.Path.Deep
import StarQuery.Proofs.Path.Root
import StarQuery.Proofs.Direct.Steady
import StarQuery.Proofs.Path.Literal
import StarQuery.Proofs.Path.Object
import StarQuery.Proofs.Path.Product
import StarQuery.Proofs.Number.Neutral
import StarQuery.Proofs.Reducer.Nullable
import StarQuery.Proofs.Json.Index
import StarQuery.Proofs.Machine.Membership
import StarQuery.Proofs.Naming.Table
import StarQuery.Proofs.Script.Identifiers
import StarQuery.Proofs.Script.OneLine
import StarQuery.Proofs.Script.Strings
import StarQuery.Proofs.Script.Lines
import StarQuery.Proofs.Scope.Occurrences
import StarQuery.Proofs.Reducer.Extremum
import StarQuery.Proofs.Json.Assignment
import StarQuery.Proofs.Machine.Frame
import StarQuery.Proofs.Machine.FiniteMap
import StarQuery.Proofs.Machine.Scans
import StarQuery.Proofs.Json.Preorder
import StarQuery.Proofs.Plan.Closure
import StarQuery.Proofs.Catalogue.Order
