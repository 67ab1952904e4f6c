import StarQuery.Machine.Exec
import StarQuery.Node.OfTerm
import StarQuery.Program.OfNode
import StarQuery.Program.Script
import StarQuery.Program.Text
import StarQuery.Scope.Closing
import StarQuery.Scope.Extent
import StarQuery.Term.OfQuery

/-!
# Compiling queries

A query is resolved into a term, its stars are named, the tree is annotated and closed, its generators are collected, and a
program is generated. The result keeps all of it, to be run on inputs or to be explained.
-/

namespace StarQuery

/-- Which variables index the result of a query. -/
inductive Output where
  /-- Only those that every entry of the result needs. -/
  | minimal
  /-- All that the query ranges over. -/
  | desired
  deriving DecidableEq, Repr

/-- How to compile. -/
structure Options where
  output : Output := .minimal
  /-- Whether every node of the finished tree is checked once more. -/
  recheck : Bool := true
  /-- Whether every block of the program starts with a comment. -/
  comments : Bool := true
  deriving DecidableEq, Repr

/-- The variables that index the result of an annotated tree. -/
def Output.indexOf (o : Output) (root : Node) : VarSet :=
  match o with
  | .minimal => root.info.mind
  | .desired => root.info.dims

/-- A compiled query. -/
structure Compiled where
  /-- The resolved query as it is written in a listing. -/
  source : String
  /-- The annotated tree. -/
  tree : Node
  table : NameTable
  dependencies : Dependencies
  catalogue : Catalogue
  program : Program
  diagnostics : List Diagnostic

/-- A term with its stars named and every node annotated: the names, what the variables depend on, and the closed tree. -/
def Term.annotate (term : Term) (output : Output) : Except QueryError (NameTable × Dependencies × Node) := do
  let (node, naming) := (Node.ofTerm term).run.run {}
  let table := naming.table
  let root ← (← node).extentPass table
  let dependencies := root.dependencies table
  let root ← root.close table dependencies (output.indexOf root)
  return (table, dependencies, root)

/-- Compiles a query. -/
def compile (query : Query) (options : Options := {}) : Except QueryError Compiled := do
  let term ← Term.ofQuery query
  let (table, dependencies, tree) ← term.annotate options.output
  if options.recheck then tree.verify table
  let catalogue := Catalogue.ofNode tree
  let setting : Program.Setting := ⟨table, catalogue.generators table, term.text, options.comments⟩
  match Program.generate setting tree with
  | none => throw (.circular (tree.text table))
  | some (program, diagnostics) =>
    return ⟨term.text, tree, table, dependencies, catalogue, program, diagnostics⟩

namespace Compiled

/-- The result of a compiled query on an input; what is undefined is null. -/
def run (c : Compiled) (input : Json) (functions : Functions := Functions.none) : Json :=
  (c.program.run input functions).getD .null

/-- Whether a query was compiled with errors. -/
def hasErrors (c : Compiled) : Bool := c.diagnostics.any Diagnostic.isError

/-- The generators with what they need, the hints, what the variables depend on, and the tree. -/
def outline (c : Compiled) : String :=
  let generator (filter : Node) (i : Nat) : String :=
    "gen" ++ toString i ++ "[" ++ c.table.namesOf ((filter.filterSource?.map (·.info.free)).getD ∅) ++ "] = " ++
      filter.text c.table ++ "\n"
  String.join (c.catalogue.filters.zipIdx.map fun (filter, i) => generator filter i) ++
    String.join (c.catalogue.hints.map fun hint => hint.text c.table ++ "\n") ++
    c.dependencies.listing c.table ++ "res = " ++ c.tree.text c.table ++ "\n"

/-- The program as script text. -/
def code (c : Compiled) : String := "\n".intercalate (c.program.script 4)

/-- Everything that is known of a compiled query, as a value. -/
def explain (c : Compiled) : Json :=
  .obj [("source", .str c.source), ("tree", c.tree.toJson), ("vars", .arr (c.table.names.map .str)),
    ("filters", .arr (c.catalogue.filters.map Node.toJson)), ("hints", .arr (c.catalogue.hints.map Node.toJson)),
    ("pseudo", .str c.outline), ("code", .str c.code), ("diagnostics", .arr (c.diagnostics.map Diagnostic.toJson))]

end Compiled

end StarQuery
