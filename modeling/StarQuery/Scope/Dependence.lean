import StarQuery.Node.Basic
import StarQuery.Variable.Table

/-!
# Dependence between variables

A variable that ranges over a collection depends on the dimensions of that collection. The direct dependences are read off
the tree, and closed: every variable then has everything it depends on, itself included, at any distance.
-/

namespace StarQuery

/-- For every variable, in order, everything it depends on. -/
structure Dependencies where
  closure : List VarSet := []
  deriving DecidableEq, Inhabited

namespace Dependencies

/-- One step further along the direct dependences, to variables that have an entry. -/
def expand (direct : List VarSet) (s : VarSet) : VarSet :=
  s ∪ .unions (s.toList.map fun v => (direct[v]?.getD ∅).filter (· < direct.length))

/-- Everything that can be reached from a set along the direct dependences in at most `n` steps. It stands for the depth-first
search of a graph library, which is not modelled: what the closure takes from the search is the set that it visits. -/
def reach (direct : List VarSet) : Nat → VarSet → VarSet
  | 0, s => s
  | n + 1, s => reach direct n (expand direct s)

/-- The reflexive and transitive closure of the direct dependences. There are no more steps to take than variables. -/
def ofDirect (direct : List VarSet) : Dependencies :=
  ⟨(List.range direct.length).map fun v => reach direct direct.length (.single v)⟩

/-- Everything a variable depends on; itself alone if it has no entry. -/
def of (d : Dependencies) (v : Var) : VarSet := d.closure[v]?.getD (.single v)

/-- Everything the members of a set depend on. -/
def ofSet (d : Dependencies) (s : VarSet) : VarSet := .unions (s.toList.map d.of)

/-- What every variable depends on apart from itself, a line each. -/
def listing (d : Dependencies) (t : NameTable) : String :=
  String.join (d.closure.zipIdx.map fun (s, v) => t.name v ++ " -> " ++ t.namesOf (s \ .single v) ++ "\n")

end Dependencies

namespace Node

/-- The direct dependences after one more node: a variable looked up in a collection depends on its dimensions. -/
def addDependence (direct : List VarSet) : Node → List VarSet
  | .get _ base (.var _ v) => direct.modify v (· ∪ base.info.dims)
  | _ => direct

/-- The direct dependences that a tree shows, an entry for each of `count` variables. -/
def directDependences (count : Nat) (root : Node) : List VarSet :=
  root.postorder.foldl addDependence (List.replicate count ∅)

/-- What the variables of a table depend on in a tree. -/
def dependencies (t : NameTable) (root : Node) : Dependencies :=
  .ofDirect (root.directDependences t.names.length)

end Node

end StarQuery
