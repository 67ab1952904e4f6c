import StarQuery.Node.Json
import StarQuery.Node.Text

/-!
# The catalogue of generators

Every lookup of a variable in a collection, `get(source, v)`, generates the values of the variable: the keys of the source.
The catalogue of a tree lists these filters, each once, a filter after those that its own source holds; and likewise the
hints.
-/

namespace StarQuery

namespace Node

/-- The variable a filter generates. -/
def filterVar? : Node → Option Var
  | .get _ _ key => key.asVar?
  | _ => none

/-- The collection a filter draws from. -/
def filterSource? : Node → Option Node
  | .get _ base _ => some base
  | _ => none

/-- Whether a node is a hint. -/
def isHint : Node → Bool
  | .hint .. => true
  | _ => false

/-- The members of a list whose key is neither in `seen` nor the key of an earlier member. -/
def distinctFrom (seen : List String) : List Node → List Node
  | [] => []
  | n :: rest =>
    let key := n.fingerprint
    if key ∈ seen then distinctFrom seen rest else n :: distinctFrom (key :: seen) rest

/-- The members of a list, without those that are equal to an earlier one. -/
def distinct (nodes : List Node) : List Node := distinctFrom [] nodes

end Node

/-- The filters and the hints of a tree. -/
structure Catalogue where
  filters : List Node := []
  hints : List Node := []
  deriving Inhabited

/-- The catalogue of a tree. -/
def Catalogue.ofNode (root : Node) : Catalogue :=
  { filters := Node.distinct (root.postorder.filter fun n => n.filterVar?.isSome)
    hints := Node.distinct (root.postorder.filter Node.isHint) }

/-- A filter made ready for ordering: what it generates and from what. -/
structure Generator where
  var : Var
  /-- The collection the variable ranges over. -/
  source : Node
  /-- The filter as it is written in a listing. -/
  text : String
  deriving Inhabited

namespace Generator

/-- The variables that have to be bound before the source can be evaluated. -/
def needs (g : Generator) : VarSet := g.source.info.free

/-- The generator of a filter. -/
def ofFilter? (t : NameTable) (filter : Node) : Option Generator := do
  return ⟨← filter.filterVar?, ← filter.filterSource?, filter.text t⟩

end Generator

/-- The generators of the filters of a catalogue. -/
def Catalogue.generators (t : NameTable) (c : Catalogue) : List Generator := c.filters.filterMap (Generator.ofFilter? t)

end StarQuery
