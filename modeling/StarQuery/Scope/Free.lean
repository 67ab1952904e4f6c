import StarQuery.Scope.Check
import StarQuery.Scope.Dependence

/-!
# What a node takes from around it

From the root down: a node needs what its loops depend on and what its parts need, and the keys of those groupings around it
that it is correlated with, that is whose keys depend on something its own loops depend on. All that as far as something
around it provides it. The groupings around a node come down to it as a path.
-/

namespace StarQuery

/-- A grouping by a computed key around a node: the variables of its key, and what they depend on. -/
structure Grouping where
  keys : VarSet
  reach : VarSet
  deriving DecidableEq, Inhabited

namespace Node

/-- The keys of the groupings whose keys depend on something that `bound` depends on. -/
def correlated (d : Dependencies) (bound : VarSet) (path : List Grouping) : VarSet :=
  .unions ((path.filter fun g => g.reach.overlaps (d.ofSet bound)).map (·.keys))

/-- What a node that loops over `bound` needs, if its parts need `below` and `out` is provided. -/
def needed (d : Dependencies) (bound below out : VarSet) (path : List Grouping) : VarSet :=
  (d.ofSet bound ∪ below ∪ correlated d bound path) ∩ out

/-- A node that takes `s` from around it. -/
def setFree (n : Node) (s : VarSet) : Node := n.setInfo { n.info with free := s }

/-- A node that needs whatever its parts need. -/
def setJointFree (n : Node) : Node := n.setFree (.unions (n.children.map (·.info.free)))

/-- What the key of a grouping needs, read off its finished filter `get(mkset(body), key)`: the needs of the body without
the dimensions that it brings itself. -/
def bodyFree (out : VarSet) : Option Node → VarSet
  | some (.get _ (.keySet _ body) _) => body.info.free \ (body.info.dims \ out)
  | _ => ∅

mutual
/-- A tree with what each of its nodes takes from around it, where `out` is provided and `path` are the groupings around. -/
def withFree (d : Dependencies) : Node → VarSet → List Grouping → Node
  | .input i, _, _ => (Node.input i).setFree ∅
  | .const i value, _, _ => (Node.const i value).setFree ∅
  | .var i v, _, _ => (Node.var i v).setFree (.single v)
  | .get i base key, out, path => (Node.get i (withFree d base out path) (withFree d key out path)).setJointFree
  | .pointwise i op args, out, path => (Node.pointwise i op (listWithFree d args out path)).setJointFree
  | .hint i op args, out, path => (Node.hint i op (listWithFree d args out path)).setJointFree
  | .keySet i arg, out, path => (Node.keySet i (withFree d arg out path)).setJointFree
  | .reduce i op mode arg, out, path =>
    let arg' := withFree d arg (out ∪ arg.info.dims) path
    (Node.reduce i op mode arg').setFree (needed d i.bound arg'.info.free out path)
  | .scan i op mode arg, out, path =>
    let arg' := withFree d arg (out ∪ arg.info.dims) path
    (Node.scan i op mode arg').setFree (needed d i.bound arg'.info.free out path)
  | .update i base key value filter, out, path =>
    let keys := key.info.vars
    let base' := withFree d base out path
    let key' := withFree d key (out ∪ key.info.dims) path
    let filter' := optionWithFree d filter out keys path
    let path' := if filter.isSome then path ++ [⟨keys, d.ofSet keys⟩] else path
    let value' := withFree d value (out ∪ keys) path'
    let below := .unions [base'.info.free, key'.info.free, value'.info.free, bodyFree out filter']
    (Node.update i base' key' value' filter').setFree (needed d i.bound below out path)
/-- A list of trees with what each of their nodes takes from around it. -/
def listWithFree (d : Dependencies) : List Node → VarSet → List Grouping → List Node
  | [], _, _ => []
  | n :: rest, out, path => withFree d n out path :: listWithFree d rest out path
/-- The filter of an update by the variables `keys` with what each of its nodes takes from around it: its dimensions are
provided, but for the keys. -/
def optionWithFree (d : Dependencies) : Option Node → VarSet → VarSet → List Grouping → Option Node
  | none, _, _, _ => none
  | some n, out, keys, path => some (withFree d n (out ∪ (n.info.dims \ keys)) path)
end

/-- The pass that finds what is taken from around, checked at every node. -/
def freePass (t : NameTable) (d : Dependencies) (n : Node) (out : VarSet) (path : List Grouping) :
    Except QueryError Node :=
  let result := n.withFree d out path
  (checkAll (checkScope t "free") result.scopeOrder).map fun _ => result

end Node

end StarQuery
