import StarQuery.Scope.Check

/-!
# Where variables are looped over

From the root down, with the variables `out` that something around provides: a reduction loops over the dimensions of its
argument that nobody provides, an update over the variables of its key.
-/

namespace StarQuery

namespace Node

/-- A node that loops over `s`, with the loops of its parts. -/
def setBound (n : Node) (s : VarSet) : Node :=
  n.setInfo { n.info with bound := s, allBound := s ∪ .unions (n.children.map (·.info.allBound)) }

mutual
/-- A tree with the variables that each of its nodes loops over, where `out` is provided. -/
def withBound : Node → VarSet → Node
  | .input i, _ => (Node.input i).setBound ∅
  | .const i value, _ => (Node.const i value).setBound ∅
  | .var i v, _ => (Node.var i v).setBound ∅
  | .get i base key, out => (Node.get i (withBound base out) (withBound key out)).setBound ∅
  | .pointwise i op args, out => (Node.pointwise i op (listWithBound args out)).setBound ∅
  | .hint i op args, out => (Node.hint i op (listWithBound args out)).setBound ∅
  | .keySet i arg, out => (Node.keySet i (withBound arg out)).setBound ∅
  | .reduce i op mode arg, out =>
    (Node.reduce i op mode (withBound arg (out ∪ arg.info.dims))).setBound (arg.info.dims \ out)
  | .scan i op mode arg, out =>
    (Node.scan i op mode (withBound arg (out ∪ arg.info.dims))).setBound (arg.info.dims \ out)
  | .update i base key value filter, out =>
    let inner := out ∪ key.info.vars
    (Node.update i (withBound base out) (withBound key out) (withBound value inner)
      (optionWithBound filter inner)).setBound (key.info.vars \ out)
/-- A list of trees with the variables that each of their nodes loops over. -/
def listWithBound : List Node → VarSet → List Node
  | [], _ => []
  | n :: rest, out => withBound n out :: listWithBound rest out
/-- The filter of an update with the variables that each of its nodes loops over; its own dimensions are provided too. -/
def optionWithBound : Option Node → VarSet → Option Node
  | none, _ => none
  | some n, out => some (withBound n (out ∪ n.info.dims))
end

/-- The pass that finds the loops, checked at every node. -/
def boundPass (t : NameTable) (n : Node) (out : VarSet) : Except QueryError Node :=
  let result := n.withBound out
  (checkAll (checkScope t "bound") result.scopeOrder).map fun _ => result

end Node

end StarQuery
