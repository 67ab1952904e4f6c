import StarQuery.Scope.Check

/-!
# What a node ranges over

From the leaves up, every node gets the variables that occur in it and its dimensions. A reduction can always fold its
dimensions away, a reluctant one would rather keep them; the variables of an update's key become the index of its result.
-/

namespace StarQuery

namespace Node

/-- The variable sets of a node that ranges over whatever its parts range over. -/
def jointExtent (parts : List Node) : VarInfo :=
  { vars := .unions (parts.map (·.info.vars))
    mind := .unions (parts.map (·.info.mind))
    dims := .unions (parts.map (·.info.dims)) }

/-- The variable sets of a reduction. -/
def reducedExtent (mode : Mode) (arg : Node) : VarInfo :=
  { vars := arg.info.vars
    dims := match mode with
      | .reluctant => arg.info.dims
      | .eager => ∅ }

/-- The variables and dimensions of a node, from those of its parts. -/
def extent : Node → VarInfo
  | .input _ | .const .. => {}
  | .var _ v => { vars := .single v, mind := .single v, dims := .single v }
  | .get _ base key => jointExtent [base, key]
  | .pointwise _ _ args | .hint _ _ args => jointExtent args
  | .keySet _ arg => jointExtent [arg]
  | .reduce _ _ mode arg | .scan _ _ mode arg => reducedExtent mode arg
  | .update _ base key value filter =>
    { vars := .unions (([base, key, value] ++ filter.toList).map (·.info.vars))
      mind := base.info.mind ∪ (value.info.mind \ key.info.vars)
      dims := base.info.dims ∪ (value.info.dims \ key.info.vars) }

/-- A node with its variables and dimensions taken from its parts, and no other sets. -/
def settleExtent (n : Node) : Node := n.setInfo n.extent

mutual
/-- A tree with the variables and dimensions of every node, and no other sets. -/
def withExtents : Node → Node
  | .input i => (Node.input i).settleExtent
  | .const i value => (Node.const i value).settleExtent
  | .var i v => (Node.var i v).settleExtent
  | .get i base key => (Node.get i (withExtents base) (withExtents key)).settleExtent
  | .pointwise i op args => (Node.pointwise i op (listWithExtents args)).settleExtent
  | .hint i op args => (Node.hint i op (listWithExtents args)).settleExtent
  | .keySet i arg => (Node.keySet i (withExtents arg)).settleExtent
  | .reduce i op mode arg => (Node.reduce i op mode (withExtents arg)).settleExtent
  | .scan i op mode arg => (Node.scan i op mode (withExtents arg)).settleExtent
  | .update i base key value filter =>
    (Node.update i (withExtents base) (withExtents key) (withExtents value) (optionWithExtents filter)).settleExtent
/-- A list of trees with the variables and dimensions of every node. -/
def listWithExtents : List Node → List Node
  | [] => []
  | n :: rest => withExtents n :: listWithExtents rest
/-- A tree that may be missing, with the variables and dimensions of every node. -/
def optionWithExtents : Option Node → Option Node
  | none => none
  | some n => some (withExtents n)
end

/-- The bottom-up pass: variables and dimensions, checked at every node. -/
def extentPass (t : NameTable) (n : Node) : Except QueryError Node :=
  let result := n.withExtents
  (checkAll (checkExtent t "dims") result.postorder).map fun _ => result

end Node

end StarQuery
