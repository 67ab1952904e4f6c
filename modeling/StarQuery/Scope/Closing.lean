import StarQuery.Scope.Bound
import StarQuery.Scope.Free

/-!
# Closing a tree

A root whose result is indexed by some variables becomes a grouping by these variables, so that nothing is left to provide.
-/

namespace StarQuery

namespace Node

/-- A variable as a part of the key of the outermost grouping. -/
def keyVar (v : Var) : Node :=
  .var { vars := .single v, mind := .single v, dims := .single v, free := .single v } v

/-- A finished root grouped by the variables of `out`. -/
def groupedBy (out : VarSet) (root : Node) : Node :=
  .update
    { vars := root.info.vars ∪ out
      mind := root.info.mind \ out
      dims := root.info.dims \ out
      bound := out
      allBound := out ∪ root.info.allBound }
    (.const {} Json.empty)
    (.pointwise { vars := out, mind := out, dims := out, free := out } .vars (out.toList.map keyVar)) root none

/-- Both passes from the root down, where `out` is provided, and the grouping by `out` around the result if there is
something to group by. -/
def close (t : NameTable) (d : Dependencies) (root : Node) (out : VarSet) : Except QueryError Node := do
  let root ← root.boundPass t out
  let root ← root.freePass t d out []
  if out.isEmpty then return root
  let grouped := root.groupedBy out
  checkExtent t "top-down" grouped
  checkScope t "top-down" grouped
  return grouped

end Node

end StarQuery
