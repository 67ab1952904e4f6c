import StarQuery.Error
import StarQuery.Node.Text

/-!
# What the variable sets of a node must satisfy

The dimensions a node has in any case are among those it would like, and these among its variables; no variable is both
looped over at or below a node and taken from around it. The checks name the pass that they guard.
-/

namespace StarQuery

namespace Node

/-- A set of variables between braces, for a message. -/
def bracedNames (t : NameTable) (s : VarSet) : String := "\x7b" ++ t.namesOf s ++ "\x7d"

/-- Checks that the dimensions of a node are in order: `mind ⊆ dims ⊆ vars`. -/
def checkExtent (t : NameTable) (pass : String) (n : Node) : Except QueryError Unit :=
  let breach (small : String) (smallSet : VarSet) (large : String) (largeSet : VarSet) :=
    QueryError.invariantViolation pass
      (small ++ " " ++ bracedNames t smallSet ++ " ⊄ " ++ large ++ " " ++ bracedNames t largeSet) (n.text t)
  if ¬ n.info.mind ⊆ n.info.dims then .error (breach "mind" n.info.mind "dims" n.info.dims)
  else if ¬ n.info.dims ⊆ n.info.vars then .error (breach "dims" n.info.dims "vars" n.info.vars)
  else .ok ()

/-- Checks that no free variable of a node is looped over at the node or below it. -/
def checkScope (t : NameTable) (pass : String) (n : Node) : Except QueryError Unit :=
  let breach (name : String) (shared : VarSet) :=
    QueryError.invariantViolation pass ("fre ∩ " ++ name ++ " = " ++ bracedNames t shared) (n.text t)
  if (n.info.free ∩ n.info.bound).isEmpty = false then .error (breach "bnd" (n.info.free ∩ n.info.bound))
  else if (n.info.free ∩ n.info.allBound).isEmpty = false then .error (breach "allBnd" (n.info.free ∩ n.info.allBound))
  else .ok ()

/-- Checks a list of nodes one after the other; the first error stops. -/
def checkAll (check : Node → Except QueryError Unit) : List Node → Except QueryError Unit
  | [] => .ok ()
  | n :: rest => do
    check n
    checkAll check rest

/-- Checks every node of a finished tree. -/
def verify (t : NameTable) (root : Node) : Except QueryError Unit :=
  checkAll (fun n => do
    checkExtent t "verify" n
    checkScope t "verify" n) root.postorder

mutual
/-- All nodes of a tree in the order in which the scope passes finish them: the filter of an update before its value. -/
def scopeOrder : Node → List Node
  | .input i => [.input i]
  | .const i value => [.const i value]
  | .var i v => [.var i v]
  | .get i base key => scopeOrder base ++ scopeOrder key ++ [.get i base key]
  | .pointwise i op args => listScopeOrder args ++ [.pointwise i op args]
  | .hint i op args => listScopeOrder args ++ [.hint i op args]
  | .keySet i arg => scopeOrder arg ++ [.keySet i arg]
  | .reduce i op mode arg => scopeOrder arg ++ [.reduce i op mode arg]
  | .scan i op mode arg => scopeOrder arg ++ [.scan i op mode arg]
  | .update i base key value filter =>
    scopeOrder base ++ scopeOrder key ++ optionScopeOrder filter ++ scopeOrder value ++ [.update i base key value filter]
/-- All nodes of a list of trees, in that order. -/
def listScopeOrder : List Node → List Node
  | [] => []
  | n :: rest => scopeOrder n ++ listScopeOrder rest
/-- All nodes of a tree that may be missing, in that order. -/
def optionScopeOrder : Option Node → List Node
  | none => []
  | some n => scopeOrder n
end

end Node

end StarQuery
