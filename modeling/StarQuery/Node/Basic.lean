import StarQuery.Json.Basic
import StarQuery.Operator.Basic
import StarQuery.Variable.Set

/-!
# Nodes

The tree a query is analysed on. Stars have become variables, a computed grouping key is a variable with a filter that
generates it, and every node carries the variable sets that the analysis fills in (`VarInfo`). `Node.induct` is induction on
nodes with the lists of arguments and the optional filter folded in.
-/

namespace StarQuery

/-- The variable sets of a node. -/
structure VarInfo where
  /-- The variables that occur below the node. -/
  vars : VarSet := ∅
  /-- The dimensions that the node has in any case. -/
  mind : VarSet := ∅
  /-- The dimensions that the node would like to have. -/
  dims : VarSet := ∅
  /-- The variables that the node loops over. -/
  bound : VarSet := ∅
  /-- The variables that the node or one below it loops over. -/
  allBound : VarSet := ∅
  /-- The variables that the node takes from around it. -/
  free : VarSet := ∅
  deriving DecidableEq, Inhabited

/-- A query with variables in place of stars, annotated with variable sets. -/
inductive Node where
  | input (info : VarInfo)
  | const (info : VarInfo) (value : Json)
  | var (info : VarInfo) (v : Var)
  | get (info : VarInfo) (base key : Node)
  | pointwise (info : VarInfo) (op : Pointwise) (args : List Node)
  | hint (info : VarInfo) (op : String) (args : List Node)
  | keySet (info : VarInfo) (arg : Node)
  | reduce (info : VarInfo) (op : Reducer) (mode : Mode) (arg : Node)
  | scan (info : VarInfo) (op : Reducer) (mode : Mode) (arg : Node)
  /-- The base with the value under the key added, for every binding of the variables of the key. The filter generates a
  key that is computed. -/
  | update (info : VarInfo) (base key value : Node) (filter : Option Node)
  deriving Inhabited

namespace Node

/-- The variable sets of a node. -/
def info : Node → VarInfo
  | .input i | .const i _ | .var i _ | .get i _ _ | .pointwise i _ _ | .hint i _ _ | .keySet i _ | .reduce i _ _ _
  | .scan i _ _ _ | .update i _ _ _ _ => i

/-- A node with other variable sets. -/
def setInfo (n : Node) (i : VarInfo) : Node :=
  match n with
  | .input _ => .input i
  | .const _ value => .const i value
  | .var _ v => .var i v
  | .get _ base key => .get i base key
  | .pointwise _ op args => .pointwise i op args
  | .hint _ op args => .hint i op args
  | .keySet _ arg => .keySet i arg
  | .reduce _ op mode arg => .reduce i op mode arg
  | .scan _ op mode arg => .scan i op mode arg
  | .update _ base key value filter => .update i base key value filter

/-- The variable a node is, if it is one. -/
def asVar? : Node → Option Var
  | .var _ v => some v
  | _ => none

/-- Whether a node gathers values over many bindings. -/
def gathers : Node → Bool
  | .reduce .. | .scan .. | .update .. => true
  | _ => false

/-- The parts of a node in order, the filter of an update last. -/
def children : Node → List Node
  | .input _ | .const .. | .var .. => []
  | .get _ base key => [base, key]
  | .pointwise _ _ args | .hint _ _ args => args
  | .keySet _ arg | .reduce _ _ _ arg | .scan _ _ _ arg => [arg]
  | .update _ base key value filter => [base, key, value] ++ filter.toList

mutual
/-- All nodes of a tree, each after its parts. -/
def postorder : Node → List Node
  | .input i => [.input i]
  | .const i value => [.const i value]
  | .var i v => [.var i v]
  | .get i base key => postorder base ++ postorder key ++ [.get i base key]
  | .pointwise i op args => listPostorder args ++ [.pointwise i op args]
  | .hint i op args => listPostorder args ++ [.hint i op args]
  | .keySet i arg => postorder arg ++ [.keySet i arg]
  | .reduce i op mode arg => postorder arg ++ [.reduce i op mode arg]
  | .scan i op mode arg => postorder arg ++ [.scan i op mode arg]
  | .update i base key value filter =>
    postorder base ++ postorder key ++ postorder value ++ optionPostorder filter ++ [.update i base key value filter]
/-- All nodes of a list of trees. -/
def listPostorder : List Node → List Node
  | [] => []
  | n :: rest => postorder n ++ listPostorder rest
/-- All nodes of a tree that may be missing. -/
def optionPostorder : Option Node → List Node
  | none => []
  | some n => postorder n
end

/-- Induction on nodes: what holds of a node whenever it holds of its parts holds of every node. -/
@[elab_as_elim]
theorem induct {motive : Node → Prop}
    (input : ∀ i, motive (.input i))
    (const : ∀ i value, motive (.const i value))
    (var : ∀ i v, motive (.var i v))
    (get : ∀ i base key, motive base → motive key → motive (.get i base key))
    (pointwise : ∀ i op args, (∀ n ∈ args, motive n) → motive (.pointwise i op args))
    (hint : ∀ i op args, (∀ n ∈ args, motive n) → motive (.hint i op args))
    (keySet : ∀ i arg, motive arg → motive (.keySet i arg))
    (reduce : ∀ i op mode arg, motive arg → motive (.reduce i op mode arg))
    (scan : ∀ i op mode arg, motive arg → motive (.scan i op mode arg))
    (update : ∀ i base key value filter, motive base → motive key → motive value → (∀ n ∈ filter, motive n) →
      motive (.update i base key value filter))
    (n : Node) : motive n :=
  @Node.rec motive (fun args => ∀ m ∈ args, motive m) (fun filter => ∀ m ∈ filter, motive m)
    input const var get pointwise hint keySet reduce scan update
    (fun _ h => absurd h List.not_mem_nil)
    (fun _ _ hn hrest _ h => (List.mem_cons.1 h).elim (fun e => e ▸ hn) (hrest _))
    (fun _ h => absurd h (Option.not_mem_none _))
    (fun _ hn _ h => Option.mem_some.1 h ▸ hn) n

end Node

end StarQuery
