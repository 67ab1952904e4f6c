import Mathlib.Logic.Function.Basic
import StarQuery.Compile

/-!
# The direct value of a node

What a tree means, said on the tree itself: no slots, no blocks, nothing shared. An aggregate is computed afresh wherever it is
used. Its first state is the first defined one over the bindings of its free variables, and it is stepped over the bindings of
its free and its own variables, in both cases over those bindings only that agree with the present one on the free variables.
The bindings are those that the nests of loops run through, with the sources of the generators evaluated directly again. A
source may hold aggregates that are no parts of the node, so the value is one with at most `depth` aggregates under way
(`Direct.value`).
-/

namespace StarQuery

/-- Values of variables; a variable without value is unbound. -/
abbrev Binding := Var → Option Json

namespace Binding

/-- The binding of no variable. -/
def empty : Binding := fun _ => none

/-- A binding with a value for one more variable. -/
def set (b : Binding) (v : Var) (value : Json) : Binding := Function.update b v (some value)

/-- Whether two bindings both bind all variables of a set, to values with the same key texts. -/
def agrees (b c : Binding) (vars : VarSet) : Bool :=
  vars.toList.all fun v =>
    match b v, c v with
    | some x, some y => x.keyText == y.keyText
    | _, _ => false

end Binding

/-- The bindings of variables to the tuples of a tree of keys. -/
def KeyTree.bindings : List Var → KeyTree → Binding → List Binding
  | [], _, b => [b]
  | v :: vs, tree, b => tree.entries.flatMap fun (key, below) => bindings vs below (b.set v key)

namespace Direct

/-- A way to value nodes under bindings. -/
abbrev Valuation := Binding → Node → Option Json

section
variable (given : Given)

mutual
/-- The value of a node under a binding, if `aggregate` values the aggregates. -/
def valueWith (aggregate : Valuation) (b : Binding) : Node → Option Json
  | .input _ => some given.input
  | .const _ value => some value
  | .var _ v => b v
  | .get _ base key =>
    (valueWith aggregate b base).bind fun collection => (valueWith aggregate b key).bind fun k =>
      if key.asVar?.any given.table.isDeep then collection.getPath? k else collection.get? k
  | .pointwise _ op args => op.eval given.functions (valuesWith aggregate b args)
  | .hint _ _ _ => some Json.empty
  | .keySet _ arg => some (Json.singleton (valueWith aggregate b arg))
  | .reduce i op mode arg => aggregate b (.reduce i op mode arg)
  | .scan i op mode arg => aggregate b (.scan i op mode arg)
  | .update i base key value filter => aggregate b (.update i base key value filter)
/-- The values of a list of nodes. -/
def valuesWith (aggregate : Valuation) (b : Binding) : List Node → List (Option Json)
  | [] => []
  | n :: rest => valueWith aggregate b n :: valuesWith aggregate b rest
end

/-! ## Bindings -/

variable (value : Valuation)

/-- The bindings that one level makes of a binding: one for each choice, or the binding itself if it passes the test. -/
def levelBindings (l : Level) (b : Binding) : List Binding :=
  let v := l.generator.var
  let deep := given.table.isDeep v
  if l.fresh then
    match value b l.generator.source with
    | some collection => (Stmt.choices deep collection).map (b.set v)
    | none => []
  else
    match value b l.generator.source, b v with
    | some collection, some x => if Stmt.admits deep collection x then [b] else []
    | _, _ => []

/-- The bindings that levels make of a binding, one level after the other. -/
def enumerate : List Level → Binding → List Binding
  | [], b => [b]
  | l :: rest, b => (levelBindings given value l b).flatMap (enumerate rest)

variable (generators : List Generator)

/-- All bindings of the plan for a set of variables with everything that their generators need. -/
def planBindings (vars : VarSet) : List Binding :=
  enumerate given value (Plan.ofGenerators generators ∅ (Generator.closure generators vars)).levels Binding.empty

/-- The different tuples of the values of variables among bindings. -/
def tuples (vars : List Var) (bs : List Binding) : KeyTree :=
  bs.foldl (fun tree b => (vars.mapM b).elim tree tree.insert) .nil

/-- The bindings of the nest for a set of variables. -/
def nestBindings (vars : VarSet) : List Binding :=
  if vars = ∅ then [Binding.empty]
  else if Generator.closure generators vars = vars then planBindings given value generators vars
  else (tuples vars.toList (planBindings given value generators vars)).bindings vars.toList Binding.empty

/-! ## Aggregates -/

/-- The first state that an aggregate has under a binding. -/
def firstState (b : Binding) : Node → Option Json
  | .reduce _ op _ _ => op.start
  | .scan .. => some (.arr [])
  | .update _ base _ _ _ => value b base
  | _ => none

/-- The key texts that a key stands for: a key path stands for all its keys, and any other value of a deep variable for
none. -/
def keyParts (key : Node) (x : Json) : List String :=
  if key.asVar?.any given.table.isDeep then
    match x with
    | .arr parts => parts.map Json.keyText
    | _ => []
  else [x.keyText]

/-- The place in the result that keys lead to, none if one is undefined. -/
def target? (b : Binding) : List Node → Option (List String)
  | [] => some []
  | key :: rest => (value b key).bind fun x => (target? b rest).map fun path => keyParts given key x ++ path

/-- What one more binding makes of the state of an aggregate; none if it leaves the state as it is. -/
def change? (b : Binding) : Node → Option (Option Json → Option Json)
  | .reduce _ op _ arg => some fun state => op.step state (value b arg)
  | .scan _ op _ arg => (value b arg).map fun x state => some (Action.scanned op x state)
  | .update _ _ key arg _ =>
    (target? given value b (Program.keyNodes key)).bind fun path =>
      (value b arg).map fun x state => some (Json.setAt path x (state.getD Json.empty))
  | _ => none

/-- The value of an aggregate under a binding, if `value` values what it is made of. -/
def aggregateWith : Valuation := fun b n =>
  let starts := (nestBindings given value generators n.info.free).filter (·.agrees b n.info.free)
  let steps := (nestBindings given value generators (n.info.free ∪ n.info.bound)).filter (·.agrees b n.info.free)
  steps.foldl (fun state c => (change? given value c n).elim state (· state)) (starts.findSome? (firstState value · n))

end

section
variable (given : Given) (generators : List Generator)

/-- The direct value of an aggregate, with less than `depth` other aggregates under way at a time. -/
def aggregate : Nat → Valuation
  | 0 => fun _ _ => none
  | depth + 1 => aggregateWith given (valueWith given (aggregate depth)) generators

/-- The direct value of a node, with at most `depth` aggregates under way at a time. -/
def value (depth : Nat) : Valuation := valueWith given (aggregate given generators depth)

end

end Direct

/-- The direct value of a compiled query. -/
def Compiled.direct (c : Compiled) (input : Json) (functions : Functions) (depth : Nat) : Option Json :=
  Direct.value ⟨input, functions, c.table⟩ (c.catalogue.generators c.table) depth Binding.empty c.tree

end StarQuery
