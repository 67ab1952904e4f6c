import StarQuery.Machine.State
import StarQuery.Operator.Pointwise
import StarQuery.Operator.Reducer

/-!
# The value of an expression and the effect of an action

An expression has a value in a state, which may be undefined. An action is a change of the state of a slot, or nothing when
what it needs is undefined.
-/

namespace StarQuery

/-- What is given to a run and stays the same in it. -/
structure Given where
  input : Json
  functions : Functions
  /-- The names of the variables, which tell the deep ones. -/
  table : NameTable

namespace Expr

mutual
/-- The value of an expression in a state. -/
def eval (given : Given) (st : State) : Expr → Option Json
  | .input => some given.input
  | .const value => some value
  | .var v => st.value? v
  | .undefined _ => none
  | .get base key => (eval given st base).bind fun b => (eval given st key).bind fun k => b.get? k
  | .deepGet base path => (eval given st base).bind fun b => (eval given st path).bind fun p => b.getPath? p
  | .pointwise op args => op.eval given.functions (evalAll given st args)
  | .singleton arg => some (Json.singleton (eval given st arg))
  | .nop => some Json.empty
  | .slot id keys => (st.slot? id).bind fun held => follow given st held keys
/-- The values of expressions. -/
def evalAll (given : Given) (st : State) : List Expr → List (Option Json)
  | [] => []
  | e :: rest => eval given st e :: evalAll given st rest
/-- The part of a value that the values of expressions lead to, one key after the other. -/
def follow (given : Given) (st : State) (held : Json) : List Expr → Option Json
  | [] => some held
  | e :: rest => (eval given st e).bind fun key => (held.get? key).bind fun part => follow given st part rest
end

end Expr

namespace Action

/-- The key texts that a key of an update stands for: a key path stands for all its keys, and any other value of a deep
variable for none. -/
def keyParts (given : Given) (key : Expr) (value : Json) : List String :=
  match key with
  | .var v =>
    if given.table.isDeep v then
      match value with
      | .arr parts => parts.map Json.keyText
      | _ => []
    else [value.keyText]
  | _ => [value.keyText]

/-- The place in the result that the keys of an update lead to, none if one is undefined. -/
def target? (given : Given) (st : State) : List Expr → Option (List String)
  | [] => some []
  | key :: rest =>
    (key.eval given st).bind fun value => (target? given st rest).map fun path => keyParts given key value ++ path

/-- The states of a running reduction after one more input. -/
def scanned (op : Reducer) (x : Json) (state : Option Json) : Json :=
  let items := match state with
    | some (.arr items) => items
    | _ => []
  .arr (items ++ (op.step (items.getLast?.or op.start) (some x)).toList)

/-- What an action makes of the state of a slot; none if it leaves the slot as it is. -/
def change? (given : Given) (st : State) : Action → Option (Option Json → Option Json)
  | .reduce op arg => some fun state => op.step state (arg.eval given st)
  | .scan op arg => (arg.eval given st).map fun x state => some (scanned op x state)
  | .update keys value =>
    (target? given st keys).bind fun path =>
      (value.eval given st).map fun x state => some (Json.setAt path x (state.getD Json.empty))

end Action

end StarQuery
