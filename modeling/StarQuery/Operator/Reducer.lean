import StarQuery.Json.Quantity
import StarQuery.Operator.Basic

/-!
# What the reducers compute

A reducer has a start and a step. An undefined input never changes the state. A reducer that starts undefined takes its
first state from the first defined input.
-/

namespace StarQuery

namespace Reducer

/-- The state before any input. A nullable reducer, and one without a neutral value, starts undefined. -/
def start (r : Reducer) : Option Json :=
  if r.nullable then none
  else match r.folding with
    | .sum | .count => some (Json.ofInt 0)
    | .product => some (Json.ofInt 1)
    | .array => some (.arr [])
    | .all => some (.bool true)
    | .any => some (.bool false)
    | .max | .min | .first | .last | .single => none

/-- The state after the first defined input of a reducer that started undefined. -/
def firstState (f : Folding) (x : Json) : Json :=
  match f with
  | .count => Json.ofInt 1
  | .array => .arr [x]
  | .all | .any => .bool (Json.truthy x)
  | _ => x

/-- The state after a defined input. What cannot be added, multiplied or compared leaves the state alone. -/
def nextState (f : Folding) (state x : Json) : Json :=
  match f with
  | .sum => (Json.add state x).getD state
  | .product => (Json.mul state x).getD state
  | .count => (Json.add state (Json.ofInt 1)).getD state
  | .max => if Json.order? x state = some .gt then x else state
  | .min => if Json.order? x state = some .lt then x else state
  | .array =>
    match state with
    | .arr items => .arr (items ++ [x])
    | other => .arr [other, x]
  | .first => state
  | .last | .single => x
  | .all => .bool (Json.truthy state && Json.truthy x)
  | .any => .bool (Json.truthy state || Json.truthy x)

/-- The state after one more input. -/
def step (r : Reducer) : Option Json → Option Json → Option Json
  | state, none => state
  | none, some x => some (firstState r.folding x)
  | some state, some x => some (nextState r.folding state x)

/-- The state after a list of inputs. -/
def fold (r : Reducer) (xs : List (Option Json)) : Option Json := xs.foldl r.step r.start

end Reducer

end StarQuery
