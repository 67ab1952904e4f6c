import StarQuery.Machine.Eval

/-!
# Running programs

A statement takes a state to a state. A loop runs its body for every key, or key path, of its source; a projection first
collects tuples of keys and then runs its body once for each different one.
-/

namespace StarQuery

namespace Stmt

/-- The values that a loop over a collection runs through: its keys, or its key paths. -/
def choices (deep : Bool) (collection : Json) : List Json :=
  if deep then collection.paths.map .arr else collection.keys

/-- Whether a value is one of those that lead into a collection. -/
def admits (deep : Bool) (collection value : Json) : Bool :=
  if deep then (collection.getPath? value).isSome else collection.hasKey value

mutual
/-- The state after a statement. -/
def exec (given : Given) : Stmt → State → State
  | .comment _, st | .error _, st => st
  | .loop deep v source body, st =>
    match source.eval given st with
    | none => st
    | some collection => st.forEach (execAll given body) v (choices deep collection)
  | .test deep v source body, st =>
    match source.eval given st, st.value? v with
    | some collection, some value => if admits deep collection value then execAll given body st else st
    | _, _ => st
  | .project id keys fill body, st =>
    let filled := execAll given fill (st.setProjection id .nil)
    State.forTuples (execAll given body) keys (filled.projection id) (filled.setProjection id .nil)
  | .mark id keys, st =>
    match st.values? keys with
    | none => st
    | some tuple => st.setProjection id ((st.projection id).insert tuple)
  | .start slot keys value _, st =>
    match st.keyTexts? keys, value.eval given st with
    | some path, some first => st.alterSlot slot path fun state => state.or (some first)
    | _, _ => st
  | .step slot keys action, st =>
    match st.keyTexts? keys, action.change? given st with
    | some path, some change => st.alterSlot slot path change
    | _, _ => st
/-- The state after a list of statements. -/
def execAll (given : Given) : List Stmt → State → State
  | [], st => st
  | s :: rest, st => execAll given rest (exec given s st)
end

end Stmt

/-- The result of a program on an input, with functions that its calls can find. -/
def Program.run (p : Program) (input : Json) (functions : Functions := Functions.none) : Option Json :=
  let given : Given := ⟨input, functions, p.table⟩
  p.result.eval given (Stmt.execAll given p.body (State.initial p))

end StarQuery
