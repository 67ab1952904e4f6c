import StarQuery.Json.Place
import StarQuery.Machine.KeyTree
import StarQuery.Program.Basic

/-!
# The state of a run

The values of the variables, what the slots hold, and the key tuples of the projections. `forEach` and `forTuples` give
variables one value after the other and put back what they had before.
-/

namespace StarQuery

/-- The state of a run. A variable without value is unbound, a slot without value was never written. -/
structure State where
  env : List (Option Json)
  slots : List (Option Json)
  projections : List KeyTree
  deriving Inhabited

namespace State

/-- The state in which a program starts. -/
def initial (p : Program) : State :=
  ⟨List.replicate p.table.names.length none, List.replicate p.slots none, List.replicate p.projections .nil⟩

/-- The value of a variable. -/
def value? (st : State) (v : Var) : Option Json := st.env[v]?.join

/-- The values of variables, if all are bound. -/
def values? (st : State) (vs : List Var) : Option (List Json) := vs.mapM st.value?

/-- The key texts of the values of variables, if all are bound. -/
def keyTexts? (st : State) (vs : List Var) : Option (List String) := (st.values? vs).map (·.map Json.keyText)

/-- Gives a variable a value, or none. -/
def setVar (st : State) (v : Var) (value : Option Json) : State := { st with env := st.env.set v value }

/-- What a slot holds. -/
def slot? (st : State) (slot : Nat) : Option Json := st.slots[slot]?.join

/-- Changes what a slot holds at a path of key texts. -/
def alterSlot (st : State) (slot : Nat) (path : List String) (f : Option Json → Option Json) : State :=
  { st with slots := st.slots.modify slot (Json.alterAt path f) }

/-- The tuples of a projection. -/
def projection (st : State) (id : Nat) : KeyTree := st.projections[id]?.getD .nil

/-- Replaces the tuples of a projection. -/
def setProjection (st : State) (id : Nat) (tree : KeyTree) : State :=
  { st with projections := st.projections.set id tree }

/-- Runs something for every value of a list given to a variable, and puts back what the variable had. -/
def forEach (run : State → State) (v : Var) (values : List Json) (st : State) : State :=
  (values.foldl (fun st value => run (st.setVar v (some value))) st).setVar v (st.value? v)

/-- Runs something for every tuple of a tree given to variables, and puts back what the variables had. -/
def forTuples (run : State → State) : List Var → KeyTree → State → State
  | [], _, st => run st
  | v :: vs, tree, st =>
    (tree.entries.foldl (fun st (key, below) => forTuples run vs below (st.setVar v (some key))) st).setVar v (st.value? v)

end State

end StarQuery
