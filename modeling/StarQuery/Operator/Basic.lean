/-!
# The operators of a query

A pointwise operator acts on the values of its arguments, one combination of bindings at a time. A reducer folds the values
of its argument over many bindings into one. Both are written by name in a query.
-/

namespace StarQuery

/-- An operator that acts value by value. -/
inductive Pointwise where
  | apply | plus | minus | times | fdiv | div | mod | and | andAlso | orElse | equal | notEqual | lessThan
  | lessThanOrEqual | greaterThan | greaterThanOrEqual | ifElse | singleton | flatten
  /-- The tuple of its arguments; it makes the key of a grouping by several variables. -/
  | vars
  deriving DecidableEq, Repr

namespace Pointwise

/-- Every pointwise operator. -/
def all : List Pointwise :=
  [.apply, .plus, .minus, .times, .fdiv, .div, .mod, .and, .andAlso, .orElse, .equal, .notEqual, .lessThan,
    .lessThanOrEqual, .greaterThan, .greaterThanOrEqual, .ifElse, .singleton, .flatten, .vars]

/-- The name of an operator in a query. -/
def name : Pointwise → String
  | apply => "apply"
  | plus => "plus"
  | minus => "minus"
  | times => "times"
  | fdiv => "fdiv"
  | div => "div"
  | mod => "mod"
  | and => "and"
  | andAlso => "andAlso"
  | orElse => "orElse"
  | equal => "equal"
  | notEqual => "notEqual"
  | lessThan => "lessThan"
  | lessThanOrEqual => "lessThanOrEqual"
  | greaterThan => "greaterThan"
  | greaterThanOrEqual => "greaterThanOrEqual"
  | ifElse => "ifElse"
  | singleton => "singleton"
  | flatten => "flatten"
  | vars => "vars"

/-- The operator of a name. -/
def ofName? (name : String) : Option Pointwise := all.find? fun op => op.name == name

/-- The number of arguments an operator takes, none if any number from one on will do. -/
def arity? : Pointwise → Option Nat
  | apply | flatten | vars => none
  | singleton => some 1
  | ifElse => some 3
  | _ => some 2

end Pointwise

/-- The ways to fold values into one. -/
inductive Folding where
  | sum | product | count | max | min | array | first | last | single | all | any
  deriving DecidableEq, Repr

namespace Folding

/-- Every folding. -/
def every : List Folding := [.sum, .product, .count, .max, .min, .array, .first, .last, .single, .all, .any]

/-- The name of a folding in a query. -/
def name : Folding → String
  | sum => "sum"
  | product => "product"
  | count => "count"
  | max => "max"
  | min => "min"
  | array => "array"
  | first => "first"
  | last => "last"
  | single => "single"
  | all => "all"
  | any => "any"

end Folding

/-- A folding, and whether it starts undefined (`sum?`) or at its own start (`sum`). -/
structure Reducer where
  folding : Folding
  nullable : Bool
  deriving DecidableEq, Repr

namespace Reducer

/-- The name of a reducer in a query: a nullable one has a question mark at its end. -/
def name (r : Reducer) : String := if r.nullable then r.folding.name ++ "?" else r.folding.name

/-- The reducer of a name. -/
def ofName? (name : String) : Option Reducer :=
  let (base, nullable) := match name.toList.reverse with
    | '?' :: rest => (String.ofList rest.reverse, true)
    | _ => (name, false)
  (Folding.every.find? fun f => f.name == base).map fun f => ⟨f, nullable⟩

end Reducer

/-- Whether a reduction folds its argument's dimensions away whenever it can, or keeps those that something around it
provides. -/
inductive Mode where
  | eager | reluctant
  deriving DecidableEq, Repr

end StarQuery
