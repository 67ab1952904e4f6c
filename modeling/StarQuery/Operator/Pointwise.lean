import StarQuery.Json.Quantity
import StarQuery.Operator.Basic

/-!
# What the pointwise operators compute

Arguments and results may be undefined. Arithmetic and comparison need two defined arguments; a comparison gives `true` or
nothing, so that it acts as a filter. The connectives and the conditional pass on one of their arguments as it is.
-/

namespace StarQuery

/-- The functions that `apply` finds by name. -/
abbrev Functions := String → Option (List (Option Json) → Option Json)

/-- The table without functions. -/
def Functions.none : Functions := fun _ => Option.none

namespace Pointwise

/-- An operation on exactly two arguments, both defined. -/
def binary (f : Json → Json → Option Json) : List (Option Json) → Option Json
  | [some a, some b] => f a b
  | _ => none

/-- A test of exactly two arguments, both defined: true or undefined. -/
def test (p : Json → Json → Bool) : List (Option Json) → Option Json :=
  binary fun a b => if p a b then some (.bool true) else none

/-- Whether two values compare, and in one of the ways that `p` admits. -/
def compares (p : Ordering → Bool) (a b : Json) : Bool := (Json.order? a b).any p

/-- The double that `f` makes of the doubles two values stand for, as a value. -/
def throughFloats (f : Float → Float → Float) (a b : Json) : Option Json := do
  Json.ofFloat? (f (← a.toFloat?) (← b.toFloat?))

/-- The items of an array, or a value that is no array as the only item. -/
def itemsOf : Json → List Json
  | .arr items => items
  | v => [v]

/-- The value of an operator at its arguments. -/
def eval (functions : Functions) (op : Pointwise) (args : List (Option Json)) : Option Json :=
  match op, args with
  | apply, some (.str name) :: rest => (functions name).bind fun f => f rest
  | apply, _ => none
  | plus, args => binary Json.add args
  | minus, args => binary Json.sub args
  | times, args => binary Json.mul args
  | fdiv, args => binary (throughFloats (· / ·)) args
  | div, args => binary (throughFloats fun x y => floorOf (x / y)) args
  | mod, args => binary (throughFloats remainderOf) args
  | and, a :: b :: _ | andAlso, a :: b :: _ => if Json.truthy a then b else none
  | orElse, a :: b :: _ => if Json.truthy a then a else b
  | and, _ | andAlso, _ | orElse, _ => none
  | equal, args => test Json.alike args
  | notEqual, args => test (fun a b => !Json.alike a b) args
  | lessThan, args => test (compares Ordering.isLT) args
  | lessThanOrEqual, args => test (compares Ordering.isLE) args
  | greaterThan, args => test (compares Ordering.isGT) args
  | greaterThanOrEqual, args => test (compares Ordering.isGE) args
  | ifElse, cond :: yes :: no :: _ => if Json.truthy cond then yes else no
  | ifElse, _ => none
  | singleton, args => some (Json.singleton args.head?.join)
  | flatten, args => some (.arr ((args.filterMap id).flatMap itemsOf))
  | vars, args => some (.arr (args.filterMap id))

end Pointwise

end StarQuery
