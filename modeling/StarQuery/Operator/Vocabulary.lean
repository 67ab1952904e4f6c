import StarQuery.Operator.Basic

/-!
# The names that can be called

A name in a call is a special form, a pointwise operator, a reducer, or the running form of a reducer.
-/

namespace StarQuery

/-- What a name in a call stands for. -/
inductive Callee where
  | get | group | update
  /-- The set of at most one key. -/
  | keySet
  | pointwise (op : Pointwise)
  | reduce (op : Reducer)
  /-- The states of a reducer after each of its inputs. -/
  | scan (op : Reducer)
  deriving DecidableEq, Repr

namespace Callee

/-- What a text says after a given beginning, none if it begins otherwise. -/
def after? : List Char → List Char → Option (List Char)
  | [], cs => some cs
  | b :: bs, c :: cs => if b = c then after? bs cs else none
  | _ :: _, [] => none

/-- What a name stands for. The special forms come first, then pointwise operators, reducers and running reducers. -/
def ofName? (name : String) : Option Callee :=
  match name with
  | "get" => some .get
  | "group" => some .group
  | "update" => some .update
  | "mkset" => some .keySet
  | _ =>
    ((Pointwise.ofName? name).map .pointwise).or <|
      ((Reducer.ofName? name).map .reduce).or <|
        ((after? "prefix_".toList name.toList).bind fun rest => Reducer.ofName? (String.ofList rest)).map .scan

/-- The least and the greatest number of arguments; none if there is no greatest. -/
def arity : Callee → Nat × Option Nat
  | get => (1, some 2)
  | group => (2, some 2)
  | update => (3, some 3)
  | keySet | reduce _ | scan _ => (1, some 1)
  | pointwise op =>
    match op.arity? with
    | some n => (n, some n)
    | none => (1, none)

/-- Whether a number of arguments will do. -/
def admits (b : Callee) (count : Nat) : Bool := b.arity.1 ≤ count && b.arity.2.all (count ≤ ·)

end Callee

end StarQuery
