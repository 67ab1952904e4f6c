import StarQuery.Json.Basic
import StarQuery.Operator.Basic
import StarQuery.Variable.Table

/-!
# Programs

A compiled query: statements that fill numbered slots by loops over collections, and an expression for the result. A slot
holds the value of an aggregate for every binding of its free variables, as nested objects keyed by those bindings.
-/

namespace StarQuery

/-- An expression. Its value may be undefined. -/
inductive Expr where
  | input
  | const (value : Json)
  | var (v : Var)
  /-- Stands for a variable that is not bound where it is used. -/
  | undefined (name : String)
  | get (base key : Expr)
  /-- The part that a path of keys leads to. -/
  | deepGet (base path : Expr)
  | pointwise (op : Pointwise) (args : List Expr)
  | singleton (arg : Expr)
  /-- A hint, which has no effect: the empty object. -/
  | nop
  /-- What a slot holds for some keys. -/
  | slot (id : Nat) (keys : List Expr)
  deriving Inhabited

/-- What is done to the state of a slot. -/
inductive Action where
  | reduce (op : Reducer) (arg : Expr)
  | scan (op : Reducer) (arg : Expr)
  | update (keys : List Expr) (value : Expr)
  deriving Inhabited

/-- A statement. A deep loop or test is about the key paths of a collection instead of its keys. -/
inductive Stmt where
  | comment (text : String)
  /-- A report inside the program, which runs on. -/
  | error (text : String)
  /-- Runs the body for every key of the source. -/
  | loop (deep : Bool) (v : Var) (source : Expr) (body : List Stmt)
  /-- Runs the body if the value of a bound variable is a key of the source. -/
  | test (deep : Bool) (v : Var) (source : Expr) (body : List Stmt)
  /-- Runs `fill` to collect key tuples, then the body once for each different one. -/
  | project (id : Nat) (keys : List Var) (fill body : List Stmt)
  /-- Records the present values of the keys in a projection. -/
  | mark (id : Nat) (keys : List Var)
  /-- Gives a slot its first state, if it has none for the present keys. -/
  | start (slot : Nat) (keys : List Var) (value : Expr) (copy : Bool)
  /-- Changes the state of a slot for the present keys. -/
  | step (slot : Nat) (keys : List Var) (action : Action)
  deriving Inhabited

/-- A compiled query. -/
structure Program where
  body : List Stmt
  result : Expr
  slots : Nat
  projections : Nat
  table : NameTable
  deriving Inhabited

namespace Stmt

mutual
/-- The number of statements, nested ones included. -/
def count : Stmt → Nat
  | .loop _ _ _ body | .test _ _ _ body => 1 + countAll body
  | .project _ _ fill body => 1 + countAll fill + countAll body
  | _ => 1
/-- The number of statements of a list, nested ones included. -/
def countAll : List Stmt → Nat
  | [] => 0
  | s :: rest => count s + countAll rest
end

end Stmt

end StarQuery
