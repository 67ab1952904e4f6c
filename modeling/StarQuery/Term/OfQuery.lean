import StarQuery.Error
import StarQuery.Operator.Vocabulary
import StarQuery.Query.Basic
import StarQuery.Term.Basic

/-!
# Resolving a query

Names are looked up, argument counts checked, and literals built: an array literal gathers the values of its items, an
object literal updates the empty object entry by entry. The parts of a query are resolved from left to right, and a call
after its arguments, so that the first error is the one reported.
-/

namespace StarQuery

namespace Term

/-- What an identifier stands for. -/
def ofIdent (name : String) : Except QueryError Term :=
  match name.toList with
  | ['*'] => .ok .star
  | ['*', '*'] => .error (.malformed "deep variables must be named, e.g. '**A'" name)
  | '*' :: _ => .ok (.var name)
  | _ => .ok (.const (.str name))

/-- The call of what a name stands for, none if it does not take that number of arguments. -/
def ofCallee? : Callee → List Term → Option Term
  | .get, [key] => some (.get .input key)
  | .get, [base, key] => some (.get base key)
  | .group, [key, value] => some (.group key value)
  | .update, [base, key, value] => some (.update base key value)
  | .keySet, [arg] => some (.keySet arg)
  | .reduce op, [arg] => some (.reduce op arg)
  | .scan op, [arg] => some (.scan op arg)
  | .pointwise op, args => if (Callee.pointwise op).admits args.length then some (.pointwise op args) else none
  | _, _ => none

/-- The call of a name. -/
def ofCall (name : String) (args : List Term) : Except QueryError Term :=
  match Callee.ofName? name with
  | none => .error (.unknownOperator name (callText name args))
  | some callee =>
    match ofCallee? callee args with
    | none =>
      .error (.malformed ("'" ++ name ++ "' does not take " ++ toString args.length ++ " argument(s)")
        (callText name args))
    | some term => .ok term

/-- The call of a head that was resolved: a string names an operator, anything else is applied as a function. -/
def ofApply (head : Term) (args : List Term) : Except QueryError Term :=
  match head with
  | .const (.str name) => ofCall name args
  | head => .ok (.pointwise .apply (head :: args))

/-- A hint with a head that was resolved: a string names it, anything else is its first argument. -/
def ofHint (head : Term) (args : List Term) : Term :=
  match head with
  | .const (.str op) => .hint op args
  | head => .hint "generic" (head :: args)

/-- The reduction that gathers the values of a term. -/
def gathered (item : Term) : Term := .reduce ⟨.array, false⟩ item

/-- The array literal of resolved items: several are gathered one by one and then joined. -/
def ofItems : List Term → Term
  | [] => .const (.arr [])
  | [item] => gathered item
  | items => .pointwise .flatten (items.map gathered)

mutual
/-- A query with its names resolved. -/
def ofQuery : Query → Except QueryError Term
  | .input => .ok .input
  | .const value => .ok (.const value)
  | .ident name => ofIdent name
  | .member key => do return .get .input (← ofQuery key)
  | .get base key => do
    let base ← ofQuery base
    return .get base (← ofQuery key)
  | .apply head args => do
    let head ← ofQuery head
    ofApply head (← ofQueries args)
  | .op name args => do ofCall name (← ofQueries args)
  | .hint head args => do
    let head ← ofQuery head
    return ofHint head (← ofQueries args)
  | .array items => do return ofItems (← ofQueries items)
  | .object entries => ofEntries (.const Json.empty) entries
/-- Queries with their names resolved. -/
def ofQueries : List Query → Except QueryError (List Term)
  | [] => .ok []
  | q :: rest => do
    let term ← ofQuery q
    return term :: (← ofQueries rest)
/-- A term with the entries of an object literal added. -/
def ofEntries (base : Term) : List (Query × Query) → Except QueryError Term
  | [] => .ok base
  | (key, value) :: rest => do
    let key ← ofQuery key
    let value ← ofQuery value
    ofEntries (.update base key value) rest
end

end Term

end StarQuery
