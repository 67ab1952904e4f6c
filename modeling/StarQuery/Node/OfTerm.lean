import StarQuery.Naming
import StarQuery.Node.Json

/-!
# Naming the stars of a term

A term becomes a node: a star in a path becomes the variable of its collection, a grouping an update of the empty object. The
key of an update that is no variable is drawn from the set of its one value, so that a key that is undefined generates
nothing. A value that gathers nothing is gathered by a reluctant reduction to its last value.
-/

namespace StarQuery

namespace Node

/-- The value of an update: it has to be an aggregate, and is made one if the term it comes from is none. -/
def gathered (term : Term) (node : Node) : Node :=
  if term.gathers then node else .reduce {} ⟨.single, false⟩ .reluctant node

/-- The update of a base by a key and a value. A key that is no variable becomes one, with a filter that generates it. -/
def updateBy (base key value : Node) : NamingM Node := do
  match key.asVar? with
  | some _ => return .update {} base key value none
  | none =>
    let set : Node := .keySet {} key
    let v ← modifyGet fun naming => naming.nameAfter 'K' set.fingerprint
    return .update {} base (.var {} v) value (some (.get {} set (.var {} v)))

mutual
/-- The node of a term. -/
def ofTerm : Term → NamingM Node
  | .input => return .input {}
  | .const value => return .const {} value
  | .var name => do return .var {} (← modifyGet fun naming => naming.intern name)
  | .star => throw (.malformed "anonymous '*' outside of a path" "*")
  | .get base .star => do
    let node ← ofTerm base
    let v ← modifyGet fun naming => naming.nameAfter 'D' base.fingerprint
    return .get {} node (.var {} v)
  | .get base key => do
    let base ← ofTerm base
    return .get {} base (← ofTerm key)
  | .pointwise op args => do return .pointwise {} op (← ofTerms args)
  | .hint op args => do return .hint {} op (← ofTerms args)
  | .keySet arg => do return .keySet {} (← ofTerm arg)
  | .reduce op arg => do return .reduce {} op .eager (← ofTerm arg)
  | .scan op arg => do return .scan {} op .eager (← ofTerm arg)
  | .group key value => do
    let key ← ofTerm key
    updateBy (.const {} Json.empty) key (gathered value (← ofTerm value))
  | .update base key value => do
    let base ← ofTerm base
    let key ← ofTerm key
    updateBy base key (gathered value (← ofTerm value))
/-- The nodes of a list of terms. -/
def ofTerms : List Term → NamingM (List Node)
  | [] => return []
  | term :: rest => do
    let node ← ofTerm term
    return node :: (← ofTerms rest)
end

end Node

end StarQuery
