import StarQuery.Diagnostic.Basic

/-!
# Why a query does not compile

Each error names the subterm it is about, as it is written in a listing.
-/

namespace StarQuery

/-- The causes for which a query is not compiled. -/
inductive QueryError where
  /-- A name that is no operator. -/
  | unknownOperator (op subterm : String)
  /-- A term that has no meaning. -/
  | malformed (reason subterm : String)
  /-- The variable sets of a node contradict each other after a pass. -/
  | invariantViolation (pass detail subterm : String)
  /-- The collections of the query need an aggregate to compute that same aggregate. -/
  | circular (subterm : String)
  deriving DecidableEq, Repr

namespace QueryError

/-- The subterm an error is about. -/
def subterm : QueryError → String
  | unknownOperator _ s | malformed _ s | invariantViolation _ _ s | circular s => s

/-- The text of an error. -/
def message : QueryError → String
  | unknownOperator op s => "unknown operator '" ++ op ++ "' in " ++ s
  | malformed reason s => "malformed query: " ++ reason ++ " in " ++ s
  | invariantViolation pass detail s => "invariant violated during " ++ pass ++ ": " ++ detail ++ " at " ++ s
  | circular s => "circular aggregate in " ++ s

/-- An error as a diagnostic that points into a listing. -/
def asDiagnostic (e : QueryError) (listing : String) : Diagnostic :=
  { severity := .error
    message := e.message
    span := Span.locate listing e.subterm
    notes := match e with
      | invariantViolation pass _ _ => ["raised by the " ++ pass ++ " pass; this is a compiler bug"]
      | _ => []
    help := match e with
      | unknownOperator _ _ => some "operators must be pure, stateful, prefix_<stateful> or a special form"
      | _ => none }

end QueryError

end StarQuery
