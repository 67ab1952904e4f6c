import StarQuery.Json.Basic
import StarQuery.Text.Span

/-!
# Diagnostics

What is reported about a query that compiles all the same: a message with the span of the listing it is about, notes and a
hint what to do.
-/

namespace StarQuery

/-- How serious a diagnostic is. -/
inductive Severity where
  | error | warning
  deriving DecidableEq, Repr

/-- The word for a severity. -/
def Severity.name : Severity → String
  | .error => "Error"
  | .warning => "Warning"

/-- A report about a part of a listing. -/
structure Diagnostic where
  severity : Severity
  message : String
  span : Span
  notes : List String := []
  help : Option String := none
  deriving DecidableEq, Repr

/-- A span as a value. -/
def Span.toJson (s : Span) : Json := .obj [("start", Json.ofInt s.start), ("end", Json.ofInt s.stop)]

namespace Diagnostic

/-- A diagnostic about the first occurrence of a subterm in a listing. -/
def about (severity : Severity) (listing message subterm : String) : Diagnostic :=
  { severity, message, span := Span.locate listing subterm }

/-- Whether a diagnostic is an error. -/
def isError (d : Diagnostic) : Bool := d.severity == .error

/-- A diagnostic as a value. -/
def toJson (d : Diagnostic) : Json :=
  .obj [("severity", .str d.severity.name), ("message", .str d.message), ("span", d.span.toJson),
    ("notes", .arr (d.notes.map .str)), ("help", (d.help.map Json.str).getD .null)]

end Diagnostic

end StarQuery
