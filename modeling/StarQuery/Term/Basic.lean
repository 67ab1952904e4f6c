import StarQuery.Json.Text
import StarQuery.Operator.Basic

/-!
# Terms

A query whose names are resolved: every call is one of the operators, literals are built from reductions and updates, and
identifiers are variables, anonymous stars or strings. The text of a term is the listing that diagnostics point into.
-/

namespace StarQuery

/-- A resolved query. -/
inductive Term where
  | input
  | const (value : Json)
  /-- A named variable. -/
  | var (name : String)
  /-- The anonymous star. -/
  | star
  | get (base key : Term)
  | pointwise (op : Pointwise) (args : List Term)
  | hint (op : String) (args : List Term)
  /-- The set of at most one element: the value of a term under its own key text. -/
  | keySet (arg : Term)
  | reduce (op : Reducer) (arg : Term)
  | scan (op : Reducer) (arg : Term)
  /-- The values of a term by the keys of another. -/
  | group (key value : Term)
  /-- The value of a term with one entry more. -/
  | update (base key value : Term)
  deriving Inhabited

namespace Term

/-- Whether a term gathers values over many bindings. -/
def gathers : Term → Bool
  | .reduce .. | .scan .. | .group .. | .update .. => true
  | _ => false

mutual
/-- A term as it is written in a listing. A key looked up in the input stands alone. -/
def text : Term → String
  | .input => "inp"
  | .const value => value.plain
  | .var name => name
  | .star => "*"
  | .get .input key => text key
  | .get base key => text base ++ "[" ++ text key ++ "]"
  | .pointwise op args => op.name ++ "(" ++ listText args ++ ")"
  | .hint op args => "hint:" ++ op ++ "(" ++ listText args ++ ")"
  | .keySet arg => "mkset(" ++ text arg ++ ")"
  | .reduce op arg => op.name ++ "(" ++ text arg ++ ")"
  | .scan op arg => "prefix_" ++ op.name ++ "(" ++ text arg ++ ")"
  | .group key value => "group(" ++ text key ++ ", " ++ text value ++ ")"
  | .update base key value => text base ++ "\x7b " ++ text key ++ ": " ++ text value ++ " \x7d"
/-- Arguments as they are written in a listing, commas between them. -/
def listText : List Term → String
  | [] => ""
  | [t] => text t
  | t :: rest => text t ++ ", " ++ listText rest
end

/-- A call as it is written in a listing. -/
def callText (name : String) (args : List Term) : String := name ++ "(" ++ listText args ++ ")"

end Term

end StarQuery
