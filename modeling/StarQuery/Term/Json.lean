import StarQuery.Term.Basic

/-!
# Terms as JSON

A term is stored like a query: an object whose field `kind` tells its form. The text of that object tells terms apart, and
is the key by which equal collections are recognised.
-/

namespace StarQuery

/-- A name with its first letter in upper case. -/
def capitalized (name : String) : String :=
  match name.toList with
  | [] => ""
  | c :: rest => String.ofList (c.toUpper :: rest)

/-- A pointwise operator as a value. -/
def Pointwise.toJson (op : Pointwise) : Json := .str (capitalized op.name)

/-- A reducer as a value. -/
def Reducer.toJson (r : Reducer) : Json :=
  .obj [("op", .str (capitalized r.folding.name)), ("nullable", .bool r.nullable)]

namespace Term

mutual
/-- A term as a value. -/
def toJson : Term → Json
  | .input => .obj [("kind", .str "input")]
  | .const value => .obj [("kind", .str "const"), ("value", value)]
  | .var name => .obj [("kind", .str "var"), ("name", .str name)]
  | .star => .obj [("kind", .str "wildcard")]
  | .get base key => .obj [("kind", .str "get"), ("base", toJson base), ("key", toJson key)]
  | .pointwise op args => .obj [("kind", .str "pure"), ("op", op.toJson), ("args", .arr (listToJson args))]
  | .hint op args => .obj [("kind", .str "hint"), ("op", .str op), ("args", .arr (listToJson args))]
  | .keySet arg => .obj [("kind", .str "mkset"), ("arg", toJson arg)]
  | .reduce op arg => .obj [("kind", .str "stateful"), ("op", op.toJson), ("arg", toJson arg)]
  | .scan op arg => .obj [("kind", .str "prefix"), ("op", op.toJson), ("arg", toJson arg)]
  | .group key value => .obj [("kind", .str "group"), ("key", toJson key), ("value", toJson value)]
  | .update base key value =>
    .obj [("kind", .str "update"), ("base", toJson base), ("key", toJson key), ("value", toJson value)]
/-- Arguments as values. -/
def listToJson : List Term → List Json
  | [] => []
  | t :: rest => toJson t :: listToJson rest
end

/-- The text that tells a term from all others. -/
def fingerprint (t : Term) : String := t.toJson.text

end Term

end StarQuery
