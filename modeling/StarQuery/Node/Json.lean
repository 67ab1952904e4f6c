import StarQuery.Node.Basic
import StarQuery.Term.Json

/-!
# Nodes as JSON

A node is stored like a term, with its variable sets in the field `ann`. The text of that object tells nodes apart, the
variable sets included, and is the key by which equal aggregates and equal generators are recognised.
-/

namespace StarQuery

/-- A set of variables as the array of their numbers. -/
def VarSet.toJson (s : VarSet) : Json := .arr (s.toList.map fun (v : Nat) => Json.ofInt v)

/-- The variable sets of a node as a value. -/
def VarInfo.toJson (i : VarInfo) : Json :=
  .obj [("vars", i.vars.toJson), ("mind", i.mind.toJson), ("dims", i.dims.toJson), ("bnd", i.bound.toJson),
    ("all_bnd", i.allBound.toJson), ("fre", i.free.toJson)]

/-- A mode as a value. -/
def Mode.toJson : Mode → Json
  | .eager => .str "Eager"
  | .reluctant => .str "Reluctant"

namespace Node

/-- The object that stores a node of a kind. -/
def stored (kind : String) (fields : Fields) (info : VarInfo) : Json :=
  .obj (("kind", .str kind) :: (fields ++ [("ann", info.toJson)]))

mutual
/-- A node as a value. -/
def toJson : Node → Json
  | .input i => stored "input" [] i
  | .const i value => stored "const" [("value", value)] i
  | .var i v => stored "var" [("var", Json.ofInt v)] i
  | .get i base key => stored "get" [("base", toJson base), ("key", toJson key)] i
  | .pointwise i op args => stored "pure" [("op", op.toJson), ("args", .arr (listToJson args))] i
  | .hint i op args => stored "hint" [("op", .str op), ("args", .arr (listToJson args))] i
  | .keySet i arg => stored "mkset" [("arg", toJson arg)] i
  | .reduce i op mode arg => stored "stateful" [("op", op.toJson), ("mode", mode.toJson), ("arg", toJson arg)] i
  | .scan i op mode arg => stored "prefix" [("op", op.toJson), ("mode", mode.toJson), ("arg", toJson arg)] i
  | .update i base key value filter =>
    stored "update"
      [("base", toJson base), ("key", toJson key), ("value", toJson value), ("filter", optionToJson filter)] i
/-- Arguments as values. -/
def listToJson : List Node → List Json
  | [] => []
  | n :: rest => toJson n :: listToJson rest
/-- A filter as a value, null if there is none. -/
def optionToJson : Option Node → Json
  | none => .null
  | some n => toJson n
end

/-- The text that tells a node, its variable sets included, from all others. -/
def fingerprint (n : Node) : String := n.toJson.text

end Node

end StarQuery
