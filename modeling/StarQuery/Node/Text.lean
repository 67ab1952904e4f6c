import StarQuery.Json.Text
import StarQuery.Node.Basic
import StarQuery.Variable.Table

/-!
# The text of a node

Nodes are written like terms, with the names of their variables; an update with a filter shows it after a slash.
-/

namespace StarQuery

namespace Node

mutual
/-- A node as it is written in a listing. A key looked up in the input stands alone. -/
def text (t : NameTable) : Node → String
  | .input _ => "inp"
  | .const _ value => value.plain
  | .var _ v => t.name v
  | .get _ (.input _) key => text t key
  | .get _ base key => text t base ++ "[" ++ text t key ++ "]"
  | .pointwise _ op args => op.name ++ "(" ++ listText t args ++ ")"
  | .hint _ op args => "hint:" ++ op ++ "(" ++ listText t args ++ ")"
  | .keySet _ arg => "mkset(" ++ text t arg ++ ")"
  | .reduce _ op _ arg => op.name ++ "(" ++ text t arg ++ ")"
  | .scan _ op _ arg => "prefix_" ++ op.name ++ "(" ++ text t arg ++ ")"
  | .update _ base key value filter =>
    text t base ++ "\x7b " ++ text t key ++ ": " ++ text t value ++ " \x7d" ++ filterText t filter
/-- Arguments as they are written in a listing, commas between them. -/
def listText (t : NameTable) : List Node → String
  | [] => ""
  | [n] => text t n
  | n :: rest => text t n ++ ", " ++ listText t rest
/-- The filter of an update as it is written in a listing. -/
def filterText (t : NameTable) : Option Node → String
  | none => ""
  | some n => " / " ++ text t n
end

/-- A node with its variable sets, as one line. -/
def describe (t : NameTable) (n : Node) : String :=
  " | ".intercalate (n.text t :: [n.info.vars, n.info.mind, n.info.dims, n.info.bound, n.info.allBound, n.info.free].map
    t.namesOf)

end Node

end StarQuery
