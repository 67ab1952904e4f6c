import StarQuery.Json.Text
import StarQuery.Number.Numeral

/-!
# Keys and paths

Any value can serve as a key. Into an object it leads by its key text, into an array by the index it names. The keys of a
collection are the names of its fields or the indices of its items; the paths of a value are the key sequences that lead to
its parts, the value itself first and each part before its own parts.
-/

namespace StarQuery

/-- The key text of a number: a whole double below `10 ^ 15` reads like the integer. -/
def Number.keyText : Number → String
  | .int n => toString n
  | .float x =>
    match wholeOf? x with
    | some n => if n.natAbs < 1000000000000000 then toString n else Number.text (.float x)
    | none => Number.text (.float x)

/-- The index a number names: a whole number that is not negative. A double beyond 64 bits names the last index there is. -/
def Number.index? : Number → Option Nat
  | .int n => if 0 ≤ n then some n.toNat else none
  | .float x =>
    (wholeOf? x).bind fun n =>
      if n < 0 then none else if n.toNat ≤ Numeral.maxIndex then some n.toNat else some Numeral.maxIndex

namespace Json

/-- The name under which a value, taken as a key, is found in an object. -/
def keyText : Json → String
  | .str s => s
  | .num n => n.keyText
  | v => v.text

/-- The index that a value, taken as a key, names in an array. -/
def index? : Json → Option Nat
  | .num n => n.index?
  | .str s => Numeral.readIndex? s.toList
  | _ => none

/-- The keys of a collection in order: the names of an object's fields, the indices of an array. -/
def keys : Json → List Json
  | .obj fields => fields.map fun field => .str field.1
  | .arr items => (List.range items.length).map fun (i : Nat) => ofInt i
  | _ => []

/-- The part of a collection that a key leads to. -/
def get? (collection key : Json) : Option Json :=
  match collection with
  | .obj fields => Fields.get? fields key.keyText
  | .arr items => key.index?.bind fun i => items[i]?
  | _ => none

/-- Whether a key leads to a part of a collection. -/
def hasKey (collection key : Json) : Bool := (collection.get? key).isSome

mutual
/-- The paths of a value, each before those that extend it. -/
def paths : Json → List (List Json)
  | .arr items => [] :: itemPaths 0 items
  | .obj fields => [] :: fieldPaths fields
  | _ => [[]]
/-- The paths through the items of an array, of which the first has the index `i`. -/
def itemPaths (i : Nat) : List Json → List (List Json)
  | [] => []
  | v :: rest => (paths v).map (ofInt i :: ·) ++ itemPaths (i + 1) rest
/-- The paths through the fields of an object. -/
def fieldPaths : List (String × Json) → List (List Json)
  | [] => []
  | (name, v) :: rest => (paths v).map (.str name :: ·) ++ fieldPaths rest
end

/-- The part of a value that a path, given as an array of keys, leads to. Nothing else is a path. -/
def getPath? (root : Json) : Json → Option Json
  | .arr path => path.foldlM get? root
  | _ => none

/-- The set of at most one element: the value under its own key text, nothing for an undefined value. -/
def singleton : Option Json → Json
  | none => empty
  | some v => .obj [(v.keyText, v)]

end Json

end StarQuery
