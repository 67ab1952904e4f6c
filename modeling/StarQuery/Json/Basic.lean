/-!
# JSON values

The data a query runs on. A number is an integer or a double, and the two never coincide: `1` and `1.0` are different values.
An object is the list of its fields in the order in which they were added. A value that may be missing is an `Option Json`,
so that `none` (undefined) and `null` stay apart.
-/

namespace StarQuery

/-- A JSON number: an integer (of 64 bits, with or without sign), or a double. -/
inductive Number where
  | int (n : Int)
  | float (x : Float)
  deriving DecidableEq, Repr, Inhabited

/-- A JSON value. -/
inductive Json where
  | null
  | bool (b : Bool)
  | num (n : Number)
  | str (s : String)
  | arr (items : List Json)
  | obj (fields : List (String × Json))
  deriving Repr, Inhabited

/-- The fields of an object, in order. -/
abbrev Fields := List (String × Json)

namespace Fields

/-- The field names in order. -/
def names (fields : Fields) : List String := fields.map Prod.fst

/-- The value of the field `name`. -/
def get? (fields : Fields) (name : String) : Option Json := fields.lookup name

/-- Gives the field `name` the value that `f` makes of its present one. A field that is there keeps its place, and is null
if `f` makes nothing of it; one that is not there is added at the end, if `f` makes something. -/
def alter (fields : Fields) (name : String) (f : Option Json → Option Json) : Fields :=
  match fields with
  | [] =>
    match f none with
    | none => []
    | some v => [(name, v)]
  | (key, old) :: rest =>
    if key = name then (key, (f (some old)).getD .null) :: rest else (key, old) :: alter rest name f

/-- Sets the field `name`: in its place if it is there, else at the end. -/
def insert (fields : Fields) (name : String) (v : Json) : Fields := fields.alter name fun _ => some v

end Fields

namespace Json

/-- An integer as a value. -/
def ofInt (n : Int) : Json := .num (.int n)

/-- The empty object. -/
def empty : Json := .obj []

/-- The text of a string, none of any other value. -/
def asString? : Json → Option String
  | .str s => some s
  | _ => none

end Json

end StarQuery
