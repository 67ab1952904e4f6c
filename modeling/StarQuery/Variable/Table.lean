import StarQuery.Variable.Set

/-!
# The table of variable names

Names are numbered in the order in which they are first seen. A name that starts with two stars belongs to a deep variable,
which is bound to key paths instead of keys.
-/

namespace StarQuery

/-- The names of the variables, in the order of their numbers. -/
structure NameTable where
  names : List String := []
  deriving DecidableEq, Repr, Inhabited

namespace NameTable

/-- The variable of a name. -/
def lookup? (t : NameTable) (name : String) : Option Var := t.names.idxOf? name

/-- The variable of a name, which is added to the table if it is not there. The number of a variable is the number of names
before it, without a bound. A table that keeps numbers in 32 bits is the same one up to `2 ^ 32` names, beyond which its
numbers would start again at 0. -/
def intern (t : NameTable) (name : String) : Var × NameTable :=
  match t.lookup? name with
  | some v => (v, t)
  | none => (t.names.length, ⟨t.names ++ [name]⟩)

/-- The name of a variable, a question mark if the table has none. -/
def name (t : NameTable) (v : Var) : String := t.names[v]?.getD "?"

/-- Whether a name belongs to a deep variable. -/
def isDeepName (name : String) : Bool :=
  match name.toList with
  | '*' :: '*' :: _ => true
  | _ => false

/-- Whether a variable is bound to key paths (`**A`) instead of keys. -/
def isDeep (t : NameTable) (v : Var) : Bool := isDeepName (t.name v)

/-- The names of the members of a set, with commas between them. -/
def namesOf (t : NameTable) (s : VarSet) : String := ",".intercalate (s.toList.map t.name)

end NameTable

end StarQuery
