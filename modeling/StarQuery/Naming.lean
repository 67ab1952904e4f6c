import StarQuery.Error
import StarQuery.Variable.Table

/-!
# Naming the collections

An anonymous star is named after the collection it ranges over, and a computed key after the set it is drawn from: the
collections are numbered in the order in which they are first seen, and the number with a letter before it is the name. Two
stars over equal collections are therefore one variable.
-/

namespace StarQuery

/-- The variables seen so far, and the keys of the collections seen so far, in order. -/
structure Naming where
  table : NameTable := {}
  collections : List String := []
  deriving DecidableEq, Repr, Inhabited

/-- A computation that names variables and may fail. What was named before a failure stays named. -/
abbrev NamingM := ExceptT QueryError (StateM Naming)

namespace Naming

/-- The number of a collection, which is added if it is new. -/
def number (n : Naming) (key : String) : Nat × Naming :=
  match n.collections.idxOf? key with
  | some i => (i, n)
  | none => (n.collections.length, { n with collections := n.collections ++ [key] })

/-- The variable of a name. -/
def intern (n : Naming) (name : String) : Var × Naming :=
  let (v, table) := n.table.intern name
  (v, { n with table })

/-- The variable that is named after a collection, with a letter that tells what it is named for. -/
def nameAfter (n : Naming) (tag : Char) (key : String) : Var × Naming :=
  let (i, n) := n.number key
  n.intern (tag.toString ++ toString i)

end Naming

end StarQuery
