import StarQuery.Json.Basic

/-!
# Queries

A query is a tree that a reader of some notation, or the builders below, hand over. Its paths lead into the one input of
the query; an identifier that starts with a star is a variable, the bare star an anonymous one, and any other identifier a
string.
-/

namespace StarQuery

/-- A query as it is written. -/
inductive Query where
  /-- The input. -/
  | input
  | const (value : Json)
  | ident (name : String)
  /-- A key looked up in the input. -/
  | member (key : Query)
  /-- A key looked up in the value of another query. -/
  | get (base key : Query)
  /-- A call through a head; a head that is a string names an operator. -/
  | apply (head : Query) (args : List Query)
  /-- A call of a named operator. -/
  | op (name : String) (args : List Query)
  /-- Advice to a later stage, without effect on the result. -/
  | hint (head : Query) (args : List Query)
  | array (items : List Query)
  | object (entries : List (Query × Query))
  deriving Inhabited

namespace Query

/-- The parts of a text between the occurrences of a character. -/
def splitAt (sep : Char) : List Char → List (List Char)
  | [] => [[]]
  | c :: rest =>
    if c = sep then [] :: splitAt sep rest
    else match splitAt sep rest with
      | [] => [[c]]
      | part :: parts => (c :: part) :: parts

/-- A path from the input, its segments written with dots between them: `data.*.value`. -/
def path (dotted : String) : Query :=
  match (splitAt '.' dotted.toList).map String.ofList with
  | [] => .member (.ident "")
  | first :: rest => rest.foldl (fun base segment => .get base (.ident segment)) (.member (.ident first))

/-- The sum of a query. -/
def sum (arg : Query) : Query := .op "sum" [arg]

/-- The number of defined values of a query. -/
def count (arg : Query) : Query := .op "count" [arg]

/-- The values of a query grouped by a key. -/
def group (key value : Query) : Query := .op "group" [key, value]

/-- The sum of two queries. -/
def plus (a b : Query) : Query := .op "plus" [a, b]

/-- The product of two queries. -/
def times (a b : Query) : Query := .op "times" [a, b]

end Query

end StarQuery
