import StarQuery.Query.Basic

/-!
# Queries as JSON

A query is stored as an object whose field `kind` tells its form and whose other fields hold its parts. Reading takes the
fields in any order and passes over the ones it does not know. A get without a base, or with null for it, looks into the
input.
-/

namespace StarQuery

namespace Query

mutual
/-- A query as a value. -/
def toJson : Query → Json
  | .input => .obj [("kind", .str "input")]
  | .const value => .obj [("kind", .str "const"), ("value", value)]
  | .ident name => .obj [("kind", .str "ident"), ("name", .str name)]
  | .member key => .obj [("kind", .str "get"), ("base", .null), ("key", toJson key)]
  | .get base key => .obj [("kind", .str "get"), ("base", toJson base), ("key", toJson key)]
  | .apply head args => .obj [("kind", .str "apply"), ("head", toJson head), ("args", .arr (listToJson args))]
  | .op name args => .obj [("kind", .str "op"), ("op", .str name), ("args", .arr (listToJson args))]
  | .hint head args => .obj [("kind", .str "hint"), ("head", toJson head), ("args", .arr (listToJson args))]
  | .array items => .obj [("kind", .str "array"), ("items", .arr (listToJson items))]
  | .object entries => .obj [("kind", .str "object"), ("entries", .arr (entriesToJson entries))]
/-- A list of queries as values. -/
def listToJson : List Query → List Json
  | [] => []
  | q :: rest => toJson q :: listToJson rest
/-- The entries of an object as values. -/
def entriesToJson : List (Query × Query) → List Json
  | [] => []
  | (key, value) :: rest => .obj [("key", toJson key), ("value", toJson value)] :: entriesToJson rest
end

mutual
/-- The query that a value stores, none if it stores none. It stands for the reader that a serialization library derives from
the format, which is not modelled: it reads objects with the tag in the field `kind`, and passes over fields that the tag does
not have. A sequence in the place of an object, which such a library also takes, is not read here. -/
def ofJson? : Json → Option Query
  | .obj fields =>
    match Fields.get? fields "kind" with
    | some (.str "input") => some .input
    | some (.str "const") => (Fields.get? fields "value").map .const
    | some (.str "ident") => ((Fields.get? fields "name").bind Json.asString?).map .ident
    | some (.str "get") => do
      match ← baseField? fields with
      | none => some (.member (← queryField? "key" fields))
      | some base => some (.get base (← queryField? "key" fields))
    | some (.str "apply") => do some (.apply (← queryField? "head" fields) (← listField? "args" fields))
    | some (.str "op") => do
      some (.op (← (Fields.get? fields "op").bind Json.asString?) (← listField? "args" fields))
    | some (.str "hint") => do some (.hint (← queryField? "head" fields) (← listField? "args" fields))
    | some (.str "array") => do some (.array (← listField? "items" fields))
    | some (.str "object") => do some (.object (← entriesField? "entries" fields))
    | _ => none
  | _ => none
/-- The query in the field `base`: there may be none, or null in its place. -/
def baseField? : List (String × Json) → Option (Option Query)
  | [] => some none
  | (name, v) :: rest =>
    if name = "base" then
      match v with
      | .null => some none
      | v => (ofJson? v).map some
    else baseField? rest
/-- The query in a field. -/
def queryField? (field : String) : List (String × Json) → Option Query
  | [] => none
  | (name, v) :: rest => if name = field then ofJson? v else queryField? field rest
/-- The list of queries in a field. -/
def listField? (field : String) : List (String × Json) → Option (List Query)
  | [] => none
  | (name, v) :: rest => if name = field then listOf? v else listField? field rest
/-- The entries in a field. -/
def entriesField? (field : String) : List (String × Json) → Option (List (Query × Query))
  | [] => none
  | (name, v) :: rest => if name = field then entriesOf? v else entriesField? field rest
/-- The list of queries that an array stores. -/
def listOf? : Json → Option (List Query)
  | .arr items => itemsOf? items
  | _ => none
/-- The queries that the items of an array store. -/
def itemsOf? : List Json → Option (List Query)
  | [] => some []
  | v :: rest => do some ((← ofJson? v) :: (← itemsOf? rest))
/-- The entries that an array stores. -/
def entriesOf? : Json → Option (List (Query × Query))
  | .arr items => entryItemsOf? items
  | _ => none
/-- The entries that the items of an array store. -/
def entryItemsOf? : List Json → Option (List (Query × Query))
  | [] => some []
  | v :: rest => do some ((← entryOf? v) :: (← entryItemsOf? rest))
/-- The entry that an object stores in its fields `key` and `value`. -/
def entryOf? : Json → Option (Query × Query)
  | .obj fields => do some (← queryField? "key" fields, ← queryField? "value" fields)
  | _ => none
end

end Query

end StarQuery
