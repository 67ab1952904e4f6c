import StarQuery.Json.Text
import StarQuery.Program.Basic

/-!
# Programs as script text

A program written out as JavaScript over a small library `rt` that holds the operators, the loops over key paths and the
handling of slots.
-/

namespace StarQuery

namespace Program

/-- A variable as an identifier: every star of its name becomes an `x`. -/
def identifier (t : NameTable) (v : Var) : String :=
  String.ofList ((t.name v).toList.map fun c => if c = '*' then 'x' else c)

/-- Variables as further arguments of a call. -/
def furtherArgs (t : NameTable) (vs : List Var) : String := String.join (vs.map fun v => ", " ++ identifier t v)

/-- A reducer as a member of the library. -/
def reducerMember (op : Reducer) : String :=
  if op.nullable then "rt.stateful[\"" ++ op.name ++ "\"]" else "rt.stateful." ++ op.name

mutual
/-- The script text of an expression. -/
def exprScript (t : NameTable) : Expr → String
  | .input => "inp"
  | .const value => value.text
  | .var v => identifier t v
  | .undefined name => "undefined /* ERROR: var '" ++ name ++ "' not defined */"
  | .get base key => exprScript t base ++ "?.[" ++ exprScript t key ++ "]"
  | .deepGet base path => "rt.deepGet(" ++ exprScript t base ++ ", " ++ exprScript t path ++ ")"
  | .pointwise op args => "rt.pure." ++ op.name ++ "(" ++ argsScript t args ++ ")"
  | .singleton arg => "rt.singleton(" ++ exprScript t arg ++ ")"
  | .nop => "(\x7b\x7d)"
  | .slot slot keys => "tmp[" ++ toString slot ++ "]" ++ keysScript t keys
/-- The script text of arguments, commas between them. -/
def argsScript (t : NameTable) : List Expr → String
  | [] => ""
  | [e] => exprScript t e
  | e :: rest => exprScript t e ++ ", " ++ argsScript t rest
/-- The script text of a chain of lookups. -/
def keysScript (t : NameTable) : List Expr → String
  | [] => ""
  | e :: rest => "?.[" ++ exprScript t e ++ "]" ++ keysScript t rest
end

/-- The script text of an action. -/
def actionScript (t : NameTable) : Action → String
  | .reduce op arg => reducerMember op ++ "(" ++ exprScript t arg ++ ")"
  | .scan op arg => "rt.stateful.prefix(" ++ reducerMember op ++ "(" ++ exprScript t arg ++ "))"
  | .update keys value => "rt.stateful.update([" ++ argsScript t keys ++ "], " ++ exprScript t value ++ ")"

/-- A line of a script, indented. -/
def scriptLine (indent depth : Nat) (text : String) : String :=
  String.ofList (List.replicate (depth * indent) ' ') ++ text

/-- The lines that open the loops over the tuples of a projection, from a depth on, where `path` is the part of the
projection that the outer loops have led to. -/
def openTuples (t : NameTable) (indent depth : Nat) (path : String) : List Var → List String
  | [] => []
  | v :: rest =>
    let name := identifier t v
    if t.isDeep v then
      scriptLine indent depth ("rt.deepForInTemp(" ++ path ++ ", (" ++ name ++ "_key, " ++ name ++ ") => \x7b") ::
        openTuples t indent (depth + 1) (path ++ "[" ++ name ++ "_key]") rest
    else
      scriptLine indent depth ("for (let " ++ name ++ " in " ++ path ++ ") \x7b") ::
        openTuples t indent (depth + 1) (path ++ "[" ++ name ++ "]") rest

/-- The lines that close those loops. -/
def closeTuples (t : NameTable) (indent depth : Nat) : List Var → List String
  | [] => []
  | v :: rest =>
    closeTuples t indent (depth + 1) rest ++ [scriptLine indent depth (if t.isDeep v then "\x7d)" else "\x7d")]

mutual
/-- The lines of a statement. -/
def stmtScript (t : NameTable) (indent : Nat) : Nat → Stmt → List String
  | depth, .comment text => [scriptLine indent depth ("// " ++ text)]
  | depth, .error text =>
    [scriptLine indent depth ("// ERROR: " ++ text),
      scriptLine indent depth ("console.warn(" ++ (Json.str text).text ++ ")")]
  | depth, .loop deep v source body =>
    let collection := exprScript t source
    let head := if deep then "rt.deepForIn(" ++ collection ++ ", " ++ identifier t v ++ " => \x7b"
      else "for (let " ++ identifier t v ++ " in (" ++ collection ++ " ?? \x7b\x7d)) \x7b"
    scriptLine indent depth head ::
      (blockScript t indent (depth + 1) body ++ [scriptLine indent depth (if deep then "\x7d)" else "\x7d")])
  | depth, .test deep v source body =>
    let collection := exprScript t source
    let head := if deep then "rt.deepIfIn(" ++ collection ++ ", " ++ identifier t v ++ ", () => \x7b"
      else "if (" ++ identifier t v ++ " in (" ++ collection ++ " ?? \x7b\x7d)) \x7b"
    scriptLine indent depth head ::
      (blockScript t indent (depth + 1) body ++ [scriptLine indent depth (if deep then "\x7d)" else "\x7d")])
  | depth, .project id keys fill body =>
    let projection := "proj" ++ toString id
    [scriptLine indent depth "\x7b", scriptLine indent (depth + 1) ("let " ++ projection ++ " = \x7b\x7d")] ++
      blockScript t indent (depth + 1) fill ++ openTuples t indent (depth + 1) projection keys ++
      blockScript t indent (depth + 1 + keys.length) body ++ closeTuples t indent (depth + 1) keys ++
      [scriptLine indent depth "\x7d"]
  | depth, .mark id keys => [scriptLine indent depth ("rt.mark(proj" ++ toString id ++ furtherArgs t keys ++ ")")]
  | depth, .start slot keys value copy =>
    let text := exprScript t value
    let initial := if copy then "structuredClone(" ++ text ++ ")" else text
    [scriptLine indent depth ("rt.init(tmp, " ++ toString slot ++ furtherArgs t keys ++ ")(() => " ++ initial ++ ")")]
  | depth, .step slot keys action =>
    [scriptLine indent depth
      ("rt.update(tmp, " ++ toString slot ++ furtherArgs t keys ++ ")(" ++ actionScript t action ++ ")")]
/-- The lines of a list of statements. -/
def blockScript (t : NameTable) (indent : Nat) : Nat → List Stmt → List String
  | _, [] => []
  | depth, s :: rest => stmtScript t indent depth s ++ blockScript t indent depth rest
end

/-- The lines of a program, with `indent` blanks for every level. -/
def script (p : Program) (indent : Nat) : List String :=
  "inp => \x7b" :: scriptLine indent 1 "let tmp = []" :: (blockScript p.table indent 1 p.body ++
    [scriptLine indent 1 ("return " ++ exprScript p.table p.result), "\x7d"])

/-- The lines of a program for a target, of which there is one. -/
def scriptFor? (p : Program) (target : String) : Option (List String) :=
  if target = "js" then some (p.script 4) else none

end Program

end StarQuery
