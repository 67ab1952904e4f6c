import StarQuery.Json.Text
import StarQuery.Program.Basic

/-!
# The listing of a program

Every statement on a line of its own, indented by how deep it is nested, without the sources of loops and the operands of
actions; and the text of expressions.
-/

namespace StarQuery

namespace Expr

mutual
/-- The text of an expression, variables by number. -/
def text : Expr → String
  | .input => "inp"
  | .const value => value.plain
  | .var v => "v" ++ toString v
  | .undefined name => "undefined(" ++ name ++ ")"
  | .get base key => text base ++ "[" ++ text key ++ "]"
  | .deepGet base path => text base ++ "[" ++ text path ++ "..]"
  | .pointwise op args => op.name ++ "(" ++ listText args ++ ")"
  | .singleton arg => "mkset(" ++ text arg ++ ")"
  | .nop => "\x7b\x7d"
  | .slot id keys => "tmp" ++ toString id ++ keysText keys
/-- The text of arguments, commas between them. -/
def listText : List Expr → String
  | [] => ""
  | [e] => text e
  | e :: rest => text e ++ ", " ++ listText rest
/-- The text of keys, each between brackets. -/
def keysText : List Expr → String
  | [] => ""
  | e :: rest => "[" ++ text e ++ "]" ++ keysText rest
end

end Expr

/-- The name of what an action does. -/
def Action.name : Action → String
  | .reduce op _ => op.name
  | .scan op _ => "prefix_" ++ op.name
  | .update _ _ => "update"

namespace Stmt

/-- The text of a statement, nested ones counted. -/
def text : Stmt → String
  | .comment text => "// " ++ text
  | .error text => "// ERROR: " ++ text
  | .loop deep v _ body => (if deep then "deep for v" else "for v") ++ toString v ++ "(body=" ++ toString body.length ++ ")"
  | .test deep v _ body => (if deep then "deep if v" else "if v") ++ toString v ++ "(body=" ++ toString body.length ++ ")"
  | .project id _ fill body =>
    "project proj" ++ toString id ++ "(fill=" ++ toString fill.length ++ ", body=" ++ toString body.length ++ ")"
  | .mark id keys => "mark proj" ++ toString id ++ "[" ++ toString keys.length ++ "]"
  | .start slot keys _ _ => "init tmp" ++ toString slot ++ "[" ++ toString keys.length ++ "]"
  | .step slot keys action => "step tmp" ++ toString slot ++ "[" ++ toString keys.length ++ "] " ++ action.name

/-- The text of a statement as a line of a listing. -/
def line (depth : Nat) (s : Stmt) : String := String.ofList (List.replicate (2 * depth) ' ') ++ s.text

mutual
/-- The lines of a statement and those nested in it. -/
def lines (depth : Nat) : Stmt → List String
  | .loop deep v source body => line depth (.loop deep v source body) :: linesOf (depth + 1) body
  | .test deep v source body => line depth (.test deep v source body) :: linesOf (depth + 1) body
  | .project id keys fill body =>
    line depth (.project id keys fill body) :: (linesOf (depth + 1) fill ++ linesOf (depth + 1) body)
  | s => [line depth s]
/-- The lines of a list of statements and those nested in them. -/
def linesOf (depth : Nat) : List Stmt → List String
  | [] => []
  | s :: rest => lines depth s ++ linesOf depth rest
end

end Stmt

end StarQuery
