import StarQuery.Diagnostic.Basic
import StarQuery.Operator.Reducer
import StarQuery.Plan
import StarQuery.Program.Basic

/-!
# Programs of nodes

Every aggregate of a tree gets a slot, equal ones the same. Its block stands before all uses: a nest of loops over its free
variables that gives each its first state, then a nest over its free and its own variables that steps it. A nest is the plan
of the generators; where the closure of the wanted variables reaches beyond them, the whole nest is run once to collect the
different tuples of the wanted ones, and the body runs over these.

The source of a generator may itself hold an aggregate, whose block then comes first. An aggregate that is needed to compute
itself has no program: `generate` gives none. A chain of aggregates, each needed for the one before, visits each at most
once, so the number of aggregates bounds how deep generation goes (`exprAt`).
-/

namespace StarQuery

namespace Program

/-- What generation knows. -/
structure Setting where
  table : NameTable
  generators : List Generator
  /-- The listing that diagnostics point into. -/
  listing : String
  /-- Whether every block starts with a comment. -/
  comments : Bool

/-- What has been generated so far. -/
structure Emission where
  /-- The finished blocks. -/
  stmts : List Stmt := []
  /-- The slots of the aggregates that have one, by the fingerprints of the aggregates. -/
  assigned : List (String × Nat) := []
  slots : Nat := 0
  projections : Nat := 0
  diagnostics : List Diagnostic := []
  deriving Inhabited

/-- A part of generation; it fails only if an aggregate is needed to compute itself. -/
abbrev EmissionM := StateT Emission Option

/-- The expression of a node where some variables are bound. -/
abbrev Emitter := Node → VarSet → EmissionM Expr

/-- Reports something about a subterm. -/
def report (s : Setting) (severity : Severity) (message subterm : String) : EmissionM Unit :=
  modify fun e => { e with diagnostics := e.diagnostics ++ [Diagnostic.about severity s.listing message subterm] }

/-- The number of a new slot. -/
def newSlot : EmissionM Nat := modifyGet fun e => (e.slots, { e with slots := e.slots + 1 })

/-- The number of a new projection. -/
def newProjection : EmissionM Nat := modifyGet fun e => (e.projections, { e with projections := e.projections + 1 })

/-- The expression of a variable; an unbound one is reported. -/
def varExpr (s : Setting) (env : VarSet) (v : Var) : EmissionM Expr :=
  if v ∈ env then return .var v
  else do
    let name := s.table.name v
    report s .error ("var '" ++ name ++ "' not defined") name
    return .undefined name

/-- The expressions of variables. -/
def varExprs (s : Setting) (env : VarSet) : List Var → EmissionM (List Expr)
  | [] => return []
  | v :: rest => do
    let e ← varExpr s env v
    return e :: (← varExprs s env rest)

/-- The slot of an aggregate for the bindings of its free variables. -/
def slotExpr (s : Setting) (slotOf : Node → EmissionM Nat) (n : Node) (env : VarSet) : EmissionM Expr := do
  let slot ← slotOf n
  return .slot slot (← varExprs s env n.info.free.toList)

mutual
/-- The expression of a node where `env` is bound, if `slotOf` gives aggregates their slots. -/
def exprWith (s : Setting) (slotOf : Node → EmissionM Nat) : Node → VarSet → EmissionM Expr
  | .input _, _ => return .input
  | .const _ value, _ => return .const value
  | .var _ v, env => varExpr s env v
  | .get _ base key, env => do
    let deep := key.asVar?.any s.table.isDeep
    let base ← exprWith s slotOf base env
    let key ← exprWith s slotOf key env
    return if deep then .deepGet base key else .get base key
  | .pointwise _ op args, env => do return .pointwise op (← exprsWith s slotOf args env)
  | .hint _ _ _, _ => return .nop
  | .keySet _ arg, env => do return .singleton (← exprWith s slotOf arg env)
  | .reduce i op mode arg, env => slotExpr s slotOf (.reduce i op mode arg) env
  | .scan i op mode arg, env => slotExpr s slotOf (.scan i op mode arg) env
  | .update i base key value filter, env => slotExpr s slotOf (.update i base key value filter) env
/-- The expressions of a list of nodes. -/
def exprsWith (s : Setting) (slotOf : Node → EmissionM Nat) : List Node → VarSet → EmissionM (List Expr)
  | [], _ => return []
  | n :: rest, env => do
    let e ← exprWith s slotOf n env
    return e :: (← exprsWith s slotOf rest env)
end

/-- The expressions of the sources of a plan, each where the variables of the levels before it are bound. -/
def sourceExprs (emit : Emitter) : List Level → EmissionM (List (Level × Expr))
  | [] => return []
  | level :: rest => do
    let source ← emit level.generator.source level.seen
    return (level, source) :: (← sourceExprs emit rest)

/-- What is said of a generator that cannot be ordered. -/
def unsolvedText (s : Setting) (g : Generator) : String :=
  "unsolved filter ordering problem: " ++ s.table.name g.var ++ " := " ++ g.text

/-- The reports on the generators that cannot be ordered, as statements. -/
def unsolvedStmts (s : Setting) : List Generator → EmissionM (List Stmt)
  | [] => return []
  | g :: rest => do
    report s .warning (unsolvedText s g) g.text
    return .error (unsolvedText s g) :: (← unsolvedStmts s rest)

/-- A body inside the loops and tests of levels, the first outermost. -/
def wrap (s : Setting) : List (Level × Expr) → List Stmt → List Stmt
  | [], body => body
  | (level, source) :: rest, body =>
    let v := level.generator.var
    if level.fresh then [.loop (s.table.isDeep v) v source (wrap s rest body)]
    else [.test (s.table.isDeep v) v source (wrap s rest body)]

/-- A body inside the levels of the plan for the variables of `vars`, where `scope` is bound. -/
def levelNest (s : Setting) (emit : Emitter) (scope vars : VarSet) (body : VarSet → EmissionM (List Stmt)) :
    EmissionM (List Stmt) := do
  let plan := Plan.ofGenerators s.generators scope vars
  let levels ← sourceExprs emit plan.levels
  let errors ← unsolvedStmts s plan.unsolved
  let inner ← body plan.bound
  return wrap s levels (errors ++ inner)

/-- A body inside loops that bind the variables of `vars` beyond `scope`, each different binding once. -/
def loopNest (s : Setting) (emit : Emitter) (scope vars : VarSet) (body : VarSet → EmissionM (List Stmt)) :
    EmissionM (List Stmt) := do
  let wanted := vars \ scope
  let full := Generator.closure s.generators wanted
  if wanted.isEmpty then body scope
  else if full \ scope = wanted then levelNest s emit scope wanted body
  else
    let id ← newProjection
    let keys := wanted.toList
    let fill ← levelNest s emit scope full fun _ => return [.mark id keys]
    let inner ← body (scope ∪ wanted)
    return [.project id keys fill inner]

/-- The variables that an aggregate with its free variables has left to loop over. -/
def loopsOf : Node → VarSet
  | .reduce i _ _ arg | .scan i _ _ arg => arg.info.dims \ i.free
  | .update i _ key _ _ => key.info.vars \ i.free
  | n => n.info.bound

/-- What is said of an aggregate whose loops are not those that the analysis found. -/
def disagreement (s : Setting) (slot : Nat) (n : Node) : String :=
  "bound variables of tmp" ++ toString slot ++ " disagree: inferred \x7b" ++ s.table.namesOf n.info.bound ++
    "\x7d, recomputed \x7b" ++ s.table.namesOf (loopsOf n) ++ "\x7d"

/-- The comment that names what a slot holds. -/
def titleStmts (s : Setting) (slot : Nat) (n : Node) : List Stmt :=
  if s.comments then
    [.comment ("tmp" ++ toString slot ++ "[" ++ s.table.namesOf n.info.free ++ "] = " ++ n.text s.table)]
  else []

/-- The report on an aggregate whose loops are not those that the analysis found, as a comment. -/
def disagreementStmts (s : Setting) (slot : Nat) (n : Node) : EmissionM (List Stmt) :=
  if loopsOf n = n.info.bound then return []
  else do
    report s .warning (disagreement s slot n) (n.text s.table)
    return [.comment ("WARNING! " ++ disagreement s slot n)]

/-- The expression of the first state of an aggregate that has one, and whether it is a copy. -/
def firstState? (emit : Emitter) : Node → Option (VarSet → EmissionM (Expr × Bool))
  | .reduce _ op _ _ => op.start.map fun value _ => return (.const value, false)
  | .scan .. => some fun _ => return (.const (.arr []), false)
  | .update _ base _ _ _ => some fun env => do return (← emit base env, true)
  | _ => none

/-- The expressions of a list of nodes, one after the other. -/
def exprsBy (emit : Emitter) (env : VarSet) : List Node → EmissionM (List Expr)
  | [] => return []
  | n :: rest => do
    let e ← emit n env
    return e :: (← exprsBy emit env rest)

/-- The parts of the key of an update: those of a tuple, or the key itself. -/
def keyNodes : Node → List Node
  | .pointwise _ .vars args => args
  | key => [key]

/-- The action of an aggregate where `env` is bound. -/
def actionOf? (emit : Emitter) (env : VarSet) : Node → EmissionM (Option Action)
  | .reduce _ op _ arg => do return some (.reduce op (← emit arg env))
  | .scan _ op _ arg => do return some (.scan op (← emit arg env))
  | .update _ _ key value _ => do
    let keys ← exprsBy emit env (keyNodes key)
    return some (.update keys (← emit value env))
  | _ => return none

/-- The nest that gives the slot of an aggregate its first states, if it has one. -/
def startNest (s : Setting) (emit : Emitter) (slot : Nat) (n : Node) : EmissionM (List Stmt) :=
  match firstState? emit n with
  | none => return []
  | some state => loopNest s emit ∅ n.info.free fun env => do
    let (value, copy) ← state env
    return [.start slot n.info.free.toList value copy]

/-- The nest that steps the slot of an aggregate. -/
def stepNest (s : Setting) (emit : Emitter) (slot : Nat) (n : Node) : EmissionM (List Stmt) :=
  loopNest s emit ∅ (n.info.free ∪ n.info.bound) fun env => do
    let action ← actionOf? emit env n
    return action.toList.map (.step slot n.info.free.toList ·)

/-- The block of an aggregate. -/
def blockOf (s : Setting) (emit : Emitter) (slot : Nat) (n : Node) : EmissionM (List Stmt) := do
  let warning ← disagreementStmts s slot n
  let start ← startNest s emit slot n
  let steps ← stepNest s emit slot n
  return titleStmts s slot n ++ warning ++ start ++ steps

/-- The slot of an aggregate: that of an equal one, or a new one with a block of its own. -/
def slotWith (s : Setting) (emit : Emitter) (n : Node) : EmissionM Nat := do
  let key := n.fingerprint
  match (← get).assigned.lookup key with
  | some slot => return slot
  | none =>
    let slot ← newSlot
    let block ← blockOf s emit slot n
    modify fun e => { e with assigned := (key, slot) :: e.assigned, stmts := e.stmts ++ block }
    return slot

/-- The expression of a node, with at most `depth` aggregates under way at a time. -/
def exprAt (s : Setting) : Nat → Emitter
  | 0 => exprWith s fun _ => failure
  | depth + 1 => exprWith s (slotWith s (exprAt s depth))

/-- The number of aggregates in a tree. -/
def aggregateCount (n : Node) : Nat := (n.postorder.filter Node.gathers).length

/-- As many aggregates as can be under way at a time: those of the tree and those of the sources. -/
def maxDepth (s : Setting) (root : Node) : Nat :=
  s.generators.foldl (fun n g => n + aggregateCount g.source) (aggregateCount root)

/-- The program of an annotated tree with the diagnostics on it, none if an aggregate is needed to compute itself. -/
def generate (s : Setting) (root : Node) : Option (Program × List Diagnostic) := do
  let (result, e) ← (exprAt s (maxDepth s root) root ∅).run {}
  return (⟨e.stmts, result, e.slots, e.projections, s.table⟩, e.diagnostics)

end Program

end StarQuery
