import StarQuery.Program.OfNode

/-!
# The shape of generated programs

What is generated, said without the run that generates it. An entry is an aggregate that has its slot and its block. Given the
entries so far, `ExprOf`, `NestOf` and `BlockOf` say which expressions, nests and blocks stand for a node; what is reported
while they are generated depends on the nodes alone (`exprReports`, `nestReports`, `blockReports`).
-/

namespace StarQuery

namespace Program

/-- A finished aggregate: its node, its slot and its block. -/
structure Entry where
  node : Node
  slot : Nat
  block : List Stmt

variable (s : Setting)

/-! ## Expressions -/

/-- The expression of a variable where `env` is bound. -/
def varOf (env : VarSet) (v : Var) : Expr := if v ∈ env then .var v else .undefined (s.table.name v)

/-- The report on a variable that is not bound. -/
def varReport (v : Var) : Diagnostic :=
  Diagnostic.about .error s.listing ("var '" ++ s.table.name v ++ "' not defined") (s.table.name v)

theorem message_varReport (v : Var) : (varReport s v).message = "var '" ++ s.table.name v ++ "' not defined" := rfl

/-- What is reported on a variable where `env` is bound. -/
def varReports (env : VarSet) (v : Var) : List Diagnostic := if v ∈ env then [] else [varReport s v]

/-- An expression stands for a node where `env` is bound, given the entries so far. -/
inductive ExprOf (entries : List Entry) (env : VarSet) : Node → Expr → Prop where
  | input (i : VarInfo) : ExprOf entries env (.input i) .input
  | const (i : VarInfo) (value : Json) : ExprOf entries env (.const i value) (.const value)
  | var (i : VarInfo) (v : Var) : ExprOf entries env (.var i v) (varOf s env v)
  | get {i : VarInfo} {base key : Node} {b k : Expr} : ExprOf entries env base b → ExprOf entries env key k →
      ExprOf entries env (.get i base key) (if key.asVar?.any s.table.isDeep then .deepGet b k else .get b k)
  | pointwise {i : VarInfo} {op : Pointwise} {args : List Node} {xs : List Expr} : args.length = xs.length →
      (∀ p ∈ args.zip xs, ExprOf entries env p.1 p.2) → ExprOf entries env (.pointwise i op args) (.pointwise op xs)
  | hint (i : VarInfo) (op : String) (args : List Node) : ExprOf entries env (.hint i op args) .nop
  | keySet {i : VarInfo} {arg : Node} {x : Expr} : ExprOf entries env arg x →
      ExprOf entries env (.keySet i arg) (.singleton x)
  /-- An aggregate is read from the slot of an entry, by the bindings of its free variables. -/
  | slot {n : Node} {entry : Entry} : n.gathers = true → entry ∈ entries → entry.node = n →
      ExprOf entries env n (.slot entry.slot (n.info.free.toList.map (varOf s env)))

mutual
/-- What is reported while the expression of a node is generated where `env` is bound. -/
def exprReports (env : VarSet) : Node → List Diagnostic
  | .input _ | .const .. | .hint .. => []
  | .var _ v => varReports s env v
  | .get _ base key => exprReports env base ++ exprReports env key
  | .pointwise _ _ args => listReports env args
  | .keySet _ arg => exprReports env arg
  | .reduce i _ _ _ | .scan i _ _ _ | .update i _ _ _ _ => i.free.toList.flatMap (varReports s env)
/-- What is reported while the expressions of a list of nodes are generated. -/
def listReports (env : VarSet) : List Node → List Diagnostic
  | [] => []
  | n :: rest => exprReports env n ++ listReports env rest
end

/-- What is reported on a list of nodes is what is reported on each, in order. -/
theorem listReports_eq (env : VarSet) (ns : List Node) : listReports s env ns = ns.flatMap (exprReports s env) := by
  induction ns with
  | nil => rfl
  | cons n ns ih => rw [listReports, ih, List.flatMap_cons]

/-! ## Nests -/

theorem sdiff_empty (vars : VarSet) : vars \ ∅ = vars := VarSet.ext fun v => by simp

/-- The plan that binds the variables of a set. -/
def planOf (vars : VarSet) : Plan := Plan.ofGenerators s.generators ∅ vars

/-- The statement for a generator that cannot be ordered. -/
def unsolvedStmt (g : Generator) : Stmt := .error (unsolvedText s g)

/-- The report on a generator that cannot be ordered. -/
def unsolvedReport (g : Generator) : Diagnostic := Diagnostic.about .warning s.listing (unsolvedText s g) g.text

theorem message_unsolvedReport (g : Generator) : (unsolvedReport s g).message =
    "unsolved filter ordering problem: " ++ s.table.name g.var ++ " := " ++ g.text := rfl

/-- The levels of a plan with the expressions of their sources. -/
def LevelsOf (entries : List Entry) (levels : List Level) (xs : List (Level × Expr)) : Prop :=
  xs.map Prod.fst = levels ∧ ∀ x ∈ xs, ExprOf s entries x.1.seen x.1.generator.source x.2

/-- The plan of a nest for the variables of `vars`: it binds all that these need. -/
def nestPlan (vars : VarSet) : Plan := planOf s (Generator.closure s.generators vars)

/-- What is bound in the body of a nest for the variables of `vars`. -/
def nestEnv (vars : VarSet) : VarSet :=
  if vars = ∅ then ∅ else if Generator.closure s.generators vars = vars then (nestPlan s vars).bound else vars

/-- Statements are a nest for the variables of `vars` around a body; the projection that it may need is below `limit`. -/
inductive NestOf (entries : List Entry) (limit : Nat) (vars : VarSet) (body : List Stmt → Prop) : List Stmt → Prop where
  | plain {inner : List Stmt} : vars = ∅ → body inner → NestOf entries limit vars body inner
  | levels {xs : List (Level × Expr)} {inner : List Stmt} : vars ≠ ∅ → Generator.closure s.generators vars = vars →
      LevelsOf s entries (nestPlan s vars).levels xs → body inner →
      NestOf entries limit vars body (wrap s xs ((nestPlan s vars).unsolved.map (unsolvedStmt s) ++ inner))
  | projected {id : Nat} {xs : List (Level × Expr)} {inner : List Stmt} : vars ≠ ∅ →
      Generator.closure s.generators vars ≠ vars → id < limit → LevelsOf s entries (nestPlan s vars).levels xs →
      body inner →
      NestOf entries limit vars body
        [.project id vars.toList
          (wrap s xs ((nestPlan s vars).unsolved.map (unsolvedStmt s) ++ [.mark id vars.toList])) inner]

/-- What is reported while the levels of a plan are generated. -/
def planReports (plan : Plan) : List Diagnostic :=
  plan.levels.flatMap (fun l => exprReports s l.seen l.generator.source) ++ plan.unsolved.map (unsolvedReport s)

/-- What is reported while a nest is generated around a body. -/
def nestReports (vars : VarSet) (body : List Diagnostic) : List Diagnostic :=
  (if vars = ∅ then [] else planReports s (nestPlan s vars)) ++ body

/-! ## Blocks -/

/-- The first state of an aggregate that has one, and whether it is a copy. -/
inductive FirstOf (entries : List Entry) (env : VarSet) : Node → Expr → Bool → Prop where
  | reduce {i : VarInfo} {op : Reducer} {mode : Mode} {arg : Node} {value : Json} : op.start = some value →
      FirstOf entries env (.reduce i op mode arg) (.const value) false
  | scan (i : VarInfo) (op : Reducer) (mode : Mode) (arg : Node) :
      FirstOf entries env (.scan i op mode arg) (.const (.arr [])) false
  | update {i : VarInfo} {base key value : Node} {filter : Option Node} {x : Expr} : ExprOf s entries env base x →
      FirstOf entries env (.update i base key value filter) x true

/-- Whether an aggregate has a first state. -/
def hasFirst : Node → Bool
  | .reduce _ op _ _ => op.start.isSome
  | .scan .. | .update .. => true
  | _ => false

/-- What is reported while the first state of an aggregate is generated. -/
def firstReports (env : VarSet) : Node → List Diagnostic
  | .update _ base _ _ _ => exprReports s env base
  | _ => []

/-- The action of an aggregate. -/
inductive ActionOf (entries : List Entry) (env : VarSet) : Node → Action → Prop where
  | reduce {i : VarInfo} {op : Reducer} {mode : Mode} {arg : Node} {x : Expr} : ExprOf s entries env arg x →
      ActionOf entries env (.reduce i op mode arg) (.reduce op x)
  | scan {i : VarInfo} {op : Reducer} {mode : Mode} {arg : Node} {x : Expr} : ExprOf s entries env arg x →
      ActionOf entries env (.scan i op mode arg) (.scan op x)
  | update {i : VarInfo} {base key value : Node} {filter : Option Node} {ks : List Expr} {x : Expr} :
      (keyNodes key).length = ks.length → (∀ p ∈ (keyNodes key).zip ks, ExprOf s entries env p.1 p.2) →
      ExprOf s entries env value x → ActionOf entries env (.update i base key value filter) (.update ks x)

/-- What is reported while the action of an aggregate is generated. -/
def actionReports (env : VarSet) : Node → List Diagnostic
  | .reduce _ _ _ arg | .scan _ _ _ arg => exprReports s env arg
  | .update _ _ key value _ => listReports s env (keyNodes key) ++ exprReports s env value
  | _ => []

/-- The comment on an aggregate whose loops are not those that the analysis found. -/
def warningStmts (slot : Nat) (n : Node) : List Stmt :=
  if loopsOf n = n.info.bound then [] else [.comment ("WARNING! " ++ disagreement s slot n)]

/-- The report on an aggregate whose loops are not those that the analysis found. -/
def warningReports (slot : Nat) (n : Node) : List Diagnostic :=
  if loopsOf n = n.info.bound then []
  else [Diagnostic.about .warning s.listing (disagreement s slot n) (n.text s.table)]

/-- Statements are the nest that gives the slot of an aggregate its first states; there are none if it has no first state. -/
def StartOf (entries : List Entry) (limit slot : Nat) (n : Node) (stmts : List Stmt) : Prop :=
  (hasFirst n = false ∧ stmts = []) ∨
    hasFirst n = true ∧ NestOf s entries limit n.info.free (fun inner => ∃ x copy,
      FirstOf s entries (nestEnv s n.info.free) n x copy ∧ inner = [.start slot n.info.free.toList x copy]) stmts

/-- Statements are the nest that steps the slot of an aggregate. -/
def StepsOf (entries : List Entry) (limit slot : Nat) (n : Node) (stmts : List Stmt) : Prop :=
  NestOf s entries limit (n.info.free ∪ n.info.bound) (fun inner => ∃ action,
    ActionOf s entries (nestEnv s (n.info.free ∪ n.info.bound)) n action ∧
      inner = [.step slot n.info.free.toList action]) stmts

/-- Statements are the block of an aggregate. -/
def BlockOf (entries : List Entry) (limit slot : Nat) (n : Node) (block : List Stmt) : Prop :=
  ∃ start steps, StartOf s entries limit slot n start ∧ StepsOf s entries limit slot n steps ∧
    block = titleStmts s slot n ++ warningStmts s slot n ++ start ++ steps

/-- What is reported while the block of an aggregate is generated. -/
def blockReports (slot : Nat) (n : Node) : List Diagnostic :=
  warningReports s slot n ++
    (if hasFirst n then nestReports s n.info.free (firstReports s (nestEnv s n.info.free) n) else []) ++
    nestReports s (n.info.free ∪ n.info.bound) (actionReports s (nestEnv s (n.info.free ∪ n.info.bound)) n)

/-- What is reported while the block of an entry is generated. -/
def Entry.reports (x : Entry) : List Diagnostic := blockReports s x.slot x.node

/-! ## More entries -/

variable {s}

/-- An expression stands for its node also when there are more entries. -/
theorem ExprOf.mono {entries entries' : List Entry} (h : entries ⊆ entries') {env : VarSet} {n : Node} {x : Expr}
    (hx : ExprOf s entries env n x) : ExprOf s entries' env n x := by
  induction hx with
  | input i => exact .input i
  | const i value => exact .const i value
  | var i v => exact .var i v
  | get _ _ hbase hkey => exact .get hbase hkey
  | pointwise hlen _ ih => exact .pointwise hlen ih
  | hint i op args => exact .hint i op args
  | keySet _ ih => exact .keySet ih
  | slot hn hentry hnode => exact .slot hn (h hentry) hnode

/-- The sources of levels stay expressions of their nodes when there are more entries. -/
theorem LevelsOf.mono {entries entries' : List Entry} (h : entries ⊆ entries') {levels : List Level}
    {xs : List (Level × Expr)} (hx : LevelsOf s entries levels xs) : LevelsOf s entries' levels xs :=
  ⟨hx.1, fun x hmem => (hx.2 x hmem).mono h⟩

/-- A first state stays one when there are more entries. -/
theorem FirstOf.mono {entries entries' : List Entry} (h : entries ⊆ entries') {env : VarSet} {n : Node} {x : Expr}
    {copy : Bool} (hx : FirstOf s entries env n x copy) : FirstOf s entries' env n x copy := by
  cases hx with
  | reduce hop => exact .reduce hop
  | scan i op mode arg => exact .scan i op mode arg
  | update hbase => exact .update (hbase.mono h)

/-- An action stays one when there are more entries. -/
theorem ActionOf.mono {entries entries' : List Entry} (h : entries ⊆ entries') {env : VarSet} {n : Node} {a : Action}
    (ha : ActionOf s entries env n a) : ActionOf s entries' env n a := by
  cases ha with
  | reduce harg => exact .reduce (harg.mono h)
  | scan harg => exact .scan (harg.mono h)
  | update hlen hkeys hvalue => exact .update hlen (fun p hp => (hkeys p hp).mono h) (hvalue.mono h)

/-- A nest stays one when there are more entries and projections, and more may be said of its body. -/
theorem NestOf.mono {entries entries' : List Entry} (h : entries ⊆ entries') {limit limit' : Nat} (hlimit : limit ≤ limit')
    {vars : VarSet} {body body' : List Stmt → Prop} (hbody : ∀ inner, body inner → body' inner)
    {stmts : List Stmt} (hx : NestOf s entries limit vars body stmts) : NestOf s entries' limit' vars body' stmts := by
  cases hx with
  | plain hvars hinner => exact .plain hvars (hbody _ hinner)
  | levels hvars hclosure hlevels hinner => exact .levels hvars hclosure (hlevels.mono h) (hbody _ hinner)
  | projected hvars hclosure hid hlevels hinner =>
    exact .projected hvars hclosure (Nat.lt_of_lt_of_le hid hlimit) (hlevels.mono h) (hbody _ hinner)

theorem StartOf.mono {entries entries' : List Entry} (h : entries ⊆ entries') {limit limit' : Nat} (hlimit : limit ≤ limit')
    {slot : Nat} {n : Node} {stmts : List Stmt} (hx : StartOf s entries limit slot n stmts) :
    StartOf s entries' limit' slot n stmts := by
  refine hx.imp id (And.imp_right (NestOf.mono h hlimit ?_))
  rintro inner ⟨x, copy, hfirst, hinner⟩
  exact ⟨x, copy, hfirst.mono h, hinner⟩

theorem StepsOf.mono {entries entries' : List Entry} (h : entries ⊆ entries') {limit limit' : Nat} (hlimit : limit ≤ limit')
    {slot : Nat} {n : Node} {stmts : List Stmt} (hx : StepsOf s entries limit slot n stmts) :
    StepsOf s entries' limit' slot n stmts :=
  NestOf.mono h hlimit (fun _ ⟨action, haction, hinner⟩ => ⟨action, haction.mono h, hinner⟩) hx

/-- The block of an aggregate stays one when there are more entries and projections. -/
theorem BlockOf.mono {entries entries' : List Entry} (h : entries ⊆ entries') {limit limit' : Nat} (hlimit : limit ≤ limit')
    {slot : Nat} {n : Node} {block : List Stmt} (hx : BlockOf s entries limit slot n block) :
    BlockOf s entries' limit' slot n block := by
  obtain ⟨start, steps, hstart, hsteps, hblock⟩ := hx
  exact ⟨start, steps, hstart.mono h hlimit, hsteps.mono h hlimit, hblock⟩

end Program

end StarQuery
