import StarQuery.Proofs.Machine.Reaches
import StarQuery.Proofs.Program.Bound

/-!
# Generated programs are well scoped

Whatever tree a program is generated from, an expression uses variables that are bound where it stands, a test is about a bound
variable and a loop about one that is not bound yet. A statement is therefore run in states that bind all variables of its
expressions, if the variables of the tree have places in the table of names.
-/

namespace StarQuery

/-- A statement uses and tests variables of its scope, and loops over none of them. -/
structure Stmt.Scoped (scope : VarSet) (st : Stmt) : Prop where
  exprs : ∀ x ∈ st.exprs, ∀ v, .var v ∈ x.parts → v ∈ scope
  test : ∀ deep v source body, st = .test deep v source body → v ∈ scope
  loop : ∀ deep v source body, st = .loop deep v source body → ¬ v ∈ scope

namespace Program

/-- Every statement of a program uses and tests variables that are bound where it stands, loops over others, and the result uses
none. -/
structure Scoped (p : Program) : Prop where
  body : Stmt.EveryIn Stmt.Scoped ∅ p.body
  result : ∀ v, ¬ .var v ∈ p.result.parts

/-- In every run of a program, all variables of the expressions of a statement are bound when the statement is run. -/
def NeverUnbound (p : Program) : Prop :=
  ∀ (input : Json) (functions : Functions) (st : Stmt) (state : State),
    Stmt.Reaches ⟨input, functions, p.table⟩ p.body (State.initial p) st state →
    ∀ x ∈ st.exprs, ∀ v, .var v ∈ x.parts → (state.value? v).isSome = true

variable {s : Setting} {entries : List Entry}

/-! ## The variables of an expression -/

/-- An expression uses variables that are bound. -/
theorem ExprOf.var_mem {env : VarSet} {n : Node} {x : Expr} (h : ExprOf s entries env n x) {v : Var}
    (hv : .var v ∈ x.parts) : v ∈ env := by
  induction h with
  | input | const | hint => cases List.mem_singleton.1 hv
  | var i w => exact var_mem_parts_varOf hv
  | @get i base key b k _ _ hbase hkey =>
    have hparts : .var v ∈ b.parts ++ k.parts := by
      split at hv
      · exact (List.mem_cons.1 hv).resolve_left nofun
      · exact (List.mem_cons.1 hv).resolve_left nofun
    exact (List.mem_append.1 hparts).elim hbase hkey
  | pointwise hlen _ ih =>
    obtain ⟨x, hx, hv⟩ := Expr.mem_listParts.1 ((List.mem_cons.1 hv).resolve_left nofun)
    obtain ⟨n, -, hzip⟩ := Node.mem_zip_of_mem_right hlen hx
    exact ih _ hzip hv
  | keySet _ ih => exact ih ((List.mem_cons.1 hv).resolve_left nofun)
  | slot _ _ _ =>
    obtain ⟨x, hx, hv⟩ := Expr.mem_listParts.1 ((List.mem_cons.1 hv).resolve_left nofun)
    obtain ⟨w, -, rfl⟩ := List.mem_map.1 hx
    exact var_mem_parts_varOf hv

/-- A first state uses variables that are bound. -/
theorem FirstOf.var_mem {env : VarSet} {n : Node} {x : Expr} {copy : Bool} (h : FirstOf s entries env n x copy) {v : Var}
    (hv : .var v ∈ x.parts) : v ∈ env := by
  cases h with
  | reduce | scan => cases List.mem_singleton.1 hv
  | update hbase => exact hbase.var_mem hv

/-- An action uses variables that are bound. -/
theorem ActionOf.var_mem {env : VarSet} {n : Node} {a : Action} (h : ActionOf s entries env n a) {x : Expr}
    (hx : x ∈ a.exprs) {v : Var} (hv : .var v ∈ x.parts) : v ∈ env := by
  cases h with
  | reduce harg | scan harg =>
    rw [List.mem_singleton.1 hx] at hv
    exact harg.var_mem hv
  | update hlen hkeys hvalue =>
    rcases List.mem_append.1 hx with hx | hx
    · obtain ⟨n, -, hzip⟩ := Node.mem_zip_of_mem_right hlen hx
      exact (hkeys _ hzip).var_mem hv
    · rw [List.mem_singleton.1 hx] at hv
      exact hvalue.var_mem hv

/-! ## Blocks -/

/-- The levels of a nest are well scoped, whatever the nest is for. -/
theorem nestIn_scoped (vars : VarSet) : NestIn s entries Stmt.Scoped vars where
  loop l _ x hx hfresh deep inner := by
    refine ⟨fun y hy v hv => ?_, nofun, ?_⟩
    · rw [List.mem_singleton.1 hy] at hv
      exact hx.var_mem hv
    · rintro _ _ _ _ ⟨⟩
      exact hfresh
  test l _ x hx hseen deep inner := by
    refine ⟨fun y hy v hv => ?_, ?_, nofun⟩
    · rw [List.mem_singleton.1 hy] at hv
      exact hx.var_mem hv
    · rintro _ _ _ _ ⟨⟩
      exact hseen
  unsolved _ _ := ⟨nofun, nofun, nofun⟩
  project _ _ _ := ⟨nofun, nofun, nofun⟩
  mark _ := ⟨nofun, nofun, nofun⟩

/-- All statements of a block are well scoped. -/
theorem BlockOf.scoped {limit slot : Nat} {n : Node} {block : List Stmt} (h : BlockOf s entries limit slot n block) :
    Stmt.EveryIn Stmt.Scoped ∅ block := by
  refine h.everyIn (fun _ => ⟨nofun, nofun, nofun⟩) (nestIn_scoped _) (nestIn_scoped _) ?_ ?_
  · intro x copy hx
    refine ⟨fun y hy v hv => ?_, nofun, nofun⟩
    rw [List.mem_singleton.1 hy] at hv
    exact hx.var_mem hv
  · intro action haction
    exact ⟨fun y hy v hv => haction.var_mem hy hv, nofun, nofun⟩

/-- The variables that the generators generate, and those that the aggregates of a tree and of the sources take from around
them or loop over, have places in the table of names. -/
structure Setting.Covers (s : Setting) (root : Node) : Prop where
  generated : ∀ g ∈ s.generators, g.var < s.table.names.length
  tree : ∀ n ∈ root.postorder, n.gathers = true → ∀ v ∈ n.info.free ∪ n.info.bound, v < s.table.names.length
  source : ∀ g ∈ s.generators, ∀ n ∈ g.source.postorder, n.gathers = true →
    ∀ v ∈ n.info.free ∪ n.info.bound, v < s.table.names.length

/-- What is bound in a nest has a place below `N`, if the variables of the nest and of the generators have. -/
theorem nestIn_binders {vars : VarSet} {N : Nat} (hgenerated : ∀ g ∈ s.generators, g.var < N) (hvars : ∀ v ∈ vars, v < N) :
    NestIn s entries (fun _ st => ∀ v ∈ st.binders, v < N) vars where
  loop l hl _ _ _ _ _ v hv := by
    rw [List.mem_singleton.1 hv]
    exact hgenerated _ (Plan.mem_levels_ofGenerators hl).1
  test _ _ _ _ _ _ _ := nofun
  unsolved _ _ := nofun
  project _ _ _ := hvars
  mark _ := nofun

/-- What is bound in a block has a place below `N`, if the variables of the aggregate and of the generators have. -/
theorem BlockOf.binders {limit slot : Nat} {n : Node} {block : List Stmt} (h : BlockOf s entries limit slot n block) {N : Nat}
    (hgenerated : ∀ g ∈ s.generators, g.var < N) (hn : ∀ v ∈ n.info.free ∪ n.info.bound, v < N) :
    Stmt.EveryIn (fun _ st => ∀ v ∈ st.binders, v < N) ∅ block := by
  have hfree : ∀ v ∈ n.info.free, v < N := fun v hv => hn v (VarSet.mem_union.2 (.inl hv))
  exact h.everyIn (fun _ => nofun) (nestIn_binders hgenerated hfree) (nestIn_binders hgenerated hn) (fun _ _ _ => nofun)
    fun _ _ => nofun

/-! ## Programs -/

/-- A program is well scoped, whatever it was generated from. -/
theorem scoped_of_generate {root : Node} {program : Program} {diagnostics : List Diagnostic}
    (h : generate s root = some (program, diagnostics)) : program.Scoped := by
  have huniverse : Universe s fun _ => True := ⟨fun _ _ => trivial, fun _ _ => trivial⟩
  obtain ⟨entries, hbuilt, -, hbody, hresult, -, -⟩ := generate_history huniverse trivial h
  refine ⟨?_, fun v hv => absurd (hresult.var_mem hv) (VarSet.not_mem_empty v)⟩
  rw [hbody]
  refine Stmt.everyIn_flatMap fun x hx => ?_
  obtain ⟨earlier, hblock⟩ := (hbuilt.forall_mem hx).2.2
  exact hblock.scoped

/-- A program that is generated from a tree that its setting covers binds variables that have a place in a state. -/
theorem binders_of_generate {root : Node} {program : Program} {diagnostics : List Diagnostic} (hcovers : s.Covers root)
    (h : generate s root = some (program, diagnostics)) :
    Stmt.EveryIn (fun _ st => ∀ v ∈ st.binders, v < program.table.names.length) ∅ program.body := by
  -- generation goes from the nodes of the tree on to nodes of the sources
  have huniverse : Universe s fun n => ∀ m ∈ n.postorder, m.gathers = true →
      ∀ v ∈ m.info.free ∪ m.info.bound, v < s.table.names.length :=
    ⟨fun hn hc m hm => hn m (Node.mem_postorder_of_mem_children hc hm), hcovers.source⟩
  obtain ⟨entries, hbuilt, -, hbody, -, htable, -⟩ := generate_history huniverse hcovers.tree h
  rw [hbody, htable]
  refine Stmt.everyIn_flatMap fun x hx => ?_
  obtain ⟨hnode, hgathers, earlier, hblock⟩ := hbuilt.forall_mem hx
  exact hblock.binders hcovers.generated (hnode x.node (Node.self_mem_postorder _) hgathers)

/-- Where the statements of a program are well scoped and their variables have places, no variable is found unbound. -/
theorem Scoped.neverUnbound {p : Program} (h : p.Scoped)
    (hbinders : Stmt.EveryIn (fun _ st => ∀ v ∈ st.binders, v < p.table.names.length) ∅ p.body) : p.NeverUnbound := by
  intro input functions st state hreach x hx v hv
  have hlength : (State.initial p).env.length = p.table.names.length := List.length_replicate
  have hempty : (State.initial p).Binds ∅ := fun v hv => absurd hv (VarSet.not_mem_empty v)
  obtain ⟨⟨scope, t⟩, hmem, rfl, hbinds⟩ := hreach.stands hlength hempty hbinders
  exact hbinds v ((h.body _ hmem).exprs x hx v hv)

end Program

namespace Derivation

variable {q : Query} (D : Derivation q) (options : Options)

/-- The variables of a query have places in the table of its names. -/
theorem lt_of_mem_vars {v : Var} (hv : v ∈ D.root.info.vars) : v < D.naming.table.names.length :=
  D.reads.lt_of_holds (Node.mem_vars_withExtents.1 hv)

/-- The names of a query cover its tree. -/
theorem covers : (D.setting options).Covers (D.tree options.output) where
  generated := D.var_lt_of_mem_generators options
  tree n hn hg v hv := D.lt_of_mem_vars (D.mem_vars_of_mem_loops options hn hg hv)
  source g hg n hn hgathers v hv := by
    have hsource := Catalogue.source_mem_postorder hg
    exact D.lt_of_mem_vars (D.mem_vars_of_mem_loops options (Node.mem_postorder_trans hn hsource) hgathers hv)

end Derivation

/-- Generated programs are well scoped. For every tree and setting from which a program is generated, the variables of every
expression, and the variable of every test, are bound where the statement stands, no loop is over a variable that is bound
already, and the result uses no variable. If the variables have places in the table of names, as those of a compiled query
always have, then no run on any input evaluates a variable that is unbound. -/
theorem generated_programs_scoped :
    (∀ (s : Program.Setting) (root : Node) (program : Program) (diagnostics : List Diagnostic),
      Program.generate s root = some (program, diagnostics) →
      program.Scoped ∧ (s.Covers root → program.NeverUnbound)) ∧
    ∀ (q : Query) (options : Options) (c : Compiled), compile q options = .ok c →
      c.program.Scoped ∧ c.program.NeverUnbound := by
  have hgenerate : ∀ (s : Program.Setting) (root : Node) (program : Program) (diagnostics : List Diagnostic),
      Program.generate s root = some (program, diagnostics) →
      program.Scoped ∧ (s.Covers root → program.NeverUnbound) := by
    intro s root program diagnostics h
    have hscoped := Program.scoped_of_generate h
    exact ⟨hscoped, fun hcovers => hscoped.neverUnbound (Program.binders_of_generate hcovers h)⟩
  refine ⟨hgenerate, fun q options c hc => ?_⟩
  obtain ⟨D, hD⟩ := compiles_of_ok hc
  obtain ⟨hscoped, hruns⟩ := hgenerate _ _ _ _ hD.generated
  exact ⟨hscoped, hruns (D.covers options)⟩

/-- The totals below each key have a program that is well scoped, in which no variable is ever found unbound. -/
theorem generated_programs_scoped_totalsBelow :
    (∃ s root program diagnostics, Program.generate s root = some (program, diagnostics) ∧ s.Covers root ∧
      program.Scoped ∧ program.NeverUnbound) ∧
    ∃ c, compile totalsBelow = .ok c ∧ c.program.Scoped ∧ c.program.NeverUnbound := by
  obtain ⟨c, hc, -⟩ := compile_totalsBelow
  obtain ⟨D, hD⟩ := compiles_of_ok hc
  obtain ⟨hscoped, hruns⟩ := generated_programs_scoped.1 _ _ _ _ hD.generated
  have hcovers := D.covers {}
  exact ⟨⟨_, _, _, _, hD.generated, hcovers, hscoped, hruns hcovers⟩, c, hc, generated_programs_scoped.2 totalsBelow {} c hc⟩

end StarQuery
