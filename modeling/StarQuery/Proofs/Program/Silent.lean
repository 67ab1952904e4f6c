import StarQuery.Proofs.Program.Solvable

/-!
# Programs without reports

A program on which nothing is reported holds no statement that stands for an error, and no variable that is undefined
(`Compiles.silent`). A query that names no variable is solvable (`Derivation.solvable`), so nothing is reported on it.
-/

namespace StarQuery

/-! ## Silent statements -/

/-- An expression in which every variable is defined. -/
def Expr.Defined (x : Expr) : Prop := ∀ name, ¬ .undefined name ∈ x.parts

/-- An expression is in a list if it is in one of its members. -/
theorem Expr.mem_listParts {xs : List Expr} {y : Expr} : y ∈ listParts xs ↔ ∃ x ∈ xs, y ∈ x.parts := by
  induction xs with
  | nil => simp [listParts]
  | cons x xs ih => simp [listParts, ih]

theorem Expr.defined_var (v : Var) : (Expr.var v).Defined := fun _ h => nomatch List.mem_singleton.1 h

/-- A statement that stands for no error, and in whose expressions every variable is defined. -/
structure Stmt.Silent (st : Stmt) : Prop where
  not_error : ∀ text, st ≠ .error text
  defined : ∀ x ∈ st.exprs, x.Defined

namespace Program

variable {s : Setting} {entries : List Entry}

/-- An expression on which nothing is reported has no undefined variable. -/
theorem ExprOf.defined {env : VarSet} {n : Node} {x : Expr} (h : ExprOf s entries env n x)
    (hreports : exprReports s env n = []) : x.Defined := by
  induction h with
  | input | const | hint => exact fun _ h => nomatch List.mem_singleton.1 h
  | var i v =>
    rw [varOf_eq hreports]
    exact Expr.defined_var v
  | @get i base key b k _ _ hbase hkey =>
    obtain ⟨hrbase, hrkey⟩ := List.append_eq_nil_iff.1 hreports
    have hparts : ∀ name, ¬ .undefined name ∈ b.parts ++ k.parts := fun name h =>
      (List.mem_append.1 h).elim (hbase hrbase name) (hkey hrkey name)
    intro name h
    split at h
    · exact hparts name ((List.mem_cons.1 h).resolve_left nofun)
    · exact hparts name ((List.mem_cons.1 h).resolve_left nofun)
  | pointwise hlen _ ih =>
    intro name h
    obtain ⟨x, hx, hname⟩ := Expr.mem_listParts.1 ((List.mem_cons.1 h).resolve_left nofun)
    obtain ⟨n, hn, hzip⟩ := Node.mem_zip_of_mem_right hlen hx
    exact ih _ hzip (listReports_eq_nil.1 hreports n hn) name hname
  | keySet _ ih => exact fun name h => ih hreports name ((List.mem_cons.1 h).resolve_left nofun)
  | slot hn _ hnode =>
    rw [exprReports_gathers hn, List.flatMap_eq_nil_iff] at hreports
    intro name h
    obtain ⟨x, hx, hname⟩ := Expr.mem_listParts.1 ((List.mem_cons.1 h).resolve_left nofun)
    obtain ⟨v, hv, rfl⟩ := List.mem_map.1 hx
    rw [varOf_eq (hreports v hv)] at hname
    exact Expr.defined_var v name hname

/-- A first state on which nothing is reported has no undefined variable. -/
theorem FirstOf.defined {env : VarSet} {n : Node} {x : Expr} {copy : Bool} (h : FirstOf s entries env n x copy)
    (hreports : firstReports s env n = []) : x.Defined := by
  cases h with
  | reduce | scan => exact fun _ h => nomatch List.mem_singleton.1 h
  | update hbase => exact hbase.defined hreports

/-- An action on which nothing is reported has no undefined variable. -/
theorem ActionOf.defined {env : VarSet} {n : Node} {a : Action} (h : ActionOf s entries env n a)
    (hreports : actionReports s env n = []) : ∀ x ∈ a.exprs, x.Defined := by
  cases h with
  | reduce harg | scan harg =>
    intro x hx
    rw [List.mem_singleton.1 hx]
    exact harg.defined hreports
  | update hlen hkeys hvalue =>
    obtain ⟨hrkeys, hrvalue⟩ := List.append_eq_nil_iff.1 hreports
    intro x hx
    rcases List.mem_append.1 hx with hx | hx
    · obtain ⟨n, hn, hzip⟩ := Node.mem_zip_of_mem_right hlen hx
      exact (hkeys _ hzip).defined (listReports_eq_nil.1 hrkeys n hn)
    · rw [List.mem_singleton.1 hx]
      exact hvalue.defined hrvalue

/-- A nest on which nothing is reported is silent if its body is. -/
theorem NestOf.silent {limit : Nat} {vars : VarSet} {body : List Stmt → Prop} {stmts : List Stmt} {R : List Diagnostic}
    (h : NestOf s entries limit vars body stmts) (hreports : nestReports s vars R = [])
    (hbody : R = [] → ∀ inner, body inner → Stmt.Every Stmt.Silent inner) : Stmt.Every Stmt.Silent stmts := by
  obtain ⟨hplan, hR⟩ := List.append_eq_nil_iff.1 hreports
  have hnest : vars ≠ ∅ → (∀ l ∈ (nestPlan s vars).levels, exprReports s l.seen l.generator.source = []) ∧
      (nestPlan s vars).unsolved = [] := by
    intro hvars
    rw [if_neg hvars, planReports, List.append_eq_nil_iff, List.flatMap_eq_nil_iff, List.map_eq_nil_iff] at hplan
    exact hplan
  refine h.every (hbody hR) (fun hvars l hl x hx deep inner => ?_) (fun hvars g hg => ?_)
    (fun _ _ _ _ => ⟨by simp, by simp [Stmt.exprs]⟩) (fun _ _ => ⟨by simp, by simp [Stmt.exprs]⟩)
  · have hdefined : ∀ y ∈ [x], y.Defined := fun y hy =>
      List.mem_singleton.1 hy ▸ hx.defined ((hnest hvars).1 l hl)
    exact ⟨⟨by simp, hdefined⟩, ⟨by simp, hdefined⟩⟩
  · rw [(hnest hvars).2] at hg
    cases hg

/-- A block on which nothing is reported is silent. -/
theorem BlockOf.silent {limit slot : Nat} {n : Node} {block : List Stmt} (h : BlockOf s entries limit slot n block)
    (hreports : blockReports s slot n = []) : Stmt.Every Stmt.Silent block := by
  obtain ⟨start, steps, hstart, hsteps, rfl⟩ := h
  rw [blockReports, List.append_eq_nil_iff, List.append_eq_nil_iff] at hreports
  obtain ⟨⟨-, hrstart⟩, hrsteps⟩ := hreports
  have hcomment : ∀ text, Stmt.Every Stmt.Silent [.comment text] := by
    intro text st hst
    rw [List.mem_singleton.1 hst]
    exact ⟨by simp, by simp [Stmt.exprs]⟩
  rw [Stmt.every_append, Stmt.every_append, Stmt.every_append]
  refine ⟨⟨⟨?_, ?_⟩, ?_⟩, ?_⟩
  · unfold titleStmts
    split
    · exact hcomment _
    · exact Stmt.every_nil _
  · unfold warningStmts
    split
    · exact Stmt.every_nil _
    · exact hcomment _
  · rcases hstart with ⟨-, rfl⟩ | ⟨hfirst, hstart⟩
    · exact Stmt.every_nil _
    · rw [if_pos hfirst] at hrstart
      refine hstart.silent hrstart ?_
      rintro hR _ ⟨x, copy, hx, rfl⟩ st hst
      rw [List.mem_singleton.1 hst]
      exact ⟨by simp, fun y hy => List.mem_singleton.1 hy ▸ hx.defined hR⟩
  · refine NestOf.silent hsteps hrsteps ?_
    rintro hR _ ⟨action, haction, rfl⟩ st hst
    rw [List.mem_singleton.1 hst]
    exact ⟨by simp, haction.defined hR⟩

end Program

/-- A compiled query on which nothing is reported has a program without errors and without undefined variables. -/
theorem Compiles.silent {q : Query} {options : Options} {c : Compiled} {D : Derivation q} (h : Compiles q options c D)
    (hreports : c.diagnostics = []) :
    (∀ text, ¬ .error text ∈ Stmt.listNested c.program.body) ∧ ∀ name, ¬ .undefined name ∈ c.program.exprs := by
  obtain ⟨entries, hbuilt, -, hbody, hresult, -, hperm⟩ := h.history
  rw [hreports, List.nil_perm, List.append_eq_nil_iff, List.flatMap_eq_nil_iff] at hperm
  obtain ⟨hblocks, hroot⟩ := hperm
  have hsilent : Stmt.Every Stmt.Silent c.program.body := by
    rw [hbody]
    refine Stmt.every_flatMap fun x hx => ?_
    obtain ⟨earlier, hblock⟩ := (hbuilt.forall_mem hx).2.2
    exact hblock.silent (hblocks x hx)
  refine ⟨fun text htext => (hsilent _ htext).not_error text rfl, fun name hname => ?_⟩
  obtain ⟨x, hx, hname⟩ := Expr.mem_listParts.1 hname
  rcases List.mem_append.1 hx with hx | hx
  · obtain ⟨st, hst, hx⟩ := List.mem_flatMap.1 hx
    exact (hsilent st hst).defined x hx name hname
  · rw [List.mem_singleton.1 hx] at hname
    exact hresult.defined hroot name hname

/-! ## Solvable queries -/

/-- A query is solvable if its tree is drawn, and whatever the variables of a drawn part depend on occurs in the part. -/
theorem Derivation.solvable_of_drawn {q : Query} (D : Derivation q) (options : Options) (hdrawn : D.root.Drawn)
    (hdependent : Node.Dependent D.dependencies D.root) : D.Solvable options where
  generated v hv := by
    obtain ⟨g, hg, hvar⟩ := hdrawn.exists_generator_closed hv D.naming.table (options.output.indexOf D.root)
    exact ⟨g, Node.mem_generatorsIn.1 hg, hvar⟩
  ordered := by
    have horder := hdrawn.ordered_closed hdependent D.naming.table (options.output.indexOf D.root)
    exact ⟨_, horder, fun g => Node.mem_generatorsIn.symm⟩

/-- Nothing is reported on a solvable query. -/
theorem Compiles.diagnostics_eq_nil_of_solvable {q : Query} {options : Options} {c : Compiled} {D : Derivation q}
    (hD : Compiles q options c D) (h : D.Solvable options) : c.diagnostics = [] := by
  obtain ⟨entries, hbuilt, -, -, -, -, hperm⟩ := hD.history
  have hblocks : entries.flatMap (Program.Entry.reports (D.setting options)) = [] := by
    rw [List.flatMap_eq_nil_iff]
    intro x hx
    obtain ⟨hmem, hg, -⟩ := hbuilt.forall_mem hx
    exact h.blockReports_eq_nil hmem hg x.slot
  have hroot : Program.exprReports (D.setting options) ∅ (D.tree options.output) = [] :=
    D.measured.exprReports_closed (D.mind_subset options.output) (Node.self_mem_postorder _)
      (D.free_tree options)
  rwa [hblocks, hroot, List.append_nil, List.perm_nil] at hperm

/-! ## Queries without names of variables -/

namespace Derivation

variable {q : Query} (D : Derivation q) (options : Options) (hnames : D.term.names = [])

include hnames

theorem drawn : D.root.Drawn := D.reads.drawn hnames

/-- In a query that names no variable, whatever the variables of a drawn part depend on occurs in the part. -/
theorem dependent : Node.Dependent D.dependencies D.root := fun _ hm hd _ hv => D.reads.of_subset_vars hnames hm hd hv

/-- A query that names no variable is solvable. -/
theorem solvable : D.Solvable options := D.solvable_of_drawn options (D.drawn hnames) (D.dependent hnames)

end Derivation

/-- Nothing is reported on a query that names no variable. -/
theorem Compiles.diagnostics_eq_nil {q : Query} {options : Options} {c : Compiled} {D : Derivation q}
    (hD : Compiles q options c D) (hnames : D.term.names = []) : c.diagnostics = [] :=
  hD.diagnostics_eq_nil_of_solvable (D.solvable options hnames)

/-- Queries that name no variable are always planned. If no identifier of a query begins with a star, other than the star
itself, then whatever is compiled from it comes without a report, and its program holds no error and no undefined variable. -/
theorem anonymous_queries_schedule (q : Query) (options : Options) (c : Compiled)
    (hanonymous : ∀ name ∈ q.identifiers, name.toList.head? = some '*' → name = "*") (hc : compile q options = .ok c) :
    c.diagnostics = [] ∧ (∀ text, ¬ .error text ∈ Stmt.listNested c.program.body) ∧
      ∀ name, ¬ .undefined name ∈ c.program.exprs := by
  obtain ⟨D, hD⟩ := compiles_of_ok hc
  have hnames : D.term.names = [] := by
    refine List.eq_nil_iff_forall_not_mem.2 fun name hname => ?_
    obtain ⟨hident, hstar, hne⟩ := isVariable_of_ofQuery D.resolved name hname
    exact hne (hanonymous name hident hstar)
  have hsilent := hD.diagnostics_eq_nil hnames
  exact ⟨hsilent, hD.silent hsilent⟩

/-- The totals by key have the anonymous star only, so nothing is reported on them. -/
theorem anonymous_queries_schedule_totalsByKey :
    (∀ name ∈ totalsByKey.identifiers, name.toList.head? = some '*' → name = "*") ∧
      ∃ c, compile totalsByKey = .ok c ∧ c.diagnostics = [] ∧
        (∀ text, ¬ .error text ∈ Stmt.listNested c.program.body) ∧ ∀ name, ¬ .undefined name ∈ c.program.exprs := by
  have hanonymous : ∀ name ∈ totalsByKey.identifiers, name.toList.head? = some '*' → name = "*" := by decide
  obtain ⟨c, hc, -⟩ := compile_totalsByKey
  exact ⟨hanonymous, c, hc, anonymous_queries_schedule totalsByKey {} c hanonymous hc⟩

end StarQuery
